import Haulage.Item.Run
import Haulage.Proofs.Copies

/-!
# What a transfer leaves of its source

The checks before a transfer compare the path of the source with that of the
destination as they are written; the staged copy, links and `..` are not looked
at. So a transfer spares its source if that lies apart from the output, which is
what `Tree.Apart` says: the source is there, in full, in the tree without what
stands at the output.

`Item.intact_after` says that the run of an item, whatever it hears, and giving
up or finishing it afterwards leave such a source as it was. If the item is then
done, `Item.arrived_after` says that all directories and files of the source
stand at the destination, also after the source of a move was removed. Links are
not copied, so a move destroys them.

Moves that do not meet the assumptions may lose everything:
`nothing_left_after_selfMove`, `nothing_left_after_inwardMove` and
`nothing_left_after_divertedMove`.
-/

namespace Haulage

open Disk (Location Node Path Tree)

namespace Disk.Tree

/-- The source of a transfer to `d` lies apart from its output: all of it is there in `v`, which
is `u` without what stands at the output. Its path names the entry `e` and leads to `s`. -/
structure Apart (u v : Tree) (d source : Path) (e s : Location) : Prop where
  keeps : v.Keeps u
  bare {l : Location} (h : u.Output d l) : v.lookup l = none
  entry_eq : v.resolve .entry source = .ok e
  reach_eq : v.resolve .reach source = .ok s
  stands : v.lookup e ≠ none
  whole {rel : Location} {x : Entry} (h : u.lookup (s ++ rel) = some x) :
    v.lookup (s ++ rel) = some x

/-- The source is in `t` as it was in `u`, but for what was added at the output of the transfer
to `d`. -/
structure Intact (u t : Tree) (d source : Path) (e s : Location) : Prop where
  entry_eq : t.resolve .entry source = .ok e
  reach_eq : t.resolve .reach source = .ok s
  node_eq : t.node? e = u.node? e
  below (rel : Location) : t.node? (s ++ rel) = u.node? (s ++ rel) ∨
    u.node? (s ++ rel) = none ∧ u.Output d (s ++ rel)
  /-- The times are the same, but for directories in which output stands. -/
  modified_eq {rel : Location} (h : u.lookup (s ++ rel) ≠ none)
    (hout : ∀ n, ¬u.Output d (s ++ rel ++ [n])) :
    t.modifiedAt? (s ++ rel) = u.modifiedAt? (s ++ rel)

namespace Apart

variable {u v t : Tree} {d source : Path} {e s : Location}

/-- While nothing stands at the output, every source that is there is apart from it. -/
theorem of_bare (hbare : ∀ {l}, u.Output d l → u.lookup l = none)
    (he : u.resolve .entry source = .ok e) (hs : u.resolve .reach source = .ok s)
    (hstands : u.lookup e ≠ none) : u.Apart u d source e s :=
  ⟨.refl u, hbare, he, hs, hstands, fun h => h⟩

theorem not_output (h : Apart u v d source e s) {l : Location} (hl : v.lookup l ≠ none) :
    ¬u.Output d l := fun hout => hl (h.bare hout)

theorem sourced (h : Apart u v d source e s) (hu : u.Sound) : Sourced u d source s :=
  ⟨hu, resolve_mono h.reach_eq h.keeps, fun hx => h.not_output (by simp [h.whole hx])⟩

/-- What the source needs stays when the tree is altered at the output only. -/
theorem keeps_of_alters (h : Apart u v d source e s) (ha : u.Alters (u.Output d) t) :
    v.Keeps t := by
  refine ⟨ha.home_eq.trans h.keeps.home_eq, fun {l x} hl => ?_⟩
  rw [ha.lookup_eq (h.not_output (by simp [hl]))]
  exact h.keeps.lookup_eq hl

theorem intact (h : Apart u v d source e s) (ha : u.Alters (u.Output d) t) :
    Intact u t d source e s where
  entry_eq := resolve_mono h.entry_eq (h.keeps_of_alters ha)
  reach_eq := resolve_mono h.reach_eq (h.keeps_of_alters ha)
  node_eq := ha.node?_eq (h.not_output h.stands)
  below rel := by
    by_cases hout : u.Output d (s ++ rel)
    · refine .inr ⟨node?_eq_none.mpr ?_, hout⟩
      by_contra hne
      obtain ⟨x, hx⟩ := Option.ne_none_iff_exists'.mp hne
      exact h.not_output (by simp [h.whole hx]) hout
    · exact .inl (ha.node?_eq hout)
  modified_eq {rel} hthere hout := by
    obtain ⟨x, hx⟩ := Option.ne_none_iff_exists'.mp hthere
    exact ha.modifiedAt?_eq (h.not_output (by simp [h.whole hx])) hout

end Apart

/-! ### Trees that are written out -/

section Entries

variable {u v t : Tree} {l : Location}

theorem keeps_of_entries (hv : v.Sound) (hhome : u.home = v.home)
    (h : ∀ x ∈ v.entriesBelow [], u.lookup x.1 = some x.2) : v.Keeps u := by
  refine ⟨hhome, fun {r x} hr => ?_⟩
  by_cases hnil : r = []
  · subst hnil
    exact hr
  · exact h (r, x) ((mem_entriesBelow hv.distinct).mpr ⟨hnil, hr⟩)

/-- What stands in one tree at `l` and below stands in another one too. -/
theorem whole_of_entries (hu : u.Sound) (hroot : v.lookup l = u.lookup l)
    (h : ∀ x ∈ u.entriesBelow l, v.lookup (l ++ x.1) = some x.2) {rel : Location} {x : Entry}
    (hx : u.lookup (l ++ rel) = some x) : v.lookup (l ++ rel) = some x := by
  by_cases hrel : rel = []
  · subst hrel
    rw [List.append_nil] at hx ⊢
    rw [hroot, hx]
  · exact h (rel, x) ((mem_entriesBelow hu.distinct).mpr ⟨hrel, hx⟩)

theorem plain_of_entries (ht : t.Sound) (hl : l ≠ [])
    (h : ∀ x ∈ t.entriesBelow [], l <+: x.1 → (∀ target, x.2 ≠ .link target) ∧
      ∀ y ∈ t.entriesBelow [], y.2 = x.2 → x.2 ≠ .directory → y.1 = x.1) : t.Plain l := by
  have hmem : ∀ {r x}, r ≠ [] → t.lookup r = some x → (r, x) ∈ t.entriesBelow [] :=
    fun hr hx => (mem_entriesBelow ht.distinct).mpr ⟨hr, hx⟩
  have hne : ∀ {r}, l <+: r → r ≠ [] := by
    rintro r hr rfl
    exact hl (List.prefix_nil.mp hr)
  refine ⟨fun hr target hlook => ?_, fun {r r' id} hr hfile hfile' => ?_⟩
  · exact (h _ (hmem (hne hr) hlook) hr).1 target rfl
  · have hr' : r' ≠ [] := by
      rintro rfl
      simp at hfile'
    exact (h _ (hmem (hne hr) hfile) hr).2 _ (hmem hr' hfile') rfl (by simp)

/-- The listing of a directory whose entries stand in order. -/
theorem listing_of_sorted {p : Path} {x : Node} (hthere : t.linkStatus p = .ok x)
    (hreach : t.resolve .reach p = .ok l) (hdir : t.lookup l = some .directory)
    (hshort : listsTooFar p (t.entriesBelow l) = false)
    (hsorted : (t.entriesBelow l).Pairwise fun a b => listedBefore a b = true) :
    t.listing p = .ok (t.entriesBelow l) := by
  unfold listing
  simp [hthere, hreach, hdir, hshort, List.mergeSort_of_pairwise hsorted]

end Entries

end Disk.Tree

/-- The beginning of a copy of a directory whose listing is known. -/
theorem Session.start_directory {t : Tree} {source d : Path}
    {entries : List (Location × Disk.Entry)} (hlist : t.listing source = .ok entries)
    (hparents : (t.makeParents d).1 = .ok ())
    (hmade : ((t.makeParents d).2.makeDirectories (staged d)).1 = .ok ()) :
    start t (.directory source) d =
      (.ok (.directory source (entries.filterMap pendingOf) none d),
        ((t.makeParents d).2.makeDirectories (staged d)).2) := by
  change openDirectory t source d = _
  unfold openDirectory
  rw [hlist]
  generalize t.makeParents d = parents at hparents hmade
  obtain ⟨_, t₁⟩ := parents
  simp only at hparents hmade ⊢
  subst hparents
  simp only
  generalize t₁.makeDirectories (staged d) = made at hmade
  obtain ⟨_, t₂⟩ := made
  simp only at hmade ⊢
  rw [hmade]

/-! ## Attempts over leftovers -/

/-- A copy of `p` to `d` can be tried on the ground `u`, whatever plain leftover stands at the
place of the staged copy. -/
structure Triable (u : Tree) (d : Path) (init : List String) (n : String) (p : Payload)
    (source : Path) (s : Location) : Prop where
  sourced : u.Sourced d source s
  plain : u.PlainAt (staged d)
  parents : u.HasParents d
  segments_eq : d.segments = init ++ [n]
  source_eq : p.source? = some source
  offers : Session.Offers u u p

theorem Triable.endsIn {u : Tree} {d source : Path} {init : List String} {n : String}
    {p : Payload} {s : Location} (h : Triable u d init n p source s) :
    (staged d).EndsIn init (n ++ ".mlc.partial") := Path.endsIn_staged h.segments_eq

/-- How an item stands when an attempt at it is over, with the tree `t` as it is. -/
inductive Item.Ends (u : Tree) (d : Path) (m : String) (s : Location) (p : Payload) (t : Tree)
    (i : Item) : Prop
  /-- No copy was opened. -/
  | unopened (payload : i.payload = p) (session : i.session = none)
      (alters : u.Alters (u.Output d) t) (undone : i.state ≠ .done)
  /-- A copy is open, and it is complete if the item is done. -/
  | opened {dir : Location} {x : Session} (payload : i.payload = p) (session : i.session = some x)
      (destination : x.destination = d) (pitched : u.Pitched d m dir t)
      (done : i.state = .done → Session.Builds u d m dir s t p x ∧ x.Exhausted u)

/-- How an attempt stands, with the tree `t` as it is. -/
inductive Attempt.Tends (u : Tree) (d : Path) (m : String) (s : Location) (p : Payload) (t : Tree)
    (a : Attempt) : Prop
  /-- No copy has been opened. -/
  | unopened (going : a.stage ≠ .ended) (payload : a.item.payload = p)
      (session : a.item.session = none) (destination : a.item.destination = some d)
      (ground : t = u)
  /-- A copy is open. -/
  | opened {dir : Location} {x : Session} (going : a.stage ≠ .ended) (payload : a.item.payload = p)
      (session : a.item.session = some x) (builds : Session.Builds u d m dir s t p x)
  | stopped (stage : a.stage = .ended) (ends : a.item.Ends u d m s p t)

namespace Attempt

/-! ### The course of a run -/

section TransactionRun

variable {cues : List Cue} {t : Tree} {polls : Nat} {a : Attempt}

theorem runFrom_ended (h : a.stage = .ended) : a.runFrom cues t polls = ⟨a.item, t, polls⟩ := by
  rw [runFrom.eq_def]
  split <;> simp_all

theorem runFrom_quiet (h : a.stage = .listening) :
    a.runFrom [] t polls = runFrom [] t (polls + 1) { a with stage := .moving } := by
  rw [runFrom.eq_def]
  split <;> simp_all

theorem runFrom_cue {cue : Cue} (h : a.stage = .listening) :
    a.runFrom (cue :: cues) t polls =
      (a.hear cue.signal).runFrom cues (t.edits cue.edits) (polls + 1) := by
  rw [runFrom.eq_def]
  split <;> simp_all

theorem runFrom_moving (h : a.stage = .moving) :
    a.runFrom cues t polls = (a.move t).1.runFrom cues (a.move t).2 polls := by
  rw [runFrom.eq_def]
  split <;> simp_all

/-- The attempt after some turns, if nothing is waiting for it. -/
def undisturbed : Nat → Tree → Attempt → Attempt × Tree
  | 0, t, a => (a, t)
  | k + 1, t, a => match a.stage with
    | .ended => (a, t)
    | .listening => undisturbed k t { a with stage := .moving }
    | .moving => undisturbed k (a.move t).2 (a.move t).1

theorem runFrom_undisturbed {k : Nat} (h : (a.undisturbed k t).1.stage = .ended) :
    (a.runFrom [] t polls).item = (a.undisturbed k t).1.item ∧
      (a.runFrom [] t polls).tree = (a.undisturbed k t).2 := by
  induction k generalizing a t polls with
  | zero =>
    have hended : a.stage = .ended := h
    rw [runFrom_ended hended]
    exact ⟨rfl, rfl⟩
  | succ k ih =>
    cases hstage : a.stage with
    | ended =>
      rw [runFrom_ended hstage]
      simp [undisturbed, hstage]
    | listening =>
      rw [runFrom_quiet hstage]
      simp only [undisturbed, hstage] at h ⊢
      exact ih h
    | moving =>
      rw [runFrom_moving hstage]
      simp only [undisturbed, hstage] at h ⊢
      exact ih h

/-- The attempt that has just opened a copy. -/
def opened (i : Item) (x : Session) (buffer : BufferSize) : Attempt :=
  ⟨{ i with state := .ongoing, session := some x }, .moving, buffer⟩

end TransactionRun

namespace Tends

variable {u t : Tree} {d source : Path} {m n : String} {init : List String} {s : Location}
  {p : Payload} {a : Attempt}

/-- Hearing a signal changes nothing in the tree. -/
theorem hear (h : a.Tends u d m s p t) (hgo : a.stage ≠ .ended) (x : Signal) :
    (a.hear x).Tends u d m s p t := by
  rcases a.hear_cases x with heq | heq | ⟨state, hstop, heq⟩
  · rw [heq]
    cases h with
    | unopened _ payload session destination ground =>
      exact .unopened (by simp) payload session destination ground
    | opened _ payload session builds => exact .opened (by simp) payload session builds
    | stopped stage _ => exact absurd stage hgo
  · rwa [heq]
  · have hnot := (Item.stopState_spec hstop).2
    rw [heq]
    refine .stopped rfl ?_
    cases h with
    | unopened _ payload session destination ground =>
      subst ground
      exact .unopened payload session (.refl _ _) hnot
    | opened _ payload session builds =>
      exact .opened payload session builds.destination_eq builds.pitched
        fun hdone => absurd hdone hnot
    | stopped stage _ => exact absurd stage hgo

/-- A move opens the copy, or goes on with it. -/
theorem move (h : a.Tends u d (n ++ ".mlc.partial") s p t) (ht : Triable u d init n p source s)
    (hgo : a.stage ≠ .ended) :
    (a.move t).1.Tends u d (n ++ ".mlc.partial") s p (a.move t).2 := by
  cases h with
  | unopened _ payload session destination ground =>
    subst ground
    have hbegun := Session.start_begun ht.sourced ht.plain ht.parents ht.segments_eq ht.source_eq
      ht.offers
    unfold Attempt.move openSession
    rw [session, destination, payload]
    simp only
    generalize Session.start t p d = r at hbegun
    cases hbegun with
    | @failed f _ halters =>
      obtain ⟨hsession, hpayload, -, hnot⟩ := a.item.failWith_spec f
      exact .stopped rfl (.unopened (hpayload.trans payload) (hsession.trans session) halters hnot)
    | begun hbuilds => exact .opened hgo payload rfl hbuilds
  | @opened dir x _ payload session builds =>
    have hadvanced := Session.copyChunk_advanced a.buffer.2 ht.sourced ht.endsIn ht.source_eq builds
    unfold Attempt.move moveChunk
    rw [session]
    simp only
    generalize x.copyChunk a.buffer t = r at hadvanced
    obtain ⟨r, x', t'⟩ := r
    cases r with
    | error f =>
      obtain ⟨hsession, hpayload, -, hnot⟩ :=
        Item.failWith_spec f { a.item with session := some x' }
      exact .stopped rfl (.opened (hpayload.trans payload) hsession hadvanced.destination_eq
        hadvanced.pitched fun hdone => absurd hdone hnot)
    | ok c =>
      cases c with
      | complete =>
        exact .stopped rfl (.opened payload rfl hadvanced.destination_eq hadvanced.pitched
          fun _ => ⟨hadvanced.builds rfl, hadvanced.exhausted rfl⟩)
      | copied k => exact .opened (by simp) payload rfl (hadvanced.builds rfl)
  | stopped stage _ => exact absurd stage hgo

/-- Whatever an attempt hears, it comes to such an end if nobody else changes the tree. -/
theorem runFrom (ht : Triable u d init n p source s) {cues : List Cue}
    (hcues : ∀ c ∈ cues, c.edits = []) {polls : Nat}
    (h : a.Tends u d (n ++ ".mlc.partial") s p t) :
    (a.runFrom cues t polls).item.Ends u d (n ++ ".mlc.partial") s p
      (a.runFrom cues t polls).tree := by
  induction cues, t, polls, a using Attempt.runFrom.induct with
  | case1 cues t polls a hended =>
    rw [runFrom_ended hended]
    cases h with
    | stopped _ ends => exact ends
    | unopened going _ _ _ _ => exact absurd hended going
    | opened going _ _ _ => exact absurd hended going
  | case2 t polls a hlistening ih =>
    rw [runFrom_quiet hlistening]
    have hgo : a.stage ≠ .ended := by simp [hlistening]
    exact ih hcues (h.hear hgo .none)
  | case3 t polls a hlistening cue cues ih =>
    rw [runFrom_cue hlistening]
    have hsame : t.edits cue.edits = t := by rw [hcues cue List.mem_cons_self]; rfl
    rw [hsame] at ih ⊢
    exact ih (fun c hc => hcues c (List.mem_cons_of_mem _ hc)) (h.hear (by simp [hlistening]) _)
  | case4 cues t polls a hmoving ih =>
    rw [runFrom_moving hmoving]
    exact ih hcues (h.move ht (by simp [hmoving]))

end Tends

end Attempt

/-! ## Closing -/

namespace Item

variable {u v t : Tree} {d source : Path} {m n : String} {init : List String} {e s : Location}
  {p : Payload} {i : Item}

/-- The run of an item that nobody disturbs, from the opening of its copy on. -/
theorem run_opened (k : Nat) {buffer : Nat} {x : Session} {t' : Tree} (hbuffer : 0 < buffer)
    (hsession : i.session = none) (hdest : i.destination = some d)
    (hstart : Session.start t i.payload d = (.ok x, t'))
    (hended : ((Attempt.opened i x ⟨buffer, hbuffer⟩).undisturbed k t').1.stage = .ended) :
    (i.run [] buffer t).item = ((Attempt.opened i x ⟨buffer, hbuffer⟩).undisturbed k t').1.item ∧
      (i.run [] buffer t).tree = ((Attempt.opened i x ⟨buffer, hbuffer⟩).undisturbed k t').2 := by
  have hmove : ({ Attempt.start i ⟨buffer, hbuffer⟩ with stage := .moving } : Attempt).move t =
      (Attempt.opened i x ⟨buffer, hbuffer⟩, t') := by
    simp [Attempt.move, Attempt.openSession, Attempt.start, Attempt.opened, hsession, hdest, hstart]
  rw [run, dif_pos hbuffer, Attempt.runFrom_quiet rfl, Attempt.runFrom_moving rfl, hmove]
  exact Attempt.runFrom_undisturbed hended

/-- The run of an item that has no copy open comes to its end so. -/
theorem run_ends (ht : Triable u d init n i.payload source s) (hsession : i.session = none)
    (hdest : i.destination = some d) {cues : List Cue} (hcues : ∀ c ∈ cues, c.edits = [])
    (buffer : Nat) :
    (i.run cues buffer u).item.Ends u d (n ++ ".mlc.partial") s i.payload
      (i.run cues buffer u).tree := by
  unfold run
  split
  · refine Attempt.Tends.runFrom ht hcues ?_
    exact .unopened (by simp [Attempt.start]) rfl hsession hdest rfl
  · exact .unopened rfl hsession (.refl _ u) (by simp)

/-- Giving up what an attempt left alters the output only. -/
theorem Ends.dropSession (h : i.Ends u d m s p t) (hend : (staged d).EndsIn init m) :
    u.Alters (u.Output d) (i.dropSession t).2 := by
  unfold Item.dropSession
  cases h with
  | unopened _ session alters _ => rwa [session]
  | opened _ session destination pitched _ =>
    rw [session]
    exact Session.abandon_alters pitched hend destination

/-- Finishing an item alters the output only. If the item is done then, all directories and files
of the source stand at the destination. -/
theorem Ends.finish (h : i.Ends u d m s p t) (hs : u.Sourced d source s)
    (hend : (staged d).EndsIn init m) :
    u.Alters (u.Output d) (i.finish t).2 ∧ (i.finish t).1.payload = p ∧
      ((i.finish t).1.state = .done → ∃ dir n, u.Seats d dir n ∧
        ∀ rel, u.Replica (i.finish t).2 s (dir ++ [n]) rel) := by
  unfold Item.finish
  cases h with
  | unopened payload session alters undone =>
    rw [session]
    exact ⟨alters, payload, fun hdone => absurd hdone undone⟩
  | @opened dir x payload session destination pitched done =>
    rw [session]
    simp only
    by_cases hdone : i.state = .done
    · obtain ⟨hbuilds, hexhausted⟩ := done hdone
      obtain ⟨halters, hthere⟩ := hbuilds.commit hs hend hexhausted
      rw [if_pos hdone]
      generalize x.commit t = r at halters hthere
      obtain ⟨r, t'⟩ := r
      cases r with
      | ok _ => exact ⟨halters, payload, fun _ => ⟨dir, hthere rfl⟩⟩
      | error f => exact ⟨halters, payload, fun h => by simp at h⟩
    · rw [if_neg hdone]
      exact ⟨Session.abandon_alters pitched hend destination, payload,
        fun h => absurd h hdone⟩

/-- Completing a move alters nothing but the entry of the source and what is below. -/
theorem alters_completeMove (hp : i.payload.source? = some source)
    (he : t.resolve .entry source = .ok e) : t.Alters (e <+: ·) (i.completeMove t).2 := by
  unfold completeMove
  split
  · exact .refl _ t
  split
  · exact .refl _ t
  · rename_i source' hpayload
    rw [hpayload] at hp
    obtain rfl := Option.some.inj hp
    split
    · rename_i t' hremove
      obtain ⟨e', he', halters⟩ := Tree.alters_removeFile hremove
      rwa [← Except.ok.inj (he'.symm.trans he)]
    · exact .refl _ t
  · rename_i source' hpayload
    rw [hpayload] at hp
    obtain rfl := Option.some.inj hp
    have halters := Tree.alters_removeTree he
    split <;> simp_all

/-- An item that passes its checks can be tried. -/
theorem triable_of_checks (hu : u.Sound) (ha : u.Apart v d source e s)
    (hp : i.payload.source? = some source) (hdest : i.destination = some d)
    (hsource : i.checkSource u = .ok ()) (hcheck : i.checkDestination u = .ok ())
    (hplain : u.PlainAt (staged d)) :
    ∃ init n, Triable u d init n i.payload source s := by
  obtain ⟨init, n, hseg⟩ := Path.exists_last_segment d
  exact ⟨init, n, ha.sourced hu, hplain, (Tree.hasParents_of_checkDestination hdest hcheck).2, hseg,
    hp, offers_of_checkSource hsource⟩

/-! ### A directory of logs -/

/-- A directory with a file and an empty directory. -/
def logsGround : Tree :=
  (((Tree.blank.insert [Tree.homeName, "logs"] .directory).addFile
    [Tree.homeName, "logs", "a"]).2.writeAt 0 0 "first".toUTF8).insert
    [Tree.homeName, "logs", "empty"] .directory

/-- The same with what was left of an earlier attempt. -/
def logsTree : Tree :=
  ((logsGround.insert [Tree.homeName, "out.mlc.partial"] .directory).addFile
    [Tree.homeName, "out.mlc.partial", "stale"]).2

/-- The directory is to be copied. -/
def logsItem : Item := fresh (.directory ⟨"logs"⟩) (.inl ⟨"out"⟩)

theorem sound_logs : logsTree.Sound := Tree.sound_of_orderly (by decide +kernel)

theorem output_logs {l : Location} : logsTree.Output ⟨"out"⟩ l ↔
    [Tree.homeName, "out.mlc.partial"] <+: l ∨ [Tree.homeName, "out"] <+: l := by
  have hseat : logsTree.Seats (staged ⟨"out"⟩) [Tree.homeName] ("out" ++ ".mlc.partial") :=
    ⟨by decide +kernel, by decide +kernel, by decide, by decide +kernel⟩
  have hname : Path.EndsIn ⟨"out"⟩ [] "out" := ⟨by decide +kernel, by decide +kernel⟩
  have hstage : stageAt [Tree.homeName] "out" = [Tree.homeName, "out.mlc.partial"] := by
    decide +kernel
  rw [hseat.output_iff hname, hstage, List.singleton_append]

theorem apart_logs : logsTree.Apart logsGround ⟨"out"⟩ ⟨"logs"⟩ [Tree.homeName, "logs"]
    [Tree.homeName, "logs"] where
  keeps := Tree.keeps_of_entries (Tree.sound_of_orderly (by decide +kernel)) (by decide +kernel)
    (by decide +kernel)
  bare {l} hl := by
    have hground : logsGround.Sound := Tree.sound_of_orderly (by decide +kernel)
    rcases output_logs.mp hl with hl | hl
    · exact hground.bare (by decide +kernel) l hl
    · exact hground.bare (by decide +kernel) l hl
  entry_eq := by decide +kernel
  reach_eq := by decide +kernel
  stands := by decide +kernel
  whole := Tree.whole_of_entries sound_logs (by decide +kernel) (by decide +kernel)

theorem plainAt_logs : logsTree.PlainAt (staged ⟨"out"⟩) := by
  intro dir n hs
  have hholder : logsTree.holder (staged ⟨"out"⟩) = .ok [Tree.homeName] := by decide +kernel
  have hlast : Tree.lastStep (staged ⟨"out"⟩) = .name "out.mlc.partial" := by decide +kernel
  obtain rfl := Except.ok.inj (hholder.symm.trans hs.holder_eq)
  obtain rfl := Tree.LastStep.name.inj (hlast.symm.trans hs.lastStep_eq)
  refine Tree.plain_of_entries sound_logs (by simp) ?_
  have hcheck : ∀ x ∈ logsTree.entriesBelow [],
      [Tree.homeName, "out.mlc.partial"] <+: x.1 → (x.2 = .directory ∨ x.2 = .file 1) ∧
        ∀ y ∈ logsTree.entriesBelow [], y.2 = x.2 → x.2 ≠ .directory → y.1 = x.1 := by
    decide +kernel
  refine fun x hx hpre => ⟨fun target hlink => ?_, (hcheck x hx hpre).2⟩
  rcases (hcheck x hx hpre).1 with h | h <;> simp [h] at hlink

/-- The copy of the logs as it is opened. -/
theorem start_logs : Session.start logsTree (.directory ⟨"logs"⟩) ⟨"out"⟩ =
    (.ok (.directory ⟨"logs"⟩ [⟨["a"], false⟩, ⟨["empty"], true⟩] none ⟨"out"⟩),
      ((logsTree.makeParents ⟨"out"⟩).2.makeDirectories (staged ⟨"out"⟩)).2) := by
  have hlist : logsTree.listing ⟨"logs"⟩ =
      .ok (logsTree.entriesBelow [Tree.homeName, "logs"]) :=
    Tree.listing_of_sorted (x := .directory) (by decide +kernel) (by decide +kernel)
      (by decide +kernel) (by decide +kernel) (by decide +kernel)
  have hentries : (logsTree.entriesBelow [Tree.homeName, "logs"]).filterMap Session.pendingOf =
      [⟨["a"], false⟩, ⟨["empty"], true⟩] := by decide +kernel
  rw [Session.start_directory hlist (by decide +kernel) (by decide +kernel), hentries]

/-! ### What becomes of the source -/

/-- A copy does not damage a source that lies apart from its output: when an item whose checks
succeed was run, with whatever signals, and is then finished or given up, the source is as it
was. -/
theorem intact_after (hu : u.Sound) (ha : u.Apart v d source e s) (hplain : u.PlainAt (staged d))
    (hsession : i.session = none) (hp : i.payload.source? = some source)
    (hdest : i.destination = some d) (hsource : i.checkSource u = .ok ())
    (hcheck : i.checkDestination u = .ok ()) {cues : List Cue}
    (hcues : ∀ c ∈ cues, c.edits = []) (buffer : Nat) :
    let r := i.run cues buffer u
    u.Intact (r.item.finish r.tree).2 d source e s ∧
      u.Intact (r.item.dropSession r.tree).2 d source e s := by
  obtain ⟨init, n, ht⟩ := triable_of_checks hu ha hp hdest hsource hcheck hplain
  have hends := run_ends ht hsession hdest hcues buffer
  exact ⟨ha.intact (hends.finish ht.sourced ht.endsIn).1, ha.intact (hends.dropSession ht.endsIn)⟩

/-- The logs are copied over what was left, in chunks of two bytes. -/
def logsRun : RunResult := logsItem.run [] 2 logsTree

theorem intact_after_logsRun :
    logsRun.item.state = .done ∧
      logsTree.Intact (logsRun.item.finish logsRun.tree).2 ⟨"out"⟩ ⟨"logs"⟩
        [Tree.homeName, "logs"] [Tree.homeName, "logs"] ∧
      logsTree.Intact (logsRun.item.dropSession logsRun.tree).2 ⟨"out"⟩ ⟨"logs"⟩
        [Tree.homeName, "logs"] [Tree.homeName, "logs"] := by
  have hrun := run_opened (i := logsItem) 20 Nat.two_pos rfl rfl start_logs (by decide +kernel)
  refine ⟨?_, intact_after sound_logs apart_logs plainAt_logs rfl rfl rfl (by decide +kernel)
    (by decide +kernel) (by simp) 2⟩
  rw [logsRun, hrun.1]
  decide +kernel

/-- A file that stands where the staged copy is to be made. -/
def preciousTree : Tree := Tree.blank.edits [.write ⟨"out.mlc.partial"⟩ "precious".toUTF8]

/-- That file is to be copied. -/
def preciousItem : Item := fresh (.file ⟨"out.mlc.partial"⟩) (.inl ⟨"out"⟩)

/-- The file is copied. -/
def preciousRun : RunResult := preciousItem.run [] 64 preciousTree

/-- The checks let a source pass that stands at the place of the staged copy. It is emptied when
the copy is opened, and is gone when the item is finished, as done, and also when it is given
up. -/
theorem not_intact_at_staged :
    (preciousItem.checkSource preciousTree = .ok () ∧
        preciousItem.checkDestination preciousTree = .ok () ∧
        preciousTree.status ⟨"out.mlc.partial"⟩ = .ok (.file ⟨"precious".toUTF8, none⟩)) ∧
      ((preciousRun.item.finish preciousRun.tree).1.state = .done ∧
        (preciousRun.item.finish preciousRun.tree).2.status ⟨"out.mlc.partial"⟩ =
          .error .noEntry ∧
        (preciousRun.item.finish preciousRun.tree).2.status ⟨"out"⟩ = .ok (.file ⟨.empty, none⟩) ∧
        (preciousRun.item.dropSession preciousRun.tree).2.status ⟨"out.mlc.partial"⟩ =
          .error .noEntry) ∧
      ∀ e s, ¬preciousTree.Intact (preciousRun.item.finish preciousRun.tree).2 ⟨"out"⟩
        ⟨"out.mlc.partial"⟩ e s := by
  have hstart : Session.start preciousTree preciousItem.payload ⟨"out"⟩ =
      (.ok (.file ⟨.file 0, 0, 0, none⟩ ⟨"out"⟩),
        (Session.start preciousTree preciousItem.payload ⟨"out"⟩).2) :=
    Prod.ext (by decide +kernel) rfl
  obtain ⟨hitem, htree⟩ :=
    run_opened (i := preciousItem) 10 (by decide : 0 < 64) rfl rfl hstart (by decide +kernel)
  have hgone : (preciousRun.item.finish preciousRun.tree).2.resolve .reach ⟨"out.mlc.partial"⟩ =
      .error .noEntry := by
    rw [preciousRun, hitem, htree]
    decide +kernel
  refine ⟨by decide +kernel, ?_, fun e s hintact => ?_⟩
  · rw [preciousRun, hitem, htree]
    decide +kernel
  · have hreach := hintact.reach_eq
    rw [hgone] at hreach
    simp at hreach

/-- A move does not lose the directories and files of a source that lies apart from its output,
and in which the destination does not lie: if the item is done, they stand at the destination
also after the source was removed. -/
theorem arrived_after (hu : u.Sound) (ha : u.Apart v d source e s) (hplain : u.PlainAt (staged d))
    (hout : ∀ l, u.Within d l → ¬e <+: l) (hsession : i.session = none)
    (hp : i.payload.source? = some source) (hdest : i.destination = some d)
    (hsource : i.checkSource u = .ok ()) (hcheck : i.checkDestination u = .ok ())
    {cues : List Cue} (hcues : ∀ c ∈ cues, c.edits = []) (buffer : Nat) :
    let r := i.run cues buffer u
    let f := r.item.finish r.tree
    f.1.state = .done → ∃ dir n, u.Seats d dir n ∧
      ∀ rel, u.Replica (f.1.completeMove f.2).2 s (dir ++ [n]) rel := by
  intro r f hdone
  obtain ⟨init, n, ht⟩ := triable_of_checks hu ha hp hdest hsource hcheck hplain
  have hends := run_ends ht hsession hdest hcues buffer
  obtain ⟨halters, hpayload, hthere⟩ := hends.finish ht.sourced ht.endsIn
  obtain ⟨dir, n', hseat, hall⟩ := hthere hdone
  have hentry : f.2.resolve .entry source = .ok e :=
    Tree.resolve_mono ha.entry_eq (ha.keeps_of_alters halters)
  have hremoved : f.2.Alters (e <+: ·) (f.1.completeMove f.2).2 :=
    alters_completeMove (hpayload ▸ hp) hentry
  -- what is removed is nowhere at the destination
  have hoff : ∀ rel, ¬e <+: dir ++ [n'] ++ rel := fun rel =>
    hout _ (hseat.within_iff.mpr (List.prefix_append _ _))
  refine ⟨dir, n', hseat, fun rel => (hall rel).congr (fun x hx => ?_) fun id hid => ?_⟩
  · rwa [hremoved.lookup_eq (hoff rel)]
  · rw [hremoved.data_eq (hoff rel) hid]

/-- The logs are moved over what was left. -/
def logsMove : RunResult := { logsItem with removesSource := true }.run [] 2 logsTree

/-- The item of the move when it is finished, and the tree. -/
def logsMoved : Item × Tree := logsMove.item.finish logsMove.tree

theorem arrived_after_logsMove :
    (logsMoved.1.state = .done ∧ (logsMoved.1.completeMove logsMoved.2).1 = .ok () ∧
        (logsMoved.1.completeMove logsMoved.2).2.status ⟨"logs"⟩ = .error .noEntry) ∧
      ∃ dir n, logsTree.Seats ⟨"out"⟩ dir n ∧ ∀ rel,
        logsTree.Replica (logsMoved.1.completeMove logsMoved.2).2 [Tree.homeName, "logs"]
          (dir ++ [n]) rel := by
  obtain ⟨hitem, htree⟩ := run_opened (i := { logsItem with removesSource := true }) 20
    Nat.two_pos rfl rfl start_logs (by decide +kernel)
  have hmoved : logsMoved.1.state = .done ∧ (logsMoved.1.completeMove logsMoved.2).1 = .ok () ∧
      (logsMoved.1.completeMove logsMoved.2).2.status ⟨"logs"⟩ = .error .noEntry := by
    rw [logsMoved, logsMove, hitem, htree]
    decide +kernel
  have hout : ∀ l, logsTree.Within ⟨"out"⟩ l → ¬[Tree.homeName, "logs"] <+: l := by
    intro l hl hlogs
    have hseat : logsTree.Seats ⟨"out"⟩ [Tree.homeName] "out" :=
      ⟨by decide +kernel, by decide +kernel, by decide, by decide +kernel⟩
    rcases List.prefix_or_prefix_of_prefix (hseat.within_iff.mp hl) hlogs with h | h
    · exact absurd h (by decide)
    · exact absurd h (by decide)
  exact ⟨hmoved, arrived_after sound_logs apart_logs plainAt_logs hout rfl rfl rfl
    (by decide +kernel) (by decide +kernel) (by simp) 2 hmoved.1⟩

/-- A directory with a file and a link to it. -/
def linkedTree : Tree :=
  Tree.blank.edits [.write ⟨"logs/a"⟩ "first".toUTF8, .link ⟨"logs/current"⟩ ⟨"a"⟩]

/-- The directory with the link is moved. -/
def linkedMove : RunResult := { logsItem with removesSource := true }.run [] 64 linkedTree

/-- The item of that move when it is finished, and the tree. -/
def linkedMoved : Item × Tree := linkedMove.item.finish linkedMove.tree

/-- The link is not copied, and is removed with the directory in which it stood. -/
theorem link_lost_after_linkedMove :
    ({ logsItem with removesSource := true }.checkSource linkedTree = .ok () ∧
        { logsItem with removesSource := true }.checkDestination linkedTree = .ok () ∧
        linkedTree.linkStatus ⟨"logs/current"⟩ = .ok (.link ⟨"a"⟩)) ∧
      linkedMoved.1.state = .done ∧ (linkedMoved.1.completeMove linkedMoved.2).1 = .ok () ∧
      (linkedMoved.1.completeMove linkedMoved.2).2.linkStatus ⟨"out/a"⟩ =
        .ok (.file ⟨"first".toUTF8, none⟩) ∧
      (linkedMoved.1.completeMove linkedMoved.2).2.linkStatus ⟨"out/current"⟩ = .error .noEntry ∧
      (linkedMoved.1.completeMove linkedMoved.2).2.linkStatus ⟨"logs"⟩ = .error .noEntry := by
  have hlist : linkedTree.listing ⟨"logs"⟩ =
      .ok (linkedTree.entriesBelow [Tree.homeName, "logs"]) :=
    Tree.listing_of_sorted (x := .directory) (by decide +kernel) (by decide +kernel)
      (by decide +kernel) (by decide +kernel) (by decide +kernel)
  have hentries : (linkedTree.entriesBelow [Tree.homeName, "logs"]).filterMap Session.pendingOf =
      [⟨["a"], false⟩] := by decide +kernel
  have hstart := Session.start_directory (d := ⟨"out"⟩) hlist (by decide +kernel)
    (by decide +kernel)
  rw [hentries] at hstart
  obtain ⟨hitem, htree⟩ := run_opened (i := { logsItem with removesSource := true }) 20
    (by decide : 0 < 64) rfl rfl hstart (by decide +kernel)
  refine ⟨by decide +kernel, ?_⟩
  rw [linkedMoved, linkedMove, hitem, htree]
  decide +kernel

/-! ### Moves whose source does not lie apart

Each of the three assumptions of `Item.arrived_after` keeps out a move that passes all checks, ends
as done, and destroys what it moved. -/

/-- A file of which there is no other copy. -/
def soleTree : Tree := Tree.blank.edits [.write ⟨"a"⟩ "only".toUTF8]

/-- The file is to be moved to its own place, spelled in another way. -/
def selfItem : Item := { fresh (.file ⟨"a"⟩) (.inl ⟨"./a"⟩) with removesSource := true }

/-- The file is moved. -/
def selfMove : RunResult := selfItem.run [] 64 soleTree

/-- The item of that move when it is finished, and the tree. -/
def selfMoved : Item × Tree := selfMove.item.finish selfMove.tree

/-- The copy takes the place of the file, and is removed as the source of the move. Such a source
does not lie apart from the output. -/
theorem nothing_left_after_selfMove :
    (selfItem.checkSource soleTree = .ok () ∧ selfItem.checkDestination soleTree = .ok () ∧
        soleTree.status ⟨"a"⟩ = .ok (.file ⟨"only".toUTF8, none⟩)) ∧
      (selfMoved.1.state = .done ∧ (selfMoved.1.completeMove selfMoved.2).1 = .ok () ∧
        (selfMoved.1.completeMove selfMoved.2).2.status ⟨"./a"⟩ = .error .noEntry) ∧
      ∀ v e s, ¬soleTree.Apart v ⟨"./a"⟩ ⟨"a"⟩ e s := by
  have hstart : Session.start soleTree selfItem.payload ⟨"./a"⟩ =
      (.ok (.file ⟨.file 0, 1, 0, none⟩ ⟨"./a"⟩),
        (Session.start soleTree selfItem.payload ⟨"./a"⟩).2) :=
    Prod.ext (by decide +kernel) rfl
  obtain ⟨hitem, htree⟩ :=
    run_opened (i := selfItem) 10 (by decide : 0 < 64) rfl rfl hstart (by decide +kernel)
  refine ⟨by decide +kernel, ?_, fun v e s hapart => ?_⟩
  · rw [selfMoved, selfMove, hitem, htree]
    decide +kernel
  · have hentry : soleTree.resolve .entry ⟨"a"⟩ = .ok [Tree.homeName, "a"] := by decide +kernel
    obtain rfl := Except.ok.inj
      ((Tree.resolve_mono hapart.entry_eq hapart.keeps).symm.trans hentry)
    have hseat : soleTree.Seats (staged ⟨"./a"⟩) [Tree.homeName] ("a" ++ ".mlc.partial") :=
      ⟨by decide +kernel, by decide +kernel, by decide, by decide +kernel⟩
    have hname : Path.EndsIn ⟨"./a"⟩ ["."] "a" := ⟨by decide +kernel, by decide +kernel⟩
    exact hapart.not_output hapart.stands
      ((hseat.output_iff hname).mpr (.inr (List.prefix_refl _)))

/-- A directory with one file. -/
def firstTree : Tree := Tree.blank.edits [.write ⟨"logs/a"⟩ "first".toUTF8]

/-- The directory is to be moved to a place in itself. -/
def inwardItem : Item :=
  { fresh (.directory ⟨"logs"⟩) (.inl ⟨"./logs/copy"⟩) with removesSource := true }

/-- The directory is moved. -/
def inwardMove : RunResult := inwardItem.run [] 64 firstTree

/-- The item of that move when it is finished, and the tree. -/
def inwardMoved : Item × Tree := inwardMove.item.finish inwardMove.tree

/-- The copy is complete, and is removed together with the source in which it stands. The source
lies apart from the output, but the output does not lie apart from the source. -/
theorem nothing_left_after_inwardMove :
    (inwardItem.checkSource firstTree = .ok () ∧ inwardItem.checkDestination firstTree = .ok () ∧
        firstTree.status ⟨"logs/a"⟩ = .ok (.file ⟨"first".toUTF8, none⟩)) ∧
      (inwardMoved.1.state = .done ∧
        inwardMoved.2.status ⟨"logs/copy/a"⟩ = .ok (.file ⟨"first".toUTF8, none⟩) ∧
        (inwardMoved.1.completeMove inwardMoved.2).1 = .ok () ∧
        (inwardMoved.1.completeMove inwardMoved.2).2.linkStatus ⟨"logs"⟩ = .error .noEntry) ∧
      firstTree.Apart firstTree ⟨"./logs/copy"⟩ ⟨"logs"⟩ [Tree.homeName, "logs"]
        [Tree.homeName, "logs"] ∧
      ∃ l, firstTree.Within ⟨"./logs/copy"⟩ l ∧ [Tree.homeName, "logs"] <+: l := by
  have hlist : firstTree.listing ⟨"logs"⟩ =
      .ok (firstTree.entriesBelow [Tree.homeName, "logs"]) :=
    Tree.listing_of_sorted (x := .directory) (by decide +kernel) (by decide +kernel)
      (by decide +kernel) (by decide +kernel) (by decide +kernel)
  have hentries : (firstTree.entriesBelow [Tree.homeName, "logs"]).filterMap Session.pendingOf =
      [⟨["a"], false⟩] := by decide +kernel
  have hstart := Session.start_directory (d := ⟨"./logs/copy"⟩) hlist (by decide +kernel)
    (by decide +kernel)
  rw [hentries] at hstart
  obtain ⟨hitem, htree⟩ := run_opened (i := inwardItem) 20 (by decide : 0 < 64) rfl rfl hstart
    (by decide +kernel)
  have hseat : firstTree.Seats (staged ⟨"./logs/copy"⟩) [Tree.homeName, "logs"]
      ("copy" ++ ".mlc.partial") :=
    ⟨by decide +kernel, by decide +kernel, by decide, by decide +kernel⟩
  have hname : Path.EndsIn ⟨"./logs/copy"⟩ [".", "logs"] "copy" :=
    ⟨by decide +kernel, by decide +kernel⟩
  have hsound : firstTree.Sound := Tree.sound_of_orderly (by decide +kernel)
  refine ⟨by decide +kernel, ?_, .of_bare (fun {l} hl => ?_) (by decide +kernel)
    (by decide +kernel) (by decide +kernel), ?_⟩
  · rw [inwardMoved, inwardMove, hitem, htree]
    decide +kernel
  · rcases (hseat.output_iff hname).mp hl with hl | hl
    · exact hsound.bare (by decide +kernel) l hl
    · exact hsound.bare (by decide +kernel) l hl
  · exact ⟨_, (hseat.destination hname).within_iff.mpr (List.prefix_refl _), by decide⟩

/-- A file, and a link to it that was left where a staged copy is to be made. -/
def divertedTree : Tree :=
  Tree.blank.edits [.write ⟨"a"⟩ "only".toUTF8, .link ⟨"out.mlc.partial"⟩ ⟨"a"⟩]

/-- The file is to be moved. -/
def divertedItem : Item := { fresh (.file ⟨"a"⟩) (.inl ⟨"out"⟩) with removesSource := true }

/-- The file is moved. -/
def divertedMove : RunResult := divertedItem.run [] 64 divertedTree

/-- The item of that move when it is finished, and the tree. -/
def divertedMoved : Item × Tree := divertedMove.item.finish divertedMove.tree

/-- The staged copy is made in the file to which the link leads, which is the source: it is emptied,
and then removed. What was left at the place of the staged copy is not plain. -/
theorem nothing_left_after_divertedMove :
    (divertedItem.checkSource divertedTree = .ok () ∧
        divertedItem.checkDestination divertedTree = .ok () ∧
        divertedTree.status ⟨"a"⟩ = .ok (.file ⟨"only".toUTF8, none⟩)) ∧
      (divertedMoved.1.state = .done ∧
        divertedMoved.2.status ⟨"a"⟩ = .ok (.file ⟨.empty, none⟩) ∧
        (divertedMoved.1.completeMove divertedMoved.2).1 = .ok () ∧
        (divertedMoved.1.completeMove divertedMoved.2).2.linkStatus ⟨"out"⟩ =
          .ok (.link ⟨"a"⟩) ∧
        (divertedMoved.1.completeMove divertedMoved.2).2.status ⟨"out"⟩ = .error .noEntry) ∧
      ¬divertedTree.PlainAt (staged ⟨"out"⟩) := by
  have hstart : Session.start divertedTree divertedItem.payload ⟨"out"⟩ =
      (.ok (.file ⟨.file 0, 0, 0, none⟩ ⟨"out"⟩),
        (Session.start divertedTree divertedItem.payload ⟨"out"⟩).2) :=
    Prod.ext (by decide +kernel) rfl
  obtain ⟨hitem, htree⟩ :=
    run_opened (i := divertedItem) 10 (by decide : 0 < 64) rfl rfl hstart (by decide +kernel)
  refine ⟨by decide +kernel, ?_, fun hplain => ?_⟩
  · rw [divertedMoved, divertedMove, hitem, htree]
    decide +kernel
  · have hseat : divertedTree.Seats (staged ⟨"out"⟩) [Tree.homeName] "out.mlc.partial" :=
      ⟨by decide +kernel, by decide +kernel, by decide, by decide +kernel⟩
    have hlink : divertedTree.lookup [Tree.homeName, "out.mlc.partial"] = some (.link ⟨"a"⟩) := by
      decide +kernel
    exact (hplain _ _ hseat).noLink (List.prefix_refl _) ⟨"a"⟩ hlink

end Item

end Haulage
