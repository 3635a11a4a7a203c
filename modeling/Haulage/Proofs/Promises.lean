import Haulage.Proofs.Buffers
import Haulage.Proofs.Limits
import Haulage.Proofs.Overlays

/-!
# What the checks of an item promise

The checks look at the source, at what stands at the destination, and at the directory around it.
`Item.cleared_after` says what becomes of an item that passes them, if nothing stands at the place
of its staged copy and no signal stops it. It is copied as a whole as long as the limits of paths
are kept; and then it is delivered, unless it is a directory and something stands at the
destination. The checks reject a destination that leads to a directory, but a rename cannot put a
directory in the place of a file or a link either.
-/

namespace Haulage

open Disk

/-! ## Whether a copy can be committed -/

/-- A directory cannot be moved to `d` if something stands there, whatever it is. -/
def Blocked (u : Tree) (d : Path) (p : Payload) : Prop :=
  (∃ source, p = .directory source) ∧ ∃ x, u.linkStatus d = .ok x

namespace Session

variable {P : Location → Prop} {u t : Tree} {d : Path} {init : List String} {n : String}
  {dir : Location} {p : Payload} {x : Session}

/-- Of a directory there is a directory to be copied, and of nothing else. -/
theorem image_root (h : Offers u u p) :
    p.image u [] = some .directory ↔ ∃ source, p = .directory source := by
  cases h with
  | buffer => simp [Payload.image, alone]
  | file hsource hid _ _ _ =>
    simp [Payload.image, Tree.status, hsource, Tree.node?_of_file hid, alone]
  | directory hsource hdir _ _ _ =>
    simp [Payload.image, hsource, Tree.node?_of_directory hdir, withoutLink]

/-- A complete copy stands. -/
theorem Suits.stands {l : Location} (h : Suits u t d l p x) (hend : Exhausted u x) :
    t.lookup l ≠ none := by
  cases h with
  | buffer _ hlook _ => simp [hlook]
  | file _ _ _ hlook _ => simp [hlook]
  | between _ _ _ _ hholds =>
    have hroot := hholds.directory copied_nil
    rw [List.append_nil] at hroot
    simp [hroot]
  | within => simp [Exhausted] at hend

/-- A complete copy of a directory has nothing pending, and all that was on its agenda is within
the limits. -/
theorem Suits.complete {source : Path} {s : Location} {l : Location}
    (h : Suits u t d l (.directory source) x) (hend : Exhausted u x)
    (hsource : u.resolve .reach source = .ok s) :
    (∃ current, x = .directory source [] current d) ∧ ∀ e ∈ agenda u s, Fits d e.names := by
  cases h with
  | @between _ s' made pending hsource' hdir hsplit hfit hholds =>
    obtain ⟨rfl, -⟩ := hend
    obtain rfl : s' = s := Except.ok.inj (hsource'.symm.trans hsource)
    rw [List.append_nil] at hsplit
    exact ⟨⟨none, rfl⟩, hsplit ▸ hfit⟩
  | within => simp [Exhausted] at hend

/-- A complete copy is moved to its destination, unless a directory or something that a directory
cannot replace stands there. -/
theorem commit_ok (hb : Berth P u d init n dir) (hag : u.Agrees P t) (hnum : t.Numbered)
    (hs : Suits u t d (stageAt dir n) p x) (hend : Exhausted u x)
    (hdir : t.lookup (dir ++ [n]) ≠ some .directory)
    (hfree : p.image u [] = some .directory → t.lookup (dir ++ [n]) = none) :
    ∃ t', x.commit t = (.ok (), t') := by
  obtain ⟨hc, hlook, hholds⟩ := timed_holds hb hag hnum hs hend
  have hkeeps := (hag.trans (hc.toAgrees.mono fun _ => hb.covers)).keeps fun _ => hb.bare
  obtain ⟨hapart, hapart'⟩ := stageAt_apart dir n
  have hrename := (hb.seats.mono hkeeps).rename_eq (hb.seats_destination.mono hkeeps)
  obtain ⟨e, he⟩ := Option.ne_none_iff_exists'.mp (hs.stands hend)
  obtain ⟨t', ht'⟩ := Tree.moveEntry_ok ((hlook _).trans he) hapart hapart'
    (by rwa [hlook]) fun hdirectory => by
      rw [hlook]
      refine hfree ?_
      have hroot := hholds.node?_eq []
      rw [List.append_nil, Tree.node?_of_directory ((hlook _).trans (hdirectory ▸ he))] at hroot
      exact hroot.symm
  have hstands : ((x.timed t).lookup (dir ++ [n ++ ".mlc.partial"])).isNone = false := by
    rw [hlook, ← stageAt, he]
    rfl
  rw [hstands, if_neg (by simp), ← stageAt, ht'] at hrename
  exact ⟨t', by simp only [commit, hs.destination_eq, hrename]⟩

end Session

/-! ## Runs -/

/-- A copy of which no chunk fails comes to its end. -/
theorem Session.passage_ok {buffer : BufferSize} {I : Session → Tree → Prop}
    (hok : ∀ {s t}, I s t → ∃ c, (s.copyChunk buffer t).1 = .ok c)
    (hcopied : ∀ {s t k s' t'}, I s t → s.copyChunk buffer t = (.ok (.copied k), s', t') → I s' t')
    {s : Session} {t : Tree} (h : I s t) : (s.passage buffer t).failure = none := by
  fun_induction s.passage buffer t with
  | case1 t s f s' t' hcopy =>
    obtain ⟨c, hc⟩ := hok h
    rw [hcopy] at hc
    cases hc
  | case2 t s s' t' hcopy => rfl
  | case3 t s n s' t' hcopy rest =>
    rename_i ih
    exact ih (hcopied h hcopy)

/-- A passable transfer comes to its end. -/
theorem Transferable.passage_ok {u : Tree} {d : Path} {init : List String} {n : String}
    {p : Payload} (h : Transferable u d init n p) (hpass : Passable u d n p)
    (buffer : BufferSize) : (p.passage buffer u d).failure = none := by
  obtain ⟨x, t, hstart⟩ := Session.start_ok h.clear h.sound h.offers hpass
  have hstarted := h.clear.start_started h.offers
  rw [hstart] at hstarted
  simp only [Payload.passage, hstart]
  cases hstarted with
  | @begun dir _ _ hseat hc hs =>
    have hb : Berth (stageAt dir n <+: ·) u d init n dir :=
      ⟨h.sound, h.clear.endsIn, hseat, fun h => h, fun hl => h.clear.bare hseat _ hl⟩
    refine Session.passage_ok
      (I := fun x t => u.Agrees (stageAt dir n <+: ·) t ∧ t.Numbered ∧
        Session.Suits u t d (stageAt dir n) p x) ?_ ?_
      ⟨hc.toAgrees, hc.numbered h.clear.numbered, hs⟩
    · rintro x t ⟨hag, hnum, hsuits⟩
      exact Session.copyChunk_ok hb hag hnum hpass hsuits buffer
    · rintro x t k x' t' ⟨hag, hnum, hsuits⟩ hcopy
      have hmoved := Session.copyChunk_moved buffer.2 hb hag hnum hsuits
      simp only [hcopy] at hmoved
      exact ⟨hag.trans hmoved.changes.toAgrees, hmoved.changes.numbered hnum, hmoved.suits rfl⟩

/-- An attempt that nobody else disturbs comes to an end. -/
theorem Attempt.Carries.runFrom {L : Lane} (hL : L.Ready) {cues : List Cue}
    (hcues : ∀ c ∈ cues, c.edits = []) {t : Tree} {polls : ℕ} {a : Attempt} (h : a.Carries L t) :
    ∃ a' : Attempt, a'.stage = .ended ∧ a'.item = (a.runFrom cues t polls).item ∧
      a'.Carries L (a.runFrom cues t polls).tree := by
  induction cues, t, polls, a using Attempt.runFrom.induct with
  | case1 cues t polls a hended =>
    rw [runFrom_ended hended]
    exact ⟨a, hended, rfl, h⟩
  | case2 t polls a hlistening ih =>
    rw [runFrom_quiet hlistening]
    exact ih hcues (h.hear (by simp [hlistening]) .none)
  | case3 t polls a hlistening cue cues ih =>
    rw [runFrom_cue hlistening]
    have hsame : t.edits cue.edits = t := by rw [hcues cue List.mem_cons_self]; rfl
    rw [hsame] at ih ⊢
    exact ih (fun c hc => hcues c (List.mem_cons_of_mem _ hc)) (h.hear (by simp [hlistening]) _)
  | case4 cues t polls a hmoving ih =>
    rw [runFrom_moving hmoving]
    exact ih hcues (h.move (by simp [hmoving]) hL).1

namespace Item

variable {u : Tree} {d : Path} {init : List String} {n : String} {i : Item} {cues : List Cue}

/-- What the run of an item is left with, where its transfer can be begun. -/
theorem carries_run (ht : Transferable u d init n i.payload) (hsession : i.session = none)
    (hdest : i.destination = some d) (hcues : ∀ c ∈ cues, c.edits = []) (buffer : ℕ) :
    ∃ a : Attempt, a.stage = .ended ∧ a.item = (i.run cues buffer u).item ∧
      a.Carries (loneLane u d init n i.payload) (i.run cues buffer u).tree := by
  unfold run
  split
  · refine Attempt.Carries.runFrom ht.ready hcues ?_
    exact .unopened rfl hsession rfl (fun _ => hdest) fun h => by cases h
  · rename_i hempty
    exact ⟨⟨{ i with state := .failed }, .ended, ⟨1, Nat.one_pos⟩⟩, rfl, rfl,
      .unopened rfl hsession rfl (fun h => absurd rfl h) fun _ => ⟨rfl, by simp⟩⟩

/-- Whatever signals arrive, the transfer is made as a whole or not at all. -/
theorem published_run (ht : Transferable u d init n i.payload) (hsession : i.session = none)
    (hdest : i.destination = some d) (hcues : ∀ c ∈ cues, c.edits = []) (buffer : ℕ) :
    Published u d i.payload (i.delivered cues buffer u).2 (i.delivered cues buffer u).1 := by
  obtain ⟨a, hended, hitem, hcarries⟩ := carries_run ht hsession hdest hcues buffer
  obtain ⟨hterminal, hclosed, hlane⟩ := hcarries.finish hended
  have hpublished := (ht.published_of_closed hlane hterminal hclosed).2
  rwa [hitem] at hpublished

/-- The state of a run that no signal stops is done just if its copy does not fail. -/
theorem state_run (hsession : i.session = none) (hdest : i.destination = some d)
    (hcues : i.Unstopped cues) (buffer : BufferSize) :
    (i.run cues buffer u).item.state = .done ↔ (i.payload.passage buffer u d).failure = none := by
  have hrun := congrArg (fun x => x.1.state) (run_eq_settled hsession hcues buffer.2 u)
  have hupshot := congrArg Upshot.failure (Payload.upshot_passage buffer u i.payload d)
  simp only [settled, hdest, concluded] at hrun
  rw [hrun, ← hupshot]
  exact (endState_spec (i.payload.passage buffer u d).failure i).2

/-- The copy of a directory that comes to its end has kept the limits at every entry. Its names are
read off the copy; that no path in the source was too long has been kept along the run. -/
theorem agenda_of_done (ht : Transferable u d init n i.payload) (hsession : i.session = none)
    (hdest : i.destination = some d) (hcues : ∀ c ∈ cues, c.edits = []) {buffer : BufferSize}
    (hdone : (i.run cues buffer u).item.state = .done) {x : Session} {t : Tree} {l : Location}
    (hopen : (i.run cues buffer u).item.session = some x)
    (hsuits : Session.Suits u t d l i.payload x) (hexhausted : Session.Exhausted u x)
    {source : Path} {s : Location} (hp : i.payload = .directory source)
    (hsource : u.resolve .reach source = .ok s) :
    ∀ e ∈ Session.agenda u s, Fits d e.names ∧ (source.descend e.names).isTooLong = false := by
  have hdir : u.lookup s = some .directory := by
    have hoffers := ht.offers
    rw [hp] at hoffers
    cases hoffers with
    | directory hsource' hdir _ _ _ => rwa [← Except.ok.inj (hsource'.symm.trans hsource)]
  have hkept {x : Session} {t : Tree} {c : Chunk} {x' : Session} {t' : Tree}
      (h : x.Passed source (Session.agenda u s) ∧
        Tree.listsTooFar source (u.entriesBelow s) = false)
      (hcopy : x.copyChunk buffer t = (.ok c, x', t')) :
      x'.Passed source (Session.agenda u s) ∧
        Tree.listsTooFar source (u.entriesBelow s) = false :=
    ⟨h.1.copyChunk hcopy, h.2⟩
  obtain ⟨x', hopen', hpassed, hshort⟩ := session_of_done hsession hdest hcues hdone
    (I := fun x _ => x.Passed source (Session.agenda u s) ∧
      Tree.listsTooFar source (u.entriesBelow s) = false)
    (E := fun x _ => x.Passed source (Session.agenda u s) ∧
      Tree.listsTooFar source (u.entriesBelow s) = false)
    (fun hstart => Session.passed_of_start hsource hdir (hp ▸ hstart)) hkept hkept
  obtain rfl : x' = x := Option.some.inj (hopen'.symm.trans hopen)
  rw [hp] at hsuits
  obtain ⟨⟨current, rfl⟩, hfits⟩ := hsuits.complete hexhausted hsource
  intro e he
  have hentry := (Session.mem_agenda ht.sound).mp he
  refine ⟨hfits e he, ?_⟩
  rcases hentry.2 with ⟨hkind, hlook⟩ | ⟨hkind, -⟩
  · rw [Tree.listsTooFar, List.any_eq_false] at hshort
    have hmem := (Tree.mem_entriesBelow ht.sound.distinct).mpr ⟨hentry.1, hlook⟩
    simpa using hshort _ hmem
  · exact hpassed.2 e he (by simp) hkind

/-- A copy that comes to its end has kept the limits. -/
theorem passable_of_done (ht : Transferable u d init n i.payload) (hsession : i.session = none)
    (hdest : i.destination = some d) (hcues : ∀ c ∈ cues, c.edits = []) (buffer : BufferSize)
    (hdone : (i.run cues buffer u).item.state = .done) : Passable u d n i.payload := by
  obtain ⟨a, hended, hitem, hcarries⟩ := carries_run ht hsession hdest hcues buffer
  cases hcarries with
  | unopened _ _ _ _ ended => exact absurd (hitem ▸ hdone) (ended hended).2
  | @opened dir x hpayload hopen _ moored _ _ _ _ _ done =>
    obtain ⟨hsuits, hexhausted⟩ := done hended (hitem ▸ hdone)
    rw [hitem] at hopen
    refine Session.passable_of_agenda ht.sound (Tree.holder_eq_ok.mp moored.seats.holder_eq).1
      moored.seats.size_le fun source s hp hsource => ?_
    exact agenda_of_done ht hsession hdest hcues hdone hopen hsuits hexhausted hp hsource

/-- What the checks promise of an item and what they do not. -/
structure Cleared (u : Tree) (d : Path) (n : String) (p : Payload) (r : RunResult)
    (x : Item × Tree) : Prop where
  /-- Everything is copied as long as the limits are kept. -/
  copied_iff : r.item.state = .done ↔ Passable u d n p
  /-- It comes to the destination unless it is a directory and something stands there. -/
  done_iff : x.1.state = .done ↔ Passable u d n p ∧ ¬Blocked u d p
  failed (h : Passable u d n p) (hb : Blocked u d p) : x.1.state = .failed ∧ x.1.bytes = 0
  published : Published u d p x.2 x.1

/-- A directory that has been delivered has replaced nothing. -/
theorem not_blocked_of_closed (ht : Transferable u d init n i.payload) {t t' : Tree} {j : Item}
    (hclosed : (loneLane u d init n i.payload).Closed t j t') (hdone : j.state = .done) :
    ¬Blocked u d i.payload := by
  rintro ⟨hp, x, hx⟩
  cases hclosed with
  | unopened _ undone => exact undone hdone
  | dropped _ _ undone _ _ => exact undone hdone
  | @published dir _ moored agrees _ _ _ _ kind =>
    have hseat : u.Seats d dir n := Berth.seats_destination moored
    obtain ⟨e, he⟩ : ∃ e, u.lookup (dir ++ [n]) = some e := by
      refine Option.ne_none_iff_exists'.mp fun hnone => ?_
      have hnode := hseat.linkStatus_eq_ok.mp hx
      rw [Tree.node?_eq_none.mpr hnone] at hnode
      cases hnode
    have hnot : e ≠ .directory := fun heq => ht.lookup_ne hseat (heq ▸ he)
    have hsame : t.lookup (dir ++ [n]) = u.lookup (dir ++ [n]) :=
      agrees.lookup_eq (stageAt_apart dir n).1
    exact kind e (hsame.trans he) hnot ((Session.image_root ht.offers).mpr hp)

/-- A copy that is complete can be committed unless something is in the way of a directory. -/
theorem commit_of_carries (ht : Transferable u d init n i.payload) {t : Tree} {a : Attempt}
    (h : a.Carries (loneLane u d init n i.payload) t) (hended : a.stage = .ended)
    (hdone : a.item.state = .done) :
    ∃ x, a.item.session = some x ∧ (¬Blocked u d i.payload → ∃ t', x.commit t = (.ok (), t')) := by
  cases h with
  | unopened _ _ _ _ ended => exact absurd hdone (ended hended).2
  | @opened dir x _ hopen _ moored agrees numbered _ _ _ done =>
    obtain ⟨hsuits, hexhausted⟩ := done hended hdone
    refine ⟨x, hopen, fun hfree => ?_⟩
    have hseat : u.Seats d dir n := Berth.seats_destination moored
    have hsame : t.lookup (dir ++ [n]) = u.lookup (dir ++ [n]) :=
      agrees.lookup_eq (stageAt_apart dir n).1
    refine Session.commit_ok moored agrees numbered hsuits hexhausted ?_ fun himage => ?_
    · exact fun hlook => ht.lookup_ne hseat (hsame.symm.trans hlook)
    · refine hsame.trans (Tree.node?_eq_none.mp ?_)
      by_contra hthere
      obtain ⟨y, hy⟩ := Option.ne_none_iff_exists'.mp hthere
      exact hfree ⟨(Session.image_root ht.offers).mp himage, y, hseat.linkStatus_eq_ok.mpr hy⟩

/-- An item that passes its checks is copied and delivered, if nothing stands at the place of the
staged copy, no signal stops it and the limits of paths are kept, with one exception that the
checks do not see: a directory replaces neither a file nor a link. -/
theorem cleared_after (hu : u.Sound) (hd : d.EndsIn init n) (hsession : i.session = none)
    (hdest : i.destination = some d) (hsource : i.checkSource u = .ok ())
    (hcheck : i.checkDestination u = .ok ()) (hfree : ∀ x, u.linkStatus (staged d) ≠ .ok x)
    (hcues : i.Unstopped cues) {buffer : ℕ} (hbuffer : 0 < buffer) :
    Cleared u d n i.payload (i.run cues buffer u) (i.delivered cues buffer u) := by
  have ht := transferable_of_checks hu hd hdest hsource hcheck hfree
  have hedits : ∀ c ∈ cues, c.edits = [] := fun c hc => (hcues c hc).1
  have hpublished := published_run ht hsession hdest hedits buffer
  have hcopied : (i.run cues buffer u).item.state = .done ↔ Passable u d n i.payload :=
    ⟨passable_of_done ht hsession hdest hedits ⟨buffer, hbuffer⟩, fun hpass =>
      (state_run hsession hdest hcues ⟨buffer, hbuffer⟩).mpr (ht.passage_ok hpass _)⟩
  obtain ⟨a, hended, hitem, hcarries⟩ := carries_run ht hsession hdest hedits buffer
  have hclosed := (hcarries.finish hended).2.2
  have hopen (hpass : Passable u d n i.payload) := commit_of_carries ht hcarries hended
    (hitem ▸ hcopied.mpr hpass)
  rw [hitem] at hclosed hopen
  have hdone : (i.delivered cues buffer u).1.state = .done ↔
      Passable u d n i.payload ∧ ¬Blocked u d i.payload := by
    constructor
    · intro hdone
      exact ⟨hcopied.mp (commit_of_done hdone).1, not_blocked_of_closed ht hclosed hdone⟩
    · rintro ⟨hpass, hunblocked⟩
      obtain ⟨x, hx, hcommit⟩ := hopen hpass
      obtain ⟨t', ht'⟩ := hcommit hunblocked
      simp only [delivered, finish, hx, hcopied.mpr hpass, ht', if_true]
  refine ⟨hcopied, hdone, fun hpass hblocked => ?_, hpublished⟩
  obtain ⟨x, hx, -⟩ := hopen hpass
  have hnot := fun h => (hdone.mp h).2 hblocked
  simp only [delivered, finish, hx, hcopied.mpr hpass, if_true] at hnot ⊢
  split at hnot
  · exact absurd rfl hnot
  · exact ⟨rfl, rfl⟩

/-! ### A file and a directory that are to replace a file -/

/-- A file that is to replace another one. -/
def replacement : Item := fresh (.file ⟨"in"⟩) (.inl ⟨"out"⟩)

/-- The copy of a file has no more than one place. -/
theorem passable_replacing : Passable JobRun.replacingTree ⟨"out"⟩ "out" (.file ⟨"in"⟩) where
  refusal_eq := by decide +kernel
  size_le := by decide +kernel
  fits hne himage := by
    obtain ⟨source, s, hp, -⟩ := Session.directory_of_image hne himage
    cases hp
  readable _ _ hne himage := by
    obtain ⟨source, s, hp, -⟩ := Session.directory_of_image hne himage
    cases hp

theorem cleared_after_replacing :
    Cleared JobRun.replacingTree ⟨"out"⟩ "out" (.file ⟨"in"⟩)
        (replacement.run [⟨[], .newItem⟩] 64 JobRun.replacingTree)
        (replacement.delivered [⟨[], .newItem⟩] 64 JobRun.replacingTree) ∧
      (replacement.delivered [⟨[], .newItem⟩] 64 JobRun.replacingTree).1.state = .done := by
  have hsound : JobRun.replacingTree.Sound := Tree.sound_of_orderly (by decide +kernel)
  have hname : Path.EndsIn ⟨"out"⟩ [] "out" := ⟨by decide +kernel, by decide +kernel⟩
  have hfree : ∀ y, JobRun.replacingTree.linkStatus (staged ⟨"out"⟩) ≠ .ok y := by
    have hnone : JobRun.replacingTree.linkStatus (staged ⟨"out"⟩) = .error .noEntry := by
      decide +kernel
    simp [hnone]
  have hcues : replacement.Unstopped [⟨[], .newItem⟩] := by decide
  have hcleared := cleared_after (i := replacement) hsound hname rfl rfl (by decide +kernel)
    (by decide +kernel) hfree hcues (by decide : 0 < 64)
  have hunblocked : ¬Blocked JobRun.replacingTree ⟨"out"⟩ (.file ⟨"in"⟩) := by
    rintro ⟨⟨source, hp⟩, -⟩
    cases hp
  exact ⟨hcleared, hcleared.done_iff.mpr ⟨passable_replacing, hunblocked⟩⟩

/-- A directory that is to be copied to a place where a file stands. -/
def occupiedTree : Tree :=
  Tree.blank.edits [.write ⟨"logs/a"⟩ "first".toUTF8, .write ⟨"out"⟩ "old".toUTF8]

/-- The checks let it pass and all of it is copied, and then it has failed. -/
theorem blocked_after_checks :
    (logsItem.checkSource occupiedTree = .ok () ∧ logsItem.checkDestination occupiedTree = .ok () ∧
        occupiedTree.linkStatus (staged ⟨"out"⟩) = .error .noEntry ∧ logsItem.Unstopped []) ∧
      ((logsItem.run [] 64 occupiedTree).item.state = .done ∧
        (logsItem.run [] 64 occupiedTree).item.bytes = 5) ∧
      ((logsItem.delivered [] 64 occupiedTree).1.state = .failed ∧
        (logsItem.delivered [] 64 occupiedTree).1.bytes = 0) ∧
      (logsItem.delivered [] 64 occupiedTree).2.linkStatus ⟨"out"⟩ =
        .ok (.file ⟨"old".toUTF8, none⟩) ∧
      ¬((logsItem.delivered [] 64 occupiedTree).1.state = .done ∧
        (logsItem.delivered [] 64 occupiedTree).2.linkStatus ⟨"out"⟩ = .ok .directory) := by
  have hlist : occupiedTree.listing ⟨"logs"⟩ =
      .ok (occupiedTree.entriesBelow [Tree.homeName, "logs"]) :=
    Tree.listing_of_sorted (x := .directory) (by decide +kernel) (by decide +kernel)
      (by decide +kernel) (by decide +kernel) (by decide +kernel)
  have hentries : (occupiedTree.entriesBelow [Tree.homeName, "logs"]).filterMap
      Session.pendingOf = [⟨["a"], false⟩] := by decide +kernel
  have hstart := Session.start_directory (d := ⟨"out"⟩) hlist (by decide +kernel)
    (by decide +kernel)
  rw [hentries] at hstart
  obtain ⟨hitem, htree⟩ := run_opened (i := logsItem) 20 (by decide : 0 < 64) rfl rfl hstart
    (by decide +kernel)
  refine ⟨by decide +kernel, ?_⟩
  simp only [delivered]
  rw [hitem, htree]
  decide +kernel

end Item

end Haulage
