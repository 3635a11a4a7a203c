import Haulage.Disk.Edit
import Haulage.Proofs.JobRuns
import Haulage.Storage.Shelf

/-!
# Atomic publication

A worker that runs a job writes beside the destination, and moves what it wrote
to the destination in one stroke when the job is done. `JobRun.atomic_after` says
what the file tree shows of that: before the job is finished only the staged
copy has changed; when it is finished the staged copy is gone, and either the
item is done and the tree has changed at the destination only, where the whole
payload stands, or it is not done and the tree is as it was.

This holds whatever mail arrives in between, so the job may be cut short by any
signal between any two chunks, and it holds when a step of the copy fails or the
staged copy cannot be moved into place.
-/

namespace Haulage

open Disk (Location Node Path Tree)

/-- The location is the entry that the path names, or lies below it. -/
def Disk.Tree.Within (u : Tree) (p : Path) (l : Location) : Prop :=
  ∃ dir n, u.holder p = .ok dir ∧ Tree.lastStep p = .name n ∧ dir ++ [n] <+: l

theorem Disk.Tree.Seats.within_iff {u : Tree} {p : Path} {dir l : Location} {n : String}
    (h : u.Seats p dir n) : u.Within p l ↔ dir ++ [n] <+: l := by
  constructor
  · rintro ⟨dir', n', hdir, hn, hl⟩
    rw [h.holder_eq] at hdir
    rw [h.lastStep_eq] at hn
    rwa [← Except.ok.inj hdir, ← Tree.LastStep.name.inj hn] at hl
  · exact fun hl => ⟨dir, n, h.holder_eq, h.lastStep_eq, hl⟩

/-- The item `i` is finished, and the tree `t` shows all of its transfer or nothing. -/
structure Published (u : Tree) (d : Path) (p : Payload) (t : Tree) (i : Item) : Prop where
  isTerminal : i.state.isTerminal
  session_eq : i.session = none
  /-- Nothing is left of the staged copy. -/
  free (x : Node) : t.linkStatus (staged d) ≠ .ok x
  unchanged (h : i.state ≠ .done) (l : Location) : t.node? l = u.node? l
  elsewhere (h : i.state = .done) (l : Location) (hl : ¬u.Within d l) : t.node? l = u.node? l
  /-- The whole payload stands at the destination, and nothing else. -/
  complete (h : i.state = .done) : ∃ dir n, u.holder d = .ok dir ∧ Tree.lastStep d = .name n ∧
    ∀ rel, t.node? (dir ++ [n] ++ rel) = p.image u rel

/-- At any time the tree shows nothing of the transfer but the staged copy, or the job is finished
and the tree shows all of it or nothing. -/
structure JobRun.Atomic {σ : Type} (u : Tree) (d : Path) (p : Payload) (x : JobRun σ) : Prop where
  home_eq : x.tree.home = u.home
  unfinished (h : x.finished = none) (l : Location) (hl : ¬u.Within (staged d) l) :
    x.tree.node? l = u.node? l
  finished {j : Job} (h : x.finished = some j) : Published u d p x.tree j.item

/-! ## Closing -/

section Closing

variable {u t t' : Tree} {d : Path} {init : List String} {n : String} {dir : Location}
  {p : Payload}

/-- What is seen at a path that ends in a name, where the directories and links are those of the
ground, is what stands where the path leads on the ground. -/
theorem Disk.Tree.linkStatus_ground {q : Path} {x : Node} (hq : q.EndsIn init n)
    (hhome : t.home = u.home)
    (hways : ∀ l e, t.lookup l = some e → (∀ id, e ≠ .file id) → u.lookup l = some e)
    (h : t.linkStatus q = .ok x) :
    ∃ dir, u.Seats q dir n ∧ t.node? (dir ++ [n]) = some x := by
  obtain ⟨dir, hseat⟩ := Tree.seats_of_linkStatus hq h
  exact ⟨dir, hseat.transfer hhome.symm hways, hseat.linkStatus_eq_ok.mp h⟩

/-- Nothing is seen at the path of the staged copy if nothing stands there and no other way leads
there. -/
theorem Berth.free {P : Location → Prop} (hb : Berth P u d init n dir) (hhome : t.home = u.home)
    (hways : ∀ l e, t.lookup l = some e → (∀ id, e ≠ .file id) → u.lookup l = some e)
    (hbare : t.Bare (stageAt dir n)) (x : Node) : t.linkStatus (staged d) ≠ .ok x := by
  intro hx
  obtain ⟨dir', hseat, hnode⟩ := Tree.linkStatus_ground hb.endsIn.staged hhome hways hx
  have hdir : dir' = dir :=
    Except.ok.inj (hseat.holder_eq.symm.trans hb.seats.holder_eq)
  have hnone := Tree.node?_eq_none.mpr (hbare _ (List.prefix_refl _))
  rw [hdir] at hnode
  rw [stageAt, hnode] at hnone
  simp at hnone

/-- When the staged copy is gone and nothing else was changed, the tree is as it was. -/
theorem Berth.lookup_of_bare {P : Location → Prop} (hb : Berth P u d init n dir)
    (hag : u.Agrees (stageAt dir n <+: ·) t) (hbare : t.Bare (stageAt dir n)) (l : Location) :
    t.lookup l = u.lookup l ∧ t.node? l = u.node? l := by
  by_cases hl : stageAt dir n <+: l
  · have hu := hb.bare (hb.covers hl)
    have ht := hbare l hl
    exact ⟨by rw [hu, ht], by rw [Tree.node?_eq_none.mpr hu, Tree.node?_eq_none.mpr ht]⟩
  · exact ⟨hag.lookup_eq hl, hag.node?_eq hl⟩

/-- The transfer of `p` to `d` can be begun on the ground `u`. -/
structure Transferable (u : Tree) (d : Path) (init : List String) (n : String) (p : Payload) :
    Prop where
  sound : u.Sound
  clear : Session.Clear u d init n
  offers : Session.Offers u u p
  notDirectory : u.isDirectory d = false

/-- No directory stands at the destination. -/
theorem Transferable.lookup_ne (h : Transferable u d init n p) (hseat : u.Seats d dir n) :
    u.lookup (dir ++ [n]) ≠ some .directory := by
  intro hlook
  have hnot := h.notDirectory
  rw [Tree.isDirectory, hseat.status_of_directory hlook] at hnot
  cases hnot

/-- What is not a directory as a whole is a single file. -/
theorem image_file (h : Session.Offers u u p) (hroot : p.image u [] ≠ some .directory)
    {rel : Location} {x : Node} (hx : p.image u rel = some x) : ∃ data, x = .file data := by
  have halone : ∀ {data}, alone (.file data) rel = some x → ∃ data, x = .file data := by
    intro data hx
    unfold alone at hx
    by_cases hrel : rel = []
    · rw [hrel, Function.update_self] at hx
      exact ⟨data, (Option.some.inj hx).symm⟩
    · rw [Function.update_of_ne hrel] at hx
      simp at hx
  cases h with
  | buffer => exact halone hx
  | file hsource hid _ _ _ =>
    simp only [Payload.image, Tree.status, hsource, Tree.node?_of_file hid] at hx
    exact halone hx
  | directory hsource hdir _ _ _ =>
    refine absurd ?_ hroot
    simp [Payload.image, hsource, Tree.node?_of_directory hdir, withoutLink]

/-- A session that was given up leaves the tree as it was. -/
theorem Transferable.published_of_bare {P : Location → Prop} {i : Item}
    (hb : Berth P u d init n dir) (hag : u.Agrees (stageAt dir n <+: ·) t)
    (hbare : t.Bare (stageAt dir n)) (hterminal : i.state.isTerminal) (hsession : i.session = none)
    (hnot : i.state ≠ .done) : Published u d p t i where
  isTerminal := hterminal
  session_eq := hsession
  free := hb.free hag.home_eq
    (fun l _ he _ => (hb.lookup_of_bare hag hbare l).1.symm.trans he) hbare
  unchanged _ l := (hb.lookup_of_bare hag hbare l).2
  elsewhere h := absurd h hnot
  complete h := absurd h hnot

/-- After a commit nothing is seen any more at the path of the staged copy: what was replaced at
the destination was a file or a link, and no way leads through the file that came there. -/
theorem Transferable.free_of_committed (h : Transferable u d init n p)
    (hb : Berth (stageAt dir n <+: ·) u d init n dir) (hag : u.Agrees (stageAt dir n <+: ·) t)
    (hc : t.Changes (fun m => stageAt dir n <+: m ∨ dir ++ [n] <+: m) t')
    (hholds : t'.Holds (dir ++ [n]) (p.image u)) (hbare : t'.Bare (stageAt dir n))
    (hkind : ∀ e, t.lookup (dir ++ [n]) = some e → e ≠ .directory →
      p.image u [] ≠ some .directory) (x : Node) : t'.linkStatus (staged d) ≠ .ok x := by
  have hag' : u.Agrees (fun m => stageAt dir n <+: m ∨ dir ++ [n] <+: m) t' :=
    (hag.mono fun _ => .inl).trans hc.toAgrees
  have hat : t.lookup (dir ++ [n]) = u.lookup (dir ++ [n]) :=
    hag.lookup_eq (stageAt_apart dir n).1
  cases hold : u.lookup (dir ++ [n]) with
  | none =>
    -- nothing was replaced, so every way is still there
    have hkeeps : u.Keeps t' := by
      refine hag'.keeps fun l hl => hl.elim (fun hstage => hb.bare hstage) fun hdest => ?_
      exact h.sound.bare hold l hdest
    exact (hb.seats.mono hkeeps).linkStatus_of_vacant (hbare _ (List.prefix_refl _)) x
  | some e =>
    have he : e ≠ .directory := fun he => h.lookup_ne hb.seats_destination (he ▸ hold)
    have hroot := hkind e (hat.trans hold) he
    refine hb.free hag'.home_eq (fun l y hy hnofile => ?_) hbare x
    by_cases hl : stageAt dir n <+: l ∨ dir ++ [n] <+: l
    · exfalso
      rcases hl with hstage | ⟨rel, rfl⟩
      · rw [hbare l hstage] at hy
        simp at hy
      · obtain ⟨z, hz⟩ : ∃ z, t'.node? (dir ++ [n] ++ rel) = some z := by
          rw [← Option.ne_none_iff_exists', Ne, Tree.node?_eq_none, hy]
          simp
        obtain ⟨data, rfl⟩ := image_file h.offers hroot ((hholds.node?_eq rel).symm.trans hz)
        obtain ⟨id, hid, -⟩ := Tree.lookup_of_node?_file hz
        exact hnofile id (Option.some.inj (hy.symm.trans hid))
    · rwa [hag'.lookup_eq hl] at hy

/-- A session that was committed leaves its payload at the destination, and the rest as it was. -/
theorem Transferable.published_of_committed (h : Transferable u d init n p) {i : Item}
    (hb : Berth (stageAt dir n <+: ·) u d init n dir) (hag : u.Agrees (stageAt dir n <+: ·) t)
    (hc : t.Changes (fun m => stageAt dir n <+: m ∨ dir ++ [n] <+: m) t')
    (hholds : t'.Holds (dir ++ [n]) (p.image u)) (hbare : t'.Bare (stageAt dir n))
    (hkind : ∀ e, t.lookup (dir ++ [n]) = some e → e ≠ .directory →
      p.image u [] ≠ some .directory)
    (hdone : i.state = .done) (hsession : i.session = none) : Published u d p t' i := by
  have hag' : u.Agrees (fun m => stageAt dir n <+: m ∨ dir ++ [n] <+: m) t' :=
    (hag.mono fun _ => .inl).trans hc.toAgrees
  have hseat := hb.seats_destination
  refine ⟨by rw [hdone]; rfl, hsession, h.free_of_committed hb hag hc hholds hbare hkind,
    fun hnot => absurd hdone hnot, fun _ l hl => ?_,
    fun _ => ⟨dir, n, hseat.holder_eq, hseat.lastStep_eq, hholds.node?_eq⟩⟩
  rw [hseat.within_iff] at hl
  by_cases hstage : stageAt dir n <+: l
  · rw [Tree.node?_eq_none.mpr (hbare l hstage), Tree.node?_eq_none.mpr (hb.bare hstage)]
  · exact hag'.node?_eq fun hor => hor.elim hstage hl

end Closing

/-! ## The lane of a transfer that is alone -/

/-- The tree is the ground until the staged copy is begun, and differs from it only there
afterwards. -/
def loneLane (u : Tree) (d : Path) (init : List String) (n : String) (p : Payload) : Lane where
  ground := u
  payload := p
  destination := d
  init := init
  name := n
  Idle := (· = u)
  Busy dir := (stageAt dir n <+: ·)

namespace Transferable

variable {u t t' : Tree} {d : Path} {init : List String} {n : String} {p : Payload}

theorem ready (h : Transferable u d init n p) : (loneLane u d init n p).Ready where
  clear ht := ht ▸ h.clear
  offers ht := ht ▸ h.offers
  moored ht hseat := by
    subst ht
    exact ⟨h.sound, h.clear.endsIn, hseat, fun h => h, fun hl => h.clear.bare hseat _ hl⟩
  agrees ht _ := by
    subst ht
    exact .refl _ _

/-- What a run leaves when it finishes its job is all of the transfer or nothing of it. -/
theorem published_of_closed (h : Transferable u d init n p) {i : Item}
    (hc : (loneLane u d init n p).Closed t i t') (hterminal : i.state.isTerminal)
    (hsession : i.session = none) : t'.home = u.home ∧ Published u d p t' i := by
  cases hc with
  | unopened idle undone =>
    have ht : t = u := idle
    subst ht
    exact ⟨rfl, hterminal, hsession, h.clear.free, fun _ _ => rfl,
      fun hdone => absurd hdone undone, fun hdone => absurd hdone undone⟩
  | published moored agrees done changes holds bare kind =>
    exact ⟨changes.home_eq.trans agrees.home_eq,
      h.published_of_committed moored agrees changes holds bare kind done hsession⟩
  | dropped moored agrees undone changes bare =>
    have hagrees := agrees.trans changes.toAgrees
    exact ⟨hagrees.home_eq, published_of_bare moored hagrees bare hterminal hsession undone⟩

end Transferable

/-! ## The transfer as the worker finds it -/

/-- A source that passes its check can be read. -/
theorem offers_of_checkSource {u : Tree} {i : Item} (h : i.checkSource u = .ok ()) :
    Session.Offers u u i.payload := by
  unfold Item.checkSource at h
  split at h
  · rename_i data hp
    rw [hp]
    exact .buffer
  · rename_i source hp
    split at h
    · simp at h
    · rename_i data hstatus
      obtain ⟨s, hs, hnode⟩ := Tree.resolve_of_status hstatus
      obtain ⟨id, hid, -⟩ := Tree.lookup_of_node?_file hnode
      rw [hp]
      exact .file hs hid hs hid rfl
    · simp at h
  · rename_i source hp
    split at h
    · simp at h
    · rename_i hstatus
      obtain ⟨s, hs, hnode⟩ := Tree.resolve_of_status hstatus
      have hdir := Tree.lookup_of_node?_directory hnode
      rw [hp]
      exact .directory hs hdir hs hdir rfl
    · simp at h

theorem transferable_of_checks {u : Tree} {i : Item} {d : Path} {init : List String} {n : String}
    (hu : u.Sound) (hd : d.EndsIn init n) (hdest : i.destination = some d)
    (hsource : i.checkSource u = .ok ()) (hcheck : i.checkDestination u = .ok ())
    (hfree : ∀ x, u.linkStatus (staged d) ≠ .ok x) : Transferable u d init n i.payload := by
  obtain ⟨hnot, hparents⟩ := Tree.hasParents_of_checkDestination hdest hcheck
  exact ⟨hu, ⟨hd, hparents, hfree, fun hseat => hu.bare (hseat.lookup_eq_none hfree), hu.numbered⟩,
    offers_of_checkSource hsource, hnot⟩

namespace JobRun

variable {σ : Type} {u : Tree} {d : Path} {init : List String} {n : String} {p : Payload}

/-- Before its job is finished a run that is alone in the tree shows only its staged copy. -/
theorem Underway.tree_eq {x : JobRun σ} (h : x.Underway (loneLane u d init n p)) :
    x.tree.home = u.home ∧ ∀ l, ¬u.Within (staged d) l → x.tree.node? l = u.node? l := by
  rcases h.tree with hidle | ⟨dir, hmoored, hagrees⟩
  · have ht : x.tree = u := hidle
    exact ⟨by rw [ht], fun _ _ => by rw [ht]⟩
  · refine ⟨hagrees.home_eq, fun l hl => hagrees.node?_eq fun hstage => hl ?_⟩
    exact hmoored.seats.within_iff.mpr hstage

/-- A run is on its way, or it has published. -/
theorem underway_or_published (ht : Transferable u d init n p) (m : StorageManager σ)
    (buffer : BufferSize) {x : JobRun σ} (hx : x.Underway (loneLane u d init n p))
    (beats : List Beat) :
    (x.after m buffer beats).Underway (loneLane u d init n p) ∨
      ∃ j, (x.after m buffer beats).finished = some j ∧
        (x.after m buffer beats).tree.home = u.home ∧
        Published u d p (x.after m buffer beats).tree j.item := by
  induction beats using List.reverseRecOn with
  | nil => exact .inl hx
  | append_singleton beats b ih =>
    have hlast : x.after m buffer (beats ++ [b]) = (x.after m buffer beats).next m buffer b := by
      simp [JobRun.after]
    rw [hlast]
    rcases ih with hunder | ⟨j, hfinished, hpublished⟩
    · rcases hunder.next ht.ready m buffer b with ⟨hnext, -⟩ | ⟨j, hj, hterminal, hsession, hc⟩
      · exact .inl hnext
      · exact .inr ⟨j, hj, ht.published_of_closed hc hterminal hsession⟩
    · obtain ⟨hj, hsame⟩ := next_of_finished m buffer hfinished b
      exact .inr ⟨j, hj, by rwa [tree, hsame]⟩

/-- Publication is atomic: a worker that has taken a job whose source and destination are in order
changes nothing but the staged copy before the job is finished, whatever mail arrives; it does
finish the job when it is left alone; and then the tree shows the whole transfer or nothing of it,
according to the state of the item. -/
theorem atomic_after (m : StorageManager σ) (buffer : BufferSize) (w : Worker)
    (g : Surroundings σ) (j : Job) {d : Path} {init : List String} {n : String}
    (hsound : g.tree.Sound) (hsession : j.item.session = none)
    (hdest : j.item.destination = some d) (hname : d.EndsIn init n)
    (hsource : j.item.checkSource g.tree = .ok ())
    (hcheck : j.item.checkDestination g.tree = .ok ())
    (hfree : ∀ x, g.tree.linkStatus (staged d) ≠ .ok x) (beats : List Beat) :
    ((start w g j).after m buffer beats).Atomic g.tree d j.item.payload ∧
      ∃ k, (((start w g j).after m buffer beats).after m buffer
        (List.replicate k .step)).finished.isSome := by
  have ht := transferable_of_checks hsound hname hdest hsource hcheck hfree
  have hstart : (start w g j).Underway (loneLane g.tree d init n j.item.payload) :=
    .start rfl rfl hsession hdest
  rcases underway_or_published ht m buffer hstart beats with hunder | ⟨k, hk, hhome, hpublished⟩
  · obtain ⟨hhome, hsame⟩ := hunder.tree_eq
    refine ⟨⟨hhome, fun _ => hsame, fun hfinished => ?_⟩, hunder.finishes ht.ready m buffer⟩
    rw [hunder.unfinished] at hfinished
    simp at hfinished
  · refine ⟨⟨hhome, fun hunfinished => ?_, fun hfinished => ?_⟩, 0,
      Option.isSome_iff_exists.mpr ⟨k, hk⟩⟩
    · rw [hk] at hunfinished
      simp at hunfinished
    · rw [hk] at hfinished
      rwa [← Option.some.inj hfinished]

/-- A tree with the file to be copied and an older file at the destination. -/
def replacingTree : Tree :=
  Tree.blank.edits [.write ⟨"in"⟩ "new".toUTF8, .write ⟨"out"⟩ "old".toUTF8]

/-- A job that replaces the older file. -/
def replacingJob : Job := ⟨⟨1⟩, .fresh (.file ⟨"in"⟩) (.inl ⟨"out"⟩)⟩

/-- The worker is left alone with the job until it has finished it. -/
def replacingRun : JobRun Shelf :=
  (start .fresh ⟨replacingTree, .ofMedia [] none false⟩ replacingJob).after Shelf.manager
    ⟨2, Nat.two_pos⟩ (List.replicate 10 .step)

theorem atomic_after_replacingRun :
    replacingTree.Sound ∧ replacingJob.item.session = none ∧
      replacingJob.item.destination = some ⟨"out"⟩ ∧ Path.EndsIn ⟨"out"⟩ [] "out" ∧
      replacingJob.item.checkSource replacingTree = .ok () ∧
      replacingJob.item.checkDestination replacingTree = .ok () ∧
      (∀ y, replacingTree.linkStatus (staged ⟨"out"⟩) ≠ .ok y) ∧
      replacingRun.finished.map (·.item.state) = some .done ∧
      replacingRun.Atomic replacingTree ⟨"out"⟩ (.file ⟨"in"⟩) := by
  have hsound : replacingTree.Sound := Tree.sound_of_orderly (by decide +kernel)
  have hname : Path.EndsIn ⟨"out"⟩ [] "out" := ⟨by decide +kernel, by decide +kernel⟩
  have hsource : replacingJob.item.checkSource replacingTree = .ok () := by decide +kernel
  have hcheck : replacingJob.item.checkDestination replacingTree = .ok () := by decide +kernel
  have hfree : ∀ y, replacingTree.linkStatus (staged ⟨"out"⟩) ≠ .ok y := by
    have hnone : replacingTree.linkStatus (staged ⟨"out"⟩) = .error .noEntry := by decide +kernel
    simp [hnone]
  exact ⟨hsound, rfl, rfl, hname, hsource, hcheck, hfree, by decide +kernel,
    (atomic_after Shelf.manager ⟨2, Nat.two_pos⟩ .fresh ⟨replacingTree, .ofMedia [] none false⟩
      replacingJob hsound rfl rfl hname hsource hcheck hfree (List.replicate 10 .step)).1⟩

end JobRun

end Haulage
