import Haulage.Disk.Edit
import Haulage.Proofs.JobRuns
import Haulage.Storage.Shelf

/-!
# Several transfers at once

Workers that are at a job each share one file tree, and their steps come in any
order, each step of a session by itself. `Transfers.delivers_after` says that they
do not disturb one another as long as their destinations, and the staged copies
beside these, do not meet: at any time a destination holds what stood there in
the beginning until its transfer is done, and from then on the whole payload.

The tree without what stands at the destinations is the ground on which they
meet: the ways and the sources belong to it, and nobody changes it. What one
worker does at its own places is no concern of the others, `InOrder.next`.

The staged copy is named after the destination alone. So two transfers to one
destination write into one staged copy, and the destination may come to hold
what neither of them was to bring: `not_delivers_to_one_destination`.
-/

namespace Haulage

open Disk (Location Node Path Tree)

/-- A job with a destination, and the directory and the name of the entry that the destination
leads to. -/
structure Haul where
  job : Job
  destination : Path
  folder : Location
  name : String

namespace Haul

/-- What is to be transferred. -/
def payload (h : Haul) : Payload := h.job.item.payload

/-- The segments of the destination before its last name. -/
def init (h : Haul) : List String := h.destination.segments.dropLast

/-- Where the payload is to stand. -/
def seat (h : Haul) : Location := h.folder ++ [h.name]

/-- Where its staged copy stands meanwhile. -/
def stage (h : Haul) : Location := stageAt h.folder h.name

/-- The locations at which the transfer may change the tree. -/
def Owns (h : Haul) (l : Location) : Prop := h.stage <+: l ∨ h.seat <+: l

/-- The transfer in a tree that may differ from the ground at the locations `P`. -/
def lane (h : Haul) (u : Tree) (P : Location → Prop) : Lane where
  ground := u
  payload := h.payload
  destination := h.destination
  init := h.init
  name := h.name
  Idle t := u.Agrees P t ∧ t.Numbered ∧ t.Bare h.stage
  Busy _ := P

theorem not_stage_prefix_seat (h : Haul) (rel : Location) : ¬h.stage <+: h.seat ++ rel := by
  intro hl
  obtain ⟨hapart, hapart'⟩ := stageAt_apart h.folder h.name
  exact (List.prefix_or_prefix_of_prefix hl (List.prefix_append h.seat rel)).elim hapart hapart'

end Haul

/-- Workers at one job each, in one file tree. -/
structure Transfers (ι σ : Type) where
  crew : ι → Worker
  finished : ι → Option Job
  surroundings : Surroundings σ

namespace Transfers

variable {ι σ : Type}

/-- The file tree that all share. -/
abbrev tree (c : Transfers ι σ) : Tree := c.surroundings.tree

/-- One worker with its job, in the tree as all have left it. -/
def jobRun (c : Transfers ι σ) (i : ι) : JobRun σ := ⟨c.crew i, c.surroundings, c.finished i⟩

/-- Each worker has just taken its job. -/
def start (crew : ι → Worker) (g : Surroundings σ) (hauls : ι → Haul) : Transfers ι σ :=
  ⟨fun i => { crew i with duty := .received (hauls i).job }, fun _ => none, g⟩

/-- The transfers after one more beat of one worker. -/
def next [DecidableEq ι] (m : StorageManager σ) (buffer : BufferSize) (c : Transfers ι σ)
    (move : ι × Beat) : Transfers ι σ :=
  let x := (c.jobRun move.1).next m buffer move.2
  ⟨Function.update c.crew move.1 x.worker, Function.update c.finished move.1 x.finished,
    x.surroundings⟩

/-- The transfers after some beats, in the order in which they happened. -/
def after [DecidableEq ι] (m : StorageManager σ) (buffer : BufferSize) (c : Transfers ι σ)
    (moves : List (ι × Beat)) : Transfers ι σ :=
  moves.foldl (next m buffer) c

/-- What the tree shows of the transfer `i` at any time, if `t₀` was the tree in the beginning. -/
structure Delivers (t₀ : Tree) (hauls : ι → Haul) (c : Transfers ι σ) (i : ι) : Prop where
  /-- Before the transfer is done its destination holds what stood there in the beginning. -/
  before (h : ∀ j, c.finished i = some j → j.item.state ≠ .done) (rel : Location) :
    c.tree.node? ((hauls i).seat ++ rel) = t₀.node? ((hauls i).seat ++ rel)
  /-- From then on it holds the whole payload, and nothing else. -/
  complete {j : Job} (h : c.finished i = some j) (hdone : j.item.state = .done) (rel : Location) :
    c.tree.node? ((hauls i).seat ++ rel) = (hauls i).payload.image t₀ rel
  /-- The payload is the same all the time. -/
  source_eq : (hauls i).payload.image c.tree = (hauls i).payload.image t₀
  /-- Nothing is left of the staged copy in the end. -/
  free {j : Job} (h : c.finished i = some j) : c.tree.Bare (hauls i).stage

/-! ## Transfers that do not meet -/

/-- Some transfer may change the tree at the location. -/
def Owned (hauls : ι → Haul) (l : Location) : Prop := ∃ i, (hauls i).Owns l

/-- The transfers can be made on the ground `u`, which is the tree `t` without what stands at
their destinations, and no two of them meet. -/
structure Separate (u t : Tree) (hauls : ι → Haul) : Prop where
  sound : u.Sound
  bare {i : ι} {l : Location} (h : (hauls i).Owns l) : u.lookup l = none
  agrees : u.Agrees (Owned hauls) t
  numbered : t.Numbered
  /-- No staged copy has been left behind. -/
  free (i : ι) : t.Bare (hauls i).stage
  session (i : ι) : (hauls i).job.item.session = none
  destination (i : ι) : (hauls i).job.item.destination = some (hauls i).destination
  endsIn (i : ι) : (hauls i).destination.EndsIn (hauls i).init (hauls i).name
  seats (i : ι) : u.Seats (staged (hauls i).destination) (hauls i).folder
    ((hauls i).name ++ ".mlc.partial")
  parents (i : ι) : u.HasParents (hauls i).destination
  offers (i : ι) : Session.Offers u u (hauls i).payload
  /-- No directory is copied in which a destination lies. -/
  outside {i j : ι} {source : Path} {s : Location} (hp : (hauls i).payload = .directory source)
    (hs : u.resolve .reach source = .ok s) : ¬s <+: (hauls j).stage ∧ ¬s <+: (hauls j).seat
  distinct {i j : ι} {l : Location} (hi : (hauls i).Owns l) (hj : (hauls j).Owns l) : i = j

namespace Separate

variable {u t t₀ : Tree} {hauls : ι → Haul}

theorem keeps (h : Separate u t₀ hauls) (hag : u.Agrees (Owned hauls) t) : u.Keeps t :=
  hag.keeps fun _ hl => hl.elim fun _ => h.bare

/-- What stands on the ground is where no transfer changes the tree. -/
theorem not_owned (h : Separate u t₀ hauls) {l : Location} {e : Disk.Entry}
    (hlook : u.lookup l = some e) : ¬Owned hauls l := by
  rintro ⟨i, hi⟩
  rw [h.bare hi] at hlook
  simp at hlook

/-- A directory that is copied does not meet the places of the transfers. -/
theorem not_owned_below (h : Separate u t₀ hauls) {i : ι} {source : Path} {s : Location}
    (hp : (hauls i).payload = .directory source) (hs : u.resolve .reach source = .ok s)
    (hdir : u.lookup s = some .directory) (rel : Location) : ¬Owned hauls (s ++ rel) := by
  rintro ⟨j, hj⟩
  have hmeets : ∀ m, m <+: s ++ rel → s <+: m ∨ m <+: s := fun m hm =>
    List.prefix_or_prefix_of_prefix (List.prefix_append s rel) hm
  obtain ⟨hstage, hseat⟩ := h.outside (j := j) hp hs
  rcases hj with hj | hj
  · exact (hmeets _ hj).elim hstage fun hl => h.not_owned hdir ⟨j, .inl hl⟩
  · exact (hmeets _ hj).elim hseat fun hl => h.not_owned hdir ⟨j, .inr hl⟩

/-- The sources read the same all the time. -/
theorem offers_of_agrees (h : Separate u t₀ hauls) (hag : u.Agrees (Owned hauls) t) (i : ι) :
    Session.Offers u t (hauls i).payload := by
  have hoffers := h.offers i
  have hkeeps := h.keeps hag
  generalize hp : (hauls i).payload = p at hoffers
  cases hoffers with
  | buffer => exact .buffer
  | file hsource hid _ _ _ =>
    exact .file hsource hid (Tree.resolve_mono hsource hkeeps) (hkeeps.lookup_eq hid)
      (hag.data_eq (h.not_owned hid) hid)
  | @directory source s hsource hdir _ _ _ =>
    refine .directory hsource hdir (Tree.resolve_mono hsource hkeeps) (hkeeps.lookup_eq hdir) ?_
    have hsub : t.top.sub s = u.top.sub s := by
      refine hag.branch_eq fun l hl => ⟨?_, fun hls => ?_⟩
      · rintro ⟨rel, rfl⟩
        exact h.not_owned_below hp hsource hdir rel hl
      · obtain ⟨j, hj⟩ := hl
        exact h.not_owned hdir ⟨j, hj.imp (·.trans hls) (·.trans hls)⟩
    rw [Tree.entriesBelow, hsub, Tree.entriesBelow]

theorem image_eq (h : Separate u t₀ hauls) (hag : u.Agrees (Owned hauls) t) (i : ι) :
    (hauls i).payload.image t = (hauls i).payload.image u := by
  have hoffers := h.offers_of_agrees hag i
  generalize hp : (hauls i).payload = p at hoffers
  cases hoffers with
  | buffer => rfl
  | file hsource hid hsource' hid' hdata =>
    simp [Payload.image, Tree.status, hsource, hsource', Tree.node?_of_file hid,
      Tree.node?_of_file hid', hdata]
  | directory hsource hdir hsource' hdir' _ =>
    funext rel
    simp only [Payload.image, hsource, hsource']
    rw [hag.node?_eq (h.not_owned_below hp hsource hdir rel)]

/-- In its lane each transfer finds all it needs. -/
theorem ready (h : Separate u t₀ hauls) (i : ι) : ((hauls i).lane u (Owned hauls)).Ready := by
  have hfolder : ∀ {t dir}, u.Agrees (Owned hauls) t →
      t.Seats (staged (hauls i).destination) dir ((hauls i).name ++ ".mlc.partial") →
      dir = (hauls i).folder := by
    intro t dir hag hseat
    have hground := (h.seats i).mono (h.keeps hag)
    exact Except.ok.inj (hseat.holder_eq.symm.trans hground.holder_eq)
  constructor
  case clear =>
    rintro t ⟨hag, hnum, hbare⟩
    have hseat := (h.seats i).mono (h.keeps hag)
    refine ⟨h.endsIn i, (h.parents i).mono (h.keeps hag),
      hseat.linkStatus_of_vacant (hbare _ (List.prefix_refl _)), fun hs => ?_, hnum⟩
    rwa [hfolder hag hs]
  case offers =>
    rintro t ⟨hag, -, -⟩
    exact h.offers_of_agrees hag i
  case moored =>
    rintro t dir ⟨hag, -, -⟩ hs
    rw [hfolder hag hs]
    exact ⟨h.sound, h.endsIn i, h.seats i, fun hl => ⟨i, .inl hl⟩,
      fun hl => hl.elim fun _ => h.bare⟩
  case agrees =>
    rintro t dir ⟨hag, -, -⟩ -
    exact hag

theorem folder_eq (h : Separate u t₀ hauls) {i : ι} {dir : Location}
    (hm : ((hauls i).lane u (Owned hauls)).Moored dir) : dir = (hauls i).folder :=
  Except.ok.inj (hm.seats.holder_eq.symm.trans (h.seats i).holder_eq)

theorem changes_of_touched (h : Separate u t₀ hauls) {i : ι} {t' : Tree}
    (ht : ((hauls i).lane u (Owned hauls)).Touched t t') :
    t.Changes ((hauls i).stage <+: ·) t' := by
  cases ht with
  | not => exact .refl _ _
  | staged moored changes =>
    rw [h.folder_eq moored] at changes
    exact changes

end Separate

/-! ## Runs of transfers -/

section Runs

variable {u t₀ : Tree} {hauls : ι → Haul} {c : Transfers ι σ} {i : ι}

/-- How far one of the transfers has come. -/
inductive Progress (u t₀ : Tree) (hauls : ι → Haul) (c : Transfers ι σ) (i : ι) : Prop
  | underway (jobRun : (c.jobRun i).Underway ((hauls i).lane u (Owned hauls)))
      (same : ∀ rel, c.tree.node? ((hauls i).seat ++ rel) = t₀.node? ((hauls i).seat ++ rel))
  | undone {j : Job} (finished : c.finished i = some j) (undone : j.item.state ≠ .done)
      (bare : c.tree.Bare (hauls i).stage)
      (same : ∀ rel, c.tree.node? ((hauls i).seat ++ rel) = t₀.node? ((hauls i).seat ++ rel))
  | done {j : Job} (finished : c.finished i = some j) (done : j.item.state = .done)
      (bare : c.tree.Bare (hauls i).stage)
      (holds : c.tree.Holds (hauls i).seat ((hauls i).payload.image u))

/-- Nothing was changed but at the places of the transfers, and each is on its course. -/
structure InOrder (u t₀ : Tree) (hauls : ι → Haul) (c : Transfers ι σ) : Prop where
  agrees : u.Agrees (Owned hauls) c.tree
  numbered : c.tree.Numbered
  progress (i : ι) : Progress u t₀ hauls c i

theorem InOrder.start {g : Surroundings σ} (h : Separate u g.tree hauls) (crew : ι → Worker) :
    InOrder u g.tree hauls (Transfers.start crew g hauls) where
  agrees := h.agrees
  numbered := h.numbered
  progress i := .underway (JobRun.Underway.start (L := (hauls i).lane u (Owned hauls))
    ⟨h.agrees, h.numbered, h.free i⟩ rfl (h.session i) (h.destination i)) fun _ => rfl

/-- What a transfer changes at its own places does not concern another one. -/
theorem Progress.frame (h : Progress u t₀ hauls c i) (hs : Separate u t₀ hauls) {j : ι}
    (hij : i ≠ j)
    {c' : Transfers ι σ} (hc : c.tree.Changes (hauls j).Owns c'.tree) (hnum : c.tree.Numbered)
    (hcrew : c'.crew i = c.crew i) (hfin : c'.finished i = c.finished i) :
    Progress u t₀ hauls c' i := by
  have hoff : ∀ l, (hauls i).Owns l → ¬(hauls j).Owns l := fun l hi hj =>
    hij (hs.distinct hi hj)
  have hbare : c.tree.Bare (hauls i).stage → c'.tree.Bare (hauls i).stage := fun hb l hl => by
    rw [hc.lookup_eq (hoff l (.inl hl)), hb l hl]
  have hsame : (∀ rel, c.tree.node? ((hauls i).seat ++ rel) = t₀.node? ((hauls i).seat ++ rel)) →
      ∀ rel, c'.tree.node? ((hauls i).seat ++ rel) = t₀.node? ((hauls i).seat ++ rel) :=
    fun h rel => (hc.node?_eq (hoff _ (.inr (List.prefix_append _ rel)))).trans (h rel)
  cases h with
  | underway jobRun same =>
    refine .underway ?_ (hsame same)
    have hjobRun : c'.jobRun i = { c.jobRun i with surroundings := c'.surroundings } := by
      simp [Transfers.jobRun, hcrew, hfin]
    rw [hjobRun]
    refine jobRun.frame hc (fun ⟨hag, hn, hb⟩ => ?_) fun dir hm l hl => ?_
    · exact ⟨hag.trans (hc.toAgrees.mono fun l hl => ⟨j, hl⟩), hc.numbered hn, hbare hb⟩
    · rw [hs.folder_eq hm]
      exact ⟨fun hl' => hoff l (.inl hl') hl, j, hl⟩
  | undone finished undone bare same =>
    exact .undone (hfin.trans finished) undone (hbare bare) (hsame same)
  | done finished done bare holds =>
    exact .done (hfin.trans finished) done (hbare bare)
      (holds.frame hc (fun l hl => hoff l (.inr hl)) hnum)

/-- A beat of one worker changes the tree at the places of its transfer only. -/
theorem Progress.next [DecidableEq ι] (h : Progress u t₀ hauls c i) (hs : Separate u t₀ hauls)
    (m : StorageManager σ) (buffer : BufferSize) (b : Beat) :
    c.tree.Changes (hauls i).Owns (c.next m buffer (i, b)).tree ∧
      Progress u t₀ hauls (c.next m buffer (i, b)) i := by
  have hjobRun : (c.next m buffer (i, b)).jobRun i = (c.jobRun i).next m buffer b := by
    simp [Transfers.jobRun, Transfers.next]
  have hfin : (c.next m buffer (i, b)).finished i = ((c.jobRun i).next m buffer b).finished :=
    congrArg JobRun.finished hjobRun
  have htree : (c.next m buffer (i, b)).tree = ((c.jobRun i).next m buffer b).tree := rfl
  have hover : ∀ {j}, c.finished i = some j →
      (c.next m buffer (i, b)).finished i = some j ∧ (c.next m buffer (i, b)).tree = c.tree := by
    intro j hj
    obtain ⟨hfinished, hsame⟩ := JobRun.next_of_finished m buffer (x := c.jobRun i) hj b
    exact ⟨hfin.trans hfinished, congrArg Surroundings.tree hsame⟩
  cases h with
  | undone finished undone bare same =>
    obtain ⟨hj, hsame⟩ := hover finished
    exact ⟨hsame ▸ .refl _ _, .undone hj undone (hsame ▸ bare) (hsame ▸ same)⟩
  | done finished done bare holds =>
    obtain ⟨hj, hsame⟩ := hover finished
    exact ⟨hsame ▸ .refl _ _, .done hj done (hsame ▸ bare) (hsame ▸ holds)⟩
  | underway jobRun same =>
    have hstage : ∀ {t' : Tree}, c.tree.Changes ((hauls i).stage <+: ·) t' →
        c.tree.Changes (hauls i).Owns t' ∧
          ∀ rel, t'.node? ((hauls i).seat ++ rel) = t₀.node? ((hauls i).seat ++ rel) :=
      fun hc => ⟨hc.mono fun _ => .inl, fun rel =>
        (hc.node?_eq ((hauls i).not_stage_prefix_seat rel)).trans (same rel)⟩
    rcases jobRun.next (hs.ready i) m buffer b with ⟨hunder, htouched⟩ | ⟨j, hj, -, -, hclosed⟩
    · obtain ⟨hc, hsame⟩ := hstage (hs.changes_of_touched htouched)
      exact ⟨hc, .underway (hjobRun ▸ hunder) hsame⟩
    · rw [← hfin] at hj
      rw [← htree] at hclosed
      generalize ht' : (c.next m buffer (i, b)).tree = t' at hclosed ⊢
      cases hclosed with
      | unopened idle undone =>
        exact ⟨.refl _ _, .undone hj undone (ht' ▸ idle.2.2) (ht' ▸ same)⟩
      | dropped moored agrees undone changes bare =>
        rw [hs.folder_eq moored] at changes bare
        obtain ⟨hc, hsame⟩ := hstage changes
        exact ⟨hc, .undone hj undone (ht' ▸ bare) (ht' ▸ hsame)⟩
      | published moored agrees done changes holds bare kind =>
        rw [hs.folder_eq moored] at changes holds bare
        exact ⟨changes, .done hj done (ht' ▸ bare) (ht' ▸ holds)⟩

/-- Whichever worker takes the next beat, all stay in order. -/
theorem InOrder.next [DecidableEq ι] (h : InOrder u t₀ hauls c) (hs : Separate u t₀ hauls)
    (m : StorageManager σ) (buffer : BufferSize) (move : ι × Beat) :
    InOrder u t₀ hauls (c.next m buffer move) := by
  obtain ⟨i, b⟩ := move
  obtain ⟨hc, hown⟩ := (h.progress i).next hs m buffer b
  refine ⟨h.agrees.trans (hc.toAgrees.mono fun l hl => ⟨i, hl⟩), hc.numbered h.numbered,
    fun k => ?_⟩
  by_cases hk : k = i
  · exact hk ▸ hown
  · exact (h.progress k).frame hs hk hc h.numbered (Function.update_of_ne hk _ _)
      (Function.update_of_ne hk _ _)

theorem InOrder.after [DecidableEq ι] (h : InOrder u t₀ hauls c) (hs : Separate u t₀ hauls)
    (m : StorageManager σ) (buffer : BufferSize) (moves : List (ι × Beat)) :
    InOrder u t₀ hauls (c.after m buffer moves) := by
  induction moves generalizing c with
  | nil => exact h
  | cons move moves ih => exact ih (h.next hs m buffer move)

theorem InOrder.delivers (h : InOrder u t₀ hauls c) (hs : Separate u t₀ hauls) (i : ι) :
    c.Delivers t₀ hauls i := by
  have hsource := (hs.image_eq h.agrees i).trans (hs.image_eq hs.agrees i).symm
  cases h.progress i with
  | underway jobRun same =>
    have hnone : c.finished i = none := jobRun.unfinished
    exact ⟨fun _ => same, fun hj => by simp [hnone] at hj, hsource, fun hj => by simp [hnone] at hj⟩
  | undone finished undone bare same =>
    refine ⟨fun _ => same, fun hj hdone => ?_, hsource, fun _ => bare⟩
    rw [finished] at hj
    exact absurd hdone (Option.some.inj hj ▸ undone)
  | done finished done bare holds =>
    refine ⟨fun hnot => absurd done (hnot _ finished), fun _ _ rel => ?_, hsource, fun _ => bare⟩
    rw [hs.image_eq hs.agrees i]
    exact holds.node?_eq rel

end Runs

variable [DecidableEq ι]

/-- Transfers that do not meet do not disturb one another: whatever the order in which their
workers take their steps, and whatever mail arrives, each destination holds what stood there in
the beginning until its transfer is done, and the whole payload from then on. -/
theorem delivers_after (m : StorageManager σ) (buffer : BufferSize) (crew : ι → Worker)
    (g : Surroundings σ) (hauls : ι → Haul) {u : Tree} (h : Separate u g.tree hauls)
    (moves : List (ι × Beat)) (i : ι) :
    ((start crew g hauls).after m buffer moves).Delivers g.tree hauls i :=
  ((InOrder.start h crew).after h m buffer moves).delivers h i

end Transfers

/-! ## A pair of transfers -/

namespace Transfers

/-- A file of three bytes in the working directory. -/
def pairGround : Tree := Tree.blank.edits [.write ⟨"in"⟩ "new".toUTF8]

/-- The file, and an older one where the first transfer goes to. -/
def pairTree : Tree := (pairGround.addFile [Tree.homeName, "first"]).2

/-- A file and a buffer that go to two places. -/
def pair : Bool → Haul
  | false => ⟨⟨⟨1⟩, .fresh (.file ⟨"in"⟩) (.inl ⟨"first"⟩)⟩, ⟨"first"⟩, [Tree.homeName], "first"⟩
  | true => ⟨⟨⟨1⟩, .fresh (.buffer "text".toUTF8) (.inl ⟨"second"⟩)⟩, ⟨"second"⟩,
      [Tree.homeName], "second"⟩

theorem separate_pair : Separate pairGround pairTree pair := by
  have hsound : pairGround.Sound := Tree.sound_of_orderly (by decide +kernel)
  have hsound' : pairTree.Sound := Tree.sound_of_orderly (by decide +kernel)
  have hmade : pairGround.Changes (Owned pair) pairTree :=
    Tree.changes_addFile (by simp) ⟨false, .inr (List.prefix_refl _)⟩
  refine ⟨hsound, fun {i l} hl => ?_, hmade.toAgrees, hsound'.numbered, fun i => ?_, fun i => ?_,
    fun i => ?_, fun i => ?_, fun i => ?_, fun i => ?_, fun i => ?_, fun {i j source s} hp _ => ?_,
    fun {i j l} hi hj => ?_⟩
  · have hvacant : ∀ i, pairGround.lookup (pair i).stage = none ∧
        pairGround.lookup (pair i).seat = none := by decide +kernel
    exact hl.elim (hsound.bare (hvacant i).1 l) (hsound.bare (hvacant i).2 l)
  · refine hsound'.bare ?_
    revert i
    decide +kernel
  · cases i <;> rfl
  · cases i <;> rfl
  · cases i <;> exact ⟨by decide +kernel, by decide +kernel⟩
  · cases i <;> exact ⟨by decide +kernel, by decide +kernel, by decide, by decide +kernel⟩
  · have hparent : (pair i).destination.parent? = some ⟨""⟩ := by
      revert i
      decide +kernel
    intro q hq
    rw [hparent] at hq
    exact .inl (congrArg Path.text (Option.some.inj hq)).symm
  · cases i with
    | false =>
      have hin : pairGround.resolve .reach ⟨"in"⟩ = .ok [Tree.homeName, "in"] := by decide +kernel
      have hfile : pairGround.lookup [Tree.homeName, "in"] = some (.file 0) := by decide +kernel
      exact .file hin hfile hin hfile rfl
    | true => exact .buffer
  · cases i <;> simp [pair, Haul.payload, Item.fresh] at hp
  · by_contra hij
    have hapart : ∀ i j, i ≠ j → ∀ x ∈ [(pair i).stage, (pair i).seat],
        x ∉ [(pair j).stage, (pair j).seat] := by decide +kernel
    have htake : ∀ i, (pair i).Owns l → l.take 2 ∈ [(pair i).stage, (pair i).seat] := by
      intro i hl
      have hlengths : (pair i).stage.length = 2 ∧ (pair i).seat.length = 2 := by cases i <;> decide
      rcases hl with hl | hl
      · have heq := List.prefix_iff_eq_take.mp hl
        rw [hlengths.1] at heq
        simp [← heq]
      · have heq := List.prefix_iff_eq_take.mp hl
        rw [hlengths.2] at heq
        simp [← heq]
    exact hapart i j hij _ (htake i hi) (htake j hj)

/-- The two workers take turns until both have finished. -/
def pairRun : Transfers Bool Shelf :=
  (start (fun _ => .fresh) ⟨pairTree, .ofMedia [] none false⟩ pair).after Shelf.manager
    ⟨2, Nat.two_pos⟩ (List.replicate 11 [(false, .step), (true, .step)]).flatten

theorem delivers_after_pairRun :
    Separate pairGround pairTree pair ∧
      (∀ i, (pairRun.finished i).map (·.item.state) = some .done) ∧
      ∀ i, pairRun.Delivers pairTree pair i :=
  ⟨separate_pair, by decide +kernel, fun i => delivers_after Shelf.manager ⟨2, Nat.two_pos⟩
    (fun _ => .fresh) ⟨pairTree, .ofMedia [] none false⟩ pair separate_pair _ i⟩

/-! ## Rivals for one destination -/

/-- Two buffers that go to one place. -/
def rivals : Bool → Haul
  | false => ⟨⟨⟨1⟩, .fresh (.buffer "first".toUTF8) (.inl ⟨"out"⟩)⟩, ⟨"out"⟩, [Tree.homeName],
      "out"⟩
  | true => ⟨⟨⟨1⟩, .fresh (.buffer "second".toUTF8) (.inl ⟨"out"⟩)⟩, ⟨"out"⟩, [Tree.homeName],
      "out"⟩

/-- The first worker writes its buffer, then the second one does, then the first one closes its
job. -/
def rivalRun : Transfers Bool Shelf :=
  (start (fun _ => .fresh) ⟨.blank, .ofMedia [] none false⟩ rivals).after Shelf.manager
    ⟨64, by decide⟩
    (List.replicate 7 (false, .step) ++ List.replicate 7 (true, .step) ++ [(false, .step)])

/-- The first transfer is done, and its destination holds the buffer of the second. -/
theorem not_delivers_to_one_destination :
    (rivalRun.finished false).map (·.item.state) = some .done ∧ rivalRun.finished true = none ∧
      (rivals false).payload.image .blank [] = some (.file ⟨"first".toUTF8, none⟩) ∧
      rivalRun.tree.node? (rivals false).seat = some (.file ⟨"second".toUTF8, none⟩) ∧
      ¬rivalRun.Delivers .blank rivals false := by
  have hdone : (rivalRun.finished false).map (·.item.state) = some .done := by decide +kernel
  have himage : (rivals false).payload.image .blank [] = some (.file ⟨"first".toUTF8, none⟩) := by
    decide +kernel
  have hnode : rivalRun.tree.node? (rivals false).seat =
      some (.file ⟨"second".toUTF8, none⟩) := by
    decide +kernel
  refine ⟨hdone, by decide +kernel, himage, hnode, fun hdelivers => ?_⟩
  obtain ⟨j, hj, hstate⟩ := Option.map_eq_some_iff.mp hdone
  have hcomplete := hdelivers.complete hj hstate []
  rw [List.append_nil, hnode, himage] at hcomplete
  exact absurd hcomplete (by decide +kernel)

end Transfers

end Haulage
