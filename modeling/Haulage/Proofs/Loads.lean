import Haulage.Proofs.Copies
import Haulage.Proofs.Soundness
import Mathlib.Algebra.BigOperators.Group.Finset.Basic

/-!
# The load of a staged copy

The bytes that a session moves all come to lie in its staged copy. `Tree.load` is the number of
bytes in the files that stand at a location or below, and `Session.Laden` says that a staged copy
has taken in just so many: each chunk adds its size (`Laden.copyChunk`), whatever becomes of the
source meanwhile, and a commit brings the load to the destination as it is (`Laden.commit`).

A session begins with nothing (`laden_start`), if nothing stands where the staged copy of a
directory is to be made. A file that was left there is emptied when it is opened; a directory would
be filled up.
-/

namespace Haulage

open Disk Disk.Tree

namespace Disk.Tree

variable {t t' : Tree} {l l' x rel : Location}

/-! ## Loads -/

/-- The number of bytes in the file at a location, if a file stands there. -/
def bytesAt (t : Tree) (l : Location) : ℕ :=
  match t.lookup l with
  | some (.file id) => t.size id
  | _ => 0

/-- The number of bytes in the files at a location and below. -/
def load (t : Tree) (l : Location) : ℕ :=
  (t.entriesBelow l).foldr (fun x n => t.bytesAt (l ++ x.1) + n) (t.bytesAt l)

theorem bytesAt_of_file {id : ℕ} (h : t.lookup l = some (.file id)) : t.bytesAt l = t.size id := by
  rw [bytesAt, h]

theorem bytesAt_of_vacant (h : t.lookup l = none) : t.bytesAt l = 0 := by
  rw [bytesAt, h]

theorem bytesAt_of_directory (h : t.lookup l = some .directory) : t.bytesAt l = 0 := by
  rw [bytesAt, h]

/-- Entries that are the same hold as much if their files do. -/
theorem bytesAt_congr (hlook : t'.lookup l' = t.lookup l)
    (hsize : ∀ id, t.lookup l = some (.file id) → t'.size id = t.size id) :
    t'.bytesAt l' = t.bytesAt l := by
  unfold bytesAt
  rw [hlook]
  split
  · rename_i id hid
    exact hsize id hid
  · rfl

/-- The names at and below a location, from there on. -/
def stock (t : Tree) (l : Location) : Finset Location :=
  ([] :: (t.entriesBelow l).map Prod.fst).toFinset

theorem mem_stock (h : t.Sound) (hne : t.bytesAt (l ++ rel) ≠ 0) : rel ∈ t.stock l := by
  rw [stock, List.mem_toFinset, List.mem_cons]
  by_cases hnil : rel = []
  · exact .inl hnil
  · cases hlook : t.lookup (l ++ rel) with
    | none => exact absurd (bytesAt_of_vacant hlook) hne
    | some e =>
      exact .inr (List.mem_map_of_mem (f := Prod.fst)
        ((mem_entriesBelow h.distinct).mpr ⟨hnil, hlook⟩))

theorem load_eq_sum_stock (h : t.Sound) (l : Location) :
    t.load l = ∑ r ∈ t.stock l, t.bytesAt (l ++ r) := by
  have hfold (entries : List (Location × Entry)) (n : ℕ) :
      entries.foldr (fun x k => t.bytesAt (l ++ x.1) + k) n =
        ((entries.map Prod.fst).map fun r => t.bytesAt (l ++ r)).sum + n := by
    induction entries with
    | nil => simp
    | cons x rest ih =>
      rw [List.foldr_cons, ih, List.map_cons, List.map_cons, List.sum_cons, Nat.add_assoc]
  have hnodup : ([] :: (t.entriesBelow l).map Prod.fst).Nodup := by
    refine List.nodup_cons.mpr ⟨fun hmem => ?_,
      Branches.nodup_toList (Branches.Distinct.sub h.distinct l)⟩
    obtain ⟨⟨r, e⟩, hr, hnil⟩ := List.mem_map.mp hmem
    exact ((mem_entriesBelow h.distinct).mp hr).1 hnil
  rw [stock, List.sum_toFinset _ hnodup, load, hfold, List.map_cons, List.sum_cons,
    List.append_nil, Nat.add_comm]

/-- A load may be added up over any names that cover all that is there. -/
theorem load_eq_sum (h : t.Sound) {S : Finset Location} (hS : t.stock l ⊆ S) :
    t.load l = ∑ r ∈ S, t.bytesAt (l ++ r) := by
  rw [load_eq_sum_stock h]
  exact Finset.sum_subset hS fun r _ hr => by_contra fun hne => hr (mem_stock h hne)

/-- Where all is the same the load is. -/
theorem load_congr (h : t.Sound) (h' : t'.Sound)
    (heq : ∀ r, t'.bytesAt (l' ++ r) = t.bytesAt (l ++ r)) : t'.load l' = t.load l := by
  have hsub' : t'.stock l' ⊆ t'.stock l' ∪ t.stock l := Finset.subset_union_left
  have hsub : t.stock l ⊆ t'.stock l' ∪ t.stock l := Finset.subset_union_right
  rw [load_eq_sum h' hsub', load_eq_sum h hsub]
  exact Finset.sum_congr rfl fun r _ => heq r

/-- What one file gains or loses, the load does. -/
theorem load_change (h : t.Sound) (h' : t'.Sound) (rel : Location)
    (heq : ∀ r, r ≠ rel → t'.bytesAt (l ++ r) = t.bytesAt (l ++ r)) :
    t'.load l + t.bytesAt (l ++ rel) = t.load l + t'.bytesAt (l ++ rel) := by
  set S := {rel} ∪ (t'.stock l ∪ t.stock l)
  have hmem : rel ∈ S := Finset.mem_union_left _ (Finset.mem_singleton_self rel)
  have hsub' : t'.stock l ⊆ S := Finset.subset_union_left.trans Finset.subset_union_right
  have hsub : t.stock l ⊆ S := Finset.subset_union_right.trans Finset.subset_union_right
  have hrest : ∑ r ∈ S.erase rel, t'.bytesAt (l ++ r) = ∑ r ∈ S.erase rel, t.bytesAt (l ++ r) :=
    Finset.sum_congr rfl fun r hr => heq r (Finset.ne_of_mem_erase hr)
  rw [load_eq_sum h' hsub', load_eq_sum h hsub, ← Finset.add_sum_erase _ _ hmem,
    ← Finset.add_sum_erase S (fun r => t.bytesAt (l ++ r)) hmem, hrest]
  omega

theorem load_eq_zero (h : t.Sound) (hzero : ∀ r, t.bytesAt (l ++ r) = 0) : t.load l = 0 := by
  rw [load_eq_sum_stock h]
  exact Finset.sum_eq_zero fun r _ => hzero r

/-! ## What work does to a load -/

/-- Work at one entry leaves the other files as they are. -/
theorem Worked.bytesAt_eq (h : Worked (· = l ++ rel) l t t') {r : Location} (hr : r ≠ rel) :
    t'.bytesAt (l ++ r) = t.bytesAt (l ++ r) := by
  have hoff : l ++ r ≠ l ++ rel := fun heq => hr (List.append_cancel_left heq)
  refine bytesAt_congr (h.alters.lookup_eq hoff) fun id hid => ?_
  unfold size
  rw [h.alters.data_eq hoff hid]

/-- Directories that are made hold no bytes. -/
theorem Furnished.bytesAt_eq (h : Furnished l t t') (r : Location) :
    t'.bytesAt (l ++ r) = t.bytesAt (l ++ r) := by
  have hsize (id : ℕ) : t'.size id = t.size id := by rw [size, size, h.data_eq]
  cases hlook : t.lookup (l ++ r) with
  | some e => exact bytesAt_congr (by rw [h.keeps.lookup_eq hlook, hlook]) fun id _ => hsize id
  | none =>
    rw [bytesAt_of_vacant hlook]
    cases hlook' : t'.lookup (l ++ r) with
    | none => exact bytesAt_of_vacant hlook'
    | some e =>
      cases e with
      | directory => exact bytesAt_of_directory hlook'
      | link target => exact absurd hlook' (h.plain.noLink (List.prefix_append _ _) target)
      | file id =>
        -- the file is no old one, which would stand where it stood, and so it is empty
        rw [bytesAt_of_file hlook', hsize]
        rcases h.alters.origin (List.prefix_append l r) hlook' with hnew | ⟨m, hm, hold⟩
        · rw [size, data, Array.getElem?_eq_none hnew]
          rfl
        · have hsame := h.plain.sole hm (h.keeps.lookup_eq hold) hlook'
          rw [hsame, hold] at hlook
          simp at hlook

/-! ## Staged copies in order -/

/-- The file at a location, and how many bytes have been written into it. -/
structure Written (t : Tree) (x : Location) (id n : ℕ) : Prop where
  lookup_eq : t.lookup x = some (.file id)
  size_eq : t.size id = n

theorem Written.bytesAt_eq {id n : ℕ} (h : t.Written x id n) : t.bytesAt x = n := by
  rw [bytesAt_of_file h.lookup_eq, h.size_eq]

/-- In a sound tree the path `p` names the entry `m` of the directory `dir`, and what stands there
is plain and holds `k` bytes. -/
structure Stows (t : Tree) (p : Path) (dir : Location) (m : String) (k : ℕ) : Prop where
  sound : t.Sound
  rooted : t.Rooted
  seats : t.Seats p dir m
  plain : t.Plain (dir ++ [m])
  load_eq : t.load (dir ++ [m]) = k

namespace Stows

variable {p : Path} {dir : Location} {m : String} {k j id n : ℕ}

/-- Directories may be made below. -/
theorem furnish (h : t.Stows p dir m k) (hf : Furnished (dir ++ [m]) t t') (hg : t.Grows t') :
    t'.Stows p dir m k where
  sound := hg.sound
  rooted := hg.rooted h.rooted
  seats := h.seats.mono hg.toKeeps
  plain := hf.plain
  load_eq := (load_congr h.sound hg.sound hf.bytesAt_eq).trans h.load_eq

/-- The bytes that a file below gains are added. -/
theorem work (h : t.Stows p dir m k) (hw : Worked (· = dir ++ [m] ++ rel) (dir ++ [m]) t t')
    (hg : t.Grows t')
    (hgain : t'.bytesAt (dir ++ [m] ++ rel) = t.bytesAt (dir ++ [m] ++ rel) + j) :
    t'.Stows p dir m (k + j) where
  sound := hg.sound
  rooted := hg.rooted h.rooted
  seats := h.seats.mono hg.toKeeps
  plain := hw.plain
  load_eq := by
    have hchange := load_change h.sound hg.sound rel fun r hr => hw.bytesAt_eq hr
    have hload := h.load_eq
    omega

/-- A file may be opened for writing where no bytes stand. -/
theorem create (h : t.Stows p dir m k) {q : Path} {init : List String} {i : String}
    (hq : q.EndsIn init i) (hat : ∀ dir', t.Seats q dir' i → dir' ++ [i] = dir ++ [m] ++ rel)
    (hempty : t.bytesAt (dir ++ [m] ++ rel) = 0) (hcreate : t.create q = .ok (id, t')) :
    t'.Stows p dir m k ∧ t'.Written (dir ++ [m] ++ rel) id 0 ∧
      Worked (· = dir ++ [m] ++ rel) (dir ++ [m]) t t' := by
  obtain ⟨dir', hseat⟩ := seats_of_create hq hcreate
  obtain ⟨hworked, hthere, hbytes⟩ := hseat.create_worked h.plain
    (hat dir' hseat ▸ List.prefix_append _ _) h.sound.numbered hcreate
  rw [hat dir' hseat] at hworked hthere
  have hwritten : t'.Written (dir ++ [m] ++ rel) id 0 := ⟨hthere, by rw [size, hbytes]; rfl⟩
  refine ⟨h.work hworked (h.sound.create_grows h.rooted hcreate) (j := 0) ?_, hwritten, hworked⟩
  rw [hwritten.bytesAt_eq, hempty]

/-- A chunk is written where the last one ended. -/
theorem writeAt (h : t.Stows p dir m k) (hw : t.Written (dir ++ [m] ++ rel) id n) (chunk : Bytes) :
    (t.writeAt id n chunk).Stows p dir m (k + chunk.size) ∧
      (t.writeAt id n chunk).Written (dir ++ [m] ++ rel) id (n + chunk.size) ∧
      Worked (· = dir ++ [m] ++ rel) (dir ++ [m]) t (t.writeAt id n chunk) := by
  have hworked := h.plain.writeAt (List.prefix_append _ rel) hw.lookup_eq n chunk
  have hwritten : (t.writeAt id n chunk).Written (dir ++ [m] ++ rel) id (n + chunk.size) := by
    refine ⟨hw.lookup_eq, ?_⟩
    have hsize := hw.size_eq
    unfold size at hsize ⊢
    rw [data_writeAt, if_pos ⟨rfl, h.sound.numbered _ _ hw.lookup_eq⟩, Bytes.size_overwrite, hsize]
    omega
  have hgrows : t.Grows (t.writeAt id n chunk) :=
    ⟨⟨rfl, fun hlook => hlook⟩, h.sound.writeAt id n chunk⟩
  refine ⟨h.work hworked hgrows ?_, hwritten, hworked⟩
  rw [hwritten.bytesAt_eq, hw.bytesAt_eq]

/-- The time of a file may be set. -/
theorem stamp (h : t.Stows p dir m k) (hw : t.Written (dir ++ [m] ++ rel) id n) {q : Path}
    {init : List String} {i : String} (hq : q.EndsIn init i)
    (hat : ∀ dir', t.Seats q dir' i → dir' ++ [i] = dir ++ [m] ++ rel) (s : Option Stamp) :
    (t.orSame (t.setModified q s)).Stows p dir m k ∧
      Worked (· = dir ++ [m] ++ rel) (dir ++ [m]) t (t.orSame (t.setModified q s)) := by
  obtain ⟨hworked, hbytes⟩ := orSame_setModified_worked hq h.plain (List.prefix_append _ rel)
    hw.lookup_eq hat s
  have hgrows : t.Grows (t.orSame (t.setModified q s)) :=
    h.sound.orSame_grows fun t' hset => h.sound.setModified_grows hset
  refine ⟨h.work hworked hgrows (j := 0) ?_, hworked⟩
  refine bytesAt_congr ?_ fun id' _ => ?_
  · rw [hworked.keeps.lookup_eq hw.lookup_eq, hw.lookup_eq]
  · unfold size
    rw [hbytes]

end Stows

end Disk.Tree

/-! ## Sessions and their loads -/

/-- The bytes that a step of a session has moved. -/
def movedBy : Except CopyFailure Chunk → ℕ
  | .ok (.copied n) => n
  | _ => 0

namespace Session

variable {t t' : Tree} {d source : Path} {init : List String} {m : String} {dir l rel : Location}
  {k n : ℕ} {pending rest : List Pending} {e : Pending} {copy : OpenCopy} {s : Session}

/-- Names that lead to different places below a directory. -/
structure Named (names : List Location) : Prop where
  nodup : names.Nodup
  ne_nil {r : Location} (h : r ∈ names) : r ≠ []
  isName {r : Location} (h : r ∈ names) {i : String} (hi : i ∈ r) : IsName i

/-- A session goes on at its staged copy: the file that is open has been written up to the position,
and where files are still to come there are no bytes. -/
inductive Poised (t : Tree) (d : Path) (l : Location) : Session → Prop
  | file {copy : OpenCopy} (written : t.Written l copy.target copy.position) :
      Poised t d l (.file copy d)
  | buffer {data : Bytes} {position target : ℕ} (written : t.Written l target position) :
      Poised t d l (.buffer data position target d)
  | between {source : Path} {pending : List Pending} (root : t.lookup l = some .directory)
      (named : Named (pending.map Pending.names))
      (empty : ∀ e ∈ pending, t.bytesAt (l ++ e.names) = 0) :
      Poised t d l (.directory source pending none d)
  | within {source : Path} {pending : List Pending} {copy : OpenCopy} {rel : Location}
      (root : t.lookup l = some .directory) (named : Named (rel :: pending.map Pending.names))
      (empty : ∀ e ∈ pending, t.bytesAt (l ++ e.names) = 0)
      (written : t.Written (l ++ rel) copy.target copy.position) :
      Poised t d l (.directory source pending (some (copy, (staged d).descend rel)) d)

/-- The staged copy of a session holds `k` bytes, and the session goes on there. -/
structure Laden (t : Tree) (d : Path) (dir : Location) (m : String) (k : ℕ) (s : Session) :
    Prop where
  stows : t.Stows (staged d) dir m k
  poised : s.Poised t d (dir ++ [m])

theorem Laden.destination_eq (h : s.Laden t d dir m k) : s.destination = d := by
  obtain ⟨-, hpoised⟩ := h
  cases hpoised <;> rfl

/-! ### Turning to an entry -/

/-- What turning to an entry leaves: the load is the same, and a file that was opened is empty. -/
structure TurnedTo (t : Tree) (d : Path) (dir : Location) (m : String) (k : ℕ) (e : Pending)
    (r : Except CopyFailure (Option (OpenCopy × Path)) × Tree) : Prop where
  stows : r.2.Stows (staged d) dir m k
  bytesAt_eq {x : Location} (h : x ≠ e.names) :
    r.2.bytesAt (dir ++ [m] ++ x) = t.bytesAt (dir ++ [m] ++ x)
  opened {copy : OpenCopy} {target : Path} (h : r.1 = .ok (some (copy, target))) :
    target = (staged d).descend e.names ∧
      r.2.Written (dir ++ [m] ++ e.names) copy.target copy.position

theorem TurnedTo.of_furnished {r : Except CopyFailure (Option (OpenCopy × Path))}
    (h : t.Stows (staged d) dir m k) (hf : Furnished (dir ++ [m]) t t') (hg : t.Grows t')
    (hr : ∀ x, r ≠ .ok (some x)) : TurnedTo t d dir m k e (r, t') :=
  ⟨h.furnish hf hg, fun _ => hf.bytesAt_eq _, fun hopened => absurd hopened (hr _)⟩

theorem openEntry_turnedTo (source : Path) (hend : (staged d).EndsIn init m)
    (h : t.Stows (staged d) dir m k) (hroot : t.lookup (dir ++ [m]) = some .directory)
    (hne : e.names ≠ []) (hname : ∀ i ∈ e.names, IsName i)
    (hempty : t.bytesAt (dir ++ [m] ++ e.names) = 0) :
    TurnedTo t d dir m k e (openEntry t source d e) := by
  unfold openEntry
  simp only
  split
  · -- a directory
    have hf := (makeChain_below h.seats hend h.plain hroot
      (((staged d).descend e.names).text.length + 1) hne hname).furnished
    have hg := h.sound.makeDirectories_grows h.rooted ((staged d).descend e.names)
    rw [← makeDirectories] at hf
    generalize t.makeDirectories ((staged d).descend e.names) = made at hf hg
    obtain ⟨made, t₁⟩ := made
    cases made <;> exact .of_furnished h hf hg (by simp)
  · -- a file
    cases hread : t.openRead (source.descend e.names) with
    | error f => exact .of_furnished h (.refl h.plain) (.refl h.sound) (by simp)
    | ok handle =>
      obtain ⟨r, i, hnames⟩ := (List.eq_nil_or_concat e.names).resolve_left hne
      rw [List.concat_eq_append] at hnames
      have hf := makeParents_below h.seats hend h.plain hroot (hnames ▸ hname)
      rw [← hnames] at hf
      have hg := h.sound.makeParents_grows h.rooted ((staged d).descend e.names)
      simp only
      generalize t.makeParents ((staged d).descend e.names) = made at hf hg
      obtain ⟨made, t₁⟩ := made
      cases made with
      | error f => exact .of_furnished h hf hg (by simp)
      | ok _ =>
        simp only [startCopy]
        cases hcreate : t₁.create ((staged d).descend e.names) with
        | error f => exact .of_furnished h hf hg (by simp)
        | ok created =>
          obtain ⟨id, t₂⟩ := created
          have h₁ := h.furnish hf hg
          obtain ⟨_, _, hq, hat⟩ := h₁.seats.seat_of_names hend h₁.plain hne hname
          obtain ⟨hstows, hwritten, hw⟩ := h₁.create hq hat ((hf.bytesAt_eq _).trans hempty) hcreate
          refine ⟨hstows, fun hx => (hw.bytesAt_eq hx).trans (hf.bytesAt_eq _), fun hopened => ?_⟩
          simp only [Except.ok.injEq, Option.some.injEq, Prod.mk.injEq] at hopened
          rw [← hopened.1, ← hopened.2]
          exact ⟨rfl, hwritten⟩

/-- Going through the entries up to the first file leaves the load as it is. -/
theorem openNext_laden (hend : (staged d).EndsIn init m)
    (h : Laden t d dir m k (.directory source pending none d)) :
    let r := openNext t source d pending
    Laden r.2.2 d dir m k (.directory source r.2.1 r.1.toOption.join d) := by
  induction pending generalizing t with
  | nil => exact h
  | cons e rest ih =>
    obtain ⟨hstows, hpoised⟩ := h
    cases hpoised with
    | between hroot hnamed hempty =>
      have hmem : e.names ∈ (e :: rest).map Pending.names := List.mem_map_of_mem List.mem_cons_self
      have hturned := openEntry_turnedTo source hend hstows hroot
        (hnamed.ne_nil hmem) (fun i hi => hnamed.isName hmem hi) (hempty e List.mem_cons_self)
      have hgrows := openEntry_grows hstows.sound hstows.rooted source d e
      have hnew := List.nodup_cons.mp hnamed.nodup
      have hnamed' : Named (rest.map Pending.names) :=
        ⟨hnew.2, fun hr => hnamed.ne_nil (List.mem_cons_of_mem _ hr),
          fun hr => hnamed.isName (List.mem_cons_of_mem _ hr)⟩
      unfold openNext
      generalize openEntry t source d e = r at hturned hgrows
      obtain ⟨r, t₁⟩ := r
      have hempty' : ∀ x ∈ rest, t₁.bytesAt (dir ++ [m] ++ x.names) = 0 := fun x hx =>
        (hturned.bytesAt_eq fun heq => hnew.1 (heq ▸ List.mem_map_of_mem hx)).trans
          (hempty x (List.mem_cons_of_mem _ hx))
      have hroot' := hgrows.lookup_eq hroot
      rcases r with f | _ | ⟨copy, target⟩
      · exact ⟨hturned.stows, .between hroot' hnamed' hempty'⟩
      · exact ih ⟨hturned.stows, .between hroot' hnamed' hempty'⟩
      · obtain ⟨rfl, hwritten⟩ := hturned.opened rfl
        exact ⟨hturned.stows, .within hroot' hnamed hempty' hwritten⟩

/-! ### Moving a chunk -/

/-- The open file of a directory is copied on, or closed. -/
theorem copyCurrent_laden (hend : (staged d).EndsIn init m) {target : Path}
    (h : Laden t d dir m k (.directory source pending (some (copy, target)) d)) (n : ℕ) :
    let r := copyCurrent n t source pending copy target d
    Laden r.2.2 d dir m (k + movedBy r.1) r.2.1 := by
  obtain ⟨hstows, hpoised⟩ := h
  cases hpoised with
  | @within _ _ _ rel hroot hnamed hempty hwritten =>
    have hnew := List.nodup_cons.mp hnamed.nodup
    have hother {t' : Tree}
        (hw : Worked (· = dir ++ [m] ++ rel) (dir ++ [m]) t t') :
        ∀ x ∈ pending, t'.bytesAt (dir ++ [m] ++ x.names) = 0 := fun x hx =>
      (hw.bytesAt_eq fun heq => hnew.1 (heq ▸ List.mem_map_of_mem hx)).trans (hempty x hx)
    unfold copyCurrent
    rcases step_cases t n copy with ⟨_, -, hstep⟩ | ⟨id, -, ⟨-, hstep⟩ | ⟨hne, hstep⟩⟩
    · simp only [hstep]
      exact ⟨hstows, .within hroot hnamed hempty hwritten⟩
    · simp only [hstep]
      obtain ⟨_, _, hq, hat⟩ := hstows.seats.seat_of_names hend hstows.plain
        (hnamed.ne_nil List.mem_cons_self) fun i hi => hnamed.isName List.mem_cons_self hi
      obtain ⟨hstows', hw⟩ := hstows.stamp hwritten hq hat copy.modified
      have hnamed' : Named (pending.map Pending.names) :=
        ⟨hnew.2, fun hr => hnamed.ne_nil (List.mem_cons_of_mem _ hr),
          fun hr => hnamed.isName (List.mem_cons_of_mem _ hr)⟩
      exact ⟨hstows', .between (hw.keeps.lookup_eq hroot) hnamed' (hother hw)⟩
    · obtain ⟨c, hc⟩ := Nat.exists_eq_succ_of_ne_zero hne
      obtain ⟨hstows', hwritten', hw⟩ := hstows.writeAt hwritten (t.readAt id copy.position n)
      simp only [hstep, hc]
      rw [hc] at hstows' hwritten'
      exact ⟨hstows', .within (hw.keeps.lookup_eq hroot) hnamed (hother hw) hwritten'⟩

/-- What a step of a session moves is added to the load. -/
theorem Laden.copyChunk (hend : (staged d).EndsIn init m) (h : s.Laden t d dir m k) (n : ℕ) :
    let r := s.copyChunk n t
    r.2.1.Laden r.2.2 d dir m (k + movedBy r.1) := by
  obtain ⟨hstows, hpoised⟩ := h
  cases hpoised with
  | @file copy hwritten =>
    unfold Session.copyChunk
    rcases step_cases t n copy with ⟨_, -, hstep⟩ | ⟨id, -, ⟨-, hstep⟩ | ⟨hne, hstep⟩⟩
    · simp only [hstep]
      exact ⟨hstows, .file hwritten⟩
    · simp only [hstep]
      exact ⟨hstows, .file hwritten⟩
    · obtain ⟨c, hc⟩ := Nat.exists_eq_succ_of_ne_zero hne
      rw [← List.append_nil (dir ++ [m])] at hwritten
      obtain ⟨hstows', hwritten', -⟩ := hstows.writeAt hwritten (t.readAt id copy.position n)
      rw [List.append_nil] at hwritten'
      simp only [hstep, hc]
      rw [hc] at hstows' hwritten'
      exact ⟨hstows', .file hwritten'⟩
  | @buffer data position target hwritten =>
    unfold Session.copyChunk
    simp only
    split
    · exact ⟨hstows, .buffer hwritten⟩
    · rw [← List.append_nil (dir ++ [m])] at hwritten
      obtain ⟨hstows', hwritten', -⟩ := hstows.writeAt hwritten (data.slice position n)
      rw [List.append_nil] at hwritten'
      exact ⟨hstows', .buffer hwritten'⟩
  | @between source pending hroot hnamed hempty =>
    have hladen : Laden t d dir m k (.directory source pending none d) :=
      ⟨hstows, .between hroot hnamed hempty⟩
    have hnext := openNext_laden hend hladen
    simp only [Session.copyChunk]
    generalize openNext t source d pending = r at hnext
    obtain ⟨r, rest, t₁⟩ := r
    rcases r with f | _ | ⟨copy, target⟩
    · exact hnext
    · exact hnext
    · exact copyCurrent_laden hend hnext n
  | within hroot hnamed hempty hwritten =>
    exact copyCurrent_laden hend ⟨hstows, .within hroot hnamed hempty hwritten⟩ n

/-! ### Closing -/

/-- Setting the time of a staged file leaves the load as it is. -/
theorem Laden.timed (hend : (staged d).EndsIn init m) (h : s.Laden t d dir m k) :
    (s.timed t).Stows (staged d) dir m k := by
  obtain ⟨hstows, hpoised⟩ := h
  cases hpoised with
  | @file copy hwritten =>
    rw [← List.append_nil (dir ++ [m])] at hwritten
    refine (hstows.stamp hwritten hend (fun dir' hseat => ?_) copy.modified).1
    rw [List.append_nil, Except.ok.inj (hseat.holder_eq.symm.trans hstows.seats.holder_eq)]
  | buffer _ => exact hstows
  | between _ _ _ => exact hstows
  | within _ _ _ _ => exact hstows

/-- A commit that succeeds brings the load to the destination. -/
theorem Laden.commit {n : String} (hd : d.EndsIn init n)
    (h : s.Laden t d dir (n ++ ".mlc.partial") k) (hcommit : (s.commit t).1 = .ok ()) :
    t.Seats d dir n ∧ (s.commit t).2.load (dir ++ [n]) = k := by
  have hstows := h.timed hd.staged
  have hseat := hstows.seats.destination hd
  have hsound := sound_commit h.stows.sound h.stows.rooted s
  refine ⟨h.stows.seats.destination hd, ?_⟩
  unfold Session.commit at hcommit hsound ⊢
  simp only [h.destination_eq] at hcommit hsound ⊢
  generalize hrename : (s.timed t).rename (staged d) d = r at hcommit hsound ⊢
  cases r with
  | error f => simp at hcommit
  | ok t' =>
    simp only at hsound ⊢
    have hne : dir ++ [n ++ ".mlc.partial"] ≠ dir ++ [n] := fun heq =>
      (stageAt_apart dir n).1 (heq ▸ List.prefix_refl _)
    obtain ⟨rfl, -⟩ := hstows.seats.rename_ok hseat hne hrename
    rw [← hstows.load_eq]
    refine load_congr hstows.sound hsound fun r => bytesAt_congr ?_ fun _ _ => rfl
    rw [lookup_relocate _ _ (by simp) (by simp),
      if_pos (List.isPrefixOf_iff_prefix.mpr (List.prefix_append _ r)), List.drop_left]

end Session

namespace Disk.Tree

variable {t t' : Tree} {p : Path}

/-- A directory that was made is there. -/
theorem status_of_makeDirectory (h : t.makeDirectory p = .ok t') :
    t'.status p = .ok .directory := by
  obtain ⟨dir, n, hholder, hlast, hsize, hfree, rfl⟩ := makeDirectory_inv h
  obtain ⟨hrefusal, k, hleads⟩ := holder_eq_ok.mp hholder
  obtain ⟨hnames, hne, hdot, hdots⟩ := names_of_lastStep hlast
  have hgone : (t.insert (dir ++ [n]) .directory).Leads maxLinks (origin t.home p)
      p.names.dropLast k dir :=
    hleads.mono fun _ _ hlook _ => (keeps_insert hfree).lookup_eq hlook
  have hdir : (t.insert (dir ++ [n]) .directory).lookup (dir ++ [n]) = some .directory := by
    rw [lookup_insert _ _ _ (by simp), if_pos rfl]
  have hsteps : ∃ rest, p.steps = p.names.dropLast ++ n :: rest ∧ (rest = [] ∨ rest = [""]) := by
    unfold Path.steps
    split
    · exact ⟨[""], by rw [hnames, List.dropLast_concat, List.append_assoc]; rfl, .inr rfl⟩
    · exact ⟨[], hnames, .inl rfl⟩
  obtain ⟨rest, hsteps, hrest⟩ := hsteps
  have hplace : (t.insert (dir ++ [n]) .directory).place .reach p =
      .ok (.found (dir ++ [n])) := by
    have hhome : (t.insert (dir ++ [n]) .directory).home = t.home := rfl
    rw [place, hrefusal, hsteps, hhome]
    simp only
    rw [hgone.walk_append (by simp) (by simp),
      walk_directory ⟨hne, hdot, hdots, hsize⟩ hdir (by simp)]
    rcases hrest with rfl | rfl
    · exact walk_nil ..
    · rw [walk_idle (.inl rfl), walk_nil]
  rw [status, resolve, hplace]
  simp [node?_of_directory hdir]

/-- So is one that was made with the way to it. -/
theorem status_of_makeDirectories (h : t.makeDirectories p = (.ok (), t')) :
    p.text = "" ∨ t'.status p = .ok .directory := by
  have hthere {u : Tree} {e : FileError}
      (hfound : (if u.isDirectory p then (Except.ok (), u) else (.error e, u)) = (.ok (), t')) :
      t'.status p = .ok .directory := by
    split at hfound
    · rename_i hdir
      obtain ⟨-, rfl⟩ := Prod.mk.inj hfound
      unfold isDirectory at hdir
      split at hdir
      · assumption
      · cases hdir
    · cases hfound
  unfold makeDirectories makeChain at h
  split at h
  · rename_i htext
    exact .inl htext
  · right
    split at h
    · rename_i hmake
      obtain ⟨-, rfl⟩ := Prod.mk.inj h
      exact status_of_makeDirectory hmake
    · split at h
      · split at h
        · cases h
        · split at h
          · cases h
          · split at h
            · rename_i hmake
              obtain ⟨-, rfl⟩ := Prod.mk.inj h
              exact status_of_makeDirectory hmake
            · exact hthere h
      · exact hthere h

theorem hasParents_of_makeParents (h : t.makeParents p = (.ok (), t')) : t'.HasParents p := by
  intro q hq
  unfold makeParents at h
  rw [hq] at h
  exact status_of_makeDirectories h

end Disk.Tree

namespace Session

variable {t t' : Tree} {p : Payload} {d : Path} {init : List String} {n m : String} {s : Session}
  {id : ℕ}

/-! ### Opening -/

/-- A staged copy of the payload can be begun in the tree: what stands in its place is plain, and
nothing at all where a directory is to be made. -/
structure Unobstructed (t : Tree) (p : Payload) (d : Path) : Prop where
  sound : t.Sound
  rooted : t.Rooted
  plain : (t.makeParents d).2.PlainAt (staged d)
  free {source : Path} (h : p = .directory source) (x : Node) :
    (t.makeParents d).2.linkStatus (staged d) ≠ .ok x

/-- Where nothing stands nothing is in the way. -/
theorem Unobstructed.of_free (hu : t.Sound) (hr : t.Rooted)
    (hfree : ∀ x, (t.makeParents d).2.linkStatus (staged d) ≠ .ok x) : Unobstructed t p d where
  sound := hu
  rooted := hr
  plain _ _ hseat :=
    .of_bare ((hu.makeParents_grows hr d).sound.bare (hseat.lookup_eq_none hfree))
  free _ := hfree

theorem create_stows (hu : t.Sound) (hr : t.Rooted) (hplain : t.PlainAt (staged d))
    (hend : (staged d).EndsIn init m) (hcreate : t.create (staged d) = .ok (id, t')) :
    ∃ dir, t'.Stows (staged d) dir m 0 ∧ t'.Written (dir ++ [m]) id 0 := by
  obtain ⟨dir, hseat⟩ := seats_of_create hend hcreate
  obtain ⟨hw, hlook, hempty⟩ :=
    hseat.create_worked (hplain _ _ hseat) (List.prefix_refl _) hu.numbered hcreate
  have hgrows := hu.create_grows hr hcreate
  have hwritten : t'.Written (dir ++ [m]) id 0 := ⟨hlook, by rw [size, hempty]; rfl⟩
  refine ⟨dir, ⟨hgrows.sound, hgrows.rooted hr, hseat.mono hgrows.toKeeps, hw.plain, ?_⟩, hwritten⟩
  refine load_eq_zero hgrows.sound fun r => ?_
  by_cases hnil : r = []
  · rw [hnil, List.append_nil, hwritten.bytesAt_eq]
  · exact bytesAt_of_vacant (hgrows.sound.below_of_ne_directory (by simp [hlook]) r hnil)

theorem makeDirectories_stows (hu : t.Sound) (hr : t.Rooted) (hparents : t.HasParents (staged d))
    (hend : (staged d).EndsIn init m) (hfree : ∀ x, t.linkStatus (staged d) ≠ .ok x)
    (hmake : t.makeDirectories (staged d) = (.ok (), t')) :
    ∃ dir, t'.Stows (staged d) dir m 0 ∧ t'.lookup (dir ++ [m]) = some .directory ∧
      ∀ r, t'.bytesAt (dir ++ [m] ++ r) = 0 := by
  rcases makeDirectories_cases hend hparents hfree with ⟨dir, hseat, hmade⟩ | ⟨e, hmade⟩
  · obtain ⟨-, rfl⟩ := Prod.mk.inj (hmake.symm.trans hmade)
    have hvacant := hseat.lookup_eq_none hfree
    have hbare := hu.bare hvacant
    have hgrows : t.Grows (t.insert (dir ++ [m]) .directory) := by
      have hgrows := hu.makeDirectories_grows hr (staged d)
      rwa [hmade] at hgrows
    have hne : dir ++ [m] ≠ [] := by simp
    have hthere := lookup_insert t .directory (dir ++ [m]) hne
    rw [if_pos rfl] at hthere
    have hzero (r : Location) :
        (t.insert (dir ++ [m]) .directory).bytesAt (dir ++ [m] ++ r) = 0 := by
      by_cases hnil : r = []
      · rw [hnil, List.append_nil, bytesAt_of_directory hthere]
      · refine bytesAt_of_vacant ?_
        rw [lookup_insert _ _ _ hne, if_neg (by simpa using hnil)]
        exact hbare _ (List.prefix_append _ _)
    exact ⟨dir, ⟨hgrows.sound, hgrows.rooted hr, hseat.mono hgrows.toKeeps,
      ((Plain.of_bare hbare).insert_directory hne hvacant).plain,
      load_eq_zero hgrows.sound hzero⟩, hthere, hzero⟩
  · rw [hmake] at hmade
    simp at hmade

/-- What is listed for copying has names that lead to different places. -/
theorem named_of_listing (hu : t.Sound) {source : Path} {entries : List (Location × Disk.Entry)}
    (hlist : t.listing source = .ok entries) :
    Named ((entries.filterMap pendingOf).map Pending.names) := by
  have hagenda (l : Location) : Named ((agenda t l).map Pending.names) := by
    refine ⟨List.pairwise_map.mpr ((agenda_sorted hu).imp fun hlt => ne_of_lt hlt), ?_, ?_⟩
    · intro r hr
      obtain ⟨e, he, rfl⟩ := List.mem_map.mp hr
      exact ((mem_agenda hu).mp he).1
    · intro r hr i hi
      obtain ⟨e, he, rfl⟩ := List.mem_map.mp hr
      exact isName_of_agenda hu he hi
  cases hresolve : t.resolve .reach source with
  | error e =>
    unfold listing at hlist
    rw [hresolve] at hlist
    split at hlist <;> cases hlist
  | ok l =>
    by_cases hdir : t.lookup l = some .directory
    · rw [agenda_of_listing hresolve hdir hlist]
      exact hagenda l
    · have hnone : entries = [] := by
        unfold listing at hlist
        rw [hresolve] at hlist
        split at hlist
        · cases hlist
        · simp only at hlist
          exact (Except.ok.inj hlist).symm
      rw [hnone]
      exact ⟨List.nodup_nil, fun hr => absurd hr List.not_mem_nil,
        fun hr => absurd hr List.not_mem_nil⟩

section Start

variable (h : Unobstructed t p d) (hd : d.EndsIn init n)
include h hd

theorem laden_openBuffer {data : Bytes} (hopen : openBuffer t data d = (.ok s, t')) :
    ∃ dir, s.Laden t' d dir (n ++ ".mlc.partial") 0 := by
  have hgrows := h.sound.makeParents_grows h.rooted d
  have hplain := h.plain
  unfold openBuffer at hopen
  generalize t.makeParents d = made at hopen hgrows hplain
  obtain ⟨made, t₁⟩ := made
  cases made with
  | error e => cases hopen
  | ok _ =>
    simp only at hopen
    cases hcreate : t₁.create (staged d) with
    | error e =>
      rw [hcreate] at hopen
      cases hopen
    | ok created =>
      obtain ⟨id, t₂⟩ := created
      rw [hcreate] at hopen
      cases hopen
      obtain ⟨dir, hstows, hwritten⟩ :=
        create_stows hgrows.sound (hgrows.rooted h.rooted) hplain hd.staged hcreate
      exact ⟨dir, hstows, .buffer hwritten⟩

theorem laden_openFile {source : Path} (hopen : openFile t source d = (.ok s, t')) :
    ∃ dir, s.Laden t' d dir (n ++ ".mlc.partial") 0 := by
  have hgrows := h.sound.makeParents_grows h.rooted d
  have hplain := h.plain
  unfold openFile at hopen
  split at hopen
  · cases hopen
  · generalize t.makeParents d = made at hopen hgrows hplain
    obtain ⟨made, t₁⟩ := made
    cases made with
    | error e => cases hopen
    | ok _ =>
      simp only [startCopy] at hopen
      cases hcreate : t₁.create (staged d) with
      | error e =>
        rw [hcreate] at hopen
        cases hopen
      | ok created =>
        obtain ⟨id, t₂⟩ := created
        rw [hcreate] at hopen
        cases hopen
        obtain ⟨dir, hstows, hwritten⟩ :=
          create_stows hgrows.sound (hgrows.rooted h.rooted) hplain hd.staged hcreate
        exact ⟨dir, hstows, .file hwritten⟩

theorem laden_openDirectory {source : Path} (hp : p = .directory source)
    (hopen : openDirectory t source d = (.ok s, t')) :
    ∃ dir, s.Laden t' d dir (n ++ ".mlc.partial") 0 := by
  have hgrows := h.sound.makeParents_grows h.rooted d
  have hfree := h.free hp
  unfold openDirectory at hopen
  cases hlist : t.listing source with
  | error e =>
    rw [hlist] at hopen
    cases hopen
  | ok entries =>
    rw [hlist] at hopen
    have hnamed := named_of_listing h.sound hlist
    generalize hparents : t.makeParents d = made at hopen hgrows hfree
    obtain ⟨made, t₁⟩ := made
    cases made with
    | error e => cases hopen
    | ok _ =>
      simp only at hopen
      generalize hmake : t₁.makeDirectories (staged d) = made at hopen
      obtain ⟨made, t₂⟩ := made
      cases made with
      | error e => cases hopen
      | ok _ =>
        cases hopen
        obtain ⟨dir, hstows, hroot, hzero⟩ := makeDirectories_stows hgrows.sound
          (hgrows.rooted h.rooted) (hasParents_staged hd (hasParents_of_makeParents hparents))
          hd.staged hfree hmake
        exact ⟨dir, hstows, .between hroot hnamed fun e _ => hzero e.names⟩

/-- A session begins with an empty staged copy. -/
theorem laden_start (hstart : start t p d = (.ok s, t')) :
    ∃ dir, s.Laden t' d dir (n ++ ".mlc.partial") 0 := by
  cases p with
  | directory source => exact laden_openDirectory h hd rfl hstart
  | buffer data => exact laden_openBuffer h hd hstart
  | file source => exact laden_openFile h hd hstart

end Start

/-! ### What others do -/

/-- The tree `t'` has come out of `t` by changes that leave the staged copy for `d` alone. -/
structure Spares (d : Path) (t t' : Tree) : Prop where
  sound : t'.Sound
  rooted : t'.Rooted
  seats {dir : Location} {m : String} (h : t.Seats (staged d) dir m) : t'.Seats (staged d) dir m
  plain {dir : Location} {m : String} (h : t.Seats (staged d) dir m)
    (hplain : t.Plain (dir ++ [m])) : t'.Plain (dir ++ [m])
  lookup_eq {dir x : Location} {m : String} (h : t.Seats (staged d) dir m) (hx : dir ++ [m] <+: x) :
    t'.lookup x = t.lookup x
  size_eq {dir x : Location} {m : String} {id : ℕ} (h : t.Seats (staged d) dir m)
    (hx : dir ++ [m] <+: x) (hid : t.lookup x = some (.file id)) : t'.size id = t.size id

/-- What only adds to the tree elsewhere leaves the staged copy alone. -/
theorem spares_of_grows {Q : Location → Prop} (hnum : t.Numbered) (hg : t.Grows t')
    (hr : t.Rooted) (hc : t.Changes Q t')
    (hoff : ∀ dir m, t.Seats (staged d) dir m → ∀ x, dir ++ [m] <+: x → ¬Q x) : Spares d t t' where
  sound := hg.sound
  rooted := hg.rooted hr
  seats h := h.mono hg.toKeeps
  plain {dir m} h hplain := by
    refine ⟨fun hx target => ?_, fun {x y id} hx hfile hfile' => ?_⟩
    · rw [hc.lookup_eq (hoff dir m h _ hx)]
      exact hplain.noLink hx target
    · rw [hc.lookup_eq (hoff dir m h _ hx)] at hfile
      by_cases hy : Q y
      · -- a file that came to stand there is a new one, or stood among the changes before
        rcases hc.origin hy hfile' with hnew | ⟨z, hz, hold⟩
        · exact absurd (hnum _ _ hfile) (by omega)
        · exact absurd (hplain.sole hx hfile hold ▸ hz) (hoff dir m h _ hx)
      · rw [hc.lookup_eq hy] at hfile'
        exact hplain.sole hx hfile hfile'
  lookup_eq {dir x m} h hx := hc.lookup_eq (hoff dir m h x hx)
  size_eq {dir x m id} h hx hid := by
    unfold size
    rw [hc.data_eq (hoff dir m h x hx) hid]

theorem Poised.congr {l : Location} (h : s.Poised t d l)
    (hlook : ∀ x, l <+: x → t'.lookup x = t.lookup x)
    (hsize : ∀ x id, l <+: x → t.lookup x = some (.file id) → t'.size id = t.size id) :
    s.Poised t' d l := by
  have hbytes (r : Location) : t'.bytesAt (l ++ r) = t.bytesAt (l ++ r) :=
    bytesAt_congr (hlook _ (List.prefix_append l r)) fun id => hsize _ id (List.prefix_append l r)
  have hwritten {x : Location} {i k : ℕ} (hx : l <+: x) (hw : t.Written x i k) :
      t'.Written x i k :=
    ⟨(hlook x hx).trans hw.lookup_eq, (hsize x i hx hw.lookup_eq).trans hw.size_eq⟩
  have hself : l <+: l := List.prefix_refl l
  cases h with
  | file hw => exact .file (hwritten hself hw)
  | buffer hw => exact .buffer (hwritten hself hw)
  | between hroot hnamed hempty =>
    exact .between ((hlook _ hself).trans hroot) hnamed fun e he => (hbytes _).trans (hempty e he)
  | within hroot hnamed hempty hw =>
    exact .within ((hlook _ hself).trans hroot) hnamed (fun e he => (hbytes _).trans (hempty e he))
      (hwritten (List.prefix_append _ _) hw)

/-- Changes that spare the staged copy leave its load as it is. -/
theorem Laden.spared {dir : Location} {k : ℕ} (h : s.Laden t d dir m k) (hs : Spares d t t') :
    s.Laden t' d dir m k := by
  obtain ⟨hstows, hpoised⟩ := h
  have hlook : ∀ x, dir ++ [m] <+: x → t'.lookup x = t.lookup x := fun x hx =>
    hs.lookup_eq hstows.seats hx
  have hsize : ∀ x id, dir ++ [m] <+: x → t.lookup x = some (.file id) → t'.size id = t.size id :=
    fun x id hx => hs.size_eq hstows.seats hx
  refine ⟨⟨hs.sound, hs.rooted, hs.seats hstows.seats, hs.plain hstows.seats hstows.plain, ?_⟩,
    hpoised.congr hlook hsize⟩
  rw [← hstows.load_eq]
  exact load_congr hstows.sound hs.sound fun r =>
    bytesAt_congr (hlook _ (List.prefix_append _ r)) fun id => hsize _ id (List.prefix_append _ r)

end Session

end Haulage
