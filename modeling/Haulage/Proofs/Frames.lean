import Haulage.Proofs.Entries
import Mathlib.Logic.Function.Basic

/-!
# What a change leaves alone

Somebody who works at some locations of the tree leaves the rest alone: what
stands elsewhere, and the bytes of the files that stand elsewhere. `Tree.Agrees`
says so of two trees. `Tree.Changes` says in addition that no file which stands
elsewhere has come to stand at these locations, so that changes made one after
the other, by different parties at different locations, do not meet in a file.

`Tree.Holds` describes a location and all below it by what can be seen there;
its files stand nowhere else.
-/

namespace Haulage.Disk

/-- A change of the branch at `m` leaves a branch alone that neither holds it nor lies in it. -/
theorem Branch.sub_alter_of_apart {α : Type} (b : Branch α) {l m : Location}
    (f : Branch α → Branch α) (hlm : ¬l <+: m) (hml : ¬m <+: l) :
    (b.alter m f).sub l = b.sub l := by
  induction l generalizing b m with
  | nil => exact absurd (List.nil_prefix) hlm
  | cons n l ih =>
    cases m with
    | nil => exact absurd (List.nil_prefix) hml
    | cons k m =>
      simp only [Branch.alter, Branch.sub, Branches.child_put]
      by_cases hnk : n = k
      · subst hnk
        rw [if_pos rfl]
        exact ih _ (fun h => hlm (by simpa using h)) fun h => hml (by simpa using h)
      · rw [if_neg hnk]

namespace Tree

variable {P Q : Location → Prop} {t t' t'' : Tree}

/-- Every file that stands somewhere has a number that is given out. -/
def Numbered (t : Tree) : Prop := ∀ l id, t.lookup l = some (.file id) → id < t.files.size

/-- The two trees are the same except at the locations `P`. -/
structure Agrees (P : Location → Prop) (t t' : Tree) : Prop where
  home_eq : t'.home = t.home
  lookup_eq {l : Location} (h : ¬P l) : t'.lookup l = t.lookup l
  branch_eq {l : Location} (h : ∀ m, P m → ¬l <+: m ∧ ¬m <+: l) : t'.top.sub l = t.top.sub l
  data_eq {l : Location} {id : Nat} (h : ¬P l) (hlook : t.lookup l = some (.file id)) :
    t'.data id = t.data id

/-- The second tree has come out of the first by changes at the locations `P`. -/
structure Changes (P : Location → Prop) (t t' : Tree) : Prop extends Agrees P t t' where
  size_le : t.files.size ≤ t'.files.size
  origin {l : Location} {id : Nat} (h : P l) (hlook : t'.lookup l = some (.file id)) :
    t.files.size ≤ id ∨ ∃ m, P m ∧ t.lookup m = some (.file id)
  numbered (h : t.Numbered) : t'.Numbered

namespace Agrees

theorem refl (P : Location → Prop) (t : Tree) : t.Agrees P t :=
  ⟨rfl, fun _ => rfl, fun _ => rfl, fun _ _ => rfl⟩

theorem trans (h : t.Agrees P t') (h' : t'.Agrees P t'') : t.Agrees P t'' where
  home_eq := h'.home_eq.trans h.home_eq
  lookup_eq hl := (h'.lookup_eq hl).trans (h.lookup_eq hl)
  branch_eq hl := (h'.branch_eq hl).trans (h.branch_eq hl)
  data_eq hl hlook := (h'.data_eq hl ((h.lookup_eq hl).trans hlook)).trans (h.data_eq hl hlook)

theorem mono (h : t.Agrees P t') (hPQ : ∀ l, P l → Q l) : t.Agrees Q t' where
  home_eq := h.home_eq
  lookup_eq hl := h.lookup_eq fun hp => hl (hPQ _ hp)
  branch_eq hl := h.branch_eq fun m hm => hl m (hPQ m hm)
  data_eq hl := h.data_eq fun hp => hl (hPQ _ hp)

theorem node?_eq (h : t.Agrees P t') {l : Location} (hl : ¬P l) : t'.node? l = t.node? l := by
  unfold node?
  rw [h.lookup_eq hl]
  split
  · rfl
  · rfl
  · rfl
  · rename_i id hlook
    rw [h.data_eq hl hlook]

/-- Where nothing stood at these locations before, nothing was taken from the tree. -/
theorem keeps (h : t.Agrees P t') (hbare : ∀ l, P l → t.lookup l = none) : t.Keeps t' where
  home_eq := h.home_eq
  lookup_eq {l e} hl := by
    have hp : ¬P l := by
      intro hp
      rw [hbare l hp] at hl
      simp at hl
    rw [h.lookup_eq hp, hl]

end Agrees

namespace Changes

theorem refl (P : Location → Prop) (t : Tree) : t.Changes P t where
  toAgrees := Agrees.refl P t
  size_le := Nat.le_refl _
  origin hl hlook := .inr ⟨_, hl, hlook⟩
  numbered h := h

theorem trans (h : t.Changes P t') (h' : t'.Changes P t'') : t.Changes P t'' where
  toAgrees := h.toAgrees.trans h'.toAgrees
  size_le := Nat.le_trans h.size_le h'.size_le
  origin hl hlook := by
    rcases h'.origin hl hlook with hnew | ⟨m, hm, hlook'⟩
    · exact .inl (Nat.le_trans h.size_le hnew)
    · exact h.origin hm hlook'
  numbered hn := h'.numbered (h.numbered hn)

theorem mono (h : t.Changes P t') (hPQ : ∀ l, P l → Q l) : t.Changes Q t' where
  toAgrees := h.toAgrees.mono hPQ
  size_le := h.size_le
  origin {l id} hl hlook := by
    by_cases hp : P l
    · exact (h.origin hp hlook).imp_right fun ⟨m, hm, hlook'⟩ => ⟨m, hPQ m hm, hlook'⟩
    · exact .inr ⟨l, hl, (h.lookup_eq hp).symm.trans hlook⟩
  numbered := h.numbered

end Changes

/-! ## Each kind of change -/

theorem data_addFile (t : Tree) (l : Location) (id : Nat) :
    (t.addFile l).2.data id = t.data id := by
  simp only [addFile, data, Array.getElem?_push]
  split
  · rename_i h
    rw [h, Array.getElem?_eq_none (Nat.le_refl _)]
    rfl
  · rfl

theorem lookup_addFile (t : Tree) {l : Location} (m : Location) (hl : l ≠ []) :
    (t.addFile l).2.lookup m = if m = l then some (.file t.files.size) else t.lookup m :=
  lookup_insert t _ m hl

theorem top_eraseBelow (t : Tree) (l : Location) :
    (t.eraseBelow l).top = t.top.alter l fun b => ⟨b.value, .none⟩ := by
  cases l <;> rfl

theorem top_relocate (t : Tree) {l m : Location} (hl : l ≠ []) (hm : m ≠ []) :
    (t.relocate l m).top = (t.top.alter l fun _ => .bare).alter m fun _ => t.top.sub l := by
  cases l with
  | nil => exact absurd rfl hl
  | cons n l =>
    cases m with
    | nil => exact absurd rfl hm
    | cons k m => rfl

theorem sub_insert (t : Tree) {l m : Location} (e : Entry) (hlm : ¬l <+: m) (hml : ¬m <+: l) :
    (t.insert m e).top.sub l = t.top.sub l := by
  have hm : m ≠ [] := fun h => hml (h ▸ List.nil_prefix)
  rw [top, insert, top_alter t _ hm]
  exact Branch.sub_alter_of_apart _ _ hlm hml

theorem sub_erase (t : Tree) {l m : Location} (hlm : ¬l <+: m) (hml : ¬m <+: l) :
    (t.erase m).top.sub l = t.top.sub l := by
  have hm : m ≠ [] := fun h => hml (h ▸ List.nil_prefix)
  rw [top, erase, top_alter t _ hm]
  exact Branch.sub_alter_of_apart _ _ hlm hml

theorem sub_eraseBelow (t : Tree) {l m : Location} (hlm : ¬l <+: m) (hml : ¬m <+: l) :
    (t.eraseBelow m).top.sub l = t.top.sub l := by
  rw [top_eraseBelow]
  exact Branch.sub_alter_of_apart _ _ hlm hml

theorem sub_relocate (t : Tree) {l m x : Location} (hxl : ¬x <+: l) (hlx : ¬l <+: x)
    (hxm : ¬x <+: m) (hmx : ¬m <+: x) : (t.relocate l m).top.sub x = t.top.sub x := by
  have hl : l ≠ [] := fun h => hlx (h ▸ List.nil_prefix)
  have hm : m ≠ [] := fun h => hmx (h ▸ List.nil_prefix)
  rw [top_relocate t hl hm, Branch.sub_alter_of_apart _ _ hxm hmx,
    Branch.sub_alter_of_apart _ _ hxl hlx]

/-- Entries may come, go and move at these locations, if no file comes from elsewhere. -/
theorem changes_entries (hhome : t'.home = t.home) (hfiles : t'.files = t.files)
    (hlook : ∀ m, ¬P m → t'.lookup m = t.lookup m)
    (hsub : ∀ l, (∀ m, P m → ¬l <+: m ∧ ¬m <+: l) → t'.top.sub l = t.top.sub l)
    (hfile : ∀ m id, t'.lookup m = some (.file id) →
      t.lookup m = some (.file id) ∨ ∃ x, P x ∧ t.lookup x = some (.file id)) :
    t.Changes P t' where
  home_eq := hhome
  lookup_eq hm := hlook _ hm
  branch_eq hl := hsub _ hl
  data_eq _ _ := by rw [data, data, hfiles]
  size_le := Nat.le_of_eq (congrArg Array.size hfiles).symm
  origin {m id} hm h := by
    rcases hfile m id h with hold | hold
    · exact .inr ⟨m, hm, hold⟩
    · exact .inr hold
  numbered h m id hm := by
    rw [hfiles]
    rcases hfile m id hm with hold | ⟨x, -, hold⟩
    · exact h m id hold
    · exact h x id hold

theorem changes_insert_directory {l : Location} (hl : l ≠ []) (hp : P l) :
    t.Changes P (t.insert l .directory) := by
  refine changes_entries rfl rfl (fun m hm => ?_)
    (fun x hx => sub_insert t _ (hx l hp).1 (hx l hp).2) fun m id hm => ?_
  · rw [lookup_insert t _ m hl, if_neg]
    rintro rfl
    exact hm hp
  · rw [lookup_insert t _ m hl] at hm
    split at hm
    · simp at hm
    · exact .inl hm

theorem changes_addFile {l : Location} (hl : l ≠ []) (hp : P l) :
    t.Changes P (t.addFile l).2 where
  home_eq := rfl
  lookup_eq {m} hm := by
    rw [lookup_addFile t m hl, if_neg]
    rintro rfl
    exact hm hp
  branch_eq h := sub_insert t _ (h l hp).1 (h l hp).2
  data_eq _ _ := data_addFile t l _
  size_le := by simp [addFile]
  origin {m id} hm hlook := by
    rw [lookup_addFile t m hl] at hlook
    split at hlook
    · exact .inl (Nat.le_of_eq (by simpa using hlook))
    · exact .inr ⟨m, hm, hlook⟩
  numbered h m id hlook := by
    have hsize : (t.addFile l).2.files.size = t.files.size + 1 := by simp [addFile]
    rw [lookup_addFile t m hl] at hlook
    split at hlook
    · simp only [Option.some.injEq, Entry.file.injEq] at hlook
      omega
    · have := h m id hlook
      omega

/-- A file may be changed that stands at these locations only. -/
theorem changes_data {t' : Tree} {id : Nat} (hentries : t'.entries = t.entries)
    (hhome : t'.home = t.home) (hsize : t'.files.size = t.files.size)
    (hdata : ∀ j, j ≠ id → t'.data j = t.data j)
    (hsole : ∀ m, t.lookup m = some (.file id) → P m) : t.Changes P t' := by
  have htop : t'.top = t.top := by rw [top, top, hentries]
  have hlook : ∀ m, t'.lookup m = t.lookup m := fun m => by rw [lookup, lookup, htop]
  refine ⟨⟨hhome, fun _ => hlook _, fun _ => by rw [htop], ?_⟩, Nat.le_of_eq hsize.symm, ?_, ?_⟩
  · intro l j hl hj
    apply hdata
    rintro rfl
    exact hl (hsole l hj)
  · intro l j hl hj
    exact .inr ⟨l, hl, (hlook l).symm.trans hj⟩
  · intro h l j hj
    rw [hsize]
    exact h l j ((hlook l).symm.trans hj)

theorem changes_setData {id : Nat} (d : FileData)
    (hsole : ∀ m, t.lookup m = some (.file id) → P m) : t.Changes P (t.setData id d) := by
  refine changes_data rfl rfl (by simp [setData]) (fun j hj => ?_) hsole
  rw [data_setData, if_neg fun h => hj h.1.symm]

theorem changes_writeAt {id offset : Nat} (chunk : Bytes)
    (hsole : ∀ m, t.lookup m = some (.file id) → P m) :
    t.Changes P (t.writeAt id offset chunk) := by
  refine changes_data rfl rfl (by simp [writeAt]) (fun j hj => ?_) hsole
  rw [data_writeAt, if_neg fun h => hj h.1.symm]

theorem changes_erase {l : Location} (hl : l ≠ []) (hp : P l) : t.Changes P (t.erase l) := by
  refine changes_entries rfl rfl (fun m hm => ?_)
    (fun x hx => sub_erase t (hx l hp).1 (hx l hp).2) fun m id hm => ?_
  · rw [lookup_erase t m hl, if_neg]
    rintro rfl
    exact hm hp
  · rw [lookup_erase t m hl] at hm
    split at hm
    · simp at hm
    · exact .inl hm

theorem changes_eraseBelow {l : Location} (hp : ∀ m, l <+: m → P m) :
    t.Changes P (t.eraseBelow l) := by
  have hl : P l := hp l (List.prefix_refl l)
  refine changes_entries rfl rfl (fun m hm => ?_)
    (fun x hx => sub_eraseBelow t (hx l hl).1 (hx l hl).2) fun m id hm => ?_
  · rw [lookup_eraseBelow, if_neg]
    intro hbelow
    exact hm (hp m (List.isPrefixOf_iff_prefix.mp (Bool.and_eq_true_iff.mp hbelow).1))
  · rw [lookup_eraseBelow] at hm
    split at hm
    · simp at hm
    · exact .inl hm

theorem changes_relocate {l m : Location} (hl : l ≠ []) (hm : m ≠ [])
    (hpl : ∀ x, l <+: x → P x) (hpm : ∀ x, m <+: x → P x) : t.Changes P (t.relocate l m) := by
  have hl' : P l := hpl l (List.prefix_refl l)
  have hm' : P m := hpm m (List.prefix_refl m)
  refine changes_entries rfl rfl (fun x hx => ?_)
    (fun x hx => sub_relocate t (hx l hl').1 (hx l hl').2 (hx m hm').1 (hx m hm').2)
    fun x id hx => ?_
  · rw [lookup_relocate t x hl hm, if_neg, if_neg]
    · exact fun h => hx (hpl x (List.isPrefixOf_iff_prefix.mp h))
    · exact fun h => hx (hpm x (List.isPrefixOf_iff_prefix.mp h))
  · rw [lookup_relocate t x hl hm] at hx
    split at hx
    · exact .inr ⟨_, hpl _ (List.prefix_append l _), hx⟩
    · split at hx
      · simp at hx
      · exact .inl hx

/-! ## What a location holds -/

/-- What can be seen at `l` and below is given by `f`, from `l` on, and the files there stand
nowhere else. -/
structure Holds (t : Tree) (l : Location) (f : Location → Option Node) : Prop where
  node?_eq (rel : Location) : t.node? (l ++ rel) = f rel
  sole {rel m : Location} {id : Nat} (h : t.lookup (l ++ rel) = some (.file id))
    (hm : t.lookup m = some (.file id)) : m = l ++ rel

/-- Nothing stands at `l` or below. -/
def Bare (t : Tree) (l : Location) : Prop := ∀ m, l <+: m → t.lookup m = none

theorem bare_iff_holds {l : Location} : t.Bare l ↔ t.Holds l fun _ => none := by
  constructor
  · intro h
    refine ⟨fun rel => node?_eq_none.mpr (h _ (List.prefix_append l rel)),
      fun {rel m id} hrel _ => ?_⟩
    rw [h _ (List.prefix_append l rel)] at hrel
    simp at hrel
  · rintro h m ⟨rel, rfl⟩
    exact node?_eq_none.mp (h.node?_eq rel)

theorem bare_discarded (t : Tree) {l : Location} (hl : l ≠ []) :
    ((t.eraseBelow l).erase l).Bare l := by
  rintro m ⟨rel, rfl⟩
  rw [lookup_erase _ _ hl, lookup_eraseBelow]
  cases rel with
  | nil => simp
  | cons n rel => simp [Location.below]

theorem bare_erase {l : Location} (hl : l ≠ [])
    (hbelow : ∀ rel, rel ≠ [] → t.lookup (l ++ rel) = none) :
    (t.erase l).Bare l := by
  rintro m ⟨rel, rfl⟩
  rw [lookup_erase _ _ hl]
  cases rel with
  | nil => simp
  | cons n rel => rw [if_neg (by simp), hbelow _ (by simp)]

theorem bare_relocate {l m : Location} (hl : l ≠ []) (hm : m ≠ []) (hml : ¬m <+: l)
    (hlm : ¬l <+: m) : (t.relocate l m).Bare l := by
  rintro x ⟨rel, rfl⟩
  have happart : ¬m <+: l ++ rel := fun h => (List.prefix_or_prefix_of_prefix h
    (List.prefix_append l rel)).elim hml hlm
  rw [lookup_relocate t _ hl hm, if_neg (by simpa [List.isPrefixOf_iff_prefix] using happart),
    if_pos (by simp)]

namespace Holds

variable {l : Location} {f : Location → Option Node}

theorem directory (h : t.Holds l f) {rel : Location} (hf : f rel = some .directory) :
    t.lookup (l ++ rel) = some .directory :=
  lookup_of_node?_directory ((h.node?_eq rel).trans hf)

theorem vacant (h : t.Holds l f) {rel : Location} (hf : f rel = none) :
    t.lookup (l ++ rel) = none :=
  node?_eq_none.mp ((h.node?_eq rel).trans hf)

theorem file (h : t.Holds l f) {rel : Location} {id : Nat}
    (hlook : t.lookup (l ++ rel) = some (.file id)) : f rel = some (.file (t.data id)) := by
  rw [← h.node?_eq rel, node?_of_file hlook]

/-- Changes made elsewhere leave what a location holds alone. -/
theorem frame (h : t.Holds l f) (hc : t.Changes P t') (hoff : ∀ m, l <+: m → ¬P m)
    (hnum : t.Numbered) : t'.Holds l f := by
  have hrel : ∀ rel, ¬P (l ++ rel) := fun rel => hoff _ (List.prefix_append l rel)
  refine ⟨fun rel => (hc.node?_eq (hrel rel)).trans (h.node?_eq rel), fun {rel m id} hlook hm => ?_⟩
  rw [hc.lookup_eq (hrel rel)] at hlook
  by_cases hp : P m
  · exfalso
    -- a file that came to `m` is new, or came from a location where it did not stand
    rcases hc.origin hp hm with hnew | ⟨x, hx, hold⟩
    · exact absurd (hnum _ _ hlook) (Nat.not_lt.mpr hnew)
    · exact hrel rel (h.sole hlook hold ▸ hx)
  · rw [hc.lookup_eq hp] at hm
    exact h.sole hlook hm

/-- Making a directory. -/
theorem insert (h : t.Holds l f) {rel : Location} (hne : l ++ rel ≠ []) :
    (t.insert (l ++ rel) .directory).Holds l (Function.update f rel (some .directory)) := by
  have hlook : ∀ m, (t.insert (l ++ rel) .directory).lookup m =
      if m = l ++ rel then some .directory else t.lookup m := fun m => lookup_insert t _ m hne
  refine ⟨fun r => ?_, fun {r m id} hr hm => ?_⟩
  · by_cases hrel : r = rel
    · rw [hrel, Function.update_self, node?_of_directory (by rw [hlook, if_pos rfl])]
    · rw [Function.update_of_ne hrel, ← h.node?_eq r]
      unfold node?
      rw [hlook, if_neg (by simpa using hrel)]
      rfl
  · rw [hlook] at hr hm
    split at hr
    · simp at hr
    · split at hm
      · simp at hm
      · exact h.sole hr hm

/-- Creating a file. -/
theorem addFile (h : t.Holds l f) (hnum : t.Numbered) {rel : Location} (hne : l ++ rel ≠ []) :
    (t.addFile (l ++ rel)).2.Holds l
      (Function.update f rel (some (.file ⟨.empty, none⟩))) := by
  have hlook := fun m => lookup_addFile t m hne
  have hempty : t.data t.files.size = ⟨.empty, none⟩ := by
    rw [data, Array.getElem?_eq_none (Nat.le_refl _)]
    rfl
  refine ⟨fun r => ?_, fun {r m id} hr hm => ?_⟩
  · by_cases hrel : r = rel
    · rw [hrel, Function.update_self, node?_of_file (by rw [hlook, if_pos rfl]), data_addFile,
        hempty]
    · rw [Function.update_of_ne hrel, ← h.node?_eq r]
      unfold node?
      rw [hlook, if_neg (by simpa using hrel)]
      simp only [data_addFile]
  · rw [hlook] at hr hm
    split at hr
    · rename_i hrel
      split at hm
      · rename_i heq
        rw [heq, hrel]
      · simp only [Option.some.injEq, Entry.file.injEq] at hr
        exact absurd (hnum _ _ hm) (by omega)
    · split at hm
      · simp only [Option.some.injEq, Entry.file.injEq] at hm
        exact absurd (hnum _ _ hr) (by omega)
      · exact h.sole hr hm

/-- Changing the data of a file. -/
theorem change (h : t.Holds l f) {rel : Location} {id : Nat} {d : FileData}
    (hfile : t.lookup (l ++ rel) = some (.file id)) (hentries : t'.entries = t.entries)
    (hdata : ∀ j, t'.data j = if j = id then d else t.data j) :
    t'.Holds l (Function.update f rel (some (.file d))) := by
  have hlook : ∀ m, t'.lookup m = t.lookup m := fun m => by
    rw [lookup, lookup, top, top, hentries]
  refine ⟨fun r => ?_, fun {r m j} hr hm => ?_⟩
  · by_cases hrel : r = rel
    · rw [hrel, Function.update_self, node?_of_file (by rw [hlook, hfile]), hdata, if_pos rfl]
    · rw [Function.update_of_ne hrel, ← h.node?_eq r]
      unfold node?
      rw [hlook]
      split
      · rfl
      · rfl
      · rfl
      · rename_i j hj
        rw [hdata, if_neg]
        rintro rfl
        exact hrel (List.append_cancel_left (h.sole hfile hj))
  · rw [hlook] at hr hm
    exact h.sole hr hm

theorem setData (h : t.Holds l f) (hnum : t.Numbered) {rel : Location} {id : Nat}
    (hfile : t.lookup (l ++ rel) = some (.file id)) (d : FileData) :
    (t.setData id d).Holds l (Function.update f rel (some (.file d))) := by
  refine h.change hfile rfl fun j => ?_
  have hid := hnum _ _ hfile
  rw [data_setData]
  by_cases hj : j = id
  · rw [if_pos ⟨hj.symm, hid⟩, if_pos hj]
  · rw [if_neg fun h => hj h.1.symm, if_neg hj]

theorem writeAt (h : t.Holds l f) (hnum : t.Numbered) {rel : Location} {id : Nat}
    (hfile : t.lookup (l ++ rel) = some (.file id)) (offset : Nat) (chunk : Bytes) :
    (t.writeAt id offset chunk).Holds l (Function.update f rel
      (some (.file ⟨(t.data id).bytes.overwrite offset chunk, none⟩))) := by
  refine h.change hfile rfl fun j => ?_
  have hid := hnum _ _ hfile
  rw [data_writeAt]
  by_cases hj : j = id
  · rw [if_pos ⟨hj.symm, hid⟩, if_pos hj]
  · rw [if_neg fun h => hj h.1.symm, if_neg hj]

/-- Moving a location with all that it holds. -/
theorem relocate (h : t.Holds l f) {m : Location} (hl : l ≠ []) (hm : m ≠ []) :
    (t.relocate l m).Holds m f := by
  have hlook := fun x => lookup_relocate t (l := l) (m := m) x hl hm
  have hat : ∀ rel, (t.relocate l m).lookup (m ++ rel) = t.lookup (l ++ rel) := fun rel => by
    rw [hlook, if_pos (by simp)]
    simp
  refine ⟨fun rel => ?_, fun {rel x id} hrel hx => ?_⟩
  · rw [← h.node?_eq rel]
    unfold node?
    rw [hat]
    rfl
  · rw [hat] at hrel
    rw [hlook] at hx
    split at hx
    · rename_i hmx
      obtain ⟨r, rfl⟩ := List.isPrefixOf_iff_prefix.mp hmx
      rw [List.drop_left] at hx
      rw [List.append_cancel_left (h.sole hrel hx)]
    · split at hx
      · simp at hx
      · rename_i hlx
        exact absurd (by simp [h.sole hrel hx]) hlx

end Holds

end Tree

end Haulage.Disk
