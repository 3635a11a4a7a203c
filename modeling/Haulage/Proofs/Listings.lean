import Haulage.Proofs.Frames
import Mathlib.Data.List.Induction
import Mathlib.Data.List.Sort
import Mathlib.Order.Defs.LinearOrder
import Mathlib.Data.String.Basic

/-!
# Sound trees and their listings

A tree of branches may hold more than a file tree does: a name may occur twice
beside itself, and an entry may stand where there is no directory to hold it.
`Tree.Sound` says that neither is the case. A listing of a sound tree has every
entry below a directory once, and each directory before its entries; so who
works through it from the front finds the holder of each entry done.
-/

namespace Haulage.Disk

namespace Branches

variable {α : Type} {bs : Branches α}

/-- The names side by side. -/
def names : Branches α → List String
  | .none => []
  | .cons name _ _ rest => name :: rest.names

/-- Are names that stand side by side distinct, here and everywhere below? -/
def Distinct : Branches α → Prop
  | .none => True
  | .cons name _ below rest => name ∉ rest.names ∧ below.Distinct ∧ rest.Distinct

theorem child_of_not_mem {n : String} (h : n ∉ bs.names) : bs.child n = .bare := by
  induction bs with
  | none => rfl
  | cons name value below rest _ ih =>
    rw [names, List.mem_cons, not_or] at h
    rw [child, if_neg h.1]
    exact ih h.2

theorem Distinct.child (h : bs.Distinct) (n : String) : (bs.child n).below.Distinct := by
  induction bs with
  | none => trivial
  | cons name value below rest _ ih =>
    unfold Branches.child
    split
    · exact h.2.1
    · exact ih h.2.2

theorem Distinct.sub {b : Branch α} (h : b.below.Distinct) (l : Location) :
    (b.sub l).below.Distinct := by
  induction l generalizing b with
  | nil => exact h
  | cons n l ih => exact ih (h.child n)

/-- No value is listed under the empty list of names. -/
theorem ne_nil_of_mem_toList {l : Location} {a : α} (h : (l, a) ∈ bs.toList) : l ≠ [] := by
  induction bs with
  | none => simp [toList] at h
  | cons name value below rest _ ihr =>
    simp only [toList, List.mem_append, List.mem_map, Prod.mk.injEq] at h
    rcases h with (⟨b, -, rfl, -⟩ | ⟨x, -, rfl, -⟩) | hrest
    · simp
    · simp
    · exact ihr hrest

/-- The first name of a value in the list is one of those side by side. -/
theorem mem_names_of_mem_toList {n : String} {l : Location} {a : α}
    (h : (n :: l, a) ∈ bs.toList) : n ∈ bs.names := by
  induction bs with
  | none => simp [toList] at h
  | cons name value below rest _ ihr =>
    simp only [toList, List.mem_append, List.mem_map, Prod.mk.injEq, List.cons.injEq] at h
    rcases h with (⟨b, -, ⟨rfl, -⟩, -⟩ | ⟨x, -, ⟨rfl, -⟩, -⟩) | hrest
    · exact List.mem_cons_self
    · exact List.mem_cons_self
    · exact List.mem_cons_of_mem _ (ihr hrest)

/-- The list of all values has a value where the branches have one. -/
theorem mem_toList (h : bs.Distinct) {n : String} {l : Location} {a : α} :
    (n :: l, a) ∈ bs.toList ↔ ((bs.child n).sub l).value = some a := by
  induction bs generalizing n l with
  | none =>
    have hbare : (Branches.none : Branches α).child n = .bare := rfl
    simp [toList, hbare]
  | cons name value below rest ihb ihr =>
    obtain ⟨hname, hbelow, hrest⟩ := h
    simp only [toList, List.mem_append, List.mem_map, Prod.mk.injEq, List.cons.injEq,
      Option.mem_toList, ihr hrest, child]
    by_cases hn : n = name
    · subst hn
      rw [if_pos rfl, child_of_not_mem hname, Branch.sub_bare]
      cases l with
      | nil =>
        have hnone : ∀ x ∈ below.toList, x.1 ≠ [] := fun x hx => ne_nil_of_mem_toList hx
        simp only [Branch.sub, Branch.value_bare]
        constructor
        · rintro ((⟨b, hb, -, rfl⟩ | ⟨x, hx, ⟨-, hnil⟩, -⟩) | hfalse)
          · exact hb
          · exact absurd hnil (hnone x hx)
          · simp at hfalse
        · intro hval
          exact .inl (.inl ⟨a, hval, by simp⟩)
      | cons k l =>
        rw [Branch.sub, ← ihb hbelow]
        constructor
        · rintro ((⟨b, -, ⟨-, hnil⟩, -⟩ | ⟨x, hx, ⟨-, hl⟩, ha⟩) | hfalse)
          · simp at hnil
          · rwa [← hl, ← ha]
          · simp at hfalse
        · intro hmem
          exact .inl (.inr ⟨_, hmem, by simp⟩)
    · rw [if_neg hn]
      constructor
      · rintro ((⟨b, -, ⟨rfl, -⟩, -⟩ | ⟨x, -, ⟨rfl, -⟩, -⟩) | hmem)
        · exact absurd rfl hn
        · exact absurd rfl hn
        · exact hmem
      · exact .inr

/-- No list of names is listed twice. -/
theorem nodup_toList (h : bs.Distinct) : (bs.toList.map Prod.fst).Nodup := by
  induction bs with
  | none => simp [toList]
  | cons name value below rest ihb ihr =>
    obtain ⟨hname, hbelow, hrest⟩ := h
    have hfst : (below.toList.map fun x => (name :: x.1, x.2)).map Prod.fst =
        (below.toList.map Prod.fst).map (name :: ·) := by
      simp [List.map_map, Function.comp_def]
    rw [toList, List.map_append, List.map_append, hfst, List.nodup_append', List.nodup_append']
    refine ⟨⟨?_, ?_, ?_⟩, ihr hrest, ?_⟩
    · cases value <;> simp
    · exact (ihb hbelow).map List.cons_injective
    · intro l hl hl'
      obtain ⟨m, hm, rfl⟩ := List.mem_map.mp hl'
      obtain ⟨x, hx, rfl⟩ := List.mem_map.mp hm
      have hnil := ne_nil_of_mem_toList hx
      cases value <;> simp_all
    · intro l hl hl'
      obtain ⟨x, hx, rfl⟩ := List.mem_map.mp hl'
      obtain ⟨k, m, hkm⟩ := List.exists_cons_of_ne_nil (ne_nil_of_mem_toList hx)
      have hk : k ∈ rest.names := mem_names_of_mem_toList (a := x.2) (l := m) (by rwa [← hkm])
      have hkname : k = name := by
        rcases List.mem_append.mp hl with hv | hb
        · cases value <;> simp_all
        · obtain ⟨y, -, hy⟩ := List.mem_map.mp hb
          rw [hkm] at hy
          exact (List.head_eq_of_cons_eq hy).symm
      exact hname (hkname ▸ hk)

end Branches

namespace Tree

variable {t : Tree}

/-- A tree as file systems have them. -/
structure Sound (t : Tree) : Prop where
  distinct : t.entries.Distinct
  /-- What holds an entry is a directory. -/
  closed {l : Location} {n : String} {e : Entry} (h : t.lookup (l ++ [n]) = some e) :
    t.lookup l = some .directory
  isName {l : Location} {n : String} {e : Entry} (h : t.lookup (l ++ [n]) = some e) : IsName n
  numbered : t.Numbered

/-- All that an entry stands in are directories. -/
theorem Sound.directory_of_prefix (h : t.Sound) {l : Location} {e : Entry} :
    ∀ r : Location, r ≠ [] → t.lookup (l ++ r) = some e → t.lookup l = some .directory := by
  intro r hr
  induction r using List.reverseRecOn generalizing e with
  | nil => exact absurd rfl hr
  | append_singleton r n ih =>
    intro hlook
    rw [← List.append_assoc] at hlook
    have hdir := h.closed hlook
    by_cases hnil : r = []
    · rwa [hnil, List.append_nil] at hdir
    · exact ih hnil hdir

/-- Below a place where nothing stands nothing stands either. -/
theorem Sound.bare (h : t.Sound) {l : Location} (hl : t.lookup l = none) : t.Bare l := by
  rintro m ⟨r, rfl⟩
  by_cases hr : r = []
  · rwa [hr, List.append_nil]
  · cases hlook : t.lookup (l ++ r) with
    | none => rfl
    | some e =>
      rw [h.directory_of_prefix r hr hlook] at hl
      simp at hl

theorem Sound.isName_of_mem (h : t.Sound) {l r : Location} {e : Entry}
    (hlook : t.lookup (l ++ r) = some e) {n : String} (hn : n ∈ r) : IsName n := by
  obtain ⟨s, s', rfl⟩ := List.append_of_mem hn
  have hcut : l ++ (s ++ n :: s') = (l ++ s) ++ [n] ++ s' := by simp
  rw [hcut] at hlook
  by_cases hs : s' = []
  · rw [hs, List.append_nil] at hlook
    exact h.isName hlook
  · exact h.isName (h.directory_of_prefix s' hs hlook)

theorem mem_entriesBelow (h : t.entries.Distinct) {l rel : Location} {e : Entry} :
    (rel, e) ∈ t.entriesBelow l ↔ rel ≠ [] ∧ t.lookup (l ++ rel) = some e := by
  have hsub : (t.top.sub l).below.Distinct := Branches.Distinct.sub h l
  cases rel with
  | nil => exact iff_of_false (fun hmem => Branches.ne_nil_of_mem_toList hmem rfl) (by simp)
  | cons n r =>
    rw [entriesBelow, Branches.mem_toList hsub, lookup, Branch.sub_append]
    simp [Branch.sub]

end Tree

/-! ## Checking a tree -/

/-- Is the entry no file, or a file with one of the first numbers? -/
def Entry.Counted (files : Nat) : Entry → Prop
  | .directory | .link _ => True
  | .file id => id < files

instance (files : Nat) : (e : Entry) → Decidable (e.Counted files)
  | .directory | .link _ => isTrue trivial
  | .file _ => inferInstanceAs (Decidable (_ < _))

namespace Branches

variable {files : Nat} {bs : Branches Entry}

/-- Are these the entries of a sound tree with so many files? -/
def Orderly (files : Nat) : Branches Entry → Prop
  | .none => True
  | .cons name value below rest =>
    IsName name ∧ name ∉ rest.names ∧ (value = some .directory ∨ below.isBare = true) ∧
      (∀ e ∈ value, e.Counted files) ∧ below.Orderly files ∧ rest.Orderly files

instance decidableOrderly (files : Nat) : (bs : Branches Entry) → Decidable (bs.Orderly files)
  | .none => isTrue trivial
  | .cons name value below rest =>
    have := decidableOrderly files below
    have := decidableOrderly files rest
    inferInstanceAs (Decidable (IsName name ∧ name ∉ rest.names ∧
      (value = some .directory ∨ below.isBare = true) ∧ (∀ e ∈ value, e.Counted files) ∧
      below.Orderly files ∧ rest.Orderly files))

theorem Orderly.distinct (h : bs.Orderly files) : bs.Distinct := by
  induction bs with
  | none => trivial
  | cons name value below rest ihb ihr =>
    obtain ⟨-, hname, -, -, hbelow, hrest⟩ := h
    exact ⟨hname, ihb hbelow, ihr hrest⟩

theorem value_child_of_isBare (h : bs.isBare = true) (n : String) :
    (bs.child n).value = Option.none := by
  induction bs with
  | none => rfl
  | cons name value below rest _ ihr =>
    simp only [isBare, Bool.and_eq_true, Option.isNone_iff_eq_none] at h
    unfold child
    split
    · exact h.1.1
    · exact ihr h.2

theorem Orderly.child (h : bs.Orderly files) (n : String) :
    ((bs.child n).value = some .directory ∨ (bs.child n).below.isBare = true) ∧
      (∀ e, (bs.child n).value = some e → IsName n ∧ e.Counted files) ∧
      (bs.child n).below.Orderly files := by
  induction bs with
  | none => exact ⟨.inr rfl, fun e he => by simp [Branches.child] at he, trivial⟩
  | cons name value below rest _ ihr =>
    obtain ⟨hname, -, hholder, hcounted, hbelow, hrest⟩ := h
    unfold Branches.child
    split
    · rename_i hn
      exact ⟨hholder, fun e he => ⟨hn ▸ hname, hcounted e he⟩, hbelow⟩
    · exact ihr hrest

end Branches

namespace Tree

variable {t : Tree}

theorem orderly_sub (h : t.entries.Orderly t.files.size) (l : Location) :
    ((t.top.sub l).value = some .directory ∨ (t.top.sub l).below.isBare = true) ∧
      (t.top.sub l).below.Orderly t.files.size := by
  have hsub : ∀ b : Branch Entry,
      (b.value = some .directory ∨ b.below.isBare = true) ∧ b.below.Orderly t.files.size →
      ((b.sub l).value = some .directory ∨ (b.sub l).below.isBare = true) ∧
        (b.sub l).below.Orderly t.files.size := by
    induction l with
    | nil => exact fun b hb => hb
    | cons n l ih =>
      intro b hb
      obtain ⟨hholder, -, hbelow⟩ := hb.2.child n
      exact ih _ ⟨hholder, hbelow⟩
  exact hsub t.top ⟨.inl rfl, h⟩

/-- A tree is sound if its entries pass the check. -/
theorem sound_of_orderly (h : t.entries.Orderly t.files.size) : t.Sound := by
  have hchild : ∀ (l : Location) (n : String),
      t.lookup (l ++ [n]) = ((t.top.sub l).below.child n).value := fun l n => by
    rw [lookup, Branch.sub_append]
    rfl
  refine ⟨h.distinct, fun {l n e} hlook => ?_, fun {l n e} hlook => ?_, fun l id hlook => ?_⟩
  · refine (orderly_sub h l).1.resolve_right fun hbare => ?_
    rw [hchild, Branches.value_child_of_isBare hbare] at hlook
    simp at hlook
  · rw [hchild] at hlook
    exact (((orderly_sub h l).2.child n).2.1 e hlook).1
  · rcases List.eq_nil_or_concat l with rfl | ⟨l', n, rfl⟩
    · simp at hlook
    · rw [List.concat_eq_append, hchild] at hlook
      exact (((orderly_sub h l').2.child n).2.1 _ hlook).2

end Tree

end Haulage.Disk

namespace Haulage.Session

open Disk

/-! ## What is to be copied -/

theorem lt_of_prefix {l m : Location} (h : l <+: m) (hne : l ≠ m) : l < m := by
  obtain ⟨r, rfl⟩ := h
  have hr : r ≠ [] := fun hr => hne (by rw [hr, List.append_nil])
  induction l with
  | nil =>
    obtain ⟨n, s, rfl⟩ := List.exists_cons_of_ne_nil hr
    exact List.nil_lt_cons n s
  | cons n l ih => exact List.cons_lt_cons_self.mpr (ih (by simpa using hr))

/-- What of the directory at `s` is to be copied, in the order in which it is. -/
def agenda (t : Tree) (s : Location) : List Pending :=
  ((t.entriesBelow s).mergeSort Tree.listedBefore).filterMap pendingOf

variable {t : Tree} {s : Location}

theorem agenda_of_listing {source : Path} {entries : List (Location × Entry)}
    (hsource : t.resolve .reach source = .ok s) (hdir : t.lookup s = some .directory)
    (hlist : t.listing source = .ok entries) : entries.filterMap pendingOf = agenda t s := by
  unfold Tree.listing at hlist
  simp only [hsource, hdir] at hlist
  split at hlist
  · simp at hlist
  · split at hlist
    · simp at hlist
    · rw [← Except.ok.inj hlist, agenda]

theorem mem_agenda (h : t.Sound) {p : Pending} :
    p ∈ agenda t s ↔ p.names ≠ [] ∧
      (p.isDirectory = true ∧ t.lookup (s ++ p.names) = some .directory ∨
        p.isDirectory = false ∧ ∃ id, t.lookup (s ++ p.names) = some (.file id)) := by
  obtain ⟨names, isDirectory⟩ := p
  simp only [agenda, List.mem_filterMap, List.mem_mergeSort, Prod.exists,
    Tree.mem_entriesBelow h.distinct]
  constructor
  · rintro ⟨rel, e, ⟨hne, hlook⟩, hp⟩
    cases e with
    | directory => simp [pendingOf] at hp; simp [← hp.1, ← hp.2, hne, hlook]
    | file id => simp [pendingOf] at hp; simp [← hp.1, ← hp.2, hne, hlook]
    | link target => simp [pendingOf] at hp
  · rintro ⟨hne, ⟨hdir, hlook⟩ | ⟨hfile, id, hlook⟩⟩
    · exact ⟨names, .directory, ⟨hne, hlook⟩, by rw [hdir]; rfl⟩
    · exact ⟨names, .file id, ⟨hne, hlook⟩, by rw [hfile]; rfl⟩

theorem agenda_sorted (h : t.Sound) : (agenda t s).Pairwise fun a b => a.names < b.names := by
  have htrans : ∀ a b c : Location × Entry, Tree.listedBefore a b → Tree.listedBefore b c →
      Tree.listedBefore a c := by
    simp only [Tree.listedBefore, Bool.not_eq_true', decide_eq_false_iff_not, not_lt]
    exact fun a b c hab hbc => le_trans hab hbc
  have htotal : ∀ a b : Location × Entry, Tree.listedBefore a b || Tree.listedBefore b a := by
    simp only [Tree.listedBefore, Bool.or_eq_true, Bool.not_eq_true', decide_eq_false_iff_not,
      not_lt]
    exact fun a b => le_total _ _
  have hsorted := List.pairwise_mergeSort htrans htotal (t.entriesBelow s)
  have hnodup : ((t.entriesBelow s).mergeSort Tree.listedBefore).Pairwise fun a b => a.1 ≠ b.1 := by
    have hkeys : ((t.entriesBelow s).map Prod.fst).Nodup :=
      Branches.nodup_toList (Branches.Distinct.sub h.distinct s)
    have hperm := (List.mergeSort_perm (t.entriesBelow s) Tree.listedBefore).map Prod.fst
    exact List.pairwise_map.mp (hperm.nodup_iff.mpr hkeys)
  refine (hsorted.and hnodup).filterMap _ fun a b ⟨hle, hne⟩ p hp q hq => ?_
  have hnames : ∀ {x : Location × Entry} {r : Pending}, r ∈ pendingOf x → r.names = x.1 := by
    rintro ⟨rel, e⟩ r hr
    cases e <;> simp [pendingOf] at hr <;> rw [← hr]
  rw [hnames hp, hnames hq]
  simp only [Tree.listedBefore, Bool.not_eq_true', decide_eq_false_iff_not, not_lt] at hle
  exact lt_of_le_of_ne hle hne

variable {made rest : List Pending} {e : Pending}

/-- What is turned to has not been turned to before. -/
theorem not_made (h : t.Sound) (hsplit : agenda t s = made ++ e :: rest) :
    e.names ∉ made.map Pending.names := by
  have hsorted := agenda_sorted (s := s) h
  rw [hsplit, List.pairwise_append] at hsorted
  rintro hmem
  obtain ⟨p, hp, hnames⟩ := List.mem_map.mp hmem
  exact absurd (hsorted.2.2 p hp e List.mem_cons_self) (by rw [hnames]; exact lt_irrefl _)

/-- The directories around what is turned to have been turned to before. -/
theorem holder_made (h : t.Sound) (hsplit : agenda t s = made ++ e :: rest) {rel : Location}
    (hrel : rel <+: e.names) (hne : rel ≠ []) (hlt : rel ≠ e.names) :
    ⟨rel, true⟩ ∈ made ∧ t.lookup (s ++ rel) = some .directory := by
  have hmem : e ∈ agenda t s := by simp [hsplit]
  have hdir : t.lookup (s ++ rel) = some .directory := by
    obtain ⟨r, hr⟩ := hrel
    have hnil : r ≠ [] := fun h => hlt (by rw [← hr, h, List.append_nil])
    have hlook : ∃ x, t.lookup (s ++ rel ++ r) = some x := by
      rw [List.append_assoc, hr]
      rcases ((mem_agenda h).mp hmem).2 with ⟨-, hd⟩ | ⟨-, id, hf⟩
      · exact ⟨_, hd⟩
      · exact ⟨_, hf⟩
    obtain ⟨x, hx⟩ := hlook
    exact h.directory_of_prefix r hnil hx
  refine ⟨?_, hdir⟩
  have hin : (⟨rel, true⟩ : Pending) ∈ agenda t s := (mem_agenda h).mpr ⟨hne, .inl ⟨rfl, hdir⟩⟩
  have hbefore := lt_of_prefix hrel hlt
  have hsorted := agenda_sorted (s := s) h
  rw [hsplit, List.pairwise_append] at hsorted
  rw [hsplit, List.mem_append, List.mem_cons] at hin
  rcases hin with hin | heq | hin
  · exact hin
  · exact absurd (congrArg Pending.names heq) hlt
  · exact absurd (List.rel_of_pairwise_cons hsorted.2.1 hin) (not_lt_of_gt hbefore)

theorem isName_of_agenda (h : t.Sound) (hmem : e ∈ agenda t s) {n : String} (hn : n ∈ e.names) :
    IsName n := by
  rcases ((mem_agenda h).mp hmem).2 with ⟨-, hd⟩ | ⟨-, id, hf⟩
  · exact h.isName_of_mem hd hn
  · exact h.isName_of_mem hf hn

end Haulage.Session
