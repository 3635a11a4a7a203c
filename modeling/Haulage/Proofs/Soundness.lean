import Haulage.Copy.Progress
import Haulage.Disk.Edit
import Haulage.Proofs.Listings

/-!
# Trees stay sound

A file tree that is sound stays sound whatever is done to it by path: by what
copy sessions are made of, and by edits from outside. So what holds of sound
trees holds all the time, if it holds of the tree in the beginning.

The working directory has to be there for that, `Tree.Rooted`: a name that is
looked up in a directory which has been removed would be found free. Operations
that only add to the tree keep it there, `Tree.Grows`.
-/

namespace Haulage.Disk

/-! ## Distinct names -/

namespace Branches

variable {α : Type} {bs : Branches α}

theorem mem_names_put {n m : String} {b : Branch α} (h : m ∈ (bs.put n b).names) :
    m = n ∨ m ∈ bs.names := by
  induction bs with
  | none => simpa [put, names] using h
  | cons name value below rest _ ihr =>
    unfold put at h
    split at h
    · exact .inr h
    · rcases List.mem_cons.mp h with hm | hm
      · exact .inr (hm ▸ List.mem_cons_self)
      · exact (ihr hm).imp_right (List.mem_cons_of_mem _)

theorem Distinct.put (h : bs.Distinct) (n : String) {b : Branch α} (hb : b.below.Distinct) :
    (bs.put n b).Distinct := by
  induction bs with
  | none => exact ⟨List.not_mem_nil, hb, trivial⟩
  | cons name value below rest _ ihr =>
    obtain ⟨hname, hbelow, hrest⟩ := h
    unfold Branches.put
    split
    · exact ⟨hname, hb, hrest⟩
    · rename_i hn
      exact ⟨fun hmem => (mem_names_put hmem).elim (fun heq => hn heq.symm) hname, hbelow,
        ihr hrest⟩

/-- Distinct names stay distinct if a branch is changed into one with distinct names. -/
theorem Distinct.alter {b : Branch α} (h : b.below.Distinct) (l : Location)
    {f : Branch α → Branch α} (hf : ∀ b, b.below.Distinct → (f b).below.Distinct) :
    (b.alter l f).below.Distinct := by
  induction l generalizing b with
  | nil => exact hf b h
  | cons n l ih => exact h.put n (ih (h.child n))

end Branches

namespace Tree

variable {t t' t'' : Tree} {p q : Path}

/-! ## Changes of the tree -/

/-- What is seen after a relocation was moved, or stayed where it was. -/
theorem lookup_relocate_cases {l m x : Location} {e : Entry} (hl : l ≠ []) (hm : m ≠ [])
    (h : (t.relocate l m).lookup x = some e) :
    (∃ r, x = m ++ r ∧ t.lookup (l ++ r) = some e) ∨
      ¬m <+: x ∧ ¬l <+: x ∧ t.lookup x = some e := by
  rw [lookup_relocate t x hl hm] at h
  split at h
  · rename_i hin
    obtain ⟨r, rfl⟩ := List.isPrefixOf_iff_prefix.mp hin
    rw [List.drop_left] at h
    exact .inl ⟨r, rfl, h⟩
  · rename_i hout
    split at h
    · simp at h
    · rename_i hout'
      simp only [List.isPrefixOf_iff_prefix] at hout hout'
      exact .inr ⟨hout, hout', h⟩

namespace Sound

theorem congr (h : t.Sound) (hentries : t'.entries = t.entries)
    (hsize : t.files.size ≤ t'.files.size) : t'.Sound := by
  have hlook : ∀ l, t'.lookup l = t.lookup l := fun l => by rw [lookup, lookup, top, top, hentries]
  refine ⟨hentries ▸ h.distinct, fun {l n e} he => ?_, fun {l n e} he => ?_, fun l id hid => ?_⟩
  · rw [hlook] at he ⊢
    exact h.closed he
  · exact h.isName ((hlook _).symm.trans he)
  · exact Nat.lt_of_lt_of_le (h.numbered l id ((hlook l).symm.trans hid)) hsize

theorem setData (h : t.Sound) (id : Nat) (d : FileData) : (t.setData id d).Sound :=
  h.congr rfl (by simp [Tree.setData])

theorem writeAt (h : t.Sound) (id offset : Nat) (chunk : Bytes) :
    (t.writeAt id offset chunk).Sound :=
  h.congr rfl (by simp [Tree.writeAt])

/-- An entry may be put where nothing stands in a directory. -/
theorem inserted (h : t.Sound) {l : Location} {n : String} {e : Entry}
    (hdir : t.lookup l = some .directory) (hn : IsName n) (hfree : t.lookup (l ++ [n]) = none)
    (hentries : t'.entries = (t.insert (l ++ [n]) e).entries)
    (hsize : t.files.size ≤ t'.files.size) (hcounted : e.Counted t'.files.size) : t'.Sound := by
  have hne : l ++ [n] ≠ [] := by simp
  have hlook : ∀ m, t'.lookup m = if m = l ++ [n] then some e else t.lookup m := fun m => by
    rw [← lookup_insert t e m hne, lookup, lookup, top, top, hentries]
  have hdistinct : t'.entries.Distinct := by
    rw [hentries]
    exact Branches.Distinct.alter h.distinct _ fun b hb => hb
  refine ⟨hdistinct, fun {x k e'} he => ?_, fun {x k e'} he => ?_, fun m id hid => ?_⟩
  · rw [hlook] at he ⊢
    split at he
    · rename_i hx
      rw [List.append_inj_left' hx rfl, if_neg (by simp), hdir]
    · rw [if_neg, h.closed he]
      rintro rfl
      -- nothing stood below the place of the new entry
      rw [h.bare hfree _ (List.prefix_append _ [k])] at he
      simp at he
  · rw [hlook] at he
    split at he
    · rename_i hx
      rwa [List.singleton_inj.mp (List.append_inj_right' hx rfl)]
    · exact h.isName he
  · rw [hlook] at hid
    split at hid
    · rw [Option.some.inj hid] at hcounted
      exact hcounted
    · exact Nat.lt_of_lt_of_le (h.numbered m id hid) hsize

/-- An entry may be taken away below which nothing stands. -/
theorem erase (h : t.Sound) {l : Location} (hl : l ≠ [])
    (hbelow : ∀ r, r ≠ [] → t.lookup (l ++ r) = none) : (t.erase l).Sound := by
  have hold : ∀ {m e}, (t.erase l).lookup m = some e → m ≠ l ∧ t.lookup m = some e := by
    intro m e he
    rw [lookup_erase t m hl] at he
    split at he
    · simp at he
    · rename_i hm
      exact ⟨hm, he⟩
  refine ⟨Branches.Distinct.alter h.distinct _ fun b hb => hb, fun {x k e} he => ?_,
    fun {x k e} he => h.isName (hold he).2, fun m id hid => h.numbered m id (hold hid).2⟩
  rw [lookup_erase t x hl, if_neg, h.closed (hold he).2]
  rintro rfl
  have hnone := hbelow [k] (by simp)
  rw [(hold he).2] at hnone
  simp at hnone

/-- All that stands below an entry may be taken away. -/
theorem eraseBelow (h : t.Sound) (l : Location) : (t.eraseBelow l).Sound := by
  have hold : ∀ {m e}, (t.eraseBelow l).lookup m = some e →
      l.below m = false ∧ t.lookup m = some e := by
    intro m e he
    rw [lookup_eraseBelow] at he
    split at he
    · simp at he
    · rename_i hm
      exact ⟨by simpa using hm, he⟩
  refine ⟨Branches.Distinct.alter h.distinct _ fun b _ => trivial, fun {x k e} he => ?_,
    fun {x k e} he => h.isName (hold he).2, fun m id hid => h.numbered m id (hold hid).2⟩
  obtain ⟨hout, hx⟩ := hold he
  rw [lookup_eraseBelow, if_neg, h.closed hx]
  intro hin
  simp only [Location.below, Bool.and_eq_true, List.isPrefixOf_iff_prefix, decide_eq_true_eq,
    Bool.and_eq_false_imp, decide_eq_false_iff_not, List.length_append, List.length_singleton]
    at hin hout
  exact hout (hin.1.trans (List.prefix_append x [k])) (by omega)

/-- What stands at a location and below may be moved into a directory that is not moved itself. -/
theorem relocate (h : t.Sound) {l m : Location} {n : String} (hl : l ≠ [])
    (hdir : t.lookup m = some .directory) (hn : IsName n) (hlm : ¬l <+: m) :
    (t.relocate l (m ++ [n])).Sound := by
  have hne : m ++ [n] ≠ [] := by simp
  have hlook := fun x => lookup_relocate t x hl hne
  have hout : ¬m ++ [n] <+: m := by
    intro hp
    have hle := hp.length_le
    rw [List.length_append, List.length_singleton] at hle
    omega
  have hcut : (t.top.alter l fun _ => Branch.bare).below.Distinct :=
    Branches.Distinct.alter h.distinct l fun _ _ => trivial
  have hdistinct : (t.relocate l (m ++ [n])).entries.Distinct :=
    hcut.alter _ fun _ _ => Branches.Distinct.sub h.distinct l
  -- an entry directly in `x` is what was moved, or lies in it, or stayed
  have hcases : ∀ {x k e}, (t.relocate l (m ++ [n])).lookup (x ++ [k]) = some e →
      (x = m ∧ k = n) ∨ (∃ r, x = m ++ [n] ++ r ∧ t.lookup (l ++ r ++ [k]) = some e) ∨
        ¬m ++ [n] <+: x ∧ ¬l <+: x ∧ t.lookup (x ++ [k]) = some e := by
    intro x k e he
    rcases lookup_relocate_cases hl hne he with ⟨r, hx, hr⟩ | ⟨hmx, hlx, hx⟩
    · rcases List.eq_nil_or_concat r with rfl | ⟨r, k', rfl⟩
      · rw [List.append_nil] at hx
        exact .inl ⟨List.append_inj_left' hx rfl,
          List.singleton_inj.mp (List.append_inj_right' hx rfl)⟩
      · rw [List.concat_eq_append, ← List.append_assoc] at hx hr
        have hk := List.singleton_inj.mp (List.append_inj_right' hx rfl)
        exact .inr (.inl ⟨r, List.append_inj_left' hx rfl, hk ▸ hr⟩)
    · have hp : x <+: x ++ [k] := List.prefix_append x [k]
      exact .inr (.inr ⟨fun hm => hmx (hm.trans hp), fun hl => hlx (hl.trans hp), hx⟩)
  refine ⟨hdistinct, fun {x k e} he => ?_, fun {x k e} he => ?_, fun x id hid => ?_⟩
  · rw [hlook]
    rcases hcases he with ⟨rfl, -⟩ | ⟨r, rfl, hr⟩ | ⟨hmx, hlx, hx⟩
    · rw [if_neg (by simpa using hout), if_neg (by simpa using hlm), hdir]
    · rw [if_pos (by simp), List.drop_left, h.closed hr]
    · rw [if_neg (by simpa using hmx), if_neg (by simpa using hlx), h.closed hx]
  · rcases hcases he with ⟨-, rfl⟩ | ⟨r, -, hr⟩ | ⟨-, -, hx⟩
    · exact hn
    · exact h.isName hr
    · exact h.isName hx
  · rcases lookup_relocate_cases hl hne hid with ⟨r, -, hr⟩ | ⟨-, -, hx⟩
    · exact h.numbered _ id hr
    · exact h.numbered x id hx

end Sound

/-! ## Where entries come to stand -/

/-- The working directory is there. -/
def Rooted (t : Tree) : Prop := t.lookup t.home = some .directory

theorem Rooted.mono (h : t.Rooted) (hk : t.Keeps t') : t'.Rooted := by
  rw [Rooted, hk.home_eq]
  exact hk.lookup_eq h

theorem origin_directory {here : Location} (hhere : t.lookup here = some .directory) (p : Path) :
    t.lookup (origin here p) = some .directory := by
  unfold origin
  split
  · exact lookup_nil t
  · exact hhere

theorem not_mem_of_mem_steps {s : String} (h : s ∈ p.steps) : '/' ∉ s.toList := by
  have hnames : ∀ s ∈ p.names, '/' ∉ s.toList := fun s hs =>
    Path.not_mem_of_mem_segments (List.mem_of_mem_filter hs)
  unfold Path.steps at h
  split at h
  · rcases List.mem_append.mp h with h | h
    · exact hnames s h
    · rw [List.mem_singleton.mp h]
      decide
  · exact hnames s h

theorem isName_of_lastStep {n : String} (h : lastStep p = .name n) : IsName n := by
  obtain ⟨hnames, hne, hdot, hdots⟩ := names_of_lastStep h
  have hmem : n ∈ p.names := hnames ▸ List.mem_append_right _ (List.mem_singleton_self n)
  exact ⟨hne, hdot, hdots, Path.not_mem_of_mem_segments (List.mem_of_mem_filter hmem)⟩

namespace Sound

theorem dropLast_directory (h : t.Sound) {l : Location} (hl : t.lookup l = some .directory) :
    t.lookup l.dropLast = some .directory := by
  rcases List.eq_nil_or_concat l with rfl | ⟨l', n, rfl⟩
  · exact hl
  · rw [List.concat_eq_append] at hl ⊢
    rw [List.dropLast_concat]
    exact h.closed hl

/-- A way that starts in a directory leads to a directory. -/
theorem leads_directory (h : t.Sound) {k k' : Nat} {here l : Location} {steps : List String}
    (hleads : t.Leads k here steps k' l) (hhere : t.lookup here = some .directory) :
    t.lookup l = some .directory := by
  induction hleads with
  | done => exact hhere
  | idle _ _ ih => exact ih hhere
  | up _ ih => exact ih (h.dropLast_directory hhere)
  | down _ hlook _ ih => exact ih hlook
  | link _ _ _ ih => exact ih (origin_directory hhere _)

theorem holder_directory (h : t.Sound) (hr : t.Rooted) {dir : Location}
    (hp : t.holder p = .ok dir) :
    t.lookup dir = some .directory := by
  obtain ⟨-, k, hleads⟩ := holder_eq_ok.mp hp
  exact h.leads_directory hleads (origin_directory hr p)

/-- A walk that ends at a free name ends in a directory. -/
theorem vacant_of_walk (h : t.Sound) {aim : Aim} {l : Location} :
    ∀ (k : Nat) (here : Location) (steps : List String), t.lookup here = some .directory →
      (∀ s ∈ steps, '/' ∉ s.toList) → t.walk aim k here steps = .ok (.vacant l) →
      ∃ dir n, l = dir ++ [n] ∧ t.lookup dir = some .directory ∧ IsName n ∧ t.lookup l = none
  | k, here, [], _, _, hwalk => by simp at hwalk
  | k, here, step :: rest, hhere, hslash, hwalk => by
    have hrest : ∀ s ∈ rest, '/' ∉ s.toList := fun s hs => hslash s (List.mem_cons_of_mem _ hs)
    cases stride_of_walk hwalk with
    | idle _ hgo => exact vacant_of_walk h k here rest hhere hrest hgo
    | up hgo => exact vacant_of_walk h k _ rest (h.dropLast_directory hhere) hrest hgo
    | down _ hlook _ hgo => exact vacant_of_walk h k _ rest hlook hrest hgo
    | last _ _ _ _ hx => simp at hx
    | vacant hstep hlook hx =>
      rw [Place.vacant.inj hx]
      exact ⟨here, step, rfl, hhere,
        ⟨hstep.1, hstep.2.1, hstep.2.2.1, hslash step List.mem_cons_self⟩, hlook⟩
    | @link k _ _ _ target _ _ _ _ hgo =>
      refine vacant_of_walk h k _ (target.steps ++ rest) (origin_directory hhere target)
        (fun s hs => ?_) hgo
      exact (List.mem_append.mp hs).elim not_mem_of_mem_steps (hrest s)
termination_by k _ steps => (k, steps.length)

/-- A path that leads to a free name leads into a directory. -/
theorem vacant_of_place (h : t.Sound) (hr : t.Rooted) {aim : Aim} {l : Location}
    (hp : t.place aim p = .ok (.vacant l)) :
    ∃ dir n, l = dir ++ [n] ∧ t.lookup dir = some .directory ∧ IsName n ∧ t.lookup l = none := by
  unfold place at hp
  split at hp
  · simp at hp
  · exact h.vacant_of_walk _ _ _ (origin_directory hr p) (fun _ => not_mem_of_mem_steps) hp

end Sound

/-! ## Operations that add to the tree -/

/-- The tree `t'` is sound, and holds what `t` holds. -/
structure Grows (t t' : Tree) : Prop extends Keeps t t' where
  sound : t'.Sound

theorem Grows.refl (h : t.Sound) : t.Grows t := ⟨⟨rfl, fun hlook => hlook⟩, h⟩

theorem Grows.trans (h : t.Grows t') (h' : t'.Grows t'') : t.Grows t'' :=
  ⟨⟨h'.home_eq.trans h.home_eq, fun hlook => h'.lookup_eq (h.lookup_eq hlook)⟩, h'.sound⟩

theorem Grows.rooted (h : t.Grows t') (hr : t.Rooted) : t'.Rooted := hr.mono h.toKeeps

theorem keeps_insert {l : Location} {n : String} {e : Entry} (hfree : t.lookup (l ++ [n]) = none) :
    t.Keeps (t.insert (l ++ [n]) e) := by
  refine ⟨rfl, fun {m e'} hlook => ?_⟩
  rw [lookup_insert t e m (by simp), if_neg, hlook]
  rintro rfl
  rw [hfree] at hlook
  simp at hlook

namespace Sound

theorem create_grows (h : t.Sound) (hr : t.Rooted) {x : Nat × Tree} (hc : t.create p = .ok x) :
    t.Grows x.2 := by
  unfold create at hc
  split at hc
  · simp at hc
  · rename_i l hplace
    obtain ⟨dir, n, rfl, hdir, hn, hfree⟩ := h.vacant_of_place hr hplace
    rw [← Except.ok.inj hc]
    have hsize : t.files.size < (t.addFile (dir ++ [n])).2.files.size := by simp [addFile]
    have hkeeps : t.Keeps (t.insert (dir ++ [n]) (.file t.files.size)) := keeps_insert hfree
    exact ⟨⟨rfl, hkeeps.lookup_eq⟩, h.inserted hdir hn hfree rfl hsize.le hsize⟩
  · rename_i l hplace
    split at hc
    · rw [← Except.ok.inj hc]
      exact ⟨⟨rfl, fun hlook => hlook⟩, h.setData _ _⟩
    · simp at hc

theorem makeDirectory_grows (h : t.Sound) (hr : t.Rooted) (hm : t.makeDirectory p = .ok t') :
    t.Grows t' := by
  unfold makeDirectory at hm
  split at hm
  · simp at hm
  rename_i dir hholder
  split at hm
  · rename_i n hn
    split at hm
    · simp at hm
    split at hm
    · simp at hm
    · rename_i hfree
      rw [← Except.ok.inj hm]
      exact ⟨keeps_insert hfree, h.inserted (h.holder_directory hr hholder) (isName_of_lastStep hn)
        hfree rfl le_rfl trivial⟩
  · simp at hm

theorem makeChain_grows (h : t.Sound) (hr : t.Rooted) (k : Nat) (p : Path) :
    t.Grows (t.makeChain k p).2 := by
  induction k generalizing p with
  | zero => exact .refl h
  | succ k ih =>
    unfold makeChain
    split
    · exact .refl h
    split
    · rename_i t' hmake
      exact h.makeDirectory_grows hr hmake
    split
    · split
      · exact .refl h
      · rename_i parent _
        have hparent := ih parent
        split
        · rename_i e t' hchain
          rwa [hchain] at hparent
        · rename_i t' hchain
          rw [hchain] at hparent
          split
          · rename_i t'' hmake
            exact hparent.trans (hparent.sound.makeDirectory_grows (hparent.rooted hr) hmake)
          · split <;> exact hparent
    · split <;> exact .refl h

theorem makeDirectories_grows (h : t.Sound) (hr : t.Rooted) (p : Path) :
    t.Grows (t.makeDirectories p).2 :=
  h.makeChain_grows hr _ p

theorem makeParents_grows (h : t.Sound) (hr : t.Rooted) (p : Path) :
    t.Grows (t.makeParents p).2 := by
  unfold makeParents
  split
  · exact .refl h
  · exact h.makeDirectories_grows hr _

theorem makeLink_grows (h : t.Sound) (hr : t.Rooted) (hm : t.makeLink p q = .ok t') :
    t.Grows t' := by
  unfold makeLink at hm
  split at hm
  · simp at hm
  split at hm
  · simp at hm
  rename_i dir hholder
  split at hm
  · rename_i n hn
    split at hm
    · simp at hm
    split at hm
    · simp at hm
    · rename_i hfree
      split at hm
      · simp at hm
      rw [← Except.ok.inj hm]
      exact ⟨keeps_insert hfree, h.inserted (h.holder_directory hr hholder) (isName_of_lastStep hn)
        hfree rfl le_rfl trivial⟩
  · simp at hm

theorem setModified_grows (h : t.Sound) {s : Option Stamp} (hm : t.setModified p s = .ok t') :
    t.Grows t' := by
  unfold setModified at hm
  split at hm
  · simp at hm
  split at hm
  · rw [← Except.ok.inj hm]
    exact ⟨⟨rfl, fun hlook => hlook⟩, h.setData _ _⟩
  · rw [← Except.ok.inj hm]
    exact ⟨⟨rfl, fun hlook => hlook⟩, h.congr rfl le_rfl⟩
  · simp at hm

theorem orSame_grows (h : t.Sound) {r : Except FileError Tree}
    (hr : ∀ t', r = .ok t' → t.Grows t') : t.Grows (t.orSame r) := by
  unfold orSame
  split
  · exact hr _ rfl
  · exact .refl h

/-! ## Other operations -/

/-- Below anything that is not a directory nothing stands. -/
theorem below_of_ne_directory (h : t.Sound) {l : Location} (hl : t.lookup l ≠ some .directory) :
    ∀ r, r ≠ [] → t.lookup (l ++ r) = none := by
  intro r hr
  cases hlook : t.lookup (l ++ r) with
  | none => rfl
  | some e => exact absurd (h.directory_of_prefix r hr hlook) hl

theorem removeFile (h : t.Sound) (hm : t.removeFile p = .ok t') : t'.Sound := by
  unfold Tree.removeFile at hm
  split at hm
  · simp at hm
  split at hm
  · split at hm
    · simp at hm
    split at hm
    · simp at hm
    · simp at hm
    · rename_i e hlook hdir
      split at hm
      · simp at hm
      rw [← Except.ok.inj hm]
      exact h.erase (by simp) (h.below_of_ne_directory fun hd => by simp_all)
  · simp at hm

theorem below_of_not_hasBelow (h : t.Sound) {l : Location} (hl : t.hasBelow l = false) :
    ∀ r, r ≠ [] → t.lookup (l ++ r) = none := by
  have hbare : (t.top.sub l).below.isBare = true := by simpa [hasBelow] using hl
  have hchild : ∀ n, t.lookup (l ++ [n]) = none := fun n => by
    rw [lookup, Branch.sub_append]
    exact Branches.value_child_of_isBare hbare n
  intro r hr
  obtain ⟨n, r, rfl⟩ := List.exists_cons_of_ne_nil hr
  rw [List.append_cons]
  exact h.bare (hchild n) _ (List.prefix_append _ r)

theorem removeDirectory (h : t.Sound) (hm : t.removeDirectory p = .ok t') : t'.Sound := by
  unfold Tree.removeDirectory at hm
  split at hm
  · simp at hm
  split at hm
  · split at hm
    · simp at hm
    split at hm
    · simp at hm
    · split at hm
      · simp at hm
      rename_i hbelow
      rw [← Except.ok.inj hm]
      exact h.erase (by simp) (h.below_of_not_hasBelow (by simpa using hbelow))
    · simp at hm
  · simp at hm
  · simp at hm
  · simp at hm

theorem removeTree (h : t.Sound) (p : Path) : (t.removeTree p).2.Sound := by
  unfold Tree.removeTree
  split
  · exact h
  split
  · split
    · rename_i hm
      exact h.removeFile hm
    · exact h
  · split
    · rename_i hm
      exact (h.eraseBelow _).removeDirectory hm
    · exact h.eraseBelow _
  · exact h
  · exact h

theorem orSame (h : t.Sound) {r : Except FileError Tree} (hr : ∀ t', r = .ok t' → t'.Sound) :
    (t.orSame r).Sound := by
  unfold Tree.orSame
  split
  · exact hr _ rfl
  · exact h

theorem discard (h : t.Sound) (p : Path) : (t.discard p).Sound := by
  unfold Tree.discard
  split
  · exact h.removeTree p
  · exact h.orSame fun t' hm => h.removeFile hm
  · exact h

theorem moveEntry (h : t.Sound) {l m : Location} {n : String} {slash : Bool} (hl : l ≠ [])
    (hdir : t.lookup m = some .directory) (hn : IsName n)
    (hm : t.moveEntry l (m ++ [n]) slash = .ok t') : t'.Sound := by
  obtain ⟨hself, ⟨-, rfl⟩ | ⟨-, rfl⟩⟩ := moveEntry_cases hm
  · exact h
  · rw [List.dropLast_concat] at hself
    exact h.relocate hl hdir hn hself

theorem rename (h : t.Sound) (hr : t.Rooted) (hm : t.rename p q = .ok t') : t'.Sound := by
  unfold Tree.rename at hm
  split at hm
  · simp at hm
  · simp at hm
  rename_i pd qd _ hholder
  split at hm
  · rename_i pn qn _ hqn
    split at hm
    · simp at hm
    split at hm
    · simp at hm
    split at hm
    · simp at hm
    exact h.moveEntry (by simp) (h.holder_directory hr hholder) (isName_of_lastStep hqn) hm
  · simp at hm

/-- An edit from outside leaves the tree sound. -/
theorem edit (h : t.Sound) (hr : t.Rooted) (e : Edit) : (t.edit e).Sound := by
  cases e with
  | makeDirectory p => exact (h.makeDirectories_grows hr p).sound
  | write p bytes =>
    have hparents := h.makeParents_grows hr p
    refine hparents.sound.orSame fun t' hm => ?_
    unfold writeFile at hm
    split at hm
    · simp at hm
    · rename_i hcreate
      rw [← Except.ok.inj hm]
      exact (hparents.sound.create_grows (hparents.rooted hr) hcreate).sound.writeAt _ _ _
  | remove p => exact h.discard p
  | rename p q => exact h.orSame fun t' hm => h.rename hr hm
  | link p target => exact h.orSame fun t' hm => (h.makeLink_grows hr hm).sound
  | setModified p s => exact (h.orSame_grows fun t' hm => h.setModified_grows hm).sound

/-- Edits from outside leave the tree sound, as long as the working directory is there. -/
theorem edits (h : t.Sound) (es : List Edit) (hr : ∀ es', es' <+: es → (t.edits es').Rooted) :
    (t.edits es).Sound := by
  induction es using List.reverseRecOn with
  | nil => exact h
  | append_singleton es e ih =>
    have hlast : t.edits (es ++ [e]) = (t.edits es).edit e := by simp [Tree.edits]
    rw [hlast]
    exact (ih fun es' hes => hr es' (hes.trans (List.prefix_append es [e]))).edit
      (hr es (List.prefix_append es [e])) e

end Sound

end Tree

end Haulage.Disk

/-! ## Copy sessions -/

namespace Haulage.Session

open Disk

variable {t : Tree}

theorem startCopy_grows (h : t.Sound) (hr : t.Rooted) (source : Handle) (modified : Option Stamp)
    (target : Path) : t.Grows (startCopy t source modified target).2 := by
  unfold startCopy
  split
  · exact .refl h
  · rename_i hcreate
    exact h.create_grows hr hcreate

theorem openEntry_grows (h : t.Sound) (hr : t.Rooted) (source destination : Path)
    (entry : Pending) : t.Grows (openEntry t source destination entry).2 := by
  unfold openEntry
  simp only
  split
  · have hdirs := h.makeDirectories_grows hr ((staged destination).descend entry.names)
    split
    · rename_i hmade
      rwa [hmade] at hdirs
    · rename_i hmade
      rwa [hmade] at hdirs
  · split
    · exact .refl h
    · rename_i handle _
      have hparents := h.makeParents_grows hr ((staged destination).descend entry.names)
      split
      · rename_i hmade
        rwa [hmade] at hparents
      · rename_i t₁ hmade
        rw [hmade] at hparents
        have hcopy := hparents.trans (startCopy_grows hparents.sound (hparents.rooted hr) handle
          (handleModified t handle) ((staged destination).descend entry.names))
        split
        · rename_i hstart
          rwa [hstart] at hcopy
        · rename_i hstart
          rwa [hstart] at hcopy

theorem timed_grows (h : t.Sound) (s : Session) : t.Grows (s.timed t) := by
  cases s with
  | file copy destination => exact h.orSame_grows fun t' hm => h.setModified_grows hm
  | buffer data position target destination => exact .refl h
  | directory source pending current destination => exact .refl h

/-- Committing a session leaves the tree sound. -/
theorem sound_commit (h : t.Sound) (hr : t.Rooted) (s : Session) : (s.commit t).2.Sound := by
  have htimed := timed_grows h s
  unfold commit
  simp only
  split
  · rename_i hrename
    exact htimed.sound.rename (htimed.rooted hr) hrename
  · exact htimed.sound.discard _

end Haulage.Session
