import Haulage.Proofs.Access

/-!
# Spellings of a path

One path may be written in many ways, since empty segments and inner dots take a walk nowhere.
`Path.Alike` says that two texts differ in such segments only, and these stand before a common
segment that is not idle. The operations on a file tree then do the same, whichever of the two
they are given: see `Alike.place_eq` and `Alike.holder_eq`, from which all others follow.

What stands behind the last name matters. A text that ends in idle segments names a directory, and
what is appended to it becomes the name of an entry of that directory.
-/

namespace Haulage.Disk

/-- A text contains the characters of its pieces and separators. -/
theorem mem_iff_mem_pieces {c : Char} (hc : c ≠ '/') (cs : List Char) :
    c ∈ cs ↔ ∃ w ∈ pieces cs, c ∈ w := by
  induction cs with
  | nil => simp [pieces]
  | cons b cs ih =>
    rw [List.mem_cons, ih, pieces]
    by_cases hb : b = '/'
    · simp [hb, hc]
    · rw [if_neg hb]
      cases hw : pieces cs with
      | nil => exact absurd hw (pieces_ne_nil cs)
      | cons w ws => simp [or_assoc]

namespace Path

variable {p q : Path} {a b w v rest : List String} {y : String}

/-! ## Texts -/

theorem mem_text_iff {c : Char} (hc : c ≠ '/') :
    c ∈ p.text.toList ↔ ∃ s ∈ p.segments, c ∈ s.toList := by
  rw [mem_iff_mem_pieces hc, segments]
  constructor
  · rintro ⟨w, hw, hmem⟩
    exact ⟨_, List.mem_map_of_mem hw, by rwa [String.toList_ofList]⟩
  · rintro ⟨s, hs, hmem⟩
    obtain ⟨w, hw, rfl⟩ := List.mem_map.mp hs
    exact ⟨w, hw, by rwa [String.toList_ofList] at hmem⟩

/-- The text of a path can be cut between any two of its segments. -/
theorem text_eq_of_segments (h : p.segments = a ++ b) (ha : a ≠ []) (hb : b ≠ []) :
    p.text = (ofSegments a).text ++ "/" ++ (ofSegments b).text := by
  have hseg : segments ⟨(ofSegments a).text ++ "/" ++ (ofSegments b).text⟩ = p.segments := by
    have hleft := segments_ofSegments_of_subset (p := p) ha (by simp [h])
    have hright := segments_ofSegments_of_subset (p := p) hb (by simp [h])
    rw [segments_slash, h]
    exact congrArg₂ (· ++ ·) hleft hright
  have hpath := congrArg ofSegments hseg
  rw [ofSegments_segments, ofSegments_segments] at hpath
  exact congrArg text hpath.symm

/-- A path of idle segments has no parent, unless it starts with a dot. -/
theorem parent?_of_idle (h : ∀ s ∈ p.segments, Idle s) :
    p.parent? = if p.startsHere then some ⟨""⟩ else none := by
  have hnone (k : ℕ) : (p.segments.drop k).reverse.dropWhile (fun s => !proper s) = [] := by
    rw [List.dropWhile_eq_nil_iff]
    intro s hs
    simpa [Idle] using h s (List.mem_of_mem_drop (List.mem_reverse.mp hs))
  simp only [parent?, hnone]

/-- The text of a parent is the beginning of the text of the path. -/
theorem text_of_parent? (h : p.parent? = some q) : ∃ s, s ≠ "" ∧ p.text = q.text ++ s := by
  rcases idle_or_split p.segments with hidle | ⟨w, y, idle, hseg, hy, hidle⟩
  · rw [parent?_of_idle hidle] at h
    split at h
    · rename_i hhere
      obtain rfl := Option.some.inj h
      refine ⟨p.text, ?_, String.empty_append.symm⟩
      refine text_ne_of_mem_segments (s := ".") ?_ (by decide)
      exact List.mem_of_mem_head? (by simpa [startsHere] using hhere)
    · cases h
  have hne := (ne_of_proper hy).1
  rw [parent?_eq_parentOf hseg hy hidle] at h
  rcases idle_or_split w with hall | ⟨w, x, idle', rfl, hx, hall⟩
  · rw [parentOf_of_idle hall] at h
    obtain rfl := Option.some.inj h
    cases w with
    | nil =>
      refine ⟨p.text, text_ne_of_mem_segments (s := y) ?_ hne, String.empty_append.symm⟩
      simp [hseg]
    | cons s w =>
      have hcut : p.text = (ofSegments [s]).text ++ "/" ++ (ofSegments (w ++ y :: idle)).text :=
        text_eq_of_segments hseg (by simp) (by simp)
      rcases idle_iff.mp (hall s List.mem_cons_self) with rfl | rfl
      · refine ⟨(ofSegments (w ++ y :: idle)).text, ?_, hcut⟩
        refine text_ne_of_mem_segments (s := y) ?_ hne
        rw [segments_ofSegments_of_subset (p := p) (by simp)
          (by rw [hseg]; exact List.subset_cons_self _ _)]
        simp
      · exact ⟨"/" ++ (ofSegments (w ++ y :: idle)).text, by simp,
          hcut.trans String.append_assoc⟩
  · rw [parentOf_split hx hall] at h
    obtain rfl := Option.some.inj h
    have hseg' : p.segments = (w ++ [x]) ++ (idle' ++ y :: idle) := by simp [hseg]
    exact ⟨"/" ++ (ofSegments (idle' ++ y :: idle)).text, by simp,
      (text_eq_of_segments hseg' (by simp) (by simp)).trans String.append_assoc⟩

/-! ## Beginnings -/

theorem filter_proper_eq_nil : w.filter proper = [] ↔ ∀ s ∈ w, Idle s := by
  simp [List.filter_eq_nil_iff, Idle]

/-- What stands idle in front of a path is in front of a segment that is not. -/
theorem head?_append_eq_iff {s : String} {a : List String} (hy : proper y = true) (hs : Idle s) :
    (w ++ y :: a).head? = some s ↔ w.head? = some s := by
  cases w with
  | nil => simpa using fun heq => by simp [heq, hs] at hy
  | cons r w => rfl

/-- Two beginnings of paths start at the same place and go on along the same steps. -/
structure Akin (w v : List String) : Prop where
  head_iff {s : String} (hs : Idle s) : w.head? = some s ↔ v.head? = some s
  proper_eq : w.filter proper = v.filter proper

namespace Akin

theorem symm (h : Akin w v) : Akin v w := ⟨fun hs => (h.head_iff hs).symm, h.proper_eq.symm⟩

theorem eq_nil (h : Akin [] v) : v = [] := by
  cases v with
  | nil => rfl
  | cons s v =>
    by_cases hs : proper s = true
    · simpa [hs] using h.proper_eq
    · simpa using h.head_iff (s := s) (by simpa using hs)

theorem append (h : Akin w v) (a : List String) : Akin (w ++ a) (v ++ a) := by
  refine ⟨fun hs => ?_, by rw [List.filter_append, List.filter_append, h.proper_eq]⟩
  cases w with
  | nil => rw [h.eq_nil]
  | cons s w =>
    cases v with
    | nil => exact absurd h.symm.eq_nil (by simp)
    | cons r v => exact h.head_iff hs

theorem idle (h : Akin w v) (hw : ∀ s ∈ w, Idle s) : ∀ s ∈ v, Idle s := by
  rw [← filter_proper_eq_nil] at hw ⊢
  rw [← h.proper_eq, hw]

theorem head?_eq (h : Akin w v) (hw : ∀ s ∈ w, Idle s) : w.head? = v.head? := by
  cases w with
  | nil => rw [h.eq_nil]
  | cons s w => exact ((h.head_iff (hw s List.mem_cons_self)).mp rfl).symm

/-- Both have the same last step that is not idle, and what stands before it is akin as well. -/
theorem exists_split {a : List String} (h : Akin (w ++ y :: a) v) (hy : proper y = true)
    (ha : ∀ s ∈ a, Idle s) : ∃ v' b, v = v' ++ y :: b ∧ (∀ s ∈ b, Idle s) ∧ Akin w v' := by
  rcases idle_or_split v with hv | ⟨v', z, b, rfl, hz, hb⟩
  · exact absurd (hy.symm.trans (h.symm.idle hv y (by simp))) (by decide)
  have hproper := h.proper_eq
  simp only [List.filter_append, List.filter_cons_of_pos hy, List.filter_cons_of_pos hz,
    filter_proper_eq_nil.mpr ha, filter_proper_eq_nil.mpr hb] at hproper
  obtain ⟨hbefore, hlast⟩ := List.append_inj' hproper rfl
  obtain rfl := List.singleton_inj.mp hlast
  exact ⟨v', b, rfl, hb, fun hs => by
    rw [← head?_append_eq_iff hy hs, h.head_iff hs, head?_append_eq_iff hy hs], hbefore⟩

end Akin

/-- Two spellings of a path, neither of them too long for a walk, that differ at most in what
stands before a common segment, and there in idle segments only. -/
inductive Alike (p : Path) : Path → Prop
  | refl : Alike p p
  | apart {q : Path} {w v rest : List String} {y : String} (hp : p.segments = w ++ y :: rest)
      (hq : q.segments = v ++ y :: rest) (hy : proper y = true) (h : Akin w v)
      (hshort : p.isTooLong = false) (hshort' : q.isTooLong = false) : Alike p q

theorem isTooLong_of_parent? (h : p.parent? = some q) (hp : p.isTooLong = false) :
    q.isTooLong = false := by
  obtain ⟨s, -, htext⟩ := text_of_parent? h
  simp only [isTooLong, htext, String.utf8ByteSize_append, decide_eq_false_iff_not] at hp ⊢
  omega

theorem Akin.startsHere_eq (h : Akin p.segments q.segments) : p.startsHere = q.startsHere := by
  rw [startsHere, startsHere, Bool.eq_iff_iff, decide_eq_true_eq, decide_eq_true_eq]
  exact h.head_iff (idle_iff.mpr (.inr rfl))

theorem Akin.same (h : Akin p.segments q.segments) (habs : p.isAbsolute = q.isAbsolute) :
    p.same q = true := by
  simp only [Path.same, components, habs, h.startsHere_eq, h.proper_eq, decide_true]

/-- Akin paths have parents that are alike. -/
theorem Akin.parents (h : Akin p.segments q.segments) (hp : p.isTooLong = false)
    (hq : q.isTooLong = false) : Option.Rel Alike p.parent? q.parent? := by
  rcases idle_or_split p.segments with hidle | ⟨w, y, a, hseg, hy, ha⟩
  · rw [parent?_of_idle hidle, parent?_of_idle (h.idle hidle), h.startsHere_eq]
    split
    · exact .some (.refl)
    · exact .none
  rw [hseg] at h
  obtain ⟨v, b, hseg', hb, h⟩ := h.exists_split hy ha
  have hparent := parent?_eq_parentOf hseg hy ha
  have hparent' := parent?_eq_parentOf hseg' hy hb
  rcases idle_or_split w with hidle | ⟨w, x, c, rfl, hx, hc⟩
  · rw [hparent, hparent', parentOf_of_idle hidle, parentOf_of_idle (h.idle hidle),
      h.head?_eq hidle]
    exact .some .refl
  · obtain ⟨v, d, rfl, hd, h⟩ := h.exists_split hx hc
    rw [parentOf_split hx hc] at hparent
    rw [parentOf_split hx hd] at hparent'
    rw [hparent, hparent']
    have hmade : (ofSegments (w ++ [x])).segments = w ++ [x] :=
      segments_ofSegments_of_subset (p := p) (by simp) (by simp [hseg])
    have hmade' : (ofSegments (v ++ [x])).segments = v ++ [x] :=
      segments_ofSegments_of_subset (p := q) (by simp) (by simp [hseg'])
    exact .some (.apart hmade hmade' hx h (isTooLong_of_parent? hparent hp)
      (isTooLong_of_parent? hparent' hq))

end Path

namespace Tree

variable {t : Tree} {aim : Aim} {k : ℕ} {here : Location} {w v a b : List String}

/-! ## Walks -/

/-- After its first step a walk may be continued in either of two ways that come to the same. A step
takes notice only of whether another one follows, and a walk that may create a file of whether an
empty one does. -/
theorem walk_cons_congr {step : String} (ha : a ≠ []) (hb : b ≠ [])
    (hcreate : aim = .create → a ≠ [""] ∧ b ≠ [""])
    (hwalk : ∀ here, t.walk aim k here a = t.walk aim k here b)
    (hdetour : ∀ target, t.detour aim k here target a = t.detour aim k here target b) :
    t.walk aim k here (step :: a) = t.walk aim k here (step :: b) := by
  have hleft : ¬(aim = .create ∧ a = [""]) := fun h => (hcreate h.1).1 h.2
  have hright : ¬(aim = .create ∧ b = [""]) := fun h => (hcreate h.1).2 h.2
  simp only [walk_eq] at hwalk ⊢
  simp only [advance_cons, hwalk, hdetour, List.isEmpty_iff, ha, hb, Bool.and_eq_true,
    decide_eq_true_eq, hleft, hright, if_false, false_and]

/-- The idle steps at the beginning of a walk do not matter, as long as there are steps behind
them. -/
theorem walk_proper {a b : List String} (ha : a ≠ []) (hb : b ≠ [])
    (hcreate : aim = .create → a ≠ [""] ∧ b ≠ [""])
    (h : ∀ k here, t.walk aim k here a = t.walk aim k here b) :
    ∀ (k : ℕ) (here : Location) (w : List String),
      t.walk aim k here (w ++ a) = t.walk aim k here (w.filter Path.proper ++ b)
  | k, here, [] => h k here
  | k, here, step :: w => by
    by_cases hstep : Path.proper step = true
    · have hslash {r x : List String} (hx : x ≠ []) (hne : x ≠ [""]) : r ++ x ≠ [""] := by
        intro heq
        rcases List.append_eq_singleton_iff.mp heq with ⟨-, heq⟩ | ⟨-, heq⟩
        · exact hne heq
        · exact hx heq
      rw [List.filter_cons_of_pos hstep, List.cons_append, List.cons_append]
      refine walk_cons_congr (by simp [ha]) (by simp [hb])
        (fun haim => ⟨hslash ha (hcreate haim).1, hslash hb (hcreate haim).2⟩)
        (fun here => walk_proper ha hb hcreate h k here w) fun target => ?_
      cases k with
      | zero => rfl
      | succ k =>
        -- the steps of the target come before what is left on both sides
        have hlong := walk_proper ha hb hcreate h k (origin here target) (target.steps ++ w)
        have hshort := walk_proper hb hb (fun haim => ⟨(hcreate haim).2, (hcreate haim).2⟩)
          (fun _ _ => rfl) k (origin here target) (target.steps ++ w.filter Path.proper)
        simp only [List.filter_append, List.filter_filter, Bool.and_self] at hlong hshort
        simp only [detour, ← List.append_assoc]
        rw [hlong, hshort]
    · rw [List.filter_cons_of_neg hstep, List.cons_append,
        walk_idle (Path.idle_iff.mp (by simpa using hstep))]
      exact walk_proper ha hb hcreate h k here w
termination_by k _ w => (k, w.length)

/-- Walks that begin alike come to the same. -/
theorem walk_akin (h : w.filter Path.proper = v.filter Path.proper) (ha : a ≠ [])
    (hcreate : aim = .create → a ≠ [""]) :
    t.walk aim k here (w ++ a) = t.walk aim k here (v ++ a) := by
  rw [walk_proper ha ha (fun haim => ⟨hcreate haim, hcreate haim⟩) (fun _ _ => rfl), h,
    ← walk_proper ha ha (fun haim => ⟨hcreate haim, hcreate haim⟩) (fun _ _ => rfl)]

end Tree

namespace Path

variable {p q : Path} {w v rest : List String} {y : String}

section Segments

variable (h : p.segments = w ++ y :: rest) (hy : proper y = true)

include h hy

theorem names_eq_of_segments : p.names = w.filter (· ≠ "") ++ y :: rest.filter (· ≠ "") := by
  rw [names, h, List.filter_append, List.filter_cons_of_pos (by simp [(ne_of_proper hy).1])]

theorem endsWithSlash_eq_of_segments :
    p.endsWithSlash = decide ((y :: rest).getLast? = some "") := by
  have hlast : (w ++ y :: rest).getLast? = (y :: rest).getLast? := by
    rw [List.getLast?_append_of_ne_nil _ (List.cons_ne_nil y rest)]
  simp [endsWithSlash, names_eq_of_segments h hy, h, hlast]

theorem steps_eq_of_segments :
    p.steps = w.filter (· ≠ "") ++ y :: (rest.filter (· ≠ "") ++
      if (y :: rest).getLast? = some "" then [""] else []) := by
  rw [steps, endsWithSlash_eq_of_segments h hy, names_eq_of_segments h hy]
  by_cases hlast : (y :: rest).getLast? = some ""
  · simp [hlast]
  · simp [hlast]

end Segments

theorem filter_proper_filter (w : List String) :
    (w.filter (· ≠ "")).filter proper = w.filter proper := by
  rw [List.filter_filter]
  refine List.filter_congr fun s _ => ?_
  by_cases hs : s = "" <;> simp [proper, hs]

theorem Akin.names_eq (h : Akin w v) :
    (w.filter (· ≠ "")).filter proper = (v.filter (· ≠ "")).filter proper := by
  rw [filter_proper_filter, filter_proper_filter, h.proper_eq]

/-- Whether a path contains a NUL character shows in its steps. -/
theorem hasNul_iff : p.hasNul = true ↔ ∃ s ∈ p.segments.filter proper, '\x00' ∈ s.toList := by
  rw [hasNul, List.contains_iff_mem, mem_text_iff (by decide)]
  refine exists_congr fun s => ?_
  rw [List.mem_filter]
  constructor
  · rintro ⟨hs, hmem⟩
    refine ⟨⟨hs, ?_⟩, hmem⟩
    by_contra hidle
    rcases idle_iff.mp (by simpa using hidle) with rfl | rfl
    · simp at hmem
    · revert hmem
      decide
  · rintro ⟨⟨hs, -⟩, hmem⟩
    exact ⟨hs, hmem⟩

theorem Akin.refusal?_eq (h : Akin p.segments q.segments) (htext : p.text ≠ "")
    (htext' : q.text ≠ "") (hp : p.isTooLong = false) (hq : q.isTooLong = false) :
    p.refusal? = q.refusal? := by
  have hnul : p.hasNul = q.hasNul := by
    rw [Bool.eq_iff_iff, hasNul_iff, hasNul_iff, h.proper_eq]
  simp only [refusal?, hnul, htext, htext', hp, hq]

namespace Alike

variable {t : Tree} {aim : Aim}

theorem refusal?_eq (h : Alike p q) : p.refusal? = q.refusal? := by
  cases h with
  | refl => rfl
  | apart hp hq hy h hshort hshort' =>
    have hne := (ne_of_proper hy).1
    exact Akin.refusal?_eq (hp ▸ hq ▸ h.append _) (text_ne_of_mem_segments (by rw [hp]; simp) hne)
      (text_ne_of_mem_segments (by rw [hq]; simp) hne) hshort hshort'

theorem isAbsolute_eq (h : Alike p q) : p.isAbsolute = q.isAbsolute := by
  cases h with
  | refl => rfl
  | apart hp hq hy h =>
    have hne := (ne_of_proper hy).1
    rw [isAbsolute_of_segments hp hne, isAbsolute_of_segments hq hne, Bool.eq_iff_iff, beq_iff_eq,
      beq_iff_eq]
    exact h.head_iff (idle_iff.mpr (.inl rfl))

theorem endsWithSlash_eq (h : Alike p q) : p.endsWithSlash = q.endsWithSlash := by
  cases h with
  | refl => rfl
  | apart hp hq hy => rw [endsWithSlash_eq_of_segments hp hy, endsWithSlash_eq_of_segments hq hy]

theorem lastStep_eq (h : Alike p q) : Tree.lastStep p = Tree.lastStep q := by
  cases h with
  | refl => rfl
  | apart hp hq hy =>
    rw [Tree.lastStep, Tree.lastStep, names_eq_of_segments hp hy, names_eq_of_segments hq hy,
      List.getLast?_append_of_ne_nil _ (List.cons_ne_nil _ _),
      List.getLast?_append_of_ne_nil _ (List.cons_ne_nil _ _)]

/-- Both lead to the same place. -/
theorem place_eq (h : Alike p q) : t.place aim p = t.place aim q := by
  have hrefusal := h.refusal?_eq
  have habs := h.isAbsolute_eq
  cases h with
  | refl => rfl
  | @apart _ w v rest y hp hq hy h =>
    have hwalk (here : Location) (a : List String) :
        t.walk aim Disk.maxLinks here (w.filter (· ≠ "") ++ y :: a) =
          t.walk aim Disk.maxLinks here (v.filter (· ≠ "") ++ y :: a) :=
      Tree.walk_akin h.names_eq (List.cons_ne_nil y a) fun _ => by simp [(ne_of_proper hy).1]
    simp only [Tree.place, hrefusal, Tree.origin, habs, steps_eq_of_segments hp hy,
      steps_eq_of_segments hq hy, hwalk]

/-- The last step of both is taken in the same directory. -/
theorem holder_eq (h : Alike p q) : t.holder p = t.holder q := by
  have hrefusal := h.refusal?_eq
  have habs := h.isAbsolute_eq
  cases h with
  | refl => rfl
  | @apart _ w v rest y hp hq hy h =>
    have hwalk (here : Location) (a : List String) :
        t.walk .reach Disk.maxLinks here (w.filter (· ≠ "") ++ (a ++ [""])) =
          t.walk .reach Disk.maxLinks here (v.filter (· ≠ "") ++ (a ++ [""])) :=
      Tree.walk_akin h.names_eq (by simp) (by simp)
    simp only [Tree.holder, hrefusal, Tree.origin, habs, names_eq_of_segments hp hy,
      names_eq_of_segments hq hy, List.dropLast_append_of_ne_nil (List.cons_ne_nil _ _),
      List.append_assoc, hwalk]

theorem text_eq_iff (h : Alike p q) : p.text = "" ↔ q.text = "" := by
  cases h with
  | refl => rfl
  | apart hp hq hy =>
    have hne := (ne_of_proper hy).1
    exact iff_of_false (text_ne_of_mem_segments (by rw [hp]; simp) hne)
      (text_ne_of_mem_segments (by rw [hq]; simp) hne)

theorem parents (h : Alike p q) : Option.Rel Alike p.parent? q.parent? := by
  cases h with
  | refl =>
    cases p.parent? with
    | none => exact .none
    | some r => exact .some .refl
  | apart hp hq hy h hshort hshort' =>
    exact Akin.parents (hp ▸ hq ▸ h.append _) hshort hshort'

/-- They are equal as paths. -/
theorem same (h : Alike p q) : p.same q = true := by
  have habs := h.isAbsolute_eq
  cases h with
  | refl => simp [Path.same]
  | apart hp hq hy h =>
    exact Akin.same (hp ▸ hq ▸ h.append _) habs

/-! ## Operations -/

theorem resolve_eq (h : Alike p q) : t.resolve aim p = t.resolve aim q := by
  simp only [Tree.resolve, h.place_eq]

theorem status_eq (h : Alike p q) : t.status p = t.status q := by
  simp only [Tree.status, h.resolve_eq]

theorem isDirectory_eq (h : Alike p q) : t.isDirectory p = t.isDirectory q := by
  simp only [Tree.isDirectory, h.status_eq]

theorem create_eq (h : Alike p q) : t.create p = t.create q := by
  simp only [Tree.create, h.place_eq]

theorem setModified_eq (h : Alike p q) (s : Option Stamp) :
    t.setModified p s = t.setModified q s := by
  simp only [Tree.setModified, h.resolve_eq]

theorem removeFile_eq (h : Alike p q) : t.removeFile p = t.removeFile q := by
  simp only [Tree.removeFile, h.holder_eq, h.lastStep_eq, h.endsWithSlash_eq]

theorem removeDirectory_eq (h : Alike p q) : t.removeDirectory p = t.removeDirectory q := by
  simp only [Tree.removeDirectory, h.holder_eq, h.lastStep_eq]

theorem discard_eq (h : Alike p q) : t.discard p = t.discard q := by
  simp only [Tree.discard, Tree.linkStatus, Tree.removeTree, h.resolve_eq, h.removeFile_eq,
    h.removeDirectory_eq]

theorem rename_eq {p' q' : Path} (h : Alike p q) (h' : Alike p' q') :
    t.rename p p' = t.rename q q' := by
  simp only [Tree.rename, h.holder_eq, h'.holder_eq, h.lastStep_eq, h'.lastStep_eq,
    h.endsWithSlash_eq, h'.endsWithSlash_eq]

theorem makeDirectory_eq (h : Alike p q) : t.makeDirectory p = t.makeDirectory q := by
  simp only [Tree.makeDirectory, h.holder_eq, h.lastStep_eq]

/-- However many parents may be gone up to, as long as they are enough. -/
theorem makeChain_eq {n m : ℕ} (h : Alike p q) (hn : p.text.length < n) (hm : q.text.length < m) :
    t.makeChain n p = t.makeChain m q := by
  induction n generalizing m t p q with
  | zero => omega
  | succ n ih =>
    obtain ⟨m, rfl⟩ := Nat.exists_eq_succ_of_ne_zero (by omega : m ≠ 0)
    have hshorter {p q : Path} {k : ℕ} (hq : p.parent? = some q) (hk : p.text.length < k + 1) :
        q.text.length < k := by
      obtain ⟨s, hs, htext⟩ := text_of_parent? hq
      have hpos : s.length ≠ 0 := by simpa [String.length_eq_zero_iff] using hs
      rw [htext, String.length_append] at hk
      omega
    have hparents := h.parents
    unfold Tree.makeChain
    simp only [h.text_eq_iff, h.makeDirectory_eq, h.isDirectory_eq]
    generalize hp : p.parent? = r at hparents ⊢
    generalize hq : q.parent? = r' at hparents ⊢
    cases hparents with
    | none => rfl
    | some hr => simp only [ih hr (hshorter hp hn) (hshorter hq hm)]

theorem makeDirectories_eq (h : Alike p q) : t.makeDirectories p = t.makeDirectories q :=
  h.makeChain_eq (Nat.lt_succ_self _) (Nat.lt_succ_self _)

theorem makeParents_eq (h : Option.Rel Alike p.parent? q.parent?) :
    t.makeParents p = t.makeParents q := by
  unfold Tree.makeParents
  generalize p.parent? = r at h
  generalize q.parent? = r' at h
  cases h with
  | none => rfl
  | some hr => exact hr.makeDirectories_eq

end Alike

/-! ## Paths below -/

/-- Two spellings that begin alike and have the same last segment. -/
structure Respelt (p q : Path) (w v : List String) (y : String) : Prop where
  segments_eq : p.segments = w ++ [y]
  segments_eq' : q.segments = v ++ [y]
  akin : Akin w v

namespace Respelt

theorem alike (h : Respelt p q w v y) (hy : proper y = true) (hp : p.isTooLong = false)
    (hq : q.isTooLong = false) : Alike p q :=
  .apart h.segments_eq h.segments_eq' hy h.akin hp hq

theorem akin_segments (h : Respelt p q w v y) : Akin p.segments q.segments := by
  rw [h.segments_eq, h.segments_eq']
  exact h.akin.append [y]

/-- What lies below two spellings of one path is spelt alike. -/
theorem descend (h : Respelt p q w v y) (hy : proper y = true) {l : Location}
    (hp : (p.descend l).isTooLong = false) (hq : (q.descend l).isTooLong = false) :
    Alike (p.descend l) (q.descend l) := by
  have hne := (ne_of_proper hy).1
  by_cases habs : (ofSegments l).isAbsolute = true
  · have heq : p.descend l = q.descend l := by simp [Path.descend, join, habs]
    rw [heq]
    exact .refl
  · have hrel : (ofSegments l).isAbsolute = false := by simpa using habs
    exact .apart (segments_join h.segments_eq hne hrel) (segments_join h.segments_eq' hne hrel) hy
      h.akin hp hq

theorem eq_of_nil (h : Respelt p q [] v y) : p = q := by
  rw [← ofSegments_segments p, ← ofSegments_segments q, h.segments_eq, h.segments_eq',
    h.akin.eq_nil]

theorem isAbsolute_eq (h : Respelt p q w v y) : p.isAbsolute = q.isAbsolute := by
  cases w with
  | nil => rw [h.eq_of_nil]
  | cons s w =>
    cases v with
    | nil => exact absurd h.akin.symm.eq_nil (by simp)
    | cons r v =>
      have hhead := h.akin.head_iff (s := "") (idle_iff.mpr (.inl rfl))
      simp only [List.head?_cons, Option.some.injEq] at hhead
      rw [Bool.eq_iff_iff, isAbsolute_iff, isAbsolute_iff, h.segments_eq, h.segments_eq']
      simp [hhead]

/-- They are equal as paths. -/
theorem same (h : Respelt p q w v y) : p.same q = true :=
  h.akin_segments.same h.isAbsolute_eq

theorem parents (h : Respelt p q w v y) (hp : p.isTooLong = false) (hq : q.isTooLong = false) :
    Option.Rel Alike p.parent? q.parent? :=
  h.akin_segments.parents hp hq

theorem staged (h : Respelt p q w v y) :
    Respelt (staged p) (staged q) w v (y ++ ".mlc.partial") :=
  ⟨(endsIn_staged h.segments_eq).segments_eq, (endsIn_staged h.segments_eq').segments_eq, h.akin⟩

end Respelt

/-! ## Paths that are equal -/

theorem component_injective : Function.Injective component := by
  intro s r h
  unfold component at h
  split_ifs at h with hs hr hr
  · rw [hs, hr]
  · exact Component.name.inj h

/-- Paths that are equal start at the same place and go on along the same steps. -/
theorem of_same (h : p.same q = true) : p.isAbsolute = q.isAbsolute ∧
    p.startsHere = q.startsHere ∧ p.segments.filter proper = q.segments.filter proper := by
  have hroot {p : Path} (habs : p.isAbsolute = true) : p.startsHere = false := by
    obtain ⟨rest, -, hseg⟩ := (isAbsolute_iff p).mp habs
    simp [startsHere, hseg]
  have hstart {c : Component} {cs : List Component} {ss : List String}
      (hc : c = .root ∨ c = .here) : ss.map component ≠ c :: cs ∧ c :: cs ≠ ss.map component := by
    suffices hne : ss.map component ≠ c :: cs from ⟨hne, hne.symm⟩
    cases ss with
    | nil => simp
    | cons s ss =>
      intro heq
      have hhead := (List.cons.inj heq).1
      unfold component at hhead
      split at hhead <;> rcases hc with rfl | rfl <;> simp at hhead
  simp only [Path.same, components] at h
  split_ifs at h <;>
    simp_all [(List.map_injective_iff.mpr component_injective).eq_iff]

/-- Paths that are equal and end in a segment that is not idle have the same one there. -/
theorem akin_of_same {z : String} (hp : p.segments = w ++ [y]) (hq : q.segments = v ++ [z])
    (hy : proper y = true) (hz : proper z = true) (h : p.same q = true) :
    y = z ∧ Akin w v := by
  obtain ⟨habs, hhere, hproper⟩ := of_same h
  simp only [hp, hq, List.filter_append, List.filter_cons_of_pos hy, List.filter_cons_of_pos hz,
    List.filter_nil] at hproper
  obtain ⟨hbefore, hlast⟩ := List.append_inj' hproper rfl
  refine ⟨List.singleton_inj.mp hlast, fun hs => ?_, hbefore⟩
  rcases idle_iff.mp hs with rfl | rfl
  · rw [isAbsolute_of_segments hp (ne_of_proper hy).1,
      isAbsolute_of_segments hq (ne_of_proper hz).1, Bool.eq_iff_iff, beq_iff_eq,
      beq_iff_eq] at habs
    exact habs
  · rw [startsHere, startsHere, hp, hq, Bool.eq_iff_iff, decide_eq_true_eq, decide_eq_true_eq,
      head?_append_eq_iff hy hs, head?_append_eq_iff hz hs] at hhere
    exact hhere

/-- A path does not lead to another one in the same directory. -/
theorem EndsIn.leads_eq_false {init : List String} {n m : String} (hp : p.EndsIn init n)
    (hq : q.EndsIn init m) (hne : n ≠ m) : p.leads q = false := by
  have habs : p.isAbsolute = q.isAbsolute := by rw [hp.isAbsolute_eq, hq.isAbsolute_eq]
  have hidle : Idle "." := idle_iff.mpr (.inr rfl)
  have hhere : p.startsHere = q.startsHere := by
    rw [startsHere, startsHere, hp.segments_eq, hq.segments_eq, Bool.eq_iff_iff,
      decide_eq_true_eq, decide_eq_true_eq, head?_append_eq_iff hp.isName.proper hidle,
      head?_append_eq_iff hq.isName.proper hidle]
  have hlength : p.components.length = q.components.length := by
    simp only [components, habs, hhere, hp.segments_eq, hq.segments_eq, List.filter_append,
      List.filter_cons_of_pos hp.isName.proper, List.filter_cons_of_pos hq.isName.proper]
    split_ifs <;> simp
  refine Bool.eq_false_iff.mpr fun hleads => hne ?_
  have hsame : p.same q = true := by
    have heq := (List.isPrefixOf_iff_prefix.mp hleads).eq_of_length hlength
    simp [Path.same, heq]
  exact (akin_of_same hp.segments_eq hq.segments_eq hp.isName.proper hq.isName.proper hsame).1

/-! ## Idle ends -/

/-- A walk along a path with an idle end comes to what its other segments lead to, which has to be
a directory. -/
theorem walk_steps_of_idle {t : Tree} {aim : Aim} {k : ℕ} {here : Location}
    (h : p.segments = w ++ [y]) (hy : Idle y) (haim : aim ≠ .create) :
    t.walk aim k here p.steps = t.walk aim k here (w.filter proper ++ [""]) := by
  have hwalk (a : String) (ha : Idle a) : t.walk aim k here (w.filter (· ≠ "") ++ [a]) =
      t.walk aim k here (w.filter proper ++ [""]) := by
    rw [Tree.walk_proper (by simp) (b := [""]) (by simp) (by simp [haim]), filter_proper_filter]
    intro k here
    rw [Tree.walk_idle (idle_iff.mp ha), Tree.walk_idle (.inl rfl)]
  rcases idle_iff.mp hy with rfl | rfl
  · have hnames : p.names = w.filter (· ≠ "") := by simp [names, h]
    by_cases hnil : w.filter (· ≠ "") = []
    · have hsteps : p.steps = [] := by
        simp only [steps, endsWithSlash, hnames, hnil]
        rfl
      rw [← hwalk "" hy, hsteps, hnil, List.nil_append, Tree.walk_idle (.inl rfl)]
    · have hsteps : p.steps = w.filter (· ≠ "") ++ [""] := by
        rw [steps, endsWithSlash, hnames, h, List.getLast?_concat]
        simp only [ne_eq, hnil, not_false_eq_true, decide_true, Bool.and_self, if_true]
      rw [hsteps, hwalk "" hy]
  · have hsteps : p.steps = w.filter (· ≠ "") ++ ["."] := by
      simp [steps, endsWithSlash, names, h]
    rw [hsteps, hwalk "." hy]

/-- Whatever they end in, two spellings lead to the same place. -/
theorem Respelt.resolve_eq {t : Tree} (h : Respelt p q w v y) (hp : p.isTooLong = false)
    (hq : q.isTooLong = false) : t.resolve .reach p = t.resolve .reach q := by
  by_cases hy : proper y = true
  · exact (h.alike hy hp hq).resolve_eq
  have hidle : Idle y := by simpa using hy
  cases w with
  | nil => rw [h.eq_of_nil]
  | cons s w =>
    have hlong {r : Path} {v : List String} (hv : v ≠ []) (hseg : r.segments = v ++ [y]) :
        r.text ≠ "" := by
      refine text_ne_of_segments fun heq => hv ?_
      rw [hseg] at heq
      exact (List.append_eq_singleton_iff.mp heq).elim And.left fun h => absurd h.2 (by simp)
    have hrefusal : p.refusal? = q.refusal? :=
      h.akin_segments.refusal?_eq (hlong (by simp) h.segments_eq)
        (hlong (fun hv => absurd (hv ▸ h.akin).symm.eq_nil (by simp)) h.segments_eq') hp hq
    have hwalk : t.walk .reach maxLinks (Tree.origin t.home p) p.steps =
        t.walk .reach maxLinks (Tree.origin t.home q) q.steps := by
      rw [walk_steps_of_idle h.segments_eq hidle (by simp),
        walk_steps_of_idle h.segments_eq' hidle (by simp), Tree.origin, Tree.origin,
        h.isAbsolute_eq, h.akin.proper_eq]
    simp only [Tree.resolve, Tree.place, hrefusal, hwalk]

end Path

end Haulage.Disk
