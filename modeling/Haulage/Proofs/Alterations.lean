import Haulage.Proofs.Listings

/-!
# What an operation alters

Operations that are given a path act where the path leads, whatever stands
there. `Tree.Alters` bounds what they do: away from the given locations nothing
changes, and a directory keeps its time unless one of these locations lies
directly in it. Unlike a staged copy that was begun on free ground, what is
removed here may be anything: a leftover of an earlier attempt, or the source of
a move.
-/

namespace Haulage.Disk

section Lists

variable {β : Type} {l : Location}

/-- A look-up does not notice when other keys are left out. -/
theorem lookup_filter_of_key (s : List (Location × β)) {keep : Location × β → Bool}
    (h : ∀ b, keep (l, b) = true) : (s.filter keep).lookup l = s.lookup l := by
  induction s with
  | nil => rfl
  | cons x s ih =>
    obtain ⟨k, b⟩ := x
    by_cases hk : l = k
    · subst hk
      rw [List.filter_cons_of_pos (h b), List.lookup_cons, List.lookup_cons]
      simp
    · have hne : (l == k) = false := by simpa using hk
      rw [List.lookup_cons, hne, List.filter_cons]
      simp only
      split
      · rw [List.lookup_cons, hne]
        exact ih
      · exact ih

/-- A look-up does not notice when other keys are renamed. -/
theorem lookup_map_of_key (s : List (Location × β)) {f : Location → Location}
    (h : ∀ k, f k = l ↔ k = l) : (s.map fun x => (f x.1, x.2)).lookup l = s.lookup l := by
  induction s with
  | nil => rfl
  | cons x s ih =>
    have hkey : (l == f x.1) = (l == x.1) := by
      rw [Bool.eq_iff_iff, beq_iff_eq, beq_iff_eq, eq_comm, h, eq_comm]
    rw [List.map_cons, List.lookup_cons, List.lookup_cons, hkey, ih]

end Lists

theorem Location.touches_eq_false {P : Location → Prop} {l m : Location} (hl : l ≠ []) (hp : P l)
    (h : ¬P m) (h' : ∀ n, ¬P (m ++ [n])) : l.touches m = false := by
  unfold touches
  rw [Bool.or_eq_false_iff, decide_eq_false_iff_not, decide_eq_false_iff_not]
  refine ⟨?_, ?_⟩
  · rintro rfl
    exact h hp
  · rintro rfl
    refine h' (l.getLast hl) ?_
    rwa [List.dropLast_append_getLast hl]

namespace Tree

variable {P Q : Location → Prop} {t t' t'' : Tree} {p : Path}

/-- The second tree has come out of the first by changes at the locations `P`, and a directory
in which none of them lies keeps its time. -/
structure Alters (P : Location → Prop) (t t' : Tree) : Prop extends t.Changes P t' where
  stamps_eq {l : Location} (h : ¬P l) (h' : ∀ n, ¬P (l ++ [n])) :
    t'.stamps.lookup l = t.stamps.lookup l

namespace Alters

theorem refl (P : Location → Prop) (t : Tree) : t.Alters P t := ⟨.refl P t, fun _ _ => rfl⟩

theorem trans (h : t.Alters P t') (h' : t'.Alters P t'') : t.Alters P t'' :=
  ⟨h.toChanges.trans h'.toChanges, fun hl hn => (h'.stamps_eq hl hn).trans (h.stamps_eq hl hn)⟩

theorem mono (h : t.Alters P t') (hPQ : ∀ l, P l → Q l) : t.Alters Q t' :=
  ⟨h.toChanges.mono hPQ, fun hl hn =>
    h.stamps_eq (fun hp => hl (hPQ _ hp)) fun n hp => hn n (hPQ _ hp)⟩

theorem modifiedAt?_eq (h : t.Alters P t') {l : Location} (hl : ¬P l)
    (hl' : ∀ n, ¬P (l ++ [n])) : t'.modifiedAt? l = t.modifiedAt? l := by
  unfold modifiedAt?
  rw [h.lookup_eq hl, h.stamps_eq hl hl']
  split
  · rename_i id hlook
    rw [h.data_eq hl hlook]
  · rfl
  · rfl

end Alters

/-! ## Each kind of change -/

section Kinds

variable {l m : Location}

theorem alters_insert_directory (hl : l ≠ []) (hp : P l) : t.Alters P (t.insert l .directory) :=
  ⟨changes_insert_directory hl hp, fun h h' => lookup_filter_of_key _ fun _ => by
    simp [Location.touches_eq_false hl hp h h']⟩

theorem alters_addFile (hl : l ≠ []) (hp : P l) : t.Alters P (t.addFile l).2 :=
  ⟨changes_addFile hl hp, fun h h' => lookup_filter_of_key _ fun _ => by
    simp [Location.touches_eq_false hl hp h h']⟩

theorem alters_setData {id : Nat} (d : FileData)
    (hsole : ∀ m, t.lookup m = some (.file id) → P m) : t.Alters P (t.setData id d) :=
  ⟨changes_setData d hsole, fun _ _ => rfl⟩

theorem alters_writeAt {id offset : Nat} (chunk : Bytes)
    (hsole : ∀ m, t.lookup m = some (.file id) → P m) :
    t.Alters P (t.writeAt id offset chunk) :=
  ⟨changes_writeAt chunk hsole, fun _ _ => rfl⟩

theorem alters_erase (hl : l ≠ []) (hp : P l) : t.Alters P (t.erase l) :=
  ⟨changes_erase hl hp, fun h h' => lookup_filter_of_key _ fun _ => by
    simp [Location.touches_eq_false hl hp h h']⟩

theorem alters_eraseBelow (hp : ∀ m, l <+: m → P m) : t.Alters P (t.eraseBelow l) := by
  refine ⟨changes_eraseBelow hp, fun {m} h _ => ?_⟩
  unfold eraseBelow
  dsimp only
  split
  · refine lookup_filter_of_key _ fun _ => ?_
    rw [Bool.not_eq_true', Bool.eq_false_iff, Ne, List.isPrefixOf_iff_prefix]
    exact fun hm => h (hp m hm)
  · rfl

theorem alters_relocate (hl : l ≠ []) (hm : m ≠ []) (hpl : ∀ x, l <+: x → P x)
    (hpm : ∀ x, m <+: x → P x) : t.Alters P (t.relocate l m) := by
  refine ⟨changes_relocate hl hm hpl hpm, fun {x} h h' => ?_⟩
  have hx : x ≠ l.dropLast := by
    rintro rfl
    refine h' (l.getLast hl) ?_
    rw [List.dropLast_append_getLast hl]
    exact hpl l (List.prefix_refl l)
  have hkey : ∀ k, Location.moved l m k = x ↔ k = x := by
    intro k
    unfold Location.moved
    split
    · rename_i hk
      refine iff_of_false ?_ ?_
      · rintro rfl
        exact h (hpm _ (List.prefix_append m _))
      · rintro rfl
        exact h (hpl _ (List.isPrefixOf_iff_prefix.mp hk))
    · rfl
  have htouches := Location.touches_eq_false hm (hpm m (List.prefix_refl m)) h h'
  unfold relocate
  dsimp only
  rw [lookup_map_of_key _ hkey, lookup_filter_of_key _ fun _ => by simp [hx, htouches]]

end Kinds

/-! ## Operations that succeed -/

section Inversion

/-- The directory that is made is the last name of its path, in the directory that holds it. -/
theorem makeDirectory_inv (h : t.makeDirectory p = .ok t') :
    ∃ dir n, t.holder p = .ok dir ∧ lastStep p = .name n ∧ n.utf8ByteSize ≤ maxName ∧
      t.lookup (dir ++ [n]) = none ∧ t' = t.insert (dir ++ [n]) .directory := by
  unfold makeDirectory at h
  split at h
  · simp at h
  rename_i dir hholder
  split at h
  · rename_i n hn
    split at h
    · simp at h
    rename_i hsize
    split at h
    · simp at h
    · rename_i hfree
      exact ⟨dir, n, hholder, hn, Nat.le_of_not_lt hsize, hfree, (Except.ok.inj h).symm⟩
  · simp at h

theorem removeFile_inv (h : t.removeFile p = .ok t') :
    ∃ dir n e, t.Seats p dir n ∧ t.lookup (dir ++ [n]) = some e ∧ e ≠ .directory ∧
      t' = t.erase (dir ++ [n]) := by
  unfold removeFile at h
  split at h
  · simp at h
  rename_i dir hholder
  split at h
  · rename_i n hn
    split at h
    · simp at h
    rename_i hsize
    split at h
    · simp at h
    · simp at h
    · rename_i e hlook hdir
      split at h
      · simp at h
      rename_i hslash
      exact ⟨dir, n, e, ⟨hholder, hn, Nat.le_of_not_lt hsize, by simpa using hslash⟩, hdir,
        hlook, (Except.ok.inj h).symm⟩
  · simp at h

theorem removeDirectory_inv (h : t.removeDirectory p = .ok t') :
    ∃ dir n, t.holder p = .ok dir ∧ lastStep p = .name n ∧ n.utf8ByteSize ≤ maxName ∧
      t.lookup (dir ++ [n]) = some .directory ∧ t' = t.erase (dir ++ [n]) := by
  unfold removeDirectory at h
  split at h
  · simp at h
  rename_i dir hholder
  split at h
  · rename_i n hn
    split at h
    · simp at h
    rename_i hsize
    split at h
    · simp at h
    · rename_i hdir
      split at h
      · simp at h
      · exact ⟨dir, n, hholder, hn, Nat.le_of_not_lt hsize, hdir, (Except.ok.inj h).symm⟩
    · simp at h
  · simp at h
  · simp at h
  · simp at h

theorem rename_inv {q : Path} (h : t.rename p q = .ok t') :
    ∃ pd pn qd qn, t.holder p = .ok pd ∧ t.holder q = .ok qd ∧ lastStep p = .name pn ∧
      lastStep q = .name qn ∧
      t.moveEntry (pd ++ [pn]) (qd ++ [qn]) (p.endsWithSlash || q.endsWithSlash) = .ok t' := by
  unfold rename at h
  split at h
  · simp at h
  · simp at h
  rename_i pd qd hpd hqd
  split at h
  · rename_i pn qn hpn hqn
    split_ifs at h
    exact ⟨pd, pn, qd, qn, hpd, hqd, hpn, hqn, h⟩
  · simp at h

/-- What is moved stands there, is a directory if it was named as one, and does not lie in what
it is moved to. -/
theorem moveEntry_inv {l m : Location} {slash : Bool} (h : t.moveEntry l m slash = .ok t') :
    ∃ e, t.lookup l = some e ∧ (slash = true → e = .directory) ∧ ¬m <+: l.dropLast := by
  unfold moveEntry at h
  split at h
  · simp at h
  rename_i e he
  split at h
  · simp at h
  rename_i hslash
  split at h
  · simp at h
  split at h
  · simp at h
  rename_i hout
  refine ⟨e, he, fun hs => ?_, by simpa using hout⟩
  by_contra hdir
  exact hslash (by simp [hs, hdir])

end Inversion

/-! ## Removal -/

theorem keeps_eraseBelow (t : Tree) (l : Location) : (t.eraseBelow l).Keeps t := by
  refine ⟨rfl, fun {m e} hlook => ?_⟩
  rw [lookup_eraseBelow] at hlook
  split at hlook
  · simp at hlook
  · exact hlook

theorem holder_mono {dir : Location} (h : t.holder p = .ok dir) (hk : t.Keeps t') :
    t'.holder p = .ok dir := by
  obtain ⟨hrefusal, k, hleads⟩ := holder_eq_ok.mp h
  refine holder_eq_ok.mpr ⟨hrefusal, k, ?_⟩
  rw [hk.home_eq]
  exact hleads.mono fun _ _ hlook _ => hk.lookup_eq hlook

/-- A path whose last name is a directory leads to that directory, also with a separator at its
end. -/
theorem resolve_directory {dir : Location} {n : String} (hholder : t.holder p = .ok dir)
    (hlast : lastStep p = .name n) (hsize : n.utf8ByteSize ≤ maxName)
    (hdir : t.lookup (dir ++ [n]) = some .directory) :
    t.resolve .entry p = .ok (dir ++ [n]) := by
  obtain ⟨hrefusal, k, hleads⟩ := holder_eq_ok.mp hholder
  obtain ⟨hnames, hne, hdot, hdots⟩ := names_of_lastStep hlast
  have henters : Enters n := ⟨hne, hdot, hdots, hsize⟩
  have hwalk : t.walk .entry maxLinks (origin t.home p) p.steps = .ok (.found (dir ++ [n])) := by
    unfold Path.steps
    rw [hnames]
    split
    · rw [List.append_assoc, hleads.walk_append (by simp) (by simp), List.singleton_append,
        walk_directory henters hdir (by simp), walk_idle (.inl rfl), walk_nil]
    · rw [hleads.walk_append (by simp) (by simp), walk_found henters hdir (.inl rfl)]
  rw [resolve, place, hrefusal]
  simp only [hwalk]

/-- Removing a directory alters nothing but what is below the entry that the path names. -/
theorem alters_removeTree {e : Location} (h : t.resolve .entry p = .ok e) :
    t.Alters (e <+: ·) (t.removeTree p).2 := by
  have hself : e <+: e := List.prefix_refl e
  unfold removeTree
  rw [h]
  simp only
  split
  · split
    · rename_i hremove
      obtain ⟨dir, n, x, hseat, hlook, hx, rfl⟩ := removeFile_inv hremove
      have hat : t.resolve .entry p = .ok (dir ++ [n]) := by
        rw [resolve, hseat.place_found hlook (.inl rfl)]
      rw [h] at hat
      rw [← Except.ok.inj hat]
      exact alters_erase (by rw [Except.ok.inj hat]; simp) hself
    · exact .refl _ _
  · have hbelow : t.Alters (e <+: ·) (t.eraseBelow e) := alters_eraseBelow fun _ hm => hm
    split
    · rename_i hremove
      obtain ⟨dir, n, hholder, hn, hsize, hdir, rfl⟩ := removeDirectory_inv hremove
      have hkeeps := keeps_eraseBelow t e
      have hat := resolve_directory (holder_mono hholder hkeeps) hn hsize (hkeeps.lookup_eq hdir)
      rw [h] at hat
      rw [← Except.ok.inj hat]
      exact hbelow.trans (alters_erase (by rw [Except.ok.inj hat]; simp) hself)
    · exact hbelow
  · exact .refl _ _
  · exact .refl _ _

theorem alters_removeFile (h : t.removeFile p = .ok t') :
    ∃ e, t.resolve .entry p = .ok e ∧ t.Alters (e <+: ·) t' := by
  obtain ⟨dir, n, x, hseat, hlook, hx, rfl⟩ := removeFile_inv h
  exact ⟨dir ++ [n], by rw [resolve, hseat.place_found hlook (.inl rfl)],
    alters_erase (by simp) (List.prefix_refl _)⟩

/-- Discarding what a path names alters nothing but what stands there and below. -/
theorem alters_discard {init : List String} {n : String} (hp : p.EndsIn init n)
    (hP : ∀ dir, t.Seats p dir n → ∀ l, dir ++ [n] <+: l → P l) : t.Alters P (t.discard p) := by
  have hentry : ∀ {x e}, t.linkStatus p = .ok x → t.resolve .entry p = .ok e →
      ∀ l, e <+: l → P l := by
    intro x e hx he l hl
    obtain ⟨dir, hseat⟩ := seats_of_linkStatus hp hx
    refine hP dir hseat l ?_
    obtain ⟨y, hy⟩ : ∃ y, t.lookup (dir ++ [n]) = some y := by
      have hnode := hseat.linkStatus_eq_ok.mp hx
      rw [← Option.ne_none_iff_exists', Ne, ← node?_eq_none, hnode]
      simp
    rw [resolve, hseat.place_found hy (.inl rfl)] at he
    rwa [Except.ok.inj he]
  unfold discard
  split
  · rename_i hx
    cases he : t.resolve .entry p with
    | error f =>
      rw [removeTree, he]
      exact .refl _ _
    | ok e => exact (alters_removeTree he).mono (hentry hx he)
  · rename_i hx
    unfold orSame
    split
    · rename_i hremove
      obtain ⟨e, he, halters⟩ := alters_removeFile hremove
      exact halters.mono (hentry hx he)
    · exact .refl _ _
  · exact .refl _ _

end Tree

end Haulage.Disk
