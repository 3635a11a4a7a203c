import Haulage.Pool.Clients
import Mathlib.Data.List.Iterate
import Mathlib.Data.List.Nodup

/-!
# The table of clients

What the operations on the accounts of a pool's clients do, said once for all later proofs.

Tags rotate: `gather` tries the tags in the cyclic order 1, 2, …, 255, 1, … from a given one, and
takes the first ones that are free (`gather_fst`). Hence the tags that `allocateTags` gives out are
distinct, held by no item, and never zero.

The table is a list of pairs. As long as no client is listed twice (`Keyed`), opening, changing and
closing an account acts on look-ups as it would on a map.
-/

namespace Haulage.Clients

variable {κ : Type}

/-! ## Rotating tags -/

/-- The tag after the last one is the first. -/
theorem toNat_tagAfter {tag : Tag} (h : tag ≠ 0) : (tagAfter tag).toNat = tag.toNat % 255 + 1 := by
  have hlt := tag.toNat_lt
  have hpos : tag.toNat ≠ 0 := fun hzero => h (UInt8.toNat_inj.mp hzero)
  unfold tagAfter greatestTag
  split
  · rename_i heq
    rw [heq]
    rfl
  · rename_i hne
    have hne' : tag.toNat ≠ 255 := fun heq => hne (UInt8.toNat_inj.mp heq)
    rw [UInt8.toNat_add]
    change (tag.toNat + 1) % 256 = _
    omega

/-- No tag is followed by zero. -/
theorem tagAfter_ne_zero {tag : Tag} (h : tag ≠ 0) : tagAfter tag ≠ 0 := by
  intro hzero
  have hnat := toNat_tagAfter h
  rw [hzero] at hnat
  exact absurd hnat (by change (0 : ℕ) ≠ _; omega)

/-- Going on from a tag never leads to zero. -/
theorem iterate_tagAfter_ne_zero {tag : Tag} (h : tag ≠ 0) (k : ℕ) : tagAfter^[k] tag ≠ 0 := by
  induction k with
  | zero => exact h
  | succ k ih =>
    rw [Function.iterate_succ_apply']
    exact tagAfter_ne_zero ih

/-- The tag that comes `k` places after a tag. -/
theorem toNat_iterate_tagAfter {tag : Tag} (h : tag ≠ 0) (k : ℕ) :
    (tagAfter^[k] tag).toNat = (tag.toNat - 1 + k) % 255 + 1 := by
  induction k with
  | zero =>
    have hlt := tag.toNat_lt
    have hpos : tag.toNat ≠ 0 := fun hzero => h (UInt8.toNat_inj.mp hzero)
    change tag.toNat = _
    omega
  | succ k ih =>
    rw [Function.iterate_succ_apply', toNat_tagAfter (iterate_tagAfter_ne_zero h k), ih]
    omega

/-- One turn through all tags meets none twice. -/
theorem nodup_iterate_tagAfter {tag : Tag} (h : tag ≠ 0) :
    (List.iterate tagAfter tag 255).Nodup := by
  rw [← List.range_map_iterate]
  refine List.Nodup.map_on ?_ List.nodup_range
  intro i hi j hj heq
  have hi' := List.mem_range.mp hi
  have hj' := List.mem_range.mp hj
  have hnat := congrArg UInt8.toNat heq
  rw [toNat_iterate_tagAfter h, toNat_iterate_tagAfter h] at hnat
  omega

/-! ## Giving out tags -/

/-- The tags gathered are the first free ones among those tried. -/
theorem gather_fst (held : List Tag) (tries count : ℕ) (tag : Tag) :
    (gather held tries count tag).1 =
      ((List.iterate tagAfter tag tries).filter (· ∉ held)).take count := by
  induction tries generalizing count tag with
  | zero => simp [gather, List.iterate]
  | succ tries ih =>
    cases count with
    | zero => simp [gather]
    | succ count =>
      unfold gather
      split
      · rename_i hheld
        simp [ih, List.iterate, hheld]
      · rename_i hfree
        simp [ih, List.iterate, hfree]

/-- The tag to try next is never zero. -/
theorem gather_snd_ne_zero (held : List Tag) (tries count : ℕ) {tag : Tag} (h : tag ≠ 0) :
    (gather held tries count tag).2 ≠ 0 := by
  induction tries generalizing count tag with
  | zero => exact h
  | succ tries ih =>
    cases count with
    | zero => exact h
    | succ count =>
      unfold gather
      split
      · exact ih (count + 1) (tagAfter_ne_zero h)
      · exact ih count (tagAfter_ne_zero h)

/-- Tags that were given out: as many as asked for, distinct, held by nobody before, and never
zero. The accounts stay as they were. -/
structure GivenOut (cs : Clients κ) (count : ℕ) (tags : List Tag) (cs' : Clients κ) : Prop where
  accounts_eq : cs'.accounts = cs.accounts
  length_eq : tags.length = count
  nodup : tags.Nodup
  free : ∀ tag ∈ tags, tag ∉ cs.heldTags
  ne_zero : ∀ tag ∈ tags, tag ≠ 0
  next_ne_zero : cs'.nextTag ≠ 0

/-- What `allocateTags` answers was gathered. -/
theorem gather_of_allocateTags {cs cs' : Clients κ} {count : ℕ} {tags : List Tag}
    (h : cs.allocateTags count = some (tags, cs')) :
    gather cs.heldTags.eraseDups 255 count cs.nextTag = (tags, cs'.nextTag) ∧
      tags.length = count ∧ cs'.accounts = cs.accounts := by
  simp only [allocateTags] at h
  split at h
  · cases h
  · split at h
    · cases h
    · rename_i henough
      obtain ⟨htags, hcs⟩ := Prod.mk.inj (Option.some.inj h)
      have hle : tags.length ≤ count := by
        rw [← htags, gather_fst]
        exact List.length_take_le _ _
      rw [htags] at henough
      subst hcs
      exact ⟨Prod.ext htags rfl, by omega, rfl⟩

/-- What `allocateTags` answers is given out properly. -/
theorem givenOut_of_allocateTags {cs cs' : Clients κ} {count : ℕ} {tags : List Tag}
    (hnext : cs.nextTag ≠ 0) (h : cs.allocateTags count = some (tags, cs')) :
    GivenOut cs count tags cs' := by
  obtain ⟨hgather, hlength, haccounts⟩ := gather_of_allocateTags h
  have hfst : tags = ((List.iterate tagAfter cs.nextTag 255).filter
      (· ∉ cs.heldTags.eraseDups)).take count := by
    rw [← gather_fst, hgather]
  have hsub : tags.Sublist (List.iterate tagAfter cs.nextTag 255) := by
    rw [hfst]
    exact (List.take_sublist _ _).trans List.filter_sublist
  refine ⟨haccounts, hlength, hsub.nodup (nodup_iterate_tagAfter hnext), ?_, ?_, ?_⟩
  · intro tag htag
    rw [hfst] at htag
    have hfree := List.of_mem_filter (List.mem_of_mem_take htag)
    simpa using hfree
  · intro tag htag
    obtain ⟨k, -, hk⟩ := List.mem_iterate.mp (hsub.subset htag)
    rw [hk]
    exact iterate_tagAfter_ne_zero hnext k
  · have hsnd := gather_snd_ne_zero cs.heldTags.eraseDups 255 count hnext
    rw [hgather] at hsnd
    exact hsnd

/-- Nothing is erased from a list without duplicates. -/
theorem eraseDups_of_nodup {tags : List Tag} (h : tags.Nodup) : tags.eraseDups = tags := by
  induction tags with
  | nil => rfl
  | cons tag rest ih =>
    obtain ⟨hfresh, hrest⟩ := List.nodup_cons.mp h
    have hkeep : rest.filter (fun b => !b == tag) = rest :=
      List.filter_eq_self.mpr fun b hb => by
        simpa using fun heq : b = tag => hfresh (heq ▸ hb)
    rw [List.eraseDups_cons, hkeep, ih hrest]

/-- One turn from any tag meets every tag. -/
theorem mem_iterate_tagAfter {tag : Tag} (h : tag ≠ 0) {tag' : Tag} (h' : tag' ≠ 0) :
    tag' ∈ List.iterate tagAfter tag 255 := by
  refine List.mem_iterate.mpr ⟨(tag'.toNat + 255 - tag.toNat) % 255, Nat.mod_lt _ (by decide), ?_⟩
  have hlt := tag.toNat_lt
  have hlt' := tag'.toNat_lt
  have hpos : tag.toNat ≠ 0 := fun hzero => h (UInt8.toNat_inj.mp hzero)
  have hpos' : tag'.toNat ≠ 0 := fun hzero => h' (UInt8.toNat_inj.mp hzero)
  refine UInt8.toNat_inj.mp ?_
  rw [toNat_iterate_tagAfter h]
  omega

/-- The free tags are those that are not held. -/
theorem length_free {cs : Clients κ} (hnext : cs.nextTag ≠ 0) (hnodup : cs.heldTags.Nodup)
    (hheld : ∀ tag ∈ cs.heldTags, tag ≠ 0) :
    cs.heldTags.length +
      ((List.iterate tagAfter cs.nextTag 255).filter (· ∉ cs.heldTags)).length = 255 := by
  have hturn := nodup_iterate_tagAfter hnext
  have hperm : ((List.iterate tagAfter cs.nextTag 255).filter (· ∈ cs.heldTags)).Perm
      cs.heldTags := by
    refine (List.perm_ext_iff_of_nodup (hturn.filter _) hnodup).mpr fun tag => ?_
    rw [List.mem_filter, decide_eq_true_iff]
    exact and_iff_right_of_imp fun htag => mem_iterate_tagAfter hnext (hheld tag htag)
  have hsplit := List.length_eq_length_filter_add (l := List.iterate tagAfter cs.nextTag 255)
    (fun tag => decide (tag ∈ cs.heldTags))
  rw [List.length_iterate, hperm.length_eq] at hsplit
  simp only [decide_not]
  exact hsplit.symm

/-- Tags are given out as long as there are enough that nobody holds. -/
theorem isSome_allocateTags {cs : Clients κ} (hnext : cs.nextTag ≠ 0)
    (hnodup : cs.heldTags.Nodup) (hheld : ∀ tag ∈ cs.heldTags, tag ≠ 0) (count : ℕ) :
    (cs.allocateTags count).isSome ↔ cs.heldTags.length + count ≤ 255 := by
  have hfree := length_free hnext hnodup hheld
  have hgathered :
      (gather cs.heldTags greatestTag.toNat count cs.nextTag).1.length =
        min count ((List.iterate tagAfter cs.nextTag 255).filter (· ∉ cs.heldTags)).length := by
    rw [gather_fst, List.length_take]
    rfl
  simp only [allocateTags, eraseDups_of_nodup hnodup]
  change (if cs.heldTags.length + count > 255 then _ else _ : Option _).isSome ↔ _
  by_cases hfits : cs.heldTags.length + count ≤ 255
  · rw [if_neg (Nat.not_lt.mpr hfits), if_neg (by omega)]
    exact iff_of_true rfl hfits
  · rw [if_pos (Nat.lt_of_not_le hfits)]
    exact iff_of_false Bool.false_ne_true hfits

/-! ## Taking a tag back -/

/-- Withdrawing a tag takes just that tag out, though the others change places. -/
theorem withdrawTag_perm {tags : List Tag} {tag : Tag} (h : tag ∈ tags) :
    (tag :: withdrawTag tags tag).Perm tags := by
  obtain ⟨i, hi⟩ := Option.isSome_iff_exists.mp (List.isSome_idxOf?.mpr h)
  obtain ⟨hlt, heq, -⟩ := List.idxOf?_eq_some_iff.mp hi
  have hne : tags ≠ [] := List.ne_nil_of_mem h
  have hlast : tags.getLast? = some (tags.getLast hne) := List.getLast?_eq_some_getLast hne
  have hsplit : tags.dropLast ++ [tags.getLast hne] = tags := List.dropLast_append_getLast hne
  unfold withdrawTag
  rw [hi, hlast]
  simp only
  generalize tags.getLast hne = last at hsplit
  generalize tags.dropLast = front at hsplit
  subst hsplit
  rw [List.length_append, List.length_singleton] at hlt
  by_cases hfront : i < front.length
  · -- the last tag steps into the place of the one withdrawn
    rw [List.getElem_append_left hfront] at heq
    rw [List.set_append_left _ _ hfront, List.dropLast_concat]
    have htake : front = front.take i ++ tag :: front.drop (i + 1) := by
      rw [← heq, List.getElem_cons_drop, List.take_append_drop]
    have hset : front.set i last = front.take i ++ last :: front.drop (i + 1) :=
      List.set_eq_take_append_cons_drop.trans (if_pos hfront)
    rw [hset]
    nth_rewrite 3 [htake]
    calc (tag :: (front.take i ++ last :: front.drop (i + 1))).Perm
          (tag :: last :: (front.take i ++ front.drop (i + 1))) :=
        List.Perm.cons _ List.perm_middle
      _ |>.Perm (last :: tag :: (front.take i ++ front.drop (i + 1))) := List.Perm.swap _ _ _
      _ |>.Perm (last :: (front.take i ++ tag :: front.drop (i + 1))) :=
        List.Perm.cons _ List.perm_middle.symm
      _ |>.Perm ((front.take i ++ tag :: front.drop (i + 1)) ++ [last]) :=
        (List.perm_append_singleton _ _).symm
  · -- the tag withdrawn is the last one
    have hi' : i = front.length := by omega
    subst hi'
    have htag : last = tag := by simpa using heq
    simp only [List.set_append_right _ _ (Nat.le_refl _), Nat.sub_self, List.set_cons_zero,
      List.dropLast_concat, htag]
    exact (List.perm_append_singleton _ _).symm

/-! ## The table as a map -/

/-- No client is listed twice. -/
def Keyed (cs : Clients κ) : Prop := (cs.accounts.map Prod.fst).Nodup

/-- Giving out tags leaves the accounts as they are found. -/
theorem GivenOut.find?_eq {cs cs' : Clients κ} {count : ℕ} {tags : List Tag}
    (h : GivenOut cs count tags cs') (c : ClientId) : cs'.find? c = cs.find? c := by
  unfold find?
  rw [h.accounts_eq]

/-- Giving out tags lists nobody twice. -/
theorem GivenOut.keyed {cs cs' : Clients κ} {count : ℕ} {tags : List Tag}
    (h : GivenOut cs count tags cs') (hkeyed : cs.Keyed) : cs'.Keyed := by
  unfold Keyed
  rw [h.accounts_eq]
  exact hkeyed

/-- An account that is found is listed. -/
theorem mem_accounts_of_find? {cs : Clients κ} {c : ClientId} {a : Account κ}
    (h : cs.find? c = some a) : (c, a) ∈ cs.accounts := by
  obtain ⟨before, behind, haccounts, -⟩ := List.lookup_eq_some_iff.mp h
  rw [haccounts]
  exact List.mem_append_right _ List.mem_cons_self

/-- A client without an account is not listed. -/
theorem find?_eq_none_iff {cs : Clients κ} {c : ClientId} :
    cs.find? c = .none ↔ c ∉ cs.accounts.map Prod.fst := by
  unfold find?
  rw [List.lookup_eq_none_iff]
  constructor
  · intro h hmem
    obtain ⟨x, hx, rfl⟩ := List.mem_map.mp hmem
    simpa using h x hx
  · intro h x hx
    have hne : c ≠ x.1 := fun heq => h (heq ▸ List.mem_map_of_mem hx)
    simpa using hne

/-- An account that is listed is found. -/
theorem find?_of_mem {cs : Clients κ} (hkeyed : cs.Keyed) {c : ClientId} {a : Account κ}
    (h : (c, a) ∈ cs.accounts) : cs.find? c = some a := by
  obtain ⟨before, behind, hsplit⟩ := List.append_of_mem h
  refine List.lookup_eq_some_iff.mpr ⟨before, behind, hsplit, ?_⟩
  intro x hx
  unfold Keyed at hkeyed
  rw [hsplit, List.map_append, List.nodup_append] at hkeyed
  have hne : x.1 ≠ c :=
    hkeyed.2.2 x.1 (List.mem_map_of_mem hx) c (by simp)
  simpa using hne.symm

/-- What an open account holds is held. -/
theorem mem_heldTags {cs : Clients κ} {c : ClientId} {a : Account κ} {tag : Tag}
    (h : cs.find? c = some a) (htag : tag ∈ a.tags) : tag ∈ cs.heldTags :=
  List.mem_flatMap.mpr ⟨(c, a), mem_accounts_of_find? h, htag⟩

/-- Opening an account adds it. -/
theorem find?_insert {cs : Clients κ} {c : ClientId} (h : cs.find? c = .none) (a : Account κ)
    (c' : ClientId) : (cs.insert c a).find? c' = if c' = c then some a else cs.find? c' := by
  unfold find? insert at *
  rw [List.lookup_append]
  by_cases heq : c' = c
  · subst heq
    simp [h]
  · simp [List.lookup_cons, beq_false_of_ne heq, heq]

/-- Opening the account of a client that has none lists nobody twice. -/
theorem Keyed.insert {cs : Clients κ} (hkeyed : cs.Keyed) {c : ClientId}
    (h : cs.find? c = .none) (a : Account κ) : (cs.insert c a).Keyed := by
  unfold Keyed Clients.insert
  rw [List.map_append, List.map_singleton, List.nodup_append]
  refine ⟨hkeyed, List.nodup_singleton _, ?_⟩
  intro x hx y hy heq
  have hxc : x = c := heq.trans (List.mem_singleton.mp hy)
  exact find?_eq_none_iff.mp h (hxc ▸ hx)

/-- Changing or closing an account leaves the other clients where they are. -/
theorem map_fst_update (cs : Clients κ) (c : ClientId) (f : Account κ → Option (Account κ)) :
    ((cs.update c f).accounts.map Prod.fst).Sublist (cs.accounts.map Prod.fst) := by
  unfold update
  simp only
  induction cs.accounts with
  | nil => exact List.Sublist.slnil
  | cons x rest ih =>
    rw [List.filterMap_cons]
    split
    · exact ih.trans (List.sublist_cons_self _ _)
    · rename_i y hy
      have hfst : y.1 = x.1 := by
        split at hy
        · obtain ⟨a, -, rfl⟩ := Option.map_eq_some_iff.mp hy
          rfl
        · cases hy
          rfl
      rw [List.map_cons, List.map_cons, hfst]
      exact ih.cons_cons _

/-- Changing or closing an account lists nobody twice. -/
theorem Keyed.update {cs : Clients κ} (hkeyed : cs.Keyed) (c : ClientId)
    (f : Account κ → Option (Account κ)) : (cs.update c f).Keyed :=
  hkeyed.sublist (cs.map_fst_update c f)

/-- Changing or closing an account is seen by its client only. -/
theorem find?_update {cs : Clients κ} (hkeyed : cs.Keyed) (c : ClientId)
    (f : Account κ → Option (Account κ)) (c' : ClientId) :
    (cs.update c f).find? c' = if c' = c then (cs.find? c).bind f else cs.find? c' := by
  unfold Keyed at hkeyed
  unfold find? Clients.update
  simp only
  generalize cs.accounts = accounts at hkeyed ⊢
  induction accounts with
  | nil => simp
  | cons x rest ih =>
    obtain ⟨key, a⟩ := x
    rw [List.map_cons, List.nodup_cons] at hkeyed
    obtain ⟨hfresh, hrest⟩ := hkeyed
    have hlookup := ih hrest
    by_cases hkey : key = c
    · -- the account in question, which is not listed further down
      subst hkey
      have hunlisted : Clients.find? ⟨rest, 0⟩ key = Option.none := find?_eq_none_iff.mpr hfresh
      change rest.lookup key = Option.none at hunlisted
      rw [hunlisted] at hlookup
      by_cases heq : c' = key
      · subst heq
        cases hf : f a with
        | none => simpa [hf] using hlookup
        | some a' => simp [hf]
      · rw [if_neg heq] at hlookup ⊢
        cases hf : f a with
        | none => simpa [hf, List.lookup_cons, beq_false_of_ne heq] using hlookup
        | some a' => simpa [hf, List.lookup_cons, beq_false_of_ne heq] using hlookup
    · have hne : c ≠ key := fun h => hkey h.symm
      rw [List.filterMap_cons, if_neg hkey, List.lookup_cons, List.lookup_cons, List.lookup_cons,
        beq_false_of_ne hne]
      by_cases heq : c' = key
      · rw [heq, if_neg hkey, beq_self_eq_true]
      · rw [beq_false_of_ne heq]
        exact hlookup

/-- An item that is not the last one of its account is struck off by counting one less. -/
theorem handBack_of_lt {a : Account κ} (h : 1 < a.outstanding) (tag : Option Tag) :
    ∃ a', handBack tag a = some a' ∧ a'.receiver = a.receiver ∧
      a'.outstanding + 1 = a.outstanding := by
  unfold handBack
  rw [if_neg (by omega)]
  refine ⟨_, rfl, rfl, ?_⟩
  simp only
  omega

end Haulage.Clients
