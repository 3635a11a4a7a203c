import Haulage.Proofs.Grants

/-!
# Which tags are given out

Tags are tried around a circle of 255, from the one behind the last that was given out. `circle` is
that circle written down from the numbers of the tags alone, and `freeTags` are the tags on it that
no item holds.

`allocateTags_exact` says that the tags given out are the first free ones and no others, that the
scan never gives up while there are enough of them, and where the next scan begins.
-/

namespace Haulage.Clients

variable {κ : Type}

/-! ## The circle of tags -/

/-- All tags in the order in which they are tried from this one on. -/
def circle (tag : Tag) : List Tag :=
  (List.range 255).map fun k => UInt8.ofNat ((tag.toNat - 1 + k) % 255 + 1)

/-- The tags that no item holds, in the order in which they are tried. -/
def freeTags (cs : Clients κ) : List Tag := (circle cs.nextTag).filter (· ∉ cs.heldTags)

/-- The tag just behind the last one of these, or `tag` where there are none. -/
def tagBehind (tag : Tag) (tags : List Tag) : Tag :=
  match tags.getLast? with
  | some last => if last = 255 then 1 else last + 1
  | .none => tag

/-- Going on from a tag leads once around the circle. -/
theorem iterate_tagAfter_eq_circle {tag : Tag} (h : tag ≠ 0) :
    List.iterate tagAfter tag 255 = circle tag := by
  rw [← List.range_map_iterate, circle]
  refine List.map_congr_left fun k _ => UInt8.toNat_inj.mp ?_
  rw [toNat_iterate_tagAfter h, UInt8.toNat_ofNat']
  omega

/-! ## The end of the scan -/

/-- Where some tags are asked for and all are found, the scan ends just behind the last one. -/
theorem gather_snd {held : List Tag} {tries count : ℕ} {tag : Tag}
    (h : (gather held tries count tag).1.length = count) :
    (gather held tries count tag).2 = tagBehind tag (gather held tries count tag).1 := by
  induction tries generalizing count tag with
  | zero => rfl
  | succ tries ih =>
    cases count with
    | zero => rfl
    | succ count =>
      unfold gather at h ⊢
      split
      · -- the scan goes on for as many, so something is found and `tag` does not matter
        rename_i hheld
        rw [if_pos hheld] at h
        rw [ih h]
        have hne : (gather held tries (count + 1) (tagAfter tag)).1 ≠ [] :=
          List.ne_nil_of_length_eq_add_one h
        simp only [tagBehind, List.getLast?_eq_some_getLast hne]
      · rename_i hfree
        rw [if_neg hfree] at h
        have hrest := ih (Nat.succ.inj h)
        simp only [hrest]
        cases (gather held tries count (tagAfter tag)).1 with
        | nil => rfl
        | cons first rest =>
          simp only [tagBehind, List.getLast?_cons, Option.getD_some]

/-! ## What is given out -/

/-- The answer where tags are asked for. There are none, and the table stays as it is, just if there
are not so many; otherwise they are the first free ones, and the next scan begins behind them. -/
structure Exact (cs : Clients κ) (count : ℕ) : Prop where
  eq_none_iff : cs.allocateTags count = .none ↔ 255 < cs.heldTags.length + count
  refused : ∀ p : Pool κ, p.clients = cs → 255 < cs.heldTags.length + count →
    (Procedure.allocate count).run p = .error .tagsExhausted p
  granted : cs.heldTags.length + count ≤ 255 →
    cs.allocateTags count = some (cs.freeTags.take count,
      { cs with nextTag := tagBehind cs.nextTag (cs.freeTags.take count) })
  /-- They are as many as asked for, distinct, never zero and held by nobody, and the tag to try
  next is not zero either. -/
  givenOut : cs.heldTags.length + count ≤ 255 →
    GivenOut cs count (cs.freeTags.take count)
      { cs with nextTag := tagBehind cs.nextTag (cs.freeTags.take count) }

/-- Tags are given out as long as there are enough, the first free ones in turn. -/
theorem allocateTags_eq {cs : Clients κ} (hnodup : cs.heldTags.Nodup)
    (hheld : ∀ tag ∈ cs.heldTags, tag ≠ 0) (hnext : cs.nextTag ≠ 0) {count : ℕ}
    (h : cs.heldTags.length + count ≤ 255) :
    cs.allocateTags count = some (cs.freeTags.take count,
      { cs with nextTag := tagBehind cs.nextTag (cs.freeTags.take count) }) := by
  obtain ⟨⟨tags, cs'⟩, hanswer⟩ :=
    Option.isSome_iff_exists.mp ((isSome_allocateTags hnext hnodup hheld count).mpr h)
  obtain ⟨hgather, hlength, haccounts⟩ := gather_of_allocateTags hanswer
  rw [eraseDups_of_nodup hnodup] at hgather
  have htags : tags = cs.freeTags.take count := by
    rw [freeTags, ← iterate_tagAfter_eq_circle hnext, ← gather_fst, hgather]
  have hbehind : cs'.nextTag = tagBehind cs.nextTag tags := by
    have hcount : (gather cs.heldTags 255 count cs.nextTag).1.length = count := by
      rw [hgather]
      exact hlength
    have hend := gather_snd hcount
    rwa [hgather] at hend
  obtain ⟨accounts, next⟩ := cs'
  simp only at haccounts hbehind
  rw [hanswer, haccounts, hbehind, htags]

/-- Whatever is held, as long as it is held once and zero is no tag, the tags asked for are the
first free ones in turn, and there are none just if there are not so many. -/
theorem allocateTags_exact {cs : Clients κ} (hnodup : cs.heldTags.Nodup)
    (hheld : ∀ tag ∈ cs.heldTags, tag ≠ 0) (hnext : cs.nextTag ≠ 0) (count : ℕ) :
    cs.Exact count := by
  have hnone : cs.allocateTags count = .none ↔ 255 < cs.heldTags.length + count := by
    rw [← Option.not_isSome_iff_eq_none, isSome_allocateTags hnext hnodup hheld, Nat.not_le]
  refine ⟨hnone, ?_, allocateTags_eq hnodup hheld hnext, ?_⟩
  · intro p hp hfew
    rw [Procedure.run_allocate, hp, hnone.mpr hfew]
  · intro henough
    exact givenOut_of_allocateTags hnext (allocateTags_eq hnodup hheld hnext henough)

/-- Two clients hold tags at both ends of the circle. -/
def endsHeld : Clients Unit := ⟨[(⟨1⟩, ⟨2, .none, [254, 1]⟩), (⟨2⟩, ⟨1, .none, [3]⟩)], 254⟩

/-- The scan passes over what is held, and over the end of the circle. -/
theorem allocateTags_endsHeld :
    endsHeld.Exact 3 ∧
      endsHeld.allocateTags 3 = some ([255, 2, 4], { endsHeld with nextTag := 5 }) := by
  have hheld : ∀ tag ∈ endsHeld.heldTags, tag ≠ 0 := by decide +kernel
  have hexact : endsHeld.Exact 3 := allocateTags_exact (by decide) hheld (by decide) 3
  exact ⟨hexact, hexact.granted (by decide)⟩

end Haulage.Clients
