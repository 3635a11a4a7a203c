/-!
# The contents of files

Contents are packed bytes, of which a chunk is read at a position and written at
a position. Writing beyond the end fills the gap with zeros, and writing at the
end appends: `overwrite_size` is why a copy that writes each chunk where it read
it grows by that chunk. Chunks that are read or written one behind the other
might as well have been one chunk: `slice_append_slice`, `overwrite_overwrite`.
-/

namespace Haulage.Disk

/-- The contents of a file. -/
abbrev Bytes := ByteArray

instance : Repr Bytes := ⟨fun bs _ => repr bs.data⟩

instance : DecidableEq Bytes := ByteArray.instDecidableEq

namespace Bytes

/-- So many bytes that are zero. -/
def zeros (n : Nat) : Bytes := ⟨Array.replicate n 0⟩

/-- At most `n` bytes from `offset` on. -/
def slice (bs : Bytes) (offset n : Nat) : Bytes := bs.extract offset (min (offset + n) bs.size)

/-- The bytes with zeros behind them up to the length `n`. -/
def padded (bs : Bytes) (n : Nat) : Bytes := if n ≤ bs.size then bs else bs ++ zeros (n - bs.size)

/-- The bytes `bs` with `chunk` written over them at `offset`; a gap is filled with zeros. -/
def overwrite (bs : Bytes) (offset : Nat) (chunk : Bytes) : Bytes :=
  chunk.copySlice 0 (bs.padded offset) offset chunk.size false

@[simp] theorem size_zeros (n : Nat) : (zeros n).size = n := Array.size_replicate

theorem size_slice (bs : Bytes) (offset n : Nat) :
    (bs.slice offset n).size = min n (bs.size - offset) := by
  rw [slice, ByteArray.size_extract]
  omega

theorem size_padded (bs : Bytes) (n : Nat) : (bs.padded n).size = max bs.size n := by
  unfold padded
  split
  · omega
  · rw [ByteArray.size_append, size_zeros]
    omega

/-- What is before the offset stays, the chunk follows, and what lay behind its end stays. -/
theorem overwrite_eq_append (bs : Bytes) (offset : Nat) (chunk : Bytes) :
    bs.overwrite offset chunk = (bs.padded offset).extract 0 offset ++ chunk ++
      (bs.padded offset).extract (offset + chunk.size) (bs.padded offset).size := by
  rw [overwrite, ByteArray.copySlice_eq_append, Nat.zero_add, ByteArray.extract_zero_size]
  simp [ByteArray.size_data]

theorem size_overwrite (bs : Bytes) (offset : Nat) (chunk : Bytes) :
    (bs.overwrite offset chunk).size = max bs.size (offset + chunk.size) := by
  rw [overwrite_eq_append]
  simp only [ByteArray.size_append, ByteArray.size_extract, size_padded]
  omega

/-- Writing at the end appends. -/
theorem overwrite_size (bs chunk : Bytes) : bs.overwrite bs.size chunk = bs ++ chunk := by
  have hpad : bs.padded bs.size = bs := if_pos (Nat.le_refl _)
  rw [overwrite_eq_append, hpad, ByteArray.extract_zero_size,
    ByteArray.extract_eq_empty_iff.mpr (by omega), ByteArray.append_empty]

/-- Writing a chunk where the last one ended is writing both at once. -/
theorem overwrite_overwrite (bs : Bytes) (offset : Nat) (chunk chunk' : Bytes) :
    (bs.overwrite offset chunk).overwrite (offset + chunk.size) chunk' =
      bs.overwrite offset (chunk ++ chunk') := by
  have hsize := size_overwrite bs offset chunk
  have hpadded : (bs.overwrite offset chunk).padded (offset + chunk.size) =
      bs.overwrite offset chunk := if_pos (by omega)
  have hgap := size_padded bs offset
  rw [overwrite_eq_append (bs.overwrite offset chunk), hpadded, hsize,
    overwrite_eq_append, overwrite_eq_append]
  generalize bs.padded offset = whole at hgap ⊢
  have hfront : (whole.extract 0 offset ++ chunk).size = offset + chunk.size := by
    rw [ByteArray.size_append, ByteArray.size_extract]
    omega
  have hend : max bs.size (offset + chunk.size) = (whole.extract 0 offset ++ chunk).size +
      (whole.size - (offset + chunk.size)) := by
    omega
  rw [ByteArray.extract_append_eq_left hfront.symm, hend, ← hfront,
    ByteArray.extract_append_size_add, hfront, ByteArray.extract_extract, ByteArray.size_append,
    ByteArray.append_assoc (b := chunk)]
  congr 2
  · omega
  · omega

/-- A chunk that is read where a reading ended lengthens what was read. -/
theorem slice_append_slice (bs : Bytes) (offset m n : Nat) :
    bs.slice offset m ++ bs.slice (offset + m) n = bs.slice offset (m + n) := by
  unfold slice
  by_cases h : offset + m ≤ bs.size
  · rw [Nat.min_eq_left h, ByteArray.extract_append_extract]
    congr 1
    · omega
    · omega
  · have hempty : bs.extract (offset + m) (min (offset + m + n) bs.size) = ByteArray.empty :=
      ByteArray.extract_eq_empty_iff.mpr (by omega)
    rw [hempty, ByteArray.append_empty]
    congr 1
    omega

/-- Nothing is read beyond the end. -/
theorem slice_of_le {bs : Bytes} {offset n : Nat} (h : bs.size ≤ offset + n) :
    bs.slice offset n = bs.slice offset (bs.size - offset) := by
  unfold slice
  rw [Nat.min_eq_right h]
  by_cases hend : offset ≤ bs.size
  · rw [Nat.add_sub_cancel' hend, Nat.min_self]
  · have hleft : bs.extract offset bs.size = ByteArray.empty :=
      ByteArray.extract_eq_empty_iff.mpr (by omega)
    have hright : bs.extract offset (min (offset + (bs.size - offset)) bs.size) =
        ByteArray.empty :=
      ByteArray.extract_eq_empty_iff.mpr (by omega)
    rw [hleft, hright]

end Bytes

end Haulage.Disk
