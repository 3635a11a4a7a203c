import Mathlib.Data.Nat.Bitwise
import Haulage.Control.Signal

/-!
# Packed signals

The packed form of a signal is read back by a match of its own, which looks at some bits of the word
only. Which ones depends on the kind that the top byte names: a signal about a medium also has the
family and the rank, a cancellation has the tag, the others have nothing, and where the top byte
names no kind not even that byte counts. `canonical` keeps of a word what is read.

`Signal.encode_decode` says that a word is read and packed again to just that. With
`Signal.decode_encode` it follows that the packed form loses nothing, and that two words stand for
the same signal just if they agree in the bits that are read.
-/

namespace Haulage.Signal

/-! ## What is read of a word -/

/-- The bits that are read of a word of this kind. -/
def readBits (kind : UInt32) : UInt32 :=
  match kind with
  | 1 | 2 | 5 => 0xFF000000
  | 3 | 4 => 0xFFFF00FF
  | 6 => 0xFF0000FF
  | _ => 0

/-- The word without the bits that are not read. -/
def canonical (w : UInt32) : UInt32 := w &&& readBits (w >>> 24)

/-- A mask with one run of ones at the top and one at the bottom keeps these two parts. -/
theorem land_runs (n a k : ℕ) {l : ℕ} (h : l ≤ k) :
    n &&& (2 ^ k * (2 ^ a - 1) + (2 ^ l - 1)) = 2 ^ k * (n / 2 ^ k % 2 ^ a) + n % 2 ^ l := by
  have hpow : 2 ^ l ≤ 2 ^ k := Nat.pow_le_pow_right (by decide) h
  have hpos : 0 < 2 ^ l := Nat.two_pow_pos l
  have hones : 2 ^ l - 1 < 2 ^ k := by omega
  have hlow : n % 2 ^ l < 2 ^ k := Nat.lt_of_lt_of_le (Nat.mod_lt _ hpos) hpow
  rw [Nat.two_pow_add_eq_or_of_lt hones, Nat.two_pow_add_eq_or_of_lt hlow,
    Nat.and_or_distrib_left, Nat.and_two_pow_sub_one_eq_mod,
    ← Nat.and_two_pow_sub_one_eq_mod (n / 2 ^ k) a]
  congr 1
  apply Nat.eq_of_testBit_eq
  intro i
  simp only [Nat.testBit_and, Nat.testBit_two_pow_mul, Nat.testBit_div_two_pow]
  by_cases hi : k ≤ i
  · simp [hi]
  · simp [hi]

/-- The kind of a word is its top byte. -/
theorem toNat_shiftRight (w : UInt32) : (w >>> 24).toNat = w.toNat / 0x1000000 := by
  have hplaces : UInt32.toNat 24 % 32 = 24 := by decide
  rw [UInt32.toNat_shiftRight, hplaces, Nat.shiftRight_eq_div_pow]

/-- The canonical form of a word of which the upper `a` bits from `k` on and the lower `l` bits are
read. -/
theorem toNat_canonical {w kind : UInt32} (hkind : w >>> 24 = kind) (a k l : ℕ) (hl : l ≤ k)
    (hread : (readBits kind).toNat = 2 ^ k * (2 ^ a - 1) + (2 ^ l - 1)) :
    (canonical w).toNat = 2 ^ k * (w.toNat / 2 ^ k % 2 ^ a) + w.toNat % 2 ^ l := by
  rw [canonical, hkind, UInt32.toNat_and, hread, land_runs _ _ _ hl]

/-- No bit is read of a word whose top byte names no kind. -/
theorem readBits_of_unknown {kind : UInt32} (h : ∀ n ∈ [1, 2, 3, 4, 5, 6], kind.toNat ≠ n) :
    readBits kind = 0 := by
  unfold readBits
  split
  case h_7 => rfl
  all_goals simp at h

/-! ## Packing and reading -/

/-- The three bytes of a packed signal stand beside each other. -/
theorem toNat_encode (s : Signal) :
    s.encode.toNat =
      s.kind.toNat * 0x1000000 + s.payload.1.toNat * 0x10000 + s.payload.2.toNat := by
  have hkind := s.kind.toNat_lt
  have hfamily := s.payload.1.toNat_lt
  have hlow := s.payload.2.toNat_lt
  rw [encode, UInt32.toNat_ofNat', Nat.mod_eq_of_lt (by omega)]

/-- A packed signal is read as it was. -/
theorem decode_encode (s : Signal) : decode s.encode = s := by
  have hfamily := s.payload.1.toNat_lt
  have hlow := s.payload.2.toNat_lt
  have hcode := s.toNat_encode
  have hkind : s.encode.toNat / 0x1000000 = s.kind.toNat := by omega
  have hread : UInt8.ofNat (s.encode.toNat / 0x10000) = s.payload.1 := by
    apply UInt8.toNat_inj.mp
    rw [UInt8.toNat_ofNat']
    omega
  have hread' : UInt8.ofNat s.encode.toNat = s.payload.2 := by
    apply UInt8.toNat_inj.mp
    rw [UInt8.toNat_ofNat']
    omega
  unfold decode
  simp only [hkind, hread, hread']
  cases s <;> rfl

/-- A word that is read and packed again is its canonical form. -/
theorem encode_decode (w : UInt32) : (decode w).encode = canonical w := by
  have hw := w.toNat_lt
  have htop := toNat_shiftRight w
  have hkind (kind : UInt32) (h : w.toNat / 0x1000000 = kind.toNat) : w >>> 24 = kind :=
    UInt32.toNat_inj.mp (htop.trans h)
  apply UInt32.toNat_inj.mp
  rw [toNat_encode]
  unfold decode
  simp only
  -- a top byte, or the upper half and the low byte, or the top and the low byte
  split
  · rename_i h
    rw [toNat_canonical (hkind 1 h) 8 24 0 (by decide) (by decide)]
    change 1 * 0x1000000 + 0 * 0x10000 + 0 = _
    omega
  · rename_i h
    rw [toNat_canonical (hkind 2 h) 8 24 0 (by decide) (by decide)]
    change 2 * 0x1000000 + 0 * 0x10000 + 0 = _
    omega
  · rename_i h
    rw [toNat_canonical (hkind 3 h) 16 16 8 (by decide) (by decide)]
    simp only [kind, payload, UInt8.toNat_ofNat']
    change 3 * 0x1000000 + _ * 0x10000 + _ = _
    omega
  · rename_i h
    rw [toNat_canonical (hkind 4 h) 16 16 8 (by decide) (by decide)]
    simp only [kind, payload, UInt8.toNat_ofNat']
    change 4 * 0x1000000 + _ * 0x10000 + _ = _
    omega
  · rename_i h
    rw [toNat_canonical (hkind 5 h) 8 24 0 (by decide) (by decide)]
    change 5 * 0x1000000 + 0 * 0x10000 + 0 = _
    omega
  · rename_i h
    rw [toNat_canonical (hkind 6 h) 8 24 8 (by decide) (by decide)]
    simp only [kind, payload, UInt8.toNat_ofNat']
    change 6 * 0x1000000 + 0 * 0x10000 + _ = _
    omega
  · rename_i h₁ h₂ h₃ h₄ h₅ h₆
    have hunknown : readBits (w >>> 24) = 0 :=
      readBits_of_unknown (by simpa [htop] using ⟨h₁, h₂, h₃, h₄, h₅, h₆⟩)
    rw [canonical, hunknown, UInt32.and_zero]
    rfl

/-- The bits that are read of a word are the only ones that tell signals apart. -/
theorem decode_eq_iff (w w' : UInt32) : decode w = decode w' ↔ canonical w = canonical w' := by
  rw [← encode_decode w, ← encode_decode w']
  exact ⟨congrArg encode, fun h => by rw [← decode_encode (decode w), h, decode_encode]⟩

/-! ## The bytes about a medium -/

/-- The two bytes of a packed priority. -/
theorem pack_bytes (p : Priority) :
    (p.pack >>> 8).toUInt8 = p.family ∧ p.pack.toUInt8 = p.rank := by
  have hfamily := p.family.toNat_lt
  have hrank := p.rank.toNat_lt
  have hplaces : UInt16.toNat 8 % 16 = 8 := by decide
  constructor
  · apply UInt8.toNat_inj.mp
    rw [UInt16.toNat_toUInt8, UInt16.toNat_shiftRight, hplaces, Nat.shiftRight_eq_div_pow,
      Priority.pack_toNat]
    omega
  · apply UInt8.toNat_inj.mp
    rw [UInt16.toNat_toUInt8, Priority.pack_toNat]
    omega

/-- The two payload bytes of a packed signal. -/
theorem encode_bytes (s : Signal) :
    (s.encode >>> 16).toUInt8 = s.payload.1 ∧ s.encode.toUInt8 = s.payload.2 := by
  have hfamily := s.payload.1.toNat_lt
  have hlow := s.payload.2.toNat_lt
  have hplaces : UInt32.toNat 16 % 32 = 16 := by decide
  constructor
  · apply UInt8.toNat_inj.mp
    rw [UInt32.toNat_toUInt8, UInt32.toNat_shiftRight, hplaces, Nat.shiftRight_eq_div_pow,
      toNat_encode]
    omega
  · apply UInt8.toNat_inj.mp
    rw [UInt32.toNat_toUInt8, toNat_encode]
    omega

/-- A signal whose payload is a priority has the bytes of the packed priority. -/
theorem encode_bytes_of_payload {s : Signal} {p : Priority} (h : s.payload = (p.family, p.rank)) :
    (s.encode >>> 16).toUInt8 = (p.pack >>> 8).toUInt8 ∧ s.encode.toUInt8 = p.pack.toUInt8 := by
  obtain ⟨hfamily, hlow⟩ := encode_bytes s
  obtain ⟨hfamily', hrank⟩ := pack_bytes p
  rw [hfamily, hlow, hfamily', hrank, h]
  exact ⟨rfl, rfl⟩

/-- The packed form of signals loses nothing, every word is read and packed again to its canonical
form, and words stand for the same signal just if they have the same one. The signals about a medium
have the bytes of its packed priority. -/
theorem packing_lossless :
    (∀ s : Signal, decode s.encode = s) ∧
    Function.Injective encode ∧
    (∀ w : UInt32, (decode w).encode = canonical w) ∧
    (∀ w : UInt32, (decode (decode w).encode).encode = (decode w).encode) ∧
    (∀ w w' : UInt32, decode w = decode w' ↔ canonical w = canonical w') ∧
    (∀ p : Priority,
      ((vanish p).encode >>> 16).toUInt8 = (p.pack >>> 8).toUInt8 ∧
        (vanish p).encode.toUInt8 = p.pack.toUInt8) ∧
    ∀ p : Priority,
      ((destinationChange p).encode >>> 16).toUInt8 = (p.pack >>> 8).toUInt8 ∧
        (destinationChange p).encode.toUInt8 = p.pack.toUInt8 := by
  refine ⟨decode_encode, Function.LeftInverse.injective decode_encode, encode_decode,
    fun w => by rw [decode_encode], decode_eq_iff, ?_, ?_⟩
  · exact fun p => encode_bytes_of_payload rfl
  · exact fun p => encode_bytes_of_payload rfl

/-- Words that differ in bits that are not read only. -/
example : decode 0x0301AB02 = decode 0x03010002 := by decide

end Haulage.Signal
