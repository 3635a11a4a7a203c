/-!
# Storage media

A medium is addressed by its priority: the family it belongs to and its rank
within that family. One pair of values is reserved to say that no medium is
meant.

A priority also has a packed form of sixteen bits, family above rank. Packing
loses nothing, see `Priority.unpack_pack` and `Priority.pack_unpack`.
-/

namespace Haulage

/-- The family of a medium (internal, external, …), as the storage manager numbers it. -/
abbrev MediaFamily := UInt8

/-- The family number that stands for no family in particular. -/
def MediaFamily.unset : MediaFamily := 255

/-- The selection order of one medium. -/
structure Priority where
  family : MediaFamily
  rank : UInt8
  deriving Repr, DecidableEq, Inhabited

namespace Priority

/-- The priority that names no medium. -/
def unset : Priority := ⟨255, 255⟩

/-- Does `p` name no medium? -/
def isUnset (p : Priority) : Bool := p = unset

/-- The written form: `family:rank`, or the word `unset`. -/
def text (p : Priority) : String :=
  if p.isUnset then "unset" else toString p.family.toNat ++ ":" ++ toString p.rank.toNat

/-- The packed form: the family in the high byte, the rank in the low byte. -/
def pack (p : Priority) : UInt16 :=
  UInt16.ofNat (p.family.toNat * 256 + p.rank.toNat)

/-- The priority that a packed form stands for. -/
def unpack (w : UInt16) : Priority :=
  ⟨UInt8.ofNat (w.toNat / 256), UInt8.ofNat w.toNat⟩

theorem pack_toNat (p : Priority) : p.pack.toNat = p.family.toNat * 256 + p.rank.toNat := by
  have hf := p.family.toNat_lt
  have hr := p.rank.toNat_lt
  rw [pack, UInt16.toNat_ofNat', Nat.mod_eq_of_lt (by omega)]

@[simp] theorem unpack_pack (p : Priority) : unpack p.pack = p := by
  have hr := p.rank.toNat_lt
  have hf : (p.family.toNat * 256 + p.rank.toNat) / 256 = p.family.toNat := by omega
  have hl : UInt8.ofNat (p.family.toNat * 256 + p.rank.toNat) = p.rank := by
    apply UInt8.toNat_inj.mp
    rw [UInt8.toNat_ofNat']
    omega
  simp [unpack, pack_toNat, hf, hl]

@[simp] theorem pack_unpack (w : UInt16) : (unpack w).pack = w := by
  have hw := w.toNat_lt
  apply UInt16.toNat_inj.mp
  rw [pack_toNat]
  simp only [unpack, UInt8.toNat_ofNat']
  omega

end Priority

/-- What the storage manager announces about its media. -/
inductive MediaEvent where
  /-- Output without a destination of its own now goes to this medium. -/
  | changed (p : Priority)
  /-- This medium can no longer be used. -/
  | inactive (p : Priority)
  deriving Repr, DecidableEq

end Haulage
