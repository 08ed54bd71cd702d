import Mathlib.Data.Int.Notation

/-!
# Machine arithmetic that must be exact

`signed n` and `unsigned n` are the 64-bit words with the value `n`, if there are any. A computation is exact when it
still has a result after each of its operations has been replaced by the exact one under `signed` or `unsigned`; the
words are then those of the wrapping operations (`signed_add`, `unsigned_sub` and so on).
-/

namespace Structures.Checked

/-- The word of type `long` with the value `n`; the bounds are `±2^63`. -/
def signed (n : ℤ) : Option Int64 :=
  if -9223372036854775808 ≤ n ∧ n < 9223372036854775808 then some (Int64.ofInt n) else none

/-- The word of type `unsigned long` with the value `n`; the bound is `2^64`. -/
def unsigned (n : ℤ) : Option UInt64 :=
  if 0 ≤ n ∧ n < 18446744073709551616 then some (UInt64.ofNat n.toNat) else none

variable {n : ℤ} {a b c : Int64} {u v w : UInt64}

theorem signed_eq_some : signed n = some c ↔ c.toInt = n := by
  have hlt := c.toInt_lt
  have hle := c.le_toInt
  unfold signed
  split
  · rename_i h
    rw [Option.some.injEq, ← Int64.toInt_inj, Int64.toInt_ofInt_of_le (by omega) (by omega), eq_comm]
  · rename_i h
    refine ⟨nofun, fun hc => absurd ?_ h⟩
    omega

theorem unsigned_eq_some : unsigned n = some w ↔ (w.toNat : ℤ) = n := by
  have hlt := w.toNat_lt
  unfold unsigned
  split
  · rename_i h
    have hn : n.toNat < 2 ^ 64 := by omega
    rw [Option.some.injEq, ← UInt64.toNat_inj, UInt64.toNat_ofNat_of_lt' hn]
    omega
  · rename_i h
    refine ⟨nofun, fun hw => absurd ?_ h⟩
    omega

theorem exists_signed (h : -9223372036854775808 ≤ n) (h' : n < 9223372036854775808) :
    ∃ c, signed n = some c ∧ c.toInt = n :=
  ⟨Int64.ofInt n, if_pos ⟨h, h'⟩, Int64.toInt_ofInt_of_le h h'⟩

theorem exists_unsigned (h : 0 ≤ n) (h' : n < 18446744073709551616) : ∃ w, unsigned n = some w ∧ (w.toNat : ℤ) = n :=
  ⟨_, if_pos ⟨h, h'⟩, unsigned_eq_some.mp (if_pos ⟨h, h'⟩)⟩

/-! ## The wrapping operations -/

theorem signed_add (h : signed (a.toInt + b.toInt) = some c) : c = a + b := by
  rw [← Int64.toInt_inj, Int64.toInt_add, ← signed_eq_some.mp h]
  exact c.toInt_bmod.symm

theorem signed_mul (h : signed (a.toInt * b.toInt) = some c) : c = a * b := by
  rw [← Int64.toInt_inj, Int64.toInt_mul, ← signed_eq_some.mp h]
  exact c.toInt_bmod.symm

theorem signed_toInt64 (h : signed u.toNat = some c) : c = u.toInt64 := by
  rw [← Int64.toInt_inj]
  show c.toInt = u.toBitVec.toInt
  rw [BitVec.toInt_eq_toNat_bmod]
  show c.toInt = (u.toNat : ℤ).bmod (2 ^ 64)
  rw [← signed_eq_some.mp h]
  exact c.toInt_bmod.symm

theorem unsigned_add (h : unsigned (u.toNat + v.toNat) = some w) : w = u + v := by
  have hw := unsigned_eq_some.mp h
  have hlt := w.toNat_lt
  rw [← UInt64.toNat_inj, UInt64.toNat_add, Nat.mod_eq_of_lt] <;> omega

theorem unsigned_mul (h : unsigned (u.toNat * v.toNat) = some w) : w = u * v := by
  have hw := unsigned_eq_some.mp h
  have hlt := w.toNat_lt
  rw [← UInt64.toNat_inj, UInt64.toNat_mul, Nat.mod_eq_of_lt] <;> omega

theorem unsigned_toUInt64 (h : unsigned a.toInt = some w) : w = a.toUInt64 := by
  have hw := unsigned_eq_some.mp h
  have ha : 0 ≤ a := by
    rw [Int64.le_iff_toInt_le, Int64.toInt_zero]
    omega
  rw [← UInt64.toNat_inj, Int64.toNat_toUInt64_of_le ha, ← Int64.toNat_toInt]
  omega

end Structures.Checked
