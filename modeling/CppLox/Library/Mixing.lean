import Mathlib.Data.List.Basic

/-!
# Library — mixing of words

The steps that hash functions mix a 64-bit word with are injective: an exclusive or with the word
shifted to the right, a multiplication by an odd number and an addition.
-/

namespace Mixing

theorem xor_shiftRight_injective {k : Nat} (hk : 0 < k) {x y : BitVec 64}
    (h : x ^^^ (x >>> k) = y ^^^ (y >>> k)) : x = y := by
  have hd : x ^^^ y = (x ^^^ y) >>> k := by
    rw [BitVec.ushiftRight_xor_distrib]
    calc x ^^^ y = (x ^^^ (x >>> k)) ^^^ (y ^^^ (y >>> k)) ^^^ ((x >>> k) ^^^ (y >>> k)) := by
          have hbool : ∀ a b c d : Bool, (a ^^ b) = ((a ^^ c) ^^ (b ^^ d) ^^ (c ^^ d)) := by decide
          ext i
          simp only [BitVec.getElem_xor]
          exact hbool ..
      _ = (x >>> k) ^^^ (y >>> k) := by rw [h, BitVec.xor_self, BitVec.zero_xor]
  have hnat := congrArg BitVec.toNat hd
  rw [BitVec.toNat_ushiftRight, Nat.shiftRight_eq_div_pow] at hnat
  have hzero : (x ^^^ y).toNat = 0 := by
    by_contra hne
    have hlt := Nat.div_lt_self (Nat.pos_of_ne_zero hne) (Nat.one_lt_two_pow (Nat.pos_iff_ne_zero.mp hk))
    omega
  exact BitVec.xor_eq_zero_iff.mp (BitVec.eq_of_toNat_eq hzero)

theorem xor_shiftRight_injective_uint64 {k x y : UInt64} (hk : 0 < k.toNat % 64)
    (h : x ^^^ (x >>> k) = y ^^^ (y >>> k)) : x = y := by
  have hbits := congrArg UInt64.toBitVec h
  simp only [UInt64.toBitVec_xor, UInt64.toBitVec_shiftRight] at hbits
  exact UInt64.toBitVec_inj.mp
    (xor_shiftRight_injective (by rwa [BitVec.toNat_umod] : 0 < (k.toBitVec % 64).toNat) hbits)

/-- A factor with an inverse. -/
theorem mul_right_injective {c d x y : UInt64} (hcd : c * d = 1) (h : x * c = y * c) : x = y := by
  rw [← UInt64.mul_one x, ← UInt64.mul_one y, ← hcd, ← UInt64.mul_assoc, ← UInt64.mul_assoc, h]

end Mixing
