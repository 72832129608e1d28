import Mathlib.Data.List.Basic

/-!
# Library — differences of doubles

The absolute difference of two doubles does not depend on their order (`Float.abs_sub_comm`), and
the difference of a double with itself is zero exactly when it is finite
(`Float.abs_sub_self_lt_iff`).
-/

namespace Binary64

open Float.Model Float.Model.UnpackedFloat

variable {spec : Format}

theorem abs_finite_congr {s t : Sign} {m n : Nat} {e k : Int} {hm : 0 < m} {hn : 0 < n} (h : m = n)
    (h' : e = k) : (UnpackedFloat.finite s m e hm).abs = (UnpackedFloat.finite t n k hn).abs := by
  subst h h'
  rfl

/-- The absolute value of a number is that of its mantissa and its exponent. -/
theorem abs_unpack_congr {b c : BitVec spec.numBits} (hm : unpackMantissa b = unpackMantissa c)
    (he : unpackExponent b = unpackExponent c) : (unpack spec b).abs = (unpack spec c).abs := by
  unfold UnpackedFloat.unpack
  dsimp only
  by_cases hmax : unpackExponent c = -1#_
  · rw [if_pos (he.trans hmax), if_pos hmax]
    by_cases hzero : unpackMantissa c = 0#_
    · rw [if_pos (hm.trans hzero), if_pos hzero]
      rfl
    · rw [if_neg (hm ▸ hzero), if_neg hzero]
  · rw [if_neg (he ▸ hmax), if_neg hmax]
    by_cases hmin : unpackExponent c = 0#_
    · rw [if_pos (he.trans hmin), if_pos hmin]
      by_cases hzero : unpackMantissa c = 0#_
      · rw [dif_pos (hm.trans hzero), dif_pos hzero]
        rfl
      · rw [dif_neg (hm ▸ hzero), dif_neg hzero]
        exact abs_finite_congr (by rw [hm]) (by rw [he])
    · rw [if_neg (he ▸ hmin), if_neg hmin]
      exact abs_finite_congr (by rw [hm]) (by rw [he])

theorem abs_unpack_packComponents (s t : Sign) (e : BitVec spec.exponentBits)
    (m : BitVec spec.mantissaBitsWithoutImplicit) :
    (unpack spec (packComponents spec s e m)).abs = (unpack spec (packComponents spec t e m)).abs :=
  abs_unpack_congr (by rw [unpackMantissa_packComponents, unpackMantissa_packComponents])
    (by rw [unpackExponent_packComponents, unpackExponent_packComponents])

/-- The absolute value of a packed number does not depend on its sign. -/
theorem abs_unpack_pack_neg (x : UnpackedFloat) :
    (unpack spec (pack spec x.neg)).abs = (unpack spec (pack spec x)).abs := by
  cases x with
  | notANumber => rfl
  | infinity s => exact abs_unpack_packComponents ..
  | zero s => exact abs_unpack_packComponents ..
  | finite s m e hm =>
      unfold UnpackedFloat.pack UnpackedFloat.neg
      dsimp only
      split
      · exact abs_unpack_packComponents ..
      · split <;> exact abs_unpack_packComponents ..

theorem round_neg (s : Sign) (m : Nat) (e : Int) : round spec (-s) m e = (round spec s m e).neg := by
  unfold UnpackedFloat.round roundWithAccuracy
  dsimp only
  rw [apply_dite UnpackedFloat.neg]
  rfl

theorem normalize_neg (m e : Int) :
    UnpackedFloat.normalize spec (-m) e .positive = UnpackedFloat.normalize spec m e .positive ∨
      UnpackedFloat.normalize spec (-m) e .positive =
        (UnpackedFloat.normalize spec m e .positive).neg := by
  unfold UnpackedFloat.normalize
  rcases Int.lt_trichotomy m 0 with h | rfl | h
  · have h₁ : compare m 0 = .lt := Int.compare_eq_lt.mpr h
    have h₂ : compare (-m) 0 = .gt := Int.compare_eq_gt.mpr (by omega)
    rw [h₁, h₂]
    exact .inr (round_neg .negative _ _)
  · exact .inl rfl
  · have h₁ : compare m 0 = .gt := Int.compare_eq_gt.mpr h
    have h₂ : compare (-m) 0 = .lt := Int.compare_eq_lt.mpr (by omega)
    rw [h₁, h₂, Int.neg_neg]
    exact .inr (round_neg .positive _ _)

theorem sub_comm_neg (x y : UnpackedFloat) :
    sub spec y x = sub spec x y ∨ sub spec y x = (sub spec x y).neg := by
  cases x with
  | notANumber => cases y <;> exact .inl rfl
  | infinity s =>
      cases y with
      | notANumber => exact .inl rfl
      | infinity t => cases s <;> cases t <;> first | exact .inl rfl | exact .inr rfl
      | zero t => exact .inr rfl
      | finite t m e hm => exact .inr rfl
  | zero s =>
      cases y with
      | notANumber => exact .inl rfl
      | infinity t => cases t <;> exact .inr rfl
      | zero t => cases s <;> cases t <;> first | exact .inl rfl | exact .inr rfl
      | finite t m e hm => cases t <;> exact .inr rfl
  | finite s m e hm =>
      cases y with
      | notANumber => exact .inl rfl
      | infinity t => cases t <;> exact .inr rfl
      | zero t => exact .inr rfl
      | finite t n k hn =>
          change UnpackedFloat.normalize _ _ _ _ = UnpackedFloat.normalize _ _ _ _ ∨
            UnpackedFloat.normalize _ _ _ _ = (UnpackedFloat.normalize _ _ _ _).neg
          have hneg := @normalize_neg spec
            (s.apply (decreaseExponent m e (min e k)).1 - t.apply (decreaseExponent n k (min e k)).1)
            (min e k)
          rw [Int.neg_sub] at hneg
          rw [Int.min_comm k e]
          exact hneg

theorem sub_self {x : UnpackedFloat} (h : x.isFinite = true) : sub spec x x = .zero .positive := by
  cases x with
  | notANumber => cases h
  | infinity s => cases h
  | zero s => cases s <;> rfl
  | finite s m e hm =>
      change UnpackedFloat.normalize spec _ _ _ = _
      rw [Int.sub_self]
      rfl

theorem sub_self_of_not_finite {x : UnpackedFloat} (h : x.isFinite = false) :
    sub spec x x = .notANumber := by
  cases x with
  | notANumber => rfl
  | infinity s => cases s <;> rfl
  | zero s => cases h
  | finite s m e hm => cases h

theorem not_special_of_isFinite {x : UnpackedFloat} (h : x.isFinite = true) :
    x.isNaN = false ∧ x.isInf = false := by
  cases x with
  | notANumber => cases h
  | infinity s => cases h
  | zero s => exact ⟨rfl, rfl⟩
  | finite s m e hm => exact ⟨rfl, rfl⟩

theorem eq_zero_of_beq {x : UnpackedFloat} {s : Sign} (h : x.beq (.zero s) = true) :
    ∃ t, x = .zero t := by
  cases x with
  | notANumber => cases h
  | infinity t => cases t <;> cases h
  | zero t => exact ⟨t, rfl⟩
  | finite t m e hm => cases t <;> cases h

end Binary64

namespace Float

open Float.Model Float.Model.UnpackedFloat Binary64

/-- The absolute value of a difference as a packed number. -/
theorem abs_sub_eq (x y : Float) : (x - y).abs = ofModel (Model.pack
    (UnpackedFloat.unpack Format.binary64 (UnpackedFloat.pack Format.binary64
      (UnpackedFloat.sub Format.binary64 x.toModel.unpack y.toModel.unpack))).abs) := by
  change ofModel (Model.pack (UnpackedFloat.unpack Format.binary64
    (UInt64.ofBitVec _).toBitVec).abs) = _
  rfl

theorem abs_sub_comm (x y : Float) : (x - y).abs = (y - x).abs := by
  rw [abs_sub_eq, abs_sub_eq]
  rcases @sub_comm_neg Format.binary64 x.toModel.unpack y.toModel.unpack with h | h
  · rw [h]
  · rw [h, abs_unpack_pack_neg]

theorem abs_sub_self {x : Float} (h : x.isFinite = true) : (x - x).abs = ofBits 0 := by
  rw [abs_sub_eq, Binary64.sub_self h]
  rfl

/-- A double differs from itself by less than a positive bound exactly when it is finite. -/
theorem abs_sub_self_lt_iff {x bound : Float} (hbound : ofBits 0 < bound) :
    (x - x).abs < bound ↔ x.isFinite = true := by
  constructor
  · intro hlt
    by_contra hne
    rw [abs_sub_eq, sub_self_of_not_finite (Bool.eq_false_iff.mpr hne)] at hlt
    cases hlt
  · intro h
    rwa [abs_sub_self h]

/-- The difference from a zero does not depend on its sign. -/
theorem abs_zero_sub {x : Float} (hx : (x == 0) = true) (y : Float) :
    (x - y).abs = (ofBits 0 - y).abs := by
  obtain ⟨s, hs⟩ := eq_zero_of_beq (x := x.toModel.unpack) (s := .positive) hx
  have hzero : (ofBits 0).toModel.unpack = .zero .positive := rfl
  rw [abs_sub_eq, abs_sub_eq, hs, hzero]
  cases y.toModel.unpack with
  | notANumber => rfl
  | infinity t => rfl
  | zero t => cases s <;> cases t <;> rfl
  | finite t m e hm => rfl

/-- Two zeros do not differ. -/
theorem abs_sub_of_zeros {x y : Float} (hx : (x == 0) = true) (hy : (y == 0) = true) :
    (x - y).abs = ofBits 0 := by
  rw [abs_zero_sub hx, abs_sub_comm, abs_zero_sub hy, abs_sub_self rfl]

end Float
