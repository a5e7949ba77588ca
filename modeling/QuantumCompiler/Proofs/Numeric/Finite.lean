import Mathlib.Tactic.SplitIfs
import QuantumCompiler.Numeric.Decimal

/-!
# Finite floating point numbers

A number is finite exactly if its exponent field is not the greatest one
(`isFinite_iff_exponent`), which is also what the arithmetic of `Float` takes for
finite (`isFinite_eq`).

* A finite number is equal to itself (`beq_self`).
* Its negative is finite (`isFinite_neg`): a sign is changed on the unpacked number,
  so packing must not run into the greatest exponent.
* What is read from a decimal is finite (`Decimal.isFinite_of_read`).
-/

namespace QuantumCompiler

namespace Binary64

open Float.Model

theorem toNat_greatestExponent :
    (-1#_ : BitVec Format.binary64.exponentBits).toNat = 2047 := by decide

/-- The exponent field of a packed number. -/
abbrev exponentField (b : BitVec 64) : BitVec Format.binary64.exponentBits :=
  UnpackedFloat.unpackExponent b

/-- The fraction field of a packed number. -/
abbrev fractionField (b : BitVec 64) : BitVec Format.binary64.mantissaBitsWithoutImplicit :=
  UnpackedFloat.unpackMantissa b

theorem isFinite_iff_exponent {x : Float} :
    isFinite x = true ↔ exponentField x.toModel.toBits.toBitVec ≠ -1#_ := by
  have hbits : x.toBits = x.toModel.toBits := rfl
  have hfield : (exponentField x.toModel.toBits.toBitVec).toNat =
      x.toBits.toNat / Nat.pow 2 52 % Nat.pow 2 11 := by
    simp [UnpackedFloat.unpackExponent, hbits, Nat.shiftRight_eq_div_pow]
  rw [isFinite, decode, Ne, ← BitVec.toNat_inj, toNat_greatestExponent, hfield, fractionBits]
  generalize x.toBits.toNat / Nat.pow 2 52 % Nat.pow 2 11 = biased
  by_cases hgreatest : biased = 2047
  · simp only [hgreatest]
    split_ifs <;> simp_all
  · by_cases hzero : biased = 0 <;> simp [hgreatest, hzero]

/-! ## Unpacked numbers -/

theorem isFinite_unpack_iff {b : BitVec 64} :
    (UnpackedFloat.unpack Format.binary64 b).isFinite = true ↔ exponentField b ≠ -1#_ := by
  delta UnpackedFloat.unpack
  dsimp only
  by_cases hgreatest : exponentField b = -1#_
  · rw [if_pos hgreatest]
    refine iff_of_false ?_ (not_not_intro hgreatest)
    split <;> exact Bool.false_ne_true
  · rw [if_neg hgreatest]
    refine iff_of_true ?_ hgreatest
    by_cases hsubnormal : exponentField b = 0#_
    · rw [if_pos hsubnormal]
      by_cases hzero : fractionField b = 0#_
      · rw [dif_pos hzero]
        rfl
      · rw [dif_neg hzero]
        rfl
    · rw [if_neg hsubnormal]
      rfl

theorem isFinite_eq (x : Float) : isFinite x = x.toModel.isFinite :=
  Bool.eq_iff_iff.mpr (isFinite_iff_exponent.trans isFinite_unpack_iff.symm)

theorem beq_self {x : Float} (h : isFinite x = true) : (x == x) = true := by
  rw [isFinite_eq, Float.Model.isFinite] at h
  show (x.toModel.unpack.compare x.toModel.unpack == some Ordering.eq) = true
  cases hx : x.toModel.unpack with
  | infinity s => rw [hx] at h; cases h
  | notANumber => rw [hx] at h; cases h
  | zero s => rfl
  | finite s m e hm =>
    have hsame : (compare e e).then (compare m m) = .eq := by simp
    cases s with
    | positive =>
      show (some ((compare e e).then (compare m m)) == some Ordering.eq) = true
      rw [hsame]
      rfl
    | negative =>
      show (some ((compare e e).then (compare m m)).swap == some Ordering.eq) = true
      rw [hsame]
      rfl

/-! ## Negative numbers -/

section Packing

variable {s : UnpackedFloat.Sign} {m : Nat} {e : Int} {hm : 0 < m}

theorem biasedExponent_lt_of_unpack {b : BitVec 64}
    (h : UnpackedFloat.unpack Format.binary64 b = .finite s m e hm) :
    (e + 1075).toNat < 2047 := by
  have hgreatest : exponentField b ≠ -1#_ :=
    isFinite_unpack_iff.mp (congrArg UnpackedFloat.isFinite h)
  have hbias : (Format.binary64.exponentBias : Int) + (52 : Nat) = 1075 := by decide
  have hlt := (exponentField b).isLt
  delta UnpackedFloat.unpack at h
  dsimp only at h
  rw [if_neg hgreatest, hbias] at h
  by_cases hsubnormal : exponentField b = 0#_
  · rw [if_pos hsubnormal] at h
    by_cases hzero : fractionField b = 0#_
    · rw [dif_pos hzero] at h
      cases h
    · rw [dif_neg hzero] at h
      cases h
      show ((exponentField b).toNat - 1075 + 1 + 1075 : Int).toNat < 2047
      rw [hsubnormal]
      decide
  · rw [if_neg hsubnormal] at h
    cases h
    show ((exponentField b).toNat - 1075 + 1075 : Int).toNat < 2047
    rw [Ne, ← BitVec.toNat_inj, toNat_greatestExponent] at hgreatest
    simp only [Nat.reducePow] at hlt
    omega

theorem exponentField_packComponents (exponent : BitVec Format.binary64.exponentBits)
    (fraction : BitVec Format.binary64.mantissaBitsWithoutImplicit) :
    exponentField (UnpackedFloat.packComponents Format.binary64 s exponent fraction) = exponent :=
  UnpackedFloat.unpackExponent_packComponents ..

theorem exponentField_pack (h : (e + 1075).toNat < 2047) :
    exponentField (UnpackedFloat.pack Format.binary64 (.finite s m e hm)) ≠ -1#_ := by
  have hbiased : (e + Format.binary64.exponentBias + (52 : Nat)).toNat = (e + 1075).toNat := by
    rw [Int.add_assoc]
    rfl
  have hsize : 2 ^ Format.binary64.exponentBits = 2048 := by decide
  delta UnpackedFloat.pack
  dsimp only
  rw [hbiased]
  split_ifs with hlarge hnormal
  · omega
  · rw [exponentField_packComponents, Ne, ← BitVec.toNat_inj, BitVec.toNat_ofNat,
      toNat_greatestExponent, hsize]
    omega
  · rw [exponentField_packComponents]
    decide

end Packing

theorem isFinite_neg {x : Float} (h : isFinite x = true) : isFinite (-x) = true := by
  rw [isFinite_eq, Float.Model.isFinite] at h
  rw [isFinite_iff_exponent]
  show exponentField (UnpackedFloat.pack Format.binary64 x.toModel.unpack.neg) ≠ -1#_
  cases hx : x.toModel.unpack with
  | infinity s => rw [hx] at h; cases h
  | notANumber => rw [hx] at h; cases h
  | zero s =>
    show exponentField (UnpackedFloat.packComponents Format.binary64 _ 0 0) ≠ -1#_
    rw [exponentField_packComponents]
    decide
  | finite s m e hm => exact exponentField_pack (biasedExponent_lt_of_unpack hx)

end Binary64

namespace Decimal

theorem isFinite_of_read {negative : Bool} {mantissa : Nat} {exponent : Int} {x : Float}
    (h : read negative mantissa exponent = some x) : Binary64.isFinite x = true := by
  obtain ⟨y, hy, rfl⟩ := Option.map_eq_some_iff.mp h
  have hfinite : Binary64.isFinite y = true := by
    split_ifs at hy with hzero hlarge
    · cases hy
      decide
    · obtain ⟨hchecked, rfl⟩ : Binary64.isFinite _ = true ∧ _ = y := by simpa using hy
      exact hchecked
  cases negative with
  | true => exact Binary64.isFinite_neg hfinite
  | false => exact hfinite

end Decimal

end QuantumCompiler
