/-
Doubles. Comparing two of them comes out the same from both sides, and the
operations that numerals are read with give no NaN.
-/
import Mathlib
import ScriptEngine.Heap.Compare

namespace ScriptEngine.Number

open Float.Model (UnpackedFloat Format)

def unpacked (x : Float) : UnpackedFloat := x.toModel.unpack

/-! ## Order -/

theorem compare_sign_swap (s t : UnpackedFloat.Sign) : compare t s = (compare s t).swap := by
  cases s <;> cases t <;> rfl

theorem compare_finite_swap (e f : Int) (m n : Nat) :
    ((compare f e).then (compare n m)) = ((compare e f).then (compare m n)).swap := by
  rw [Ordering.swap_then, Int.compare_swap, Nat.compare_swap]

theorem unpacked_compare_swap (a b : UnpackedFloat) : (a.compare b).map Ordering.swap = b.compare a := by
  cases a with
  | notANumber => cases b <;> rfl
  | infinity s =>
    cases b with
    | infinity t => exact congrArg some (compare_sign_swap s t).symm
    | notANumber => rfl
    | zero t => cases s <;> rfl
    | finite t n f hn => cases s <;> cases t <;> rfl
  | zero s =>
    cases b with
    | infinity t => cases t <;> rfl
    | notANumber | zero => rfl
    | finite t n f hn => cases t <;> rfl
  | finite s m e hm =>
    cases b with
    | infinity t => cases s <;> cases t <;> rfl
    | notANumber => cases s <;> rfl
    | zero t => cases s <;> rfl
    | finite t n f hn =>
      cases s <;> cases t
      · exact congrArg some (congrArg Ordering.swap (compare_finite_swap e f m n).symm)
      · rfl
      · rfl
      · exact congrArg some (compare_finite_swap e f m n).symm

theorem lt_iff (x y : Float) : x < y ↔ (unpacked x).compare (unpacked y) = some .lt := by
  change x.lt y = true ↔ _
  rw [Float.lt, decide_eq_true_iff]
  change (unpacked x).lt (unpacked y) = true ↔ _
  rw [UnpackedFloat.lt, beq_iff_eq]

theorem beq_iff (x y : Float) : (x == y) = true ↔ (unpacked x).compare (unpacked y) = some .eq := by
  change (unpacked x).beq (unpacked y) = true ↔ _
  rw [UnpackedFloat.beq, beq_iff_eq]

theorem beq_comm (x y : Float) : (x == y) = (y == x) := by
  rw [Bool.eq_iff_iff, beq_iff, beq_iff, ← unpacked_compare_swap (unpacked x)]
  cases (unpacked x).compare (unpacked y) with
  | none => simp
  | some o => cases o <;> simp

theorem compareNumbers_eq (x y : Float) : Store.compareNumbers x y = (unpacked x).compare (unpacked y) := by
  have hswap := unpacked_compare_swap (unpacked x) (unpacked y)
  simp only [Store.compareNumbers, gt_iff_lt, lt_iff, beq_iff]
  cases h : (unpacked x).compare (unpacked y) with
  | none =>
    rw [h] at hswap
    simp [← hswap]
  | some o =>
    rw [h] at hswap
    cases o <;> simp [← hswap]

theorem compareNumbers_swap (x y : Float) :
    (Store.compareNumbers x y).map Ordering.swap = Store.compareNumbers y x := by
  rw [compareNumbers_eq, compareNumbers_eq, unpacked_compare_swap]

/-! ## NaN -/

theorem isNaN_unpack_packComponents {spec : Format} {s : UnpackedFloat.Sign} {e : BitVec spec.exponentBits}
    {m : BitVec spec.mantissaBitsWithoutImplicit} (h : e ≠ -BitVec.ofNat spec.exponentBits 1) :
    (UnpackedFloat.unpack spec (UnpackedFloat.packComponents spec s e m)).isNaN = false := by
  unfold UnpackedFloat.unpack
  simp only [UnpackedFloat.unpackExponent_packComponents, if_neg h]
  split
  · split <;> rfl
  · rfl

theorem isNaN_pack (u : UnpackedFloat) : (Float.Model.pack u).isNaN = u.isNaN := by
  change (UnpackedFloat.unpack .binary64 (UnpackedFloat.pack .binary64 u)).isNaN = u.isNaN
  have infinite : ∀ s, (UnpackedFloat.unpack .binary64 (UnpackedFloat.packedInfinity .binary64 s)).isNaN = false := by
    intro s
    cases s <;> decide +kernel
  cases u with
  | notANumber => decide +kernel
  | infinity s => exact infinite s
  | zero s => cases s <;> decide +kernel
  | finite s m e hm =>
    simp only [UnpackedFloat.pack]
    split
    · exact infinite s
    · rename_i hexponent
      split
      · refine isNaN_unpack_packComponents fun h => hexponent ?_
        have hmod := congrArg BitVec.toNat h
        have hones : (-BitVec.ofNat Format.binary64.exponentBits 1).toNat = 2047 := rfl
        rw [BitVec.toNat_ofNat, Nat.mod_eq_of_lt (by omega), hones] at hmod
        exact Nat.le_of_eq (by rw [hmod])
      · exact isNaN_unpack_packComponents (by decide)

theorem isNaN_roundWithAccuracy (spec : Format) (s : UnpackedFloat.Sign) (m : Nat) (e : Int)
    (accuracy : UnpackedFloat.Accuracy) : (UnpackedFloat.roundWithAccuracy spec s m e accuracy).isNaN = false := by
  simp only [UnpackedFloat.roundWithAccuracy]
  split <;> rfl

def isOrdinary : UnpackedFloat → Bool
  | .finite .. => true
  | _ => false

theorem isNaN_mul {spec : Format} {a b : UnpackedFloat} (ha : a.isNaN = false) (hb : isOrdinary b = true) :
    (UnpackedFloat.mul spec a b).isNaN = false := by
  cases b <;> cases hb
  cases a with
  | notANumber => cases ha
  | finite => exact isNaN_roundWithAccuracy ..
  | _ => rfl

theorem isNaN_div {spec : Format} {a b : UnpackedFloat} (ha : a.isNaN = false) (hb : isOrdinary b = true) :
    (UnpackedFloat.div spec a b).isNaN = false := by
  cases b <;> cases hb
  cases a with
  | notANumber => cases ha
  | finite => exact isNaN_roundWithAccuracy ..
  | _ => rfl

theorem isNaN_ofNat (spec : Format) (n : Nat) : (UnpackedFloat.ofNat spec n).isNaN = false := by
  simp only [UnpackedFloat.ofNat, UnpackedFloat.ofInt, UnpackedFloat.normalize, UnpackedFloat.round]
  split
  · exact isNaN_roundWithAccuracy ..
  · rfl
  · exact isNaN_roundWithAccuracy ..

theorem isNaN_toFloat (n : UInt64) : n.toFloat.isNaN = false :=
  (isNaN_pack _).trans (isNaN_ofNat _ _)

theorem isNaN_unpackedScientific (spec : Format) (m : Nat) (e : Int) :
    (UnpackedFloat.ofScientific spec m e).isNaN = false := by
  simp only [UnpackedFloat.ofScientific]
  split
  · rfl
  · split
    · rfl
    · split
      · rfl
      · split
        · exact isNaN_mul rfl rfl
        · exact isNaN_div rfl rfl

theorem isOrdinary_powerOfTen : ∀ i (h : i < Float.exactlyRepresentablePowersOfTen.size),
    isOrdinary (unpacked Float.exactlyRepresentablePowersOfTen[i]) = true := by
  decide +kernel

theorem isNaN_ofScientific (m : Nat) (negative : Bool) (e : Nat) : (Float.ofScientific m negative e).isNaN = false := by
  unfold Float.ofScientific
  split
  · rename_i hexact
    have hten := isOrdinary_powerOfTen e (Nat.lt_succ_of_le hexact.2)
    simp only
    split
    · exact (isNaN_pack _).trans (isNaN_div (isNaN_toFloat _) hten)
    · exact (isNaN_pack _).trans (isNaN_mul (isNaN_toFloat _) hten)
  · exact (isNaN_pack _).trans (isNaN_unpackedScientific ..)

theorem isNaN_neg (x : Float) : (-x).isNaN = x.isNaN := by
  refine (isNaN_pack _).trans ?_
  change (unpacked x).neg.isNaN = (unpacked x).isNaN
  cases unpacked x <;> rfl

theorem isNaN_ofDecimal (coefficient : Nat) (exponent : Int) : (ofDecimal coefficient exponent).isNaN = false := by
  unfold ofDecimal
  split
  · decide +kernel
  · simp only
    split
    · decide +kernel
    · split
      · decide +kernel
      · exact isNaN_ofScientific ..

end ScriptEngine.Number
