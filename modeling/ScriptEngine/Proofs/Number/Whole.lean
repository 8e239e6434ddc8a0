/-
Doubles of whole numbers. They are in the order of the numbers as long as one of
the two is exact, and adding one gives the double of the next number. Main
statements: `ofWord_le_iff` and `ofWord_add_one`.
-/
import ScriptEngine.Proofs.Number.Double

namespace ScriptEngine.Number

open Float.Model (Format UnpackedFloat totalExponent)
open Float.Model.UnpackedFloat

/-- The double of a whole number, which is exact while it has no more bits than a mantissa. -/
inductive DoubleOf (n : Nat) : UnpackedFloat → Prop
  | zero : n = 0 → DoubleOf n (.zero .positive)
  | exact (h : 0 < n * 2 ^ (52 - n.log2)) : n.log2 ≤ 52 →
    DoubleOf n (.finite .positive (n * 2 ^ (52 - n.log2)) (n.log2 - 52) h)
  | near {m : Nat} {e : Int} (h : 0 < m) : 52 < n.log2 → m.log2 = 52 → 0 < e → e ≤ n.log2 - 51 →
    DoubleOf n (.finite .positive m e h)

/-! ## Rounding -/

theorem log2_mul_pow {m : Nat} (hm : m ≠ 0) (j : Nat) : (m * 2 ^ j).log2 = m.log2 + j := by
  induction j with
  | zero => rw [Nat.pow_zero, Nat.mul_one, Nat.add_zero]
  | succ j ih =>
    have hne : m * 2 ^ j ≠ 0 := Nat.mul_ne_zero hm (Nat.ne_of_gt (Nat.two_pow_pos j))
    rw [Nat.pow_succ, ← Nat.mul_assoc, Nat.mul_comm _ 2, Nat.log2_two_mul hne, ih, Nat.add_assoc]

theorem shiftRight_exact (m : Nat) (j : Nat) :
    (⟨m * 2 ^ j, false, false⟩ : ExtendedMantissa) >>> j = ⟨m, false, false⟩ := by
  induction j generalizing m with
  | zero => rw [Nat.pow_zero, Nat.mul_one]; rfl
  | succ j ih =>
    have hone : (⟨m * 2 ^ (j + 1), false, false⟩ : ExtendedMantissa) >>> (j + 1) =
        ((⟨m * 2 * 2 ^ j, false, false⟩ : ExtendedMantissa) >>> j).shiftRightOne := by
      rw [Nat.pow_succ', ← Nat.mul_assoc]
      rfl
    rw [hone, ih]
    simp [ExtendedMantissa.shiftRightOne]

theorem mantissa_shiftRight (m : ExtendedMantissa) (j : Nat) : (m >>> j).mantissa = m.mantissa / 2 ^ j := by
  induction j with
  | zero => rw [Nat.pow_zero, Nat.div_one]; rfl
  | succ j ih =>
    change (m >>> j).mantissa / 2 = _
    rw [ih, Nat.div_div_eq_div_mul, Nat.pow_succ]

theorem shiftToTargetExponent_eq {m : Nat} {e : Int} (h : 52 ≤ m.log2) (he : -1074 ≤ e) :
    shiftToTargetExponent .binary64 m e .exact =
      ((⟨m, false, false⟩ : ExtendedMantissa) >>> (m.log2 - 52), e + (m.log2 - 52 : Nat)) := by
  have htarget : Format.binary64.targetExponent (totalExponent m e) = e + (m.log2 - 52 : Nat) := by
    simp only [Format.targetExponent, totalExponent, Format.mantissaBits, Format.minExponent]
    omega
  rw [shiftToTargetExponent, htarget, shiftToExponent]
  simp only [add_sub_cancel_left, Int.toNat_natCast]
  rfl

theorem roundWithAccuracy_exact {m : Nat} {e : Int} (hm : m.log2 = 52) (he : -1074 ≤ e) (j : Nat) (h : 0 < m) :
    roundWithAccuracy .binary64 .positive (m * 2 ^ j) e .exact = .finite .positive m (e + j) h := by
  have hlog : (m * 2 ^ j).log2 = 52 + j := by rw [log2_mul_pow (Nat.ne_of_gt h), hm]
  have hfirst : shiftToTargetExponent .binary64 (m * 2 ^ j) e .exact = (⟨m, false, false⟩, e + j) := by
    rw [shiftToTargetExponent_eq (by omega) he, hlog, Nat.add_sub_cancel_left, shiftRight_exact]
  have hsecond : shiftToTargetExponent .binary64 m (e + j) .exact = (⟨m, false, false⟩, e + j) := by
    rw [shiftToTargetExponent_eq (Nat.le_of_eq hm.symm) (by omega), hm]
    exact congrArg (Prod.mk _) (Int.add_zero _)
  rw [roundWithAccuracy, hfirst]
  simp only [ExtendedMantissa.roundedMantissa, ExtendedMantissa.accuracy, Accuracy.roundToNearestEven, hsecond,
    Nat.ne_of_gt h, dif_neg, not_false_eq_true]

theorem roundedMantissa_bounds (m : ExtendedMantissa) :
    m.mantissa ≤ m.roundedMantissa ∧ m.roundedMantissa ≤ m.mantissa + 1 := by
  rw [ExtendedMantissa.roundedMantissa]
  cases m.accuracy with
  | exact => exact ⟨Nat.le_refl _, Nat.le_succ _⟩
  | inexact o => cases o <;> simp only [Accuracy.roundToNearestEven] <;> omega

theorem pos_of_log2 {m k : Nat} (h : m.log2 = k + 1) : 0 < m := by
  rcases Nat.eq_zero_or_pos m with rfl | hm
  · simp at h
  · exact hm

theorem log2_div_pow {n : Nat} (hn : 52 ≤ n.log2) : (n / 2 ^ (n.log2 - 52)).log2 = 52 := by
  have hne : n ≠ 0 := by
    rintro rfl
    simp at hn
  have hle := Nat.log2_self_le hne
  have hlt := Nat.lt_log2_self (n := n)
  have hsplit : 2 ^ n.log2 = 2 ^ 52 * 2 ^ (n.log2 - 52) := by rw [← Nat.pow_add, Nat.add_sub_cancel' hn]
  have hbound : 2 ^ 52 ≤ n / 2 ^ (n.log2 - 52) := (Nat.le_div_iff_mul_le (Nat.two_pow_pos _)).2 (hsplit ▸ hle)
  refine (Nat.log2_eq_iff (Nat.ne_of_gt (Nat.lt_of_lt_of_le (Nat.two_pow_pos 52) hbound))).2 ⟨hbound, ?_⟩
  rw [Nat.div_lt_iff_lt_mul (Nat.two_pow_pos _)]
  rw [Nat.pow_succ, hsplit] at hlt
  omega

theorem roundWithAccuracy_near {n : Nat} (hn : 52 < n.log2) :
    DoubleOf n (roundWithAccuracy .binary64 .positive n 0 .exact) := by
  have hfirst := shiftToTargetExponent_eq (e := 0) (Nat.le_of_lt hn) (by decide)
  have hbounds := roundedMantissa_bounds ((⟨n, false, false⟩ : ExtendedMantissa) >>> (n.log2 - 52))
  rw [mantissa_shiftRight] at hbounds
  dsimp only at hbounds
  rw [roundWithAccuracy, hfirst]
  generalize hr : ((⟨n, false, false⟩ : ExtendedMantissa) >>> (n.log2 - 52)).roundedMantissa = r at hbounds
  -- the rounding may carry into a 54th bit, which the second shift takes away
  have hlog := log2_div_pow (Nat.le_of_lt hn)
  have hq := (Nat.log2_eq_iff (pos_of_log2 hlog).ne').1 hlog
  have hlow : 52 ≤ r.log2 := (Nat.le_log2 (by omega)).2 (by omega)
  have hhigh : r.log2 < 54 := (Nat.log2_lt (by omega)).2 (by omega)
  have hsecond := shiftToTargetExponent_eq (m := r) (e := 0 + (n.log2 - 52 : Nat)) hlow (by omega)
  have hfinal : ((⟨r, false, false⟩ : ExtendedMantissa) >>> (r.log2 - 52)).mantissa.log2 = 52 := by
    rw [mantissa_shiftRight]
    exact log2_div_pow hlow
  simp only [hr, hsecond, (pos_of_log2 hfinal).ne', dif_neg, not_false_eq_true]
  exact .near _ hn hfinal (by omega) (by omega)

/-! ## Whole numbers -/

theorem round_exact {n : Nat} (hn : n ≠ 0) (hlog : n.log2 ≤ 52) (h : 0 < n * 2 ^ (52 - n.log2)) {k : Nat}
    (hk : k = 0 ∨ k = 52) : round .binary64 .positive (n * 2 ^ k) (-k) =
      .finite .positive (n * 2 ^ (52 - n.log2)) (n.log2 - 52) h := by
  have htarget : Format.binary64.targetExponent (totalExponent (n * 2 ^ k) (-k)) = n.log2 - 52 := by
    simp only [Format.targetExponent, totalExponent, log2_mul_pow hn, Format.mantissaBits, Format.minExponent]
    omega
  have hm : (n * 2 ^ (52 - n.log2)).log2 = 52 := by rw [log2_mul_pow hn]; omega
  rw [UnpackedFloat.round, htarget, decreaseExponent]
  rcases hk with rfl | rfl
  · have hshift : (-((0 : Nat) : Int) - (n.log2 - 52)).toNat = 52 - n.log2 := by omega
    have hexponent : -((0 : Nat) : Int) - ((52 - n.log2 : Nat) : Int) = n.log2 - 52 := by omega
    have hround := roundWithAccuracy_exact (e := n.log2 - 52) hm (by omega) 0 h
    simp only [hshift, hexponent, Nat.shiftLeft_eq, Nat.pow_zero, Nat.mul_one] at hround ⊢
    rw [hround]
    simp
  · have hshift : (-((52 : Nat) : Int) - (n.log2 - 52)).toNat = 0 := by omega
    have hmantissa : n * 2 ^ 52 = n * 2 ^ (52 - n.log2) * 2 ^ n.log2 := by
      rw [Nat.mul_assoc, ← Nat.pow_add, Nat.sub_add_cancel hlog]
    have hround := roundWithAccuracy_exact (e := -52) hm (by decide) n.log2 h
    simp only [hshift, Nat.shiftLeft_zero]
    rw [hmantissa]
    refine hround.trans ?_
    congr 1

theorem normalize_pos {m : Nat} (hm : 0 < m) (e : Int) :
    normalize .binary64 m e .positive = round .binary64 .positive m e := by
  rw [UnpackedFloat.normalize, Int.compare_eq_gt.2 (Int.natCast_pos.2 hm)]
  rfl

theorem ofNat_exact {n : Nat} (hn : 0 < n) (hlog : n.log2 ≤ 52) (h : 0 < n * 2 ^ (52 - n.log2)) :
    UnpackedFloat.ofNat .binary64 n = .finite .positive (n * 2 ^ (52 - n.log2)) (n.log2 - 52) h := by
  have hround := round_exact hn.ne' hlog h (.inl rfl)
  rw [Nat.pow_zero, Nat.mul_one] at hround
  exact (normalize_pos hn 0).trans hround

theorem doubleOf_ofNat (n : Nat) : DoubleOf n (.ofNat .binary64 n) := by
  rcases Nat.eq_zero_or_pos n with rfl | hn
  · exact .zero rfl
  by_cases hlog : n.log2 ≤ 52
  · have hpos : 0 < n * 2 ^ (52 - n.log2) := Nat.mul_pos hn (Nat.two_pow_pos _)
    exact ofNat_exact hn hlog hpos ▸ .exact hpos hlog
  · have hshift : ((0 : Int) - Format.binary64.targetExponent (totalExponent n 0)).toNat = 0 := by
      simp only [Format.targetExponent, totalExponent, Format.mantissaBits, Format.minExponent]
      omega
    rw [UnpackedFloat.ofNat, ofInt, normalize_pos hn, UnpackedFloat.round, decreaseExponent, hshift]
    exact roundWithAccuracy_near (Nat.lt_of_not_le hlog)

theorem unpack_pack {m : Nat} {e : Int} (h : 0 < m) (hm : m.log2 = 52) (he : -1074 ≤ e) (he' : e ≤ 971) :
    unpack .binary64 (pack .binary64 (.finite .positive m e h)) = .finite .positive m e h := by
  obtain ⟨hlow, hhigh⟩ := (Nat.log2_eq_iff h.ne').1 hm
  have hfinite : ¬ 2 ^ Format.binary64.exponentBits ≤
      (e + Format.binary64.exponentBias + Format.binary64.mantissaBitsWithoutImplicit).toNat + 1 := by
    change ¬ 2048 ≤ (e + 1023 + 52).toNat + 1
    omega
  simp only [pack, if_neg hfinite, hm]
  rw [if_pos (show 52 + 1 = Format.binary64.mantissaBits from rfl)]
  have hexponent : (BitVec.ofNat 11 (e + Format.binary64.exponentBias + (52 : Nat)).toNat).toNat = (e + 1075).toNat := by
    change (e + 1023 + 52).toNat % 2048 = _
    omega
  have hmantissa : (1#1 ++ BitVec.ofNat 52 m).toNat = m := by
    simp only [BitVec.toNat_append, BitVec.toNat_ofNat, Nat.shiftLeft_eq]
    change 2 ^ 52 ||| m % 2 ^ 52 = m
    rw [Nat.or_comm, Nat.or_two_pow_eq_add_of_lt (Nat.mod_lt m (Nat.two_pow_pos 52))]
    omega
  have hones : BitVec.ofNat 11 (e + Format.binary64.exponentBias + (52 : Nat)).toNat ≠ -1#11 := fun heq => by
    have hval : (e + 1075).toNat = 2047 := hexponent.symm.trans (congrArg BitVec.toNat heq)
    omega
  have hzeros : BitVec.ofNat 11 (e + Format.binary64.exponentBias + (52 : Nat)).toNat ≠ 0#11 := fun heq => by
    have hval : (e + 1075).toNat = 0 := hexponent.symm.trans (congrArg BitVec.toNat heq)
    omega
  simp only [unpack, unpackMantissa_packComponents, unpackExponent_packComponents, unpackSign_packComponents,
    Sign.ofBitVec_toBitVec]
  rw [if_neg hones, if_neg hzeros]
  congr 1
  rw [hexponent]
  change ((e + 1075).toNat : Int) - (1023 + 52) = e
  omega

theorem DoubleOf.unpack_pack {n : Nat} {u : UnpackedFloat} (h : DoubleOf n u) (hn : n < 2 ^ 64) :
    unpack .binary64 (pack .binary64 u) = u := by
  cases h with
  | zero => rfl
  | exact hpos hlog =>
    have hne : n ≠ 0 := fun h0 => by simp [h0] at hpos
    exact Number.unpack_pack hpos (by rw [log2_mul_pow hne]; omega) (by omega) (by omega)
  | near hpos hlog hm he he' =>
    have hbits : n.log2 < 64 := (Nat.log2_lt (fun h0 => by simp [h0] at hlog)).2 hn
    exact Number.unpack_pack hpos hm (by omega) (by omega)

theorem unpacked_ofWord {n : Nat} (hn : n < 2 ^ 64) : unpacked (ofWord n) = .ofNat .binary64 n := by
  change unpack .binary64 (pack .binary64 (.ofNat .binary64 (UInt64.ofNat n).toNat)) = _
  rw [UInt64.toNat_ofNat_of_lt' hn]
  exact (doubleOf_ofNat n).unpack_pack hn

/-! ## Order and successor -/

theorem lt_of_log2_lt {m n : Nat} (h : m.log2 < n.log2) : m < n := by
  have hn : n ≠ 0 := fun h0 => by simp [h0] at h
  exact Nat.lt_of_lt_of_le Nat.lt_log2_self (Nat.le_trans (Nat.pow_le_pow_right (by decide) h) (Nat.log2_self_le hn))

theorem DoubleOf.le_iff {m n : Nat} {u v : UnpackedFloat} (hm : DoubleOf m u) (hn : DoubleOf n v) (hlog : n.log2 ≤ 52) :
    u.le v = true ↔ m ≤ n := by
  cases hm with
  | zero h0 =>
    subst h0
    cases hn <;> simp [UnpackedFloat.le, UnpackedFloat.compare]
  | exact hpos hm =>
    cases hn with
    | zero h0 =>
      have hne : ¬ m ≤ n := fun hle => by simp [Nat.le_zero.1 (h0 ▸ hle)] at hpos
      simp [UnpackedFloat.le, UnpackedFloat.compare, hne]
    | exact =>
      change ((compare ((m.log2 : Int) - 52) (n.log2 - 52)).then
        (compare (m * 2 ^ (52 - m.log2)) (n * 2 ^ (52 - n.log2)))).isLE = true ↔ _
      rcases Nat.lt_trichotomy m.log2 n.log2 with hlt | heq | hgt
      · rw [Int.compare_eq_lt.2 (by omega)]
        exact iff_of_true rfl (Nat.le_of_lt (lt_of_log2_lt hlt))
      · rw [heq, Int.compare_eq_eq.2 rfl]
        refine Nat.isLE_compare.trans ?_
        exact Nat.mul_le_mul_right_iff (Nat.two_pow_pos _)
      · rw [Int.compare_eq_gt.2 (by omega)]
        exact iff_of_false Bool.false_ne_true (Nat.not_le.2 (lt_of_log2_lt hgt))
    | near => omega
  | near hpos hm hbits he =>
    have hgt : ¬ m ≤ n := Nat.not_le.2 (lt_of_log2_lt (Nat.lt_of_le_of_lt hlog hm))
    cases hn with
    | zero => simp [UnpackedFloat.le, UnpackedFloat.compare, hgt]
    | exact =>
      refine iff_of_false ?_ hgt
      change ¬ ((compare _ _).then (compare _ _)).isLE = true
      rw [Int.compare_eq_gt.2 (by omega)]
      exact Bool.false_ne_true
    | near => omega

theorem log2_le_of_lt {i : Nat} (hi : i < 2 ^ 53) : i.log2 ≤ 52 := by
  rcases Nat.eq_zero_or_pos i with rfl | hpos
  · exact Nat.zero_le _
  · exact Nat.le_of_lt_succ ((Nat.log2_lt hpos.ne').2 hi)

theorem ofWord_le_iff {m i : Nat} (hm : m < 2 ^ 64) (hi : i < 2 ^ 53) : ofWord m ≤ ofWord i ↔ m ≤ i := by
  change (ofWord m).le (ofWord i) = true ↔ _
  rw [Float.le, decide_eq_true_iff]
  change (unpacked (ofWord m)).le (unpacked (ofWord i)) = true ↔ _
  rw [unpacked_ofWord hm, unpacked_ofWord (by omega)]
  exact (doubleOf_ofNat m).le_iff (doubleOf_ofNat i) (log2_le_of_lt hi)

theorem add_one {i : Nat} (hi : i < 2 ^ 52) :
    add .binary64 (.ofNat .binary64 i) (.finite .positive (2 ^ 52) (-52) (by decide)) = .ofNat .binary64 (i + 1) := by
  rcases Nat.eq_zero_or_pos i with rfl | hpos
  · rfl
  have hlog : i.log2 ≤ 52 := log2_le_of_lt (by omega)
  have hnext : 0 < (i + 1) * 2 ^ (52 - (i + 1).log2) := Nat.mul_pos (Nat.succ_pos i) (Nat.two_pow_pos _)
  have hround := round_exact (Nat.succ_ne_zero i) (log2_le_of_lt (by omega)) hnext (.inr rfl)
  rw [ofNat_exact hpos hlog (Nat.mul_pos hpos (Nat.two_pow_pos _)), ofNat_exact (Nat.succ_pos i) (log2_le_of_lt (by omega)) hnext,
    ← hround, ← normalize_pos (Nat.mul_pos (Nat.succ_pos i) (Nat.two_pow_pos _))]
  -- both terms are brought to the exponent of one, where the double of `i` has the mantissa `i * 2 ^ 52`
  have hmin : min ((i.log2 : Int) - 52) (-52) = -52 := by omega
  have hshift : ((i.log2 : Int) - 52 - -52).toNat = i.log2 := by omega
  have hmantissa : i * 2 ^ (52 - i.log2) * 2 ^ i.log2 = i * 2 ^ 52 := by
    rw [Nat.mul_assoc, ← Nat.pow_add, Nat.sub_add_cancel hlog]
  simp only [add, hmin, decreaseExponent, hshift, Nat.shiftLeft_eq, hmantissa]
  refine congrArg (normalize _ · _ _) ?_
  change ((i * 2 ^ 52 : Nat) : Int) + (2 ^ 52 * 2 ^ 0 : Nat) = ((i + 1) * 2 ^ 52 : Nat)
  omega

theorem ofWord_add_one {i : Nat} (hi : i < 2 ^ 52) : ofWord i + 1.0 = ofWord (i + 1) := by
  have hadd : add .binary64 (unpacked (ofWord i)) (unpacked 1.0) = .ofNat .binary64 (i + 1) := by
    rw [unpacked_ofWord (by omega)]
    exact add_one hi
  change (⟨Float.Model.pack (add .binary64 (unpacked (ofWord i)) (unpacked 1.0))⟩ : Float) =
    ⟨Float.Model.pack (.ofNat .binary64 (UInt64.ofNat (i + 1)).toNat)⟩
  rw [hadd, UInt64.toNat_ofNat_of_lt' (Nat.lt_trans (Nat.succ_lt_succ hi) (by decide))]

end ScriptEngine.Number
