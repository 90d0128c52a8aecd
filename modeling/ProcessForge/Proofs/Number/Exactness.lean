import Mathlib.Tactic.Ring
import ProcessForge.Number.Binary64

/-! Whole numbers below `2 ^ 53` have exact counterparts among the numbers of 64 bits. Rounding a quotient that is such
    a number loses nothing, so sums, multiples and decimals that stay below the bound are exact too. -/

namespace ProcessForge.Binary64

variable {x y : Binary64} {k l den count places : Nat} {negative : Bool} {exponent : Int}

/-- The number is finite and its magnitude is the whole number. -/
def Represents (x : Binary64) (k : Nat) : Prop := ∃ num den, x.magnitude? = some (num, den) ∧ 0 < den ∧ num = k * den

theorem divideToEven_mul (hd : 0 < den) : divideToEven (k * den) den = k := by
  simp [divideToEven, Nat.mul_div_cancel _ hd, hd]

theorem scaledBy_mul (h : exponent ≤ 0) : scaledBy (k * den) den exponent = (k * 2 ^ (-exponent).toNat * den, den) := by
  rcases h.lt_or_eq with hn | rfl
  · simp [scaledBy, hn, twoTo, Nat.mul_right_comm]
  · simp [scaledBy, twoTo]

theorem represents_finite {mantissa : Nat} (h : exponent ≤ 0) (hm : mantissa = k * 2 ^ (-exponent).toNat) :
    Represents (finite negative mantissa exponent) k := by
  rcases h.lt_or_eq with hn | rfl
  · exact ⟨mantissa, 2 ^ (-exponent).toNat, by simp [magnitude?, hn, twoTo], Nat.two_pow_pos _, hm⟩
  · exact ⟨mantissa, 1, by simp [magnitude?, twoTo], Nat.one_pos, by simpa using hm⟩

theorem log2_mul_le (hk : k ≠ 0) (hd : den ≠ 0) : (k * den).log2 ≤ k.log2 + den.log2 + 1 := by
  rw [← Nat.lt_succ_iff, Nat.log2_lt (Nat.mul_ne_zero hk hd)]
  calc k * den < 2 ^ (k.log2 + 1) * 2 ^ (den.log2 + 1) := Nat.mul_lt_mul'' Nat.lt_log2_self Nat.lt_log2_self
    _ = 2 ^ (k.log2 + den.log2 + 1 + 1) := by ring

theorem exponentOf_mul_le (hk : k ≠ 0) (hd : 0 < den) (hb : k < 2 ^ 53) : exponentOf (k * den) den ≤ 0 := by
  have hl := log2_mul_le hk hd.ne'
  have hbi : k.log2 < 53 := (Nat.log2_lt hk).mpr hb
  have hg : max (((k * den).log2 : Int) - (den.log2 : Int) - 53) minExponent ≤ 0 := by
    unfold minExponent
    omega
  unfold exponentOf
  simp only [scaledBy_mul hg, Nat.mul_div_cancel _ hd]
  rcases hg.lt_or_eq with hn | hz
  · split
    · exact hg
    · exact hn
  · have hf : k * 2 ^ (-(0 : Int)).toNat < twoTo 53 := by simpa [twoTo] using hb
    rw [hz, if_pos hf]

theorem represents_ofRatio (hd : 0 < den) (hb : k < 2 ^ 53) : Represents (ofRatio negative (k * den) den) k := by
  by_cases hk : k = 0
  · subst hk
    simpa [ofRatio] using represents_finite (by decide) (Nat.zero_mul _).symm
  · have he := exponentOf_mul_le hk hd hb
    have hn : ((k * den) == 0) = false := by simp [hk, hd.ne']
    simp only [ofRatio, hn, Bool.false_eq_true, if_false, scaledBy_mul he, divideToEven_mul hd]
    generalize exponentOf (k * den) den = exponent at he
    split
    · next hc =>
      -- the mantissa `2 ^ 53` is written as `2 ^ 52` with the next exponent, which is not beyond the point either
      rw [beq_iff_eq, twoTo] at hc
      obtain ⟨n, rfl⟩ : ∃ n : Nat, exponent = -((n + 1 : Nat) : Int) := by
        refine ⟨(-exponent).toNat - 1, ?_⟩
        rcases he.lt_or_eq with hne | rfl
        · omega
        · exact absurd hc (by simpa using hb.ne)
      have hh : 2 ^ 52 = k * 2 ^ n := by
        rw [Int.neg_neg, Int.toNat_natCast, pow_succ, ← Nat.mul_assoc] at hc
        exact (Nat.mul_right_cancel Nat.two_pos (hc.trans (by decide : Nat.pow 2 53 = 2 ^ 52 * 2))).symm
      rw [if_neg (by unfold maxExponent; omega)]
      refine represents_finite (by omega) ?_
      rw [show (-(-((n + 1 : Nat) : Int) + 1)).toNat = n by omega]
      exact hh
    · rw [if_neg (by unfold maxExponent; omega)]
      exact represents_finite he rfl

theorem represents_ofNat (hb : k < 2 ^ 53) : Represents (ofNat k) k := by
  simpa [ofNat] using represents_ofRatio Nat.one_pos hb

theorem Represents.addMagnitude (hx : Represents x k) (hy : Represents y l) (hbo : k + l < 2 ^ 53) :
    Represents (x.addMagnitude y) (k + l) := by
  obtain ⟨_, b, hb, hbp, rfl⟩ := hx
  obtain ⟨_, d, hd, hdp, rfl⟩ := hy
  have hs : k * b * d + l * d * b = (k + l) * (b * d) := by ring
  simp only [Binary64.addMagnitude, hb, hd, hs]
  exact represents_ofRatio (Nat.mul_pos hbp hdp) hbo

theorem Represents.scaleMagnitude {factor : Nat} (hx : Represents x k) (hbo : k * factor < 2 ^ 53) :
    Represents (x.scaleMagnitude factor) (k * factor) := by
  obtain ⟨_, b, hb, hbp, rfl⟩ := hx
  simp only [Binary64.scaleMagnitude, hb, Nat.mul_right_comm k b factor]
  exact represents_ofRatio hbp hbo

theorem Represents.roundMagnitude? (hx : Represents x k) : x.roundMagnitude? = some k := by
  obtain ⟨_, b, hb, hbp, rfl⟩ := hx
  simp [Binary64.roundMagnitude?, hb, divideToEven_mul hbp]

/-- A decimal with zeros only behind its point. -/
theorem represents_ofDecimal (hd : k * 10 ^ places < 10 ^ count) (hb : k < 2 ^ 53) :
    Represents (ofDecimal negative (k * 10 ^ places) count (-(places : Int))) k := by
  by_cases hk : k = 0
  · subst hk
    simpa [ofDecimal] using represents_finite (by decide) (Nat.zero_mul _).symm
  · have hc : places < count := by
      refine (Nat.pow_lt_pow_iff_right (by decide : 1 < 10)).mp (lt_of_le_of_lt ?_ hd)
      exact Nat.le_mul_of_pos_left _ (Nat.pos_of_ne_zero hk)
    have hn : (k * 10 ^ places == 0) = false := by simp [hk]
    simp only [ofDecimal, hn, Bool.false_eq_true, if_false]
    rw [if_neg (by omega), if_neg (by omega)]
    split
    · simpa [tenTo] using represents_ofRatio (Nat.pow_pos (by decide : 0 < 10)) hb
    · obtain rfl : places = 0 := by omega
      simpa [tenTo] using represents_ofRatio Nat.one_pos hb

end ProcessForge.Binary64
