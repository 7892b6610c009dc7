import UtilityCss.Number.Magnitude
import UtilityCss.Text.Cut

namespace UtilityCss.Magnitude

theorem pow2_pos (n : Nat) : 0 < pow2 n := Nat.two_pow_pos n

theorem pow10_pos (n : Nat) : 0 < pow10 n := Nat.pow_pos (by omega)

theorem one_pos : 0 < one := pow2_pos _

theorem gap_pos (units : Nat) : 0 < gap units := pow2_pos _

theorem gap_le {units : Nat} (h : 0 < units) : gap units ≤ units :=
  Nat.le_trans (Nat.pow_le_pow_right Nat.two_pos (Nat.sub_le _ 52)) (Nat.log2_self_le (Nat.ne_of_gt h))

/-- Rounding does not go below the multiple that the quotient has reached. -/
theorem le_nearestMultiple (num den step : Nat) :
    num / (den * step) * step ≤ nearestMultiple num den step := by
  unfold nearestMultiple
  dsimp only
  split
  · exact Nat.le_refl _
  · exact Nat.mul_le_mul_right step (Nat.le_succ _)

theorem nearestMultiple_zero {den step : Nat} (h : 0 < den * step) :
    nearestMultiple 0 den step = 0 := by
  simp [nearestMultiple, h]

theorem ofQuotient_zero {den : Nat} (h : 0 < den) : ofQuotient 0 den = .finite 0 := by
  simp only [ofQuotient, nearestMultiple_zero (Nat.mul_pos h (gap_pos _))]
  exact if_pos (pow2_pos _)

/-- What is at least the least double does not become zero. -/
theorem ofQuotient_ne_zero {num den : Nat} (hden : 0 < den) (h : den ≤ num) :
    ofQuotient num den ≠ .finite 0 := by
  have hunits : 0 < num / den := Nat.div_pos h hden
  have hfactor : 0 < num / (den * gap (num / den)) := by
    rw [← Nat.div_div_eq_div_mul]
    exact Nat.div_pos (gap_le hunits) (gap_pos _)
  have hround : 0 < nearestMultiple num den (gap (num / den)) :=
    Nat.lt_of_lt_of_le (Nat.mul_pos hfactor (gap_pos _)) (le_nearestMultiple num den _)
  unfold ofQuotient
  dsimp only
  split
  · intro hzero
    exact Nat.ne_of_gt hround (finite.inj hzero)
  · simp

theorem ofDecimal_eq_zero_iff {n : Nat} : ofDecimal n 0 = .finite 0 ↔ n = 0 := by
  constructor
  · intro h
    refine Decidable.byContradiction fun hn => ?_
    have hone : pow10 0 ≤ n * one := Nat.mul_pos (Nat.pos_of_ne_zero hn) one_pos
    exact ofQuotient_ne_zero (pow10_pos 0) hone h
  · rintro rfl
    rw [ofDecimal, Nat.zero_mul]
    exact ofQuotient_zero (pow10_pos 0)

theorem isDigit_of_mem_toDigits {n : Nat} {c : Char} (h : c ∈ Nat.toDigits 10 n) :
    Text.isDigit c := by
  have hd := Nat.isDigit_of_mem_toDigits (by omega) (Nat.le_refl 10) h
  simpa [Text.isDigit, Char.isDigit, Char.le_def] using hd

theorem isDigit_of_mem_digits {digits zeros : Nat} {c : Char}
    (h : c ∈ Nat.toDigits 10 digits ++ List.replicate zeros '0') : Text.isDigit c := by
  rcases List.mem_append.1 h with hc | hc
  · exact isDigit_of_mem_toDigits hc
  · rw [List.eq_of_mem_replicate hc]
    rfl

theorem positional_ne_nil (digits : Nat) (exponent : Int) : positional digits exponent ≠ [] := by
  unfold positional
  dsimp only
  split
  · simp [Nat.toDigits_ne_nil]
  · simp

theorem isDigit_of_mem_positional {digits : Nat} {exponent : Int} {c : Char}
    (h : c ∈ positional digits exponent) : Text.isDigit c ∨ c = '.' := by
  unfold positional at h
  dsimp only at h
  split at h
  · exact .inl (isDigit_of_mem_digits h)
  · -- The padding is of zeros, so what stands on each side of the point is digits.
    have hpad : ∀ a ∈ List.leftpad ((-exponent).toNat + 1) '0'
        (Nat.toDigits 10 digits ++ List.replicate exponent.toNat '0'), Text.isDigit a := by
      intro a ha
      rcases List.mem_append.1 ha with ha | ha
      · rw [List.eq_of_mem_replicate ha]
        rfl
      · exact isDigit_of_mem_digits ha
    rcases List.mem_append.1 h with hc | hc
    · exact .inl (hpad c (List.mem_of_mem_take hc))
    · rcases List.mem_cons.1 hc with hc | hc
      · exact .inr hc
      · exact .inl (hpad c (List.mem_of_mem_drop hc))

end UtilityCss.Magnitude
