import Mathlib.Tactic.Linarith
import Mathlib.Tactic.Ring
import UtilityCss.Proofs.Number.Rounding

namespace UtilityCss.Magnitude

/-- A quotient comes down to a multiple if it lies below the midpoint to the next, or on it and the
factor is even. -/
theorem nearestMultiple_le_iff (num : Nat) {den step : Nat} (h : 0 < den * step) (m : Nat) :
    nearestMultiple num den step ≤ m * step ↔
      2 * num < (2 * m + 1) * (den * step) ∨
        2 * num = (2 * m + 1) * (den * step) ∧ m % 2 = 0 := by
  have hstep : 0 < step := Nat.pos_of_mul_pos_left h
  have hnum := Nat.div_add_mod num (den * step)
  have hrest := Nat.mod_lt num h
  unfold nearestMultiple
  generalize den * step = width at *
  generalize num / width = factor at *
  generalize num % width = rest at *
  subst hnum
  dsimp only
  -- Below and above `m` rounding cannot reach it from either side; at `m` the midpoint decides, and on it
  -- parity.
  rcases Nat.lt_trichotomy factor m with hlt | rfl | hgt
  · have hfar : (factor + 1) * width ≤ m * width := Nat.mul_le_mul_right _ hlt
    refine iff_of_true ?_ (.inl (by linarith))
    split
    · exact Nat.mul_le_mul_right _ (Nat.le_of_lt hlt)
    · exact Nat.mul_le_mul_right _ hlt
  · have hover : factor * step < (factor + 1) * step := Nat.mul_lt_mul_of_pos_right (by omega) hstep
    have hnear : 2 * (width * factor + rest) = 2 * factor * width + 2 * rest := by ring
    have hmid : (2 * factor + 1) * width = 2 * factor * width + width := by ring
    rw [hnear, hmid, Nat.add_lt_add_iff_left, Nat.add_left_cancel_iff]
    split
    · rename_i hdown
      exact iff_of_true (Nat.le_refl _) hdown
    · rename_i hup
      exact iff_of_false (Nat.not_le.2 hover) hup
  · have hfar : (m + 1) * width ≤ factor * width := Nat.mul_le_mul_right _ hgt
    have hover : m * step < factor * step := Nat.mul_lt_mul_of_pos_right hgt hstep
    refine iff_of_false ?_ (by rintro (hmid | ⟨hmid, -⟩) <;> linarith)
    split
    · exact Nat.not_le.2 hover
    · exact Nat.not_le.2 (Nat.lt_of_lt_of_le hover (Nat.mul_le_mul_right _ (Nat.le_succ _)))

theorem pow2_le {a b : Nat} (h : a ≤ b) : pow2 a ≤ pow2 b := Nat.pow_le_pow_right Nat.two_pos h

theorem gap_eq_one {units : Nat} (h : units < 2 ^ 53) : gap units = 1 := by
  have hlog : units.log2 - 52 = 0 := by
    by_cases hzero : units = 0
    · rw [hzero]
      rfl
    · have := (Nat.log2_lt hzero).2 h
      omega
  rw [gap, hlog]
  rfl

theorem pow_log2_le_multiple {units : Nat} (h : units ≠ 0) :
    2 ^ units.log2 ≤ units / gap units * gap units := by
  have hdvd : gap units ∣ 2 ^ units.log2 := Nat.pow_dvd_pow 2 (Nat.sub_le _ _)
  calc 2 ^ units.log2 = 2 ^ units.log2 / gap units * gap units := (Nat.div_mul_cancel hdvd).symm
    _ ≤ units / gap units * gap units :=
      Nat.mul_le_mul_right _ (Nat.div_le_div_right (Nat.log2_self_le h))

/-- Rounding keeps the power of two that the quotient has reached. -/
theorem pow_log2_le_nearestMultiple (num den : Nat) (h : num / den ≠ 0) :
    2 ^ (num / den).log2 ≤ nearestMultiple num den (gap (num / den)) := by
  refine Nat.le_trans (pow_log2_le_multiple h) ?_
  rw [Nat.div_div_eq_div_mul]
  exact le_nearestMultiple num den _

theorem nearestMultiple_le (num den step : Nat) :
    nearestMultiple num den step ≤ (num / (den * step) + 1) * step := by
  unfold nearestMultiple
  dsimp only
  split
  · exact Nat.mul_le_mul_right step (Nat.le_succ _)
  · exact Nat.le_refl _

theorem dvd_nearestMultiple (num den step : Nat) : step ∣ nearestMultiple num den step := by
  unfold nearestMultiple
  dsimp only
  split
  · exact Nat.dvd_mul_left _ _
  · exact Nat.dvd_mul_left _ _

/-- Below a power of two, what is rounded up reaches the next power at most. -/
theorem nearestMultiple_lt_pow {num den e : Nat} (h : num / den < 2 ^ (e + 52)) :
    nearestMultiple num den (gap (num / den)) < 2 ^ (e + 53) := by
  have hgap : gap (num / den) ≤ 2 ^ e := by
    have hlog : (num / den).log2 < e + 52 ∨ num / den = 0 := by
      by_cases hzero : num / den = 0
      · exact .inr hzero
      · exact .inl ((Nat.log2_lt hzero).2 h)
    refine Nat.pow_le_pow_right Nat.two_pos ?_
    rcases hlog with hlog | hzero
    · omega
    · rw [hzero]
      exact Nat.zero_le e
  have hmul := Nat.div_mul_le_self (num / den) (gap (num / den))
  rw [Nat.div_div_eq_div_mul] at hmul
  have hup := nearestMultiple_le num den (gap (num / den))
  rw [Nat.succ_mul] at hup
  have hlast : 2 ^ (e + 52) = 2 ^ 52 * 2 ^ e := by rw [Nat.pow_add, Nat.mul_comm]
  have hnext : 2 ^ (e + 53) = 2 ^ 53 * 2 ^ e := by rw [Nat.pow_add, Nat.mul_comm]
  omega

/-- Between two powers the doubles are the multiples of one gap, and the last of them has an odd factor. -/
theorem nearestMultiple_lt_next_iff {num den e : Nat} (hden : 0 < den)
    (hlow : 2 ^ (e + 52) ≤ num / den) (hhigh : num / den < 2 ^ (e + 53)) :
    nearestMultiple num den (gap (num / den)) < 2 ^ (e + 53) ↔
      2 * num < (2 ^ 54 - 1) * (2 ^ e * den) := by
  have hgap : gap (num / den) = 2 ^ e := by
    have hquotient : num / den ≠ 0 := (Nat.lt_of_lt_of_le (Nat.two_pow_pos _) hlow).ne'
    have hlog : (num / den).log2 = e + 52 := (Nat.log2_eq_iff hquotient).2 ⟨hlow, hhigh⟩
    rw [gap, hlog]
    rfl
  have hpos : 0 < 2 ^ e := Nat.two_pow_pos e
  have hnext : 2 ^ (e + 53) = 2 ^ 53 * 2 ^ e := by rw [Nat.pow_add, Nat.mul_comm]
  rw [hgap, hnext]
  generalize 2 ^ e = step at *
  have hmultiple : nearestMultiple num den step < 2 ^ 53 * step ↔
      nearestMultiple num den step ≤ (2 ^ 53 - 1) * step := by
    obtain ⟨factor, hfactor⟩ := dvd_nearestMultiple num den step
    rw [hfactor, Nat.mul_comm step, Nat.mul_lt_mul_right hpos, Nat.mul_le_mul_right_iff hpos]
    omega
  have hodd : ¬ (2 ^ 53 - 1) % 2 = 0 := by decide
  rw [hmultiple, nearestMultiple_le_iff num (Nat.mul_pos hden hpos), or_iff_left (fun h => hodd h.2),
    Nat.mul_comm den]
  exact Iff.rfl

/-- A quotient is rounded up to a power of two from the midpoint between that and the double below
it; the power has the even factor. -/
theorem nearestMultiple_lt_pow_iff {num den : Nat} (hden : 0 < den) (e : Nat) :
    nearestMultiple num den (gap (num / den)) < 2 ^ (e + 53) ↔
      2 * num < (2 ^ 54 - 1) * (2 ^ e * den) := by
  have hwidth : 0 < 2 ^ e * den := Nat.mul_pos (Nat.two_pow_pos e) hden
  have hscale : ∀ k, 2 ^ (e + k) * den = 2 ^ k * (2 ^ e * den) := fun k => by
    rw [Nat.pow_add, Nat.mul_comm (2 ^ e), Nat.mul_assoc]
  rcases Nat.lt_or_ge (num / den) (2 ^ (e + 52)) with hsmall | hlarge
  · have hnum := (Nat.div_lt_iff_lt_mul hden).1 hsmall
    rw [hscale] at hnum
    exact iff_of_true (nearestMultiple_lt_pow hsmall) (by omega)
  rcases Nat.lt_or_ge (num / den) (2 ^ (e + 53)) with hin | hout
  · exact nearestMultiple_lt_next_iff hden hlarge hin
  · have hquotient : num / den ≠ 0 := (Nat.lt_of_lt_of_le (Nat.two_pow_pos _) hout).ne'
    have hlog : 2 ^ (e + 53) ≤ 2 ^ (num / den).log2 :=
      Nat.pow_le_pow_right Nat.two_pos ((Nat.le_log2 hquotient).2 hout)
    have hnear := hlog.trans (pow_log2_le_nearestMultiple num den hquotient)
    have hnum := (Nat.le_div_iff_mul_le hden).1 hout
    rw [hscale] at hnum
    exact iff_of_false (Nat.not_lt.2 hnear) (by omega)

/-- Among the doubles that are a unit apart, the midpoints are those of the integers. -/
theorem nearestMultiple_le_small_iff {num den m : Nat} (hden : 0 < den) (hm : m < 2 ^ 53) :
    nearestMultiple num den (gap (num / den)) ≤ m ↔
      2 * num < (2 * m + 1) * den ∨ 2 * num = (2 * m + 1) * den ∧ m % 2 = 0 := by
  rcases Nat.lt_or_ge (num / den) (2 ^ 53) with hsmall | hlarge
  · have hwidth : den * 1 = den := Nat.mul_one den
    have hle := nearestMultiple_le_iff num (hwidth.symm ▸ hden) m
    rw [gap_eq_one hsmall]
    rwa [hwidth, Nat.mul_one] at hle
  · have hlog : 2 ^ 53 ≤ 2 ^ (num / den).log2 :=
      Nat.pow_le_pow_right Nat.two_pos ((Nat.le_log2 (by omega)).2 hlarge)
    have hnear := pow_log2_le_nearestMultiple num den (by omega)
    have hmid : (2 * m + 1) * den < 2 ^ 54 * den := Nat.mul_lt_mul_of_pos_right (by omega) hden
    have hnum : 2 ^ 53 * den ≤ num :=
      Nat.le_trans (Nat.mul_le_mul_right den hlarge) (Nat.div_mul_le_self num den)
    exact iff_of_false (by omega) (by omega)

theorem log2_mul_pow2_lt {m b : Nat} (hzero : m ≠ 0) (hm : m < 2 ^ b) (k : Nat) :
    (m * pow2 k).log2 < b + k := by
  rw [Nat.log2_lt (Nat.mul_pos (Nat.pos_of_ne_zero hzero) (pow2_pos k)).ne', Nat.pow_add]
  exact Nat.mul_lt_mul_of_pos_right hm (pow2_pos k)

theorem gap_dvd {m : Nat} (hm : m < 2 ^ 53) (k : Nat) : gap (m * pow2 k) ∣ m * pow2 k := by
  by_cases hzero : m = 0
  · simp [hzero]
  · have hlog := log2_mul_pow2_lt hzero hm k
    have hgap : gap (m * pow2 k) ∣ pow2 k := Nat.pow_dvd_pow 2 (by omega)
    exact Nat.dvd_trans hgap (Nat.dvd_mul_left _ _)

/-- A double is not rounded. -/
theorem ofQuotient_of_dvd {units den : Nat} (hden : 0 < den) (hgap : gap units ∣ units)
    (hlimit : units < limit) : ofQuotient (units * den) den = .finite units := by
  have hquotient : units * den / den = units := Nat.mul_div_cancel units hden
  have hnear : nearestMultiple (units * den) den (gap units) = units := by
    obtain ⟨factor, hfactor⟩ := hgap
    have hwidth : 0 < den * gap units := Nat.mul_pos hden (gap_pos units)
    have hnum : units * den = factor * (den * gap units) := by
      calc units * den = gap units * factor * den := by rw [← hfactor]
        _ = factor * (den * gap units) := by ring
    unfold nearestMultiple
    dsimp only
    rw [hnum, Nat.mul_div_cancel _ hwidth, Nat.mul_mod_left]
    rw [if_pos (.inl (by omega)), Nat.mul_comm, ← hfactor]
  simp only [ofQuotient, hquotient, hnear]
  exact if_pos hlimit

/-- What rounding gives is a double. -/
theorem gap_dvd_nearestMultiple (num den : Nat) :
    gap (nearestMultiple num den (gap (num / den))) ∣ nearestMultiple num den (gap (num / den)) := by
  obtain ⟨factor, hfactor⟩ := dvd_nearestMultiple num den (gap (num / den))
  have hbound : factor ≤ 2 ^ 53 := by
    have hup := nearestMultiple_le num den (gap (num / den))
    rw [hfactor, Nat.mul_comm, Nat.mul_le_mul_right_iff (gap_pos _), ← Nat.div_div_eq_div_mul] at hup
    have hlog : num / den < 2 ^ 53 * gap (num / den) := by
      rw [gap, pow2, Nat.pow_eq, ← Nat.pow_add]
      exact Nat.lt_of_lt_of_le Nat.lt_log2_self (Nat.pow_le_pow_right Nat.two_pos (by omega))
    have := (Nat.div_lt_iff_lt_mul (gap_pos _)).2 hlog
    omega
  obtain ⟨e, he⟩ : ∃ e, gap (num / den) = pow2 e := ⟨_, rfl⟩
  rw [hfactor, he, Nat.mul_comm]
  rcases Nat.lt_or_eq_of_le hbound with hlt | rfl
  · exact gap_dvd hlt e
  · -- The quotient was rounded up to the next power of two.
    have hnext : pow2 (e + 1) = 2 * pow2 e := Nat.pow_succ'
    have hpow : 2 ^ 53 * pow2 e = 2 ^ 52 * pow2 (e + 1) := by
      rw [hnext]
      ring
    rw [hpow]
    exact gap_dvd (by decide) _

theorem finite_mul_finite (a b : Nat) : finite a * finite b = ofQuotient (a * b) one := by
  change mul (finite a) (finite b) = _
  rw [mul]

/-- The least number that rounds past the finite doubles: the midpoint between the last of them and
`2 ^ 1024`. -/
def overflow : Nat := 2 ^ 1024 - 2 ^ 970

theorem nearestMultiple_lt_limit_iff {num den : Nat} (hden : 0 < den) :
    nearestMultiple num den (gap (num / den)) < limit ↔ num < overflow * one * den := by
  have hlimit : limit = 2 ^ (2045 + 53) := by decide +kernel
  have hover : (2 ^ 54 - 1) * 2 ^ 2045 = 2 * (overflow * one) := by decide +kernel
  rw [hlimit, nearestMultiple_lt_pow_iff hden, ← Nat.mul_assoc, hover, Nat.mul_assoc,
    Nat.mul_lt_mul_left Nat.two_pos]

/-- A quotient becomes finite below the overflow and infinite from there on. -/
theorem ofQuotient_cases (num : Nat) {den : Nat} (hden : 0 < den) :
    (num < overflow * one * den ∧
        ofQuotient num den = .finite (nearestMultiple num den (gap (num / den)))) ∨
      (overflow * one * den ≤ num ∧ ofQuotient num den = .infinite) := by
  unfold ofQuotient
  dsimp only
  split
  · rename_i hfinite
    exact .inl ⟨(nearestMultiple_lt_limit_iff hden).1 hfinite, rfl⟩
  · rename_i hinfinite
    exact .inr ⟨Nat.not_lt.1 (mt (nearestMultiple_lt_limit_iff hden).2 hinfinite), rfl⟩

theorem ofQuotient_le_iff (num m : Nat) {den : Nat} (hden : 0 < den) (hm : m < 2 ^ 53) :
    (∃ units ≤ m, ofQuotient num den = .finite units) ↔
      2 * num < (2 * m + 1) * den ∨ 2 * num = (2 * m + 1) * den ∧ m % 2 = 0 := by
  rw [← nearestMultiple_le_small_iff hden hm]
  obtain ⟨-, hround⟩ | ⟨hover, hround⟩ := ofQuotient_cases num hden
  · rw [hround]
    constructor
    · rintro ⟨units, hle, hunits⟩
      exact finite.inj hunits ▸ hle
    · exact fun hle => ⟨_, hle, rfl⟩
  · have hlimit : 2 ^ 53 ≤ limit := by decide +kernel
    have hlarge := mt (nearestMultiple_lt_limit_iff hden).1 (Nat.not_lt.2 hover)
    rw [hround]
    exact iff_of_false (by simp) (by omega)

theorem ofQuotient_eq_zero_iff {num den : Nat} (hden : 0 < den) :
    ofQuotient num den = .finite 0 ↔ 2 * num ≤ den := by
  have hle := ofQuotient_le_iff num 0 hden (by decide)
  simp only [Nat.le_zero, exists_eq_left, Nat.mul_zero, Nat.zero_add, Nat.one_mul,
    and_true] at hle
  rw [hle]
  omega

/-- A finite result lies below the overflow itself. -/
theorem lt_overflow {num den units : Nat} (hden : 0 < den)
    (h : ofQuotient num den = .finite units) : units < overflow * one := by
  have hdouble : gap units ∣ units ∧ units < limit := by
    obtain ⟨hlt, hround⟩ | ⟨-, hround⟩ := ofQuotient_cases num hden
    · obtain rfl := finite.inj (hround.symm.trans h)
      exact ⟨gap_dvd_nearestMultiple num den, (nearestMultiple_lt_limit_iff hden).2 hlt⟩
    · cases hround.symm.trans h
  have hexact := ofQuotient_of_dvd Nat.one_pos hdouble.1 hdouble.2
  obtain ⟨hlt, -⟩ | ⟨-, hround⟩ := ofQuotient_cases (units * 1) Nat.one_pos
  · simpa using hlt
  · cases hround.symm.trans hexact

end UtilityCss.Magnitude
