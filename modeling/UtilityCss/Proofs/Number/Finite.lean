import Mathlib.Algebra.Order.Field.Basic
import UtilityCss.Proofs.Number.Scale

namespace UtilityCss

namespace Magnitude

/-- What a finite double denotes. -/
def toRat : Magnitude → ℚ
  | .finite units => units / one
  | .infinite | .undefined => 0

theorem finite_div_finite {b : Nat} (hb : b ≠ 0) (a : Nat) :
    finite a / finite b = ofQuotient (a * one) b := by
  change div (finite a) (finite b) = _
  rw [div, if_neg hb]

theorem infinite_mul_finite {b : Nat} (hb : b ≠ 0) : infinite * finite b = .infinite := by
  change mul infinite (finite b) = _
  rw [mul, if_neg hb]

theorem isFinite_ofQuotient_iff (num : Nat) {den : Nat} (hden : 0 < den) :
    (ofQuotient num den).isFinite ↔ num < overflow * one * den := by
  obtain ⟨hlt, hround⟩ | ⟨hover, hround⟩ := ofQuotient_cases num hden
  · rw [hround]
    exact iff_of_true rfl hlt
  · rw [hround]
    exact iff_of_false (by decide) (Nat.not_lt.2 hover)

theorem isFinite_iff {m : Magnitude} : m.isFinite ↔ ∃ units, m = .finite units := by
  cases m <;> simp [isFinite]

theorem isFinite_ofDecimal_iff {digits places : Nat} :
    (ofDecimal digits places).isFinite ↔ (digits : ℚ) / 10 ^ places < overflow := by
  have hscale : (0 : ℚ) < 10 ^ places := pow_pos (by norm_num) _
  have hcast : ((overflow * 10 ^ places : Nat) : ℚ) = overflow * 10 ^ places := by push_cast; rfl
  have hunits : overflow * one * pow10 places = overflow * 10 ^ places * one := Nat.mul_right_comm ..
  rw [div_lt_iff₀ hscale, ← hcast, Nat.cast_lt, ofDecimal, isFinite_ofQuotient_iff _ (pow10_pos places),
    hunits, Nat.mul_lt_mul_right one_pos]

theorem isFinite_mul_step_iff (digits places : Nat) :
    (ofDecimal digits places * step).isFinite ↔ (ofDecimal digits places).isFinite := by
  cases hsteps : ofDecimal digits places with
  | finite units =>
    have hlt : units < overflow * one := lt_overflow (pow10_pos places) hsteps
    have hquarter : quarter ≤ one := by decide +kernel
    rw [step_eq, finite_mul_finite, isFinite_ofQuotient_iff _ one_pos]
    refine iff_of_true ?_ rfl
    calc units * quarter < overflow * one * quarter := Nat.mul_lt_mul_of_pos_right hlt quarter_pos
      _ ≤ overflow * one * one := Nat.mul_le_mul_left (overflow * one) hquarter
  | infinite =>
    rw [step_eq, infinite_mul_finite quarter_pos.ne']
  | undefined => exact iff_of_false (by decide) (by decide)

/-- Steps that are rounded to one or two of the least double come to nothing as rem. -/
theorem finite_mul_step_eq_zero_iff (units : Nat) : finite units * step = .finite 0 ↔ units ≤ 2 := by
  rw [step_eq, finite_mul_finite, ofQuotient_eq_zero_iff one_pos, one_eq, ← Nat.mul_assoc,
    Nat.mul_le_mul_right_iff quarter_pos]
  omega

theorem le_log2_iff {n : Nat} (hn : n ≠ 0) (k : Nat) : k ≤ n.log2 ↔ pow2 k ≤ n := Nat.le_log2 hn

theorem one_le_of_ofDecimal {n units : Nat} (hn : n ≠ 0) (h : ofDecimal n 0 = .finite units) :
    one ≤ units := by
  have hwhole : n * one / 1 = n * one := Nat.div_one _
  have hpos : n * one ≠ 0 := Nat.mul_ne_zero hn one_pos.ne'
  have hle : one ≤ n * one := Nat.le_mul_of_pos_left _ (by omega)
  have hlog : 1074 ≤ (n * one).log2 := (le_log2_iff hpos 1074).2 hle
  have hnear := pow_log2_le_nearestMultiple (n * one) 1 (by rwa [hwhole])
  obtain ⟨-, hround⟩ | ⟨-, hround⟩ := ofQuotient_cases (n * one) Nat.one_pos
  · obtain rfl := finite.inj (hround.symm.trans h)
    rw [hwhole] at hnear ⊢
    exact (pow2_le hlog).trans hnear
  · cases hround.symm.trans h

theorem ofDecimal_cases (n : Nat) :
    (n < overflow ∧ ∃ units < overflow * one, ofDecimal n 0 = .finite units ∧ (units = 0 ↔ n = 0) ∧
        (n ≠ 0 → one ≤ units)) ∨
      overflow ≤ n ∧ ofDecimal n 0 = .infinite := by
  have hover : overflow * one * pow10 0 = overflow * one := by
    rw [show pow10 0 = 1 from rfl, Nat.mul_one]
  obtain ⟨hlt, hround⟩ | ⟨hle, hround⟩ := ofQuotient_cases (n * one) (pow10_pos 0)
  · rw [hover, Nat.mul_lt_mul_right one_pos] at hlt
    have hzero : ofDecimal n 0 = .finite 0 ↔ n = 0 := ofDecimal_eq_zero_iff
    rw [ofDecimal, hround, finite.injEq] at hzero
    exact .inl ⟨hlt, _, lt_overflow (pow10_pos 0) hround, hround, hzero,
      fun hn => one_le_of_ofDecimal hn hround⟩
  · rw [hover, Nat.mul_le_mul_right_iff one_pos] at hle
    exact .inr ⟨hle, hround⟩

/-- A quotient of whole numbers is finite if its numerator is. It vanishes with that, and where the
denominator is infinite. -/
theorem quotient_cases (n : Nat) {d : Nat} (hd : d ≠ 0) :
    (n < overflow ∧ ∃ units, ofDecimal n 0 / ofDecimal d 0 = .finite units ∧
        (units = 0 ↔ n = 0 ∨ overflow ≤ d)) ∨
      overflow ≤ n ∧ ¬ (ofDecimal n 0 / ofDecimal d 0).isFinite := by
  have hrange : overflow * one < 2 * (one * one) := by
    rw [← Nat.mul_assoc, Nat.mul_lt_mul_right one_pos]
    decide +kernel
  obtain ⟨hn, a, ha, hnum, hazero, haone⟩ | ⟨hn, hnum⟩ := ofDecimal_cases n <;>
    obtain ⟨hsmall, b, hb, hden, -, hbone⟩ | ⟨hlarge, hden⟩ := ofDecimal_cases d <;> rw [hnum, hden]
  · have hone := hbone hd
    have hbpos : 0 < b := one_pos.trans_le hone
    have hfinite : (ofQuotient (a * one) b).isFinite := by
      rw [isFinite_ofQuotient_iff _ hbpos]
      calc a * one < overflow * one * one := Nat.mul_lt_mul_of_pos_right ha one_pos
        _ ≤ overflow * one * b := Nat.mul_le_mul_left (overflow * one) hone
    obtain ⟨units, hunits⟩ := isFinite_iff.1 hfinite
    refine .inl ⟨hn, units, by rw [finite_div_finite hbpos.ne', hunits], ?_⟩
    rw [or_iff_left (Nat.not_le.2 hsmall), ← hazero, ← finite.injEq, ← hunits,
      ofQuotient_eq_zero_iff hbpos]
    -- One over the last of the doubles is still far above the least of them.
    constructor
    · intro hle
      refine Decidable.byContradiction fun hne => ?_
      have hpos := Nat.mul_le_mul_right one (haone (mt hazero.2 hne))
      omega
    · rintro rfl
      simp
  · exact .inl ⟨hn, 0, rfl, iff_of_true rfl (.inr hlarge)⟩
  · exact .inr ⟨hn, Bool.false_ne_true⟩
  · exact .inr ⟨hn, Bool.false_ne_true⟩

theorem hundred_eq : ofDecimal 100 0 = .finite (100 * one) := ofDecimal_of_lt (by decide)

theorem percentage_cases (n : Nat) {d : Nat} (hd : d ≠ 0) :
    ((ofDecimal n 0 / ofDecimal d 0 * ofDecimal 100 0).isFinite ↔
        n < overflow ∧ 100 * (ofDecimal n 0 / ofDecimal d 0).toRat < overflow) ∧
      (ofDecimal n 0 / ofDecimal d 0 * ofDecimal 100 0 = .finite 0 ↔
        n < overflow ∧ (n = 0 ∨ overflow ≤ d)) := by
  rw [hundred_eq]
  obtain ⟨hn, units, hquotient, hzero⟩ | ⟨hn, hquotient⟩ := quotient_cases n hd
  · have hone : (0 : ℚ) < one := Nat.cast_pos.2 one_pos
    have hrat : 100 * (finite units).toRat < overflow ↔ 100 * units < overflow * one := by
      rw [toRat, ← mul_div_assoc, div_lt_iff₀ hone]
      exact_mod_cast Iff.rfl
    have hunits : units * (100 * one) = 100 * units * one := by ring
    rw [hquotient, hrat, finite_mul_finite, isFinite_ofQuotient_iff _ one_pos, ofQuotient_eq_zero_iff one_pos,
      hunits, Nat.mul_lt_mul_right one_pos, and_iff_right hn, and_iff_right hn, ← hzero]
    -- A hundred units are not rounded, so only no units come to zero.
    refine ⟨Iff.rfl, fun hle => ?_, ?_⟩
    · refine Decidable.byContradiction fun hne => ?_
      have hpos : one ≤ 100 * units * one := Nat.le_mul_of_pos_left one (by omega)
      have := one_pos
      omega
    · rintro rfl
      simp
  · have hlt := Nat.not_lt.2 hn
    cases hvalue : ofDecimal n 0 / ofDecimal d 0 with
    | finite units => exact absurd (by rw [hvalue]; rfl) hquotient
    | infinite =>
      have hhundred : 100 * one ≠ 0 := (Nat.mul_pos (by decide) one_pos).ne'
      rw [infinite_mul_finite hhundred]
      exact ⟨iff_of_false (by decide) fun h => hlt h.1, iff_of_false (by decide) fun h => hlt h.1⟩
    | undefined =>
      have hproduct : undefined * finite (100 * one) = .undefined := rfl
      rw [hproduct]
      exact ⟨iff_of_false (by decide) fun h => hlt h.1, iff_of_false (by decide) fun h => hlt h.1⟩

end Magnitude

theorem slash_notMem_of_decimals {s : List Char} (h : s ∈ decimals) : '/' ∉ s :=
  fun hslash => absurd (isChar_of_decimals h '/' hslash) (by decide)

theorem slash_notMem_of_word {word : String} (h : word ∈ sizeWords) : '/' ∉ word.toList := by
  have hwords : ∀ word ∈ sizeWords, '/' ∉ word.toList := by decide
  exact hwords word h

theorem notMem_decimals_of_word {word : String} (h : word ∈ sizeWords) : word.toList ∉ decimals := by
  intro hdecimal
  obtain ⟨c, rest, hcons, hdigit⟩ := exists_digit_of_decimals hdecimal
  exact not_isDigit_of_isLetter (isLetter_of_mem_sizeWords h (hcons ▸ List.mem_cons_self)) hdigit

theorem slash_mem {s n d : List Char} (h : s = n ++ '/' :: d) : '/' ∈ s := by simp [h]

theorem ofToken?_of_decimals {token : String} (h : token.toList ∈ decimals) :
    ∃ digits places : Nat, decimalValue token.toList = digits / 10 ^ places ∧
      number? token = some (.ofDecimal digits places) ∧
      Size.ofToken? token = some (.ofSteps (.ofDecimal digits places)) := by
  obtain ⟨digits, places, hnumber, hvalue⟩ := number?_of_decimals h
  refine ⟨digits, places, hvalue, hnumber, ?_⟩
  by_cases hzero : token = "0"
  · -- The keyword is a decimal too, and both readings come to the same.
    subst hzero
    have hread : number? "0" = some (.ofDecimal 0 0) := rfl
    have hfinite : Magnitude.ofDecimal digits places = .finite 0 := by
      rw [← Option.some.inj (hread.symm.trans hnumber)]
      exact Magnitude.ofDecimal_eq_zero_iff.2 rfl
    rw [hfinite]
    rfl
  · have hword : token ∉ sizeWords := fun hword => notMem_decimals_of_word hword h
    have hnone : fraction? token = none := fraction?_eq_none (by rw [hnumber]; rfl)
    rw [ofToken?_of_notMem (List.not_mem_cons_of_ne_of_not_mem hzero hword), hnone, hnumber]
    rfl

/-- The percentage that two texts of digits denote. -/
def percentage (n d : List Char) : Magnitude :=
  .ofDecimal (digitsValue n) 0 / .ofDecimal (digitsValue d) 0 * .ofDecimal 100 0

theorem digitsValue_ne_zero {d : List Char} (h : d ∈ denominators) : digitsValue d ≠ 0 := by
  obtain ⟨hrun, c, hc, hne⟩ := h
  exact fun hzero => hne ((digitsValue_eq_zero_iff hrun).1 hzero c hc)

theorem cutAt_slash {token : String} {n d : List Char} (hn : n ∈ digitRuns)
    (htoken : token.toList = n ++ '/' :: d) :
    Text.cutAt '/' token = some (String.ofList n, String.ofList d) := by
  rw [Text.cutAt_eq_some_iff]
  simpa using ⟨notMem_of_digitRuns (by decide) hn, htoken⟩

theorem ofToken?_of_fraction {token : String} {n d : List Char} (hn : n ∈ digitRuns)
    (hd : d ∈ denominators) (htoken : token.toList = n ++ '/' :: d) :
    fraction? token = some (percentage n d) ∧
      Size.ofToken? token = some (.percent (percentage n d)) := by
  have hfraction : fraction? token = some (percentage n d) := by
    rw [fraction?, cutAt_slash hn htoken]
    simp [isInteger_iff, hn, hd.1, Magnitude.ofDecimal_eq_zero_iff, digitsValue_ne_zero hd, percentage]
  have hword : token ∉ "0" :: sizeWords := by
    have hslash : ∀ word ∈ "0" :: sizeWords, '/' ∉ word.toList := by decide
    intro hmem
    exact hslash token hmem (slash_mem htoken)
  refine ⟨hfraction, ?_⟩
  rw [ofToken?_of_notMem hword, hfraction]
  rfl

/-- A token that is taken is a word, a decimal or a fraction. -/
theorem ofToken?_cases {token : String} {size : Size} (h : Size.ofToken? token = some size) :
    (token ∈ sizeWords ∧ size.amount? = none) ∨ token.toList ∈ decimals ∨
      ∃ n ∈ digitRuns, ∃ d ∈ denominators, token.toList = n ++ '/' :: d := by
  have hsome : (Size.ofToken? token).isSome := by rw [h]; rfl
  rcases isSome_ofToken?_iff.1 hsome with hword | hnumber | hfraction
  · have hwords : ∀ word ∈ sizeWords, ∀ size, Size.ofToken? word = some size → size.amount? = none := by
      decide
    exact .inl ⟨hword, hwords token hword size h⟩
  · exact .inr (.inl (isSome_number?_iff.1 hnumber))
  · obtain ⟨n, hn, d, hd, he⟩ := mem_separated.1 (isSome_fraction?_iff.1 hfraction)
    exact .inr (.inr ⟨n, hn, d, hd, he.symm⟩)

theorem eq_of_slash {n d n' d' : List Char} (hn : n ∈ digitRuns) (hn' : n' ∈ digitRuns)
    (h : n ++ '/' :: d = n' ++ '/' :: d') : n = n' ∧ d = d' := by
  have hcuts := congrArg (Text.cut '/') h
  rw [Text.cut_append d (notMem_of_digitRuns (by decide) hn),
    Text.cut_append d' (notMem_of_digitRuns (by decide) hn')] at hcuts
  exact Prod.mk.inj (Option.some.inj hcuts)

/-- Neither a decimal nor a fraction comes to a size that is not finite. -/
structure HasFiniteSize (token : String) : Prop where
  decimal : token.toList ∈ decimals → decimalValue token.toList < Magnitude.overflow
  fraction : ∀ n ∈ digitRuns, ∀ d ∈ denominators, token.toList = n ++ '/' :: d →
    digitsValue n < Magnitude.overflow ∧
      100 * (Magnitude.ofDecimal (digitsValue n) 0 / .ofDecimal (digitsValue d) 0).toRat <
        Magnitude.overflow

theorem hasFiniteSize_of_word {token : String} (h : token ∈ sizeWords) : HasFiniteSize token where
  decimal hdecimal := absurd hdecimal (notMem_decimals_of_word h)
  fraction _ _ _ _ htoken := absurd (slash_mem htoken) (slash_notMem_of_word h)

theorem hasFiniteSize_decimal_iff {token : String} (h : token.toList ∈ decimals) :
    HasFiniteSize token ↔ decimalValue token.toList < Magnitude.overflow := by
  refine ⟨fun hfinite => hfinite.decimal h, fun hlt => ⟨fun _ => hlt, fun n _ d _ htoken => ?_⟩⟩
  exact absurd (slash_mem htoken) (slash_notMem_of_decimals h)

theorem hasFiniteSize_fraction_iff {token : String} {n d : List Char} (hn : n ∈ digitRuns)
    (hd : d ∈ denominators) (htoken : token.toList = n ++ '/' :: d) :
    HasFiniteSize token ↔ (percentage n d).isFinite := by
  rw [percentage, (Magnitude.percentage_cases _ (digitsValue_ne_zero hd)).1]
  refine ⟨fun hfinite => hfinite.fraction n hn d hd htoken, fun hlt => ⟨fun hdecimal => ?_, ?_⟩⟩
  · exact absurd (slash_mem htoken) (slash_notMem_of_decimals hdecimal)
  · intro n' hn' d' _ htoken'
    obtain ⟨rfl, rfl⟩ := eq_of_slash hn hn' (htoken.symm.trans htoken')
    exact hlt

theorem isFinite_ofSteps_iff (digits places : Nat) :
    (Size.ofSteps (.ofDecimal digits places)).IsFinite ↔ (digits : ℚ) / 10 ^ places < Magnitude.overflow := by
  rw [← Magnitude.isFinite_ofDecimal_iff, ← Magnitude.isFinite_mul_step_iff, Size.ofSteps]
  split
  · rename_i hzero
    have hfinite : (Magnitude.ofDecimal digits places).isFinite := by rw [hzero]; rfl
    exact iff_of_true (by simp [Size.IsFinite, Size.amount?])
      ((Magnitude.isFinite_mul_step_iff digits places).2 hfinite)
  · simp [Size.IsFinite, Size.amount?]

theorem isFinite_iff_hasFiniteSize {token : String} {size : Size}
    (h : Size.ofToken? token = some size) : size.IsFinite ↔ HasFiniteSize token := by
  rcases ofToken?_cases h with ⟨hword, hamount⟩ | hdecimal | ⟨n, hn, d, hd, htoken⟩
  · exact iff_of_true (by simp [Size.IsFinite, hamount]) (hasFiniteSize_of_word hword)
  · obtain ⟨digits, places, hvalue, -, hsize⟩ := ofToken?_of_decimals hdecimal
    obtain rfl := Option.some.inj (hsize.symm.trans h)
    rw [isFinite_ofSteps_iff, hasFiniteSize_decimal_iff hdecimal, hvalue]
  · obtain ⟨-, hsize⟩ := ofToken?_of_fraction hn hd htoken
    obtain rfl := Option.some.inj (hsize.symm.trans h)
    rw [hasFiniteSize_fraction_iff hn hd htoken]
    simp [Size.IsFinite, Size.amount?]

/-- What a size is computed through: the parts of a fraction, their quotient and the percentage, or a number
of steps and the rem. -/
def doubles (token : String) : List Magnitude :=
  match Text.cutAt '/' token with
  | some (numerator, denominator) =>
    let n : Magnitude := .ofDecimal (digitsValue numerator.toList) 0
    let d : Magnitude := .ofDecimal (digitsValue denominator.toList) 0
    [n, d, n / d, n / d * .ofDecimal 100 0]
  | none =>
    match number? token with
    | some steps => [steps, steps * step]
    | none => []

theorem doubles_of_word {word : String} (h : word ∈ sizeWords) : doubles word = [] := by
  have hnumber : number? word = none := by
    rw [← Option.not_isSome_iff_eq_none, isSome_number?_iff]
    exact notMem_decimals_of_word h
  rw [doubles, Text.cutAt_eq_none_iff.2 (slash_notMem_of_word h), hnumber]

theorem doubles_of_decimals {token : String} (h : token.toList ∈ decimals) :
    ∃ digits places : Nat, decimalValue token.toList = digits / 10 ^ places ∧
      doubles token = [.ofDecimal digits places, .ofDecimal digits places * step] ∧
      Size.ofToken? token = some (.ofSteps (.ofDecimal digits places)) := by
  obtain ⟨digits, places, hvalue, hnumber, hsize⟩ := ofToken?_of_decimals h
  have hcut : Text.cutAt '/' token = none := Text.cutAt_eq_none_iff.2 (slash_notMem_of_decimals h)
  exact ⟨digits, places, hvalue, by rw [doubles, hcut, hnumber], hsize⟩

theorem doubles_of_fraction {token : String} {n d : List Char} (hn : n ∈ digitRuns)
    (htoken : token.toList = n ++ '/' :: d) :
    doubles token = [.ofDecimal (digitsValue n) 0, .ofDecimal (digitsValue d) 0,
      .ofDecimal (digitsValue n) 0 / .ofDecimal (digitsValue d) 0, percentage n d] := by
  rw [doubles, cutAt_slash hn htoken]
  simp only [String.toList_ofList]
  rfl

/-- The denominator of a fraction is finite too; one that is not makes the fraction zero. -/
structure HasFiniteParts (token : String) : Prop extends HasFiniteSize token where
  denominator : ∀ n ∈ digitRuns, ∀ d ∈ denominators, token.toList = n ++ '/' :: d →
    digitsValue d < Magnitude.overflow

theorem isFinite_ofDigits_iff (s : List Char) :
    (Magnitude.ofDecimal (digitsValue s) 0).isFinite ↔ digitsValue s < Magnitude.overflow := by
  rw [Magnitude.isFinite_ofDecimal_iff, pow_zero, div_one, Nat.cast_lt]

theorem isFinite_doubles_iff {token : String} {size : Size} (h : Size.ofToken? token = some size) :
    (∀ m ∈ doubles token, m.isFinite) ↔ HasFiniteParts token := by
  have hplain : '/' ∉ token.toList → (HasFiniteParts token ↔ HasFiniteSize token) := fun hslash =>
    ⟨fun hparts => hparts.toHasFiniteSize,
      fun hsize => ⟨hsize, fun _ _ _ _ htoken => absurd (slash_mem htoken) hslash⟩⟩
  -- Words, decimals and fractions are computed through different doubles.
  rcases ofToken?_cases h with ⟨hword, -⟩ | hdecimal | ⟨n, hn, d, hd, htoken⟩
  · rw [hplain (slash_notMem_of_word hword), doubles_of_word hword]
    exact iff_of_true (by simp) (hasFiniteSize_of_word hword)
  · obtain ⟨digits, places, hvalue, hdoubles, -⟩ := doubles_of_decimals hdecimal
    rw [hplain (slash_notMem_of_decimals hdecimal), hasFiniteSize_decimal_iff hdecimal, hdoubles, hvalue,
      ← Magnitude.isFinite_ofDecimal_iff]
    simp [Magnitude.isFinite_mul_step_iff]
  · rw [doubles_of_fraction hn htoken]
    simp only [List.forall_mem_cons, List.not_mem_nil, false_imp_iff, implies_true, and_true,
      isFinite_ofDigits_iff]
    constructor
    · rintro ⟨-, hdenominator, -, hpercentage⟩
      refine ⟨(hasFiniteSize_fraction_iff hn hd htoken).2 hpercentage, ?_⟩
      intro n' hn' d' _ htoken'
      obtain ⟨-, rfl⟩ := eq_of_slash hn hn' (htoken.symm.trans htoken')
      exact hdenominator
    · intro hparts
      have hnumerator := (hparts.fraction n hn d hd htoken).1
      have hquotient : (Magnitude.ofDecimal (digitsValue n) 0 / .ofDecimal (digitsValue d) 0).isFinite := by
        obtain ⟨-, units, hunits, -⟩ | ⟨hover, -⟩ :=
          Magnitude.quotient_cases (digitsValue n) (digitsValue_ne_zero hd)
        · rw [hunits]
          rfl
        · exact absurd hnumerator (Nat.not_lt.2 hover)
      exact ⟨hnumerator, hparts.denominator n hn d hd htoken, hquotient,
        (hasFiniteSize_fraction_iff hn hd htoken).1 hparts.toHasFiniteSize⟩

theorem eq_of_amount?_ofSteps {steps amount : Magnitude}
    (h : (Size.ofSteps steps).amount? = some amount) : steps * step = amount := by
  rw [Size.ofSteps] at h
  split at h
  · cases h
  · exact Option.some.inj h

/-- The number that is written is the last of them. -/
theorem getLast?_doubles {token : String} {size : Size} {amount : Magnitude}
    (h : Size.ofToken? token = some size) (hamount : size.amount? = some amount) :
    (doubles token).getLast? = some amount := by
  rcases ofToken?_cases h with ⟨-, hnone⟩ | hdecimal | ⟨n, hn, d, hd, htoken⟩
  · cases hnone.symm.trans hamount
  · obtain ⟨digits, places, -, hdoubles, hsize⟩ := doubles_of_decimals hdecimal
    obtain rfl := Option.some.inj (hsize.symm.trans h)
    rw [hdoubles, List.getLast?_cons_cons, List.getLast?_singleton, eq_of_amount?_ofSteps hamount]
  · obtain ⟨-, hsize⟩ := ofToken?_of_fraction hn hd htoken
    obtain rfl := Option.some.inj (hsize.symm.trans h)
    obtain rfl : percentage n d = amount := Option.some.inj hamount
    rw [doubles_of_fraction hn htoken, List.getLast?_cons_cons, List.getLast?_cons_cons,
      List.getLast?_cons_cons, List.getLast?_singleton]

theorem foldl_digits_lt {s : List Char} (h : ∀ c ∈ s, '0' ≤ c ∧ c ≤ '9') (n : Nat) :
    s.foldl (fun n c => 10 * n + (c.toNat - '0'.toNat)) n < (n + 1) * 10 ^ s.length := by
  induction s generalizing n with
  | nil => simp
  | cons c s ih =>
    obtain ⟨hc, hs⟩ := List.forall_mem_cons.1 h
    have hdigit : c.toNat - '0'.toNat < 10 := by
      have hhigh : c.toNat ≤ '9'.toNat := hc.2
      have hnine : '9'.toNat = 57 := rfl
      have hzero : '0'.toNat = 48 := rfl
      omega
    rw [List.foldl_cons, List.length_cons]
    calc _ < (10 * n + (c.toNat - '0'.toNat) + 1) * 10 ^ s.length := ih hs _
      _ ≤ (10 * (n + 1)) * 10 ^ s.length := Nat.mul_le_mul_right _ (by omega)
      _ = (n + 1) * 10 ^ (s.length + 1) := by rw [Nat.pow_succ]; ring

theorem digitsValue_lt {s : List Char} {k : Nat} (h : ∀ c ∈ s, '0' ≤ c ∧ c ≤ '9')
    (hlength : s.length ≤ k) : digitsValue s < Magnitude.pow10 k := by
  have hlt := foldl_digits_lt h 0
  rw [Nat.zero_add, Nat.one_mul] at hlt
  exact hlt.trans_le (Nat.pow_le_pow_right (by decide) hlength)

namespace Magnitude

/-- Rounding at most doubles what it rounds. -/
theorem nearestMultiple_le_two_mul (num den : Nat) :
    nearestMultiple num den (gap (num / den)) ≤ 2 * (num / den) + 1 := by
  have hup := nearestMultiple_le num den (gap (num / den))
  have hlow := Nat.div_mul_le_self (num / den) (gap (num / den))
  rw [← Nat.div_div_eq_div_mul, Nat.succ_mul] at hup
  rcases Nat.eq_zero_or_pos (num / den) with hzero | hpos
  · have hgap : gap (num / den) = 1 := by
      rw [hzero]
      rfl
    omega
  · have hgap := gap_le hpos
    omega

theorem le_of_ofQuotient {num den units : Nat} (hden : 0 < den)
    (h : ofQuotient num den = .finite units) : units ≤ 2 * (num / den) + 1 := by
  obtain ⟨-, hround⟩ | ⟨-, hround⟩ := ofQuotient_cases num hden
  · obtain rfl := finite.inj (hround.symm.trans h)
    exact nearestMultiple_le_two_mul num den
  · cases hround.symm.trans h

theorem quotient_le {n d units : Nat} (hd : d ≠ 0)
    (h : ofDecimal n 0 / ofDecimal d 0 = .finite units) : units ≤ 4 * (n * one) + 3 := by
  obtain ⟨-, a, -, hnum, -⟩ | ⟨-, hnum⟩ := ofDecimal_cases n
  · have ha : a ≤ 2 * (n * one) + 1 := by
      have hle := le_of_ofQuotient (pow10_pos 0) hnum
      rwa [show pow10 0 = 1 from rfl, Nat.div_one] at hle
    obtain ⟨-, b, -, hden, -, hone⟩ | ⟨-, hden⟩ := ofDecimal_cases d
    · have hbpos : 0 < b := one_pos.trans_le (hone hd)
      have hdiv : a * one / b ≤ a := by
        refine Nat.div_le_of_le_mul ?_
        rw [Nat.mul_comm b a]
        exact Nat.mul_le_mul_left a (hone hd)
      rw [hnum, hden, finite_div_finite hbpos.ne'] at h
      have hle := le_of_ofQuotient hbpos h
      omega
    · have hzero : finite a / infinite = .finite 0 := rfl
      rw [hnum, hden, hzero] at h
      obtain rfl := finite.inj h
      exact Nat.zero_le (4 * (n * one) + 3)
  · have hnot : (infinite / ofDecimal d 0).isFinite = false := by
      cases ofDecimal d 0 <;> rfl
    rw [hnum] at h
    rw [h] at hnot
    cases hnot

end Magnitude

/-- A fraction of an ordinary numerator has a finite percentage. -/
theorem percentage_lt {n d : Nat} (hd : d ≠ 0) (h : 400 * n + 400 ≤ Magnitude.overflow) :
    100 * (Magnitude.ofDecimal n 0 / .ofDecimal d 0).toRat < Magnitude.overflow := by
  obtain ⟨-, units, hunits, -⟩ | ⟨hover, -⟩ := Magnitude.quotient_cases n hd
  · have hle := Magnitude.quotient_le hd hunits
    have hone : (0 : ℚ) < Magnitude.one := Nat.cast_pos.2 Magnitude.one_pos
    have hsmall : 100 * units < Magnitude.overflow * Magnitude.one := by
      have hpos := Magnitude.one_pos
      have hmul := Nat.mul_le_mul_right Magnitude.one h
      rw [Nat.add_mul, Nat.mul_assoc] at hmul
      omega
    rw [hunits, Magnitude.toRat, ← mul_div_assoc, div_lt_iff₀ hone]
    exact_mod_cast hsmall
  · omega

/-- No number of up to 305 digits is out of range, nor is its percentage. -/
theorem hasFiniteSize_of_length {token : String} (h : token.toList.length ≤ 305) :
    HasFiniteSize token := by
  have hrange : 400 * Magnitude.pow10 305 ≤ Magnitude.overflow := by decide +kernel
  have hdigits : ∀ s : List Char, s.length ≤ 305 → s ∈ digitRuns → 400 * digitsValue s + 400 ≤
      Magnitude.overflow := by
    intro s hlength hs
    have hlt : digitsValue s < Magnitude.pow10 305 := digitsValue_lt hs.2 hlength
    omega
  constructor
  · rintro (hrun | hpoint)
    · have := hdigits _ h hrun
      rw [decimalValue_digits hrun, Nat.cast_lt]
      omega
    · obtain ⟨a, ha, b, hb, htext⟩ := mem_separated.1 hpoint
      rw [← htext] at h ⊢
      have hlength : (a ++ b).length ≤ 305 := by
        simp only [List.length_append, List.length_cons] at h ⊢
        omega
      have hlt := hdigits _ hlength (digitRuns_append ha hb)
      have hscale : (1 : ℚ) ≤ 10 ^ b.length := one_le_pow₀ (by norm_num)
      rw [decimalValue_point ha]
      calc (digitsValue (a ++ b) : ℚ) / 10 ^ b.length ≤ digitsValue (a ++ b) :=
            div_le_self (Nat.cast_nonneg _) hscale
        _ < Magnitude.overflow := Nat.cast_lt.2 (by omega)
  · intro n hn d hd htoken
    have hlength : n.length ≤ 305 := by
      rw [htoken, List.length_append] at h
      omega
    have hlt := hdigits n hlength hn
    exact ⟨by omega, percentage_lt (digitsValue_ne_zero hd) hlt⟩

/-- How far a size keeps to finite numbers. -/
structure SizedByDoubles (token : String) : Prop where
  /-- the last of the doubles is the one that is written -/
  written : ∀ size amount, Size.ofToken? token = some size → size.amount? = some amount →
    (doubles token).getLast? = some amount
  css : ∀ negative axis value, length? token negative axis = some value →
    (IsCssSize value ↔ HasFiniteSize token)
  computed : ∀ negative axis, (length? token negative axis).isSome →
    ((∀ m ∈ doubles token, m.isFinite) ↔ HasFiniteParts token)
  short : token.toList.length ≤ 305 → HasFiniteSize token

/-- A size is one of style sheets exactly if its numbers stay within the doubles. -/
theorem sizedByDoubles (token : String) : SizedByDoubles token where
  written _ _ := getLast?_doubles
  css negative axis value h := by
    obtain ⟨size, hsize, rfl⟩ := Option.map_eq_some_iff.1 h
    rw [isCssSize_signed_iff, isFinite_iff_hasFiniteSize hsize]
  computed negative axis h := by
    rw [length?, Option.isSome_map] at h
    obtain ⟨size, hsize⟩ := Option.isSome_iff_exists.1 h
    exact isFinite_doubles_iff hsize
  short := hasFiniteSize_of_length

/-- What is written for a decimal past the doubles. -/
theorem length?_of_overflow {token : String} (h : token.toList ∈ decimals)
    (hover : (Magnitude.overflow : ℚ) ≤ decimalValue token.toList) (negative : Bool) (axis : Axis) :
    length? token negative axis = some ((if negative then "-" else "") ++ "inf" ++ "rem") := by
  obtain ⟨digits, places, hvalue, -, hsize⟩ := ofToken?_of_decimals h
  have hinfinite : Magnitude.ofDecimal digits places = .infinite := by
    obtain ⟨hlt, hround⟩ | ⟨-, hround⟩ :=
      Magnitude.ofQuotient_cases (digits * Magnitude.one) (Magnitude.pow10_pos places)
    · have hfinite : (Magnitude.ofDecimal digits places).isFinite := by
        rw [Magnitude.ofDecimal, hround]
        rfl
      rw [Magnitude.isFinite_ofDecimal_iff, ← hvalue] at hfinite
      exact absurd hfinite (not_lt.2 hover)
    · exact hround
  have hproduct : Magnitude.infinite * step = .infinite := by
    rw [Magnitude.step_eq, Magnitude.infinite_mul_finite Magnitude.quarter_pos.ne']
  have hsteps : Size.ofSteps .infinite = .rem .infinite := by
    rw [Size.ofSteps, if_neg (by decide), hproduct]
  rw [length?, hsize, hinfinite, hsteps, Option.map_some]
  exact congrArg some (signed_of_some rfl negative)

theorem length?_nines :
    length? (String.ofList (List.replicate 310 '9')) false .width = some "infrem" ∧
      ¬ IsCssSize "infrem" := by
  constructor
  · have hnines : (String.ofList (List.replicate 310 '9')).toList ∈ digitRuns := by
      rw [String.toList_ofList]
      refine ⟨by decide, fun c hc => ?_⟩
      rw [List.eq_of_mem_replicate hc]
      decide
    have hover : Magnitude.overflow ≤ digitsValue (List.replicate 310 '9') := by decide +kernel
    refine length?_of_overflow (.inl hnines) ?_ false .width
    rw [decimalValue_digits hnines, String.toList_ofList]
    exact Nat.cast_le.2 hover
  · intro h
    obtain ⟨c, hc, hlead⟩ := h.leads
    obtain rfl : 'i' = c := Option.some.inj hc
    exact absurd hlead (by decide)

end UtilityCss
