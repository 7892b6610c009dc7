import UtilityCss.Proofs.Number.Finite
import UtilityCss.Proofs.Utility.Shorthand
import UtilityCss.Proofs.Utility.Sign

namespace UtilityCss

/-- A decimal that is read as one or two of the least double, of which a quarter is rounded to nothing. -/
def VanishingDecimal (token : String) : Prop :=
  token.toList ∈ decimals ∧ 1 / 2 ^ 1075 < decimalValue token.toList ∧
    decimalValue token.toList ≤ 5 / 2 ^ 1075

def VanishingFraction (token : String) : Prop :=
  ∃ n ∈ digitRuns, ∃ d ∈ denominators, token.toList = n ++ '/' :: d ∧
    (digitsValue n = 0 ∨ digitsValue n < Magnitude.overflow ∧ Magnitude.overflow ≤ digitsValue d)

namespace Magnitude

theorem pow2_cast (k : Nat) : (pow2 k : ℚ) = 2 ^ k := by
  rw [pow2, Nat.pow_eq, Nat.cast_pow]
  rfl

/-- The midpoints between the least doubles. -/
theorem le_midpoint_iff (digits places k : Nat) :
    (digits : ℚ) / 10 ^ places ≤ k / 2 ^ 1075 ↔ 2 * (digits * one) ≤ k * pow10 places := by
  have hscale : (0 : ℚ) < 10 ^ places := pow_pos (by norm_num) _
  have hunit : (0 : ℚ) < pow2 1074 * 2 := mul_pos (Nat.cast_pos.2 (pow2_pos 1074)) (by norm_num)
  have hpow : (2 : ℚ) ^ 1075 = pow2 1074 * 2 := by rw [pow2_cast, ← pow_succ]
  have hleft : (digits : ℚ) * (pow2 1074 * 2) = ((2 * (digits * one) : Nat) : ℚ) := by
    rw [one]
    push_cast
    ring
  have hright : (k : ℚ) * 10 ^ places = ((k * pow10 places : Nat) : ℚ) := by
    rw [pow10, Nat.pow_eq]
    push_cast
    rfl
  rw [hpow, div_le_div_iff₀ hscale hunit, hleft, hright, Nat.cast_le]

theorem eq_zero_iff_midpoint (digits places : Nat) :
    ofDecimal digits places = .finite 0 ↔ (digits : ℚ) / 10 ^ places ≤ 1 / 2 ^ 1075 := by
  have hmid := le_midpoint_iff digits places 1
  rw [Nat.cast_one, Nat.one_mul] at hmid
  rw [hmid, ofDecimal, ofQuotient_eq_zero_iff (pow10_pos places)]

theorem le_two_iff_midpoint (digits places : Nat) :
    (∃ units ≤ 2, ofDecimal digits places = .finite units) ↔
      (digits : ℚ) / 10 ^ places ≤ 5 / 2 ^ 1075 := by
  have hmid := le_midpoint_iff digits places 5
  rw [Nat.cast_ofNat] at hmid
  rw [hmid, ofDecimal, ofQuotient_le_iff _ 2 (pow10_pos places) (by decide)]
  omega

end Magnitude

theorem vanishes_ofSteps_iff (steps : Magnitude) :
    (Size.ofSteps steps).Vanishes ↔ steps ≠ .finite 0 ∧ ∃ units ≤ 2, steps = .finite units := by
  rw [Size.ofSteps]
  split
  · rename_i hzero
    simp [Size.Vanishes, Size.amount?, hzero]
  · rename_i hzero
    rw [and_iff_right hzero, Size.Vanishes, Size.amount?, Option.some.injEq]
    cases steps with
    | finite units =>
      rw [Magnitude.finite_mul_step_eq_zero_iff]
      simp
    | infinite =>
      rw [Magnitude.step_eq, Magnitude.infinite_mul_finite Magnitude.quarter_pos.ne']
      simp
    | undefined =>
      have hproduct : Magnitude.undefined * step = .undefined := rfl
      rw [hproduct]
      simp

theorem vanishes_iff {token : String} {size : Size} (h : Size.ofToken? token = some size) :
    size.Vanishes ↔ VanishingDecimal token ∨ VanishingFraction token := by
  rcases ofToken?_cases h with ⟨hword, hamount⟩ | hdecimal | ⟨n, hn, d, hd, htoken⟩
  · refine iff_of_false (by simp [Size.Vanishes, hamount]) ?_
    rintro (⟨hdecimal, -⟩ | ⟨n, -, d, -, htoken, -⟩)
    · exact notMem_decimals_of_word hword hdecimal
    · exact slash_notMem_of_word hword (slash_mem htoken)
  · obtain ⟨digits, places, hvalue, -, hsize⟩ := ofToken?_of_decimals hdecimal
    obtain rfl := Option.some.inj (hsize.symm.trans h)
    have hfraction : ¬ VanishingFraction token := by
      rintro ⟨n, -, d, -, htoken, -⟩
      exact slash_notMem_of_decimals hdecimal (slash_mem htoken)
    rw [or_iff_left hfraction, vanishes_ofSteps_iff, Ne, Magnitude.eq_zero_iff_midpoint,
      Magnitude.le_two_iff_midpoint, not_le, VanishingDecimal, and_iff_right hdecimal, hvalue]
  · obtain ⟨-, hsize⟩ := ofToken?_of_fraction hn hd htoken
    obtain rfl := Option.some.inj (hsize.symm.trans h)
    have hdecimal : ¬ VanishingDecimal token := by
      rintro ⟨hdecimal, -⟩
      exact slash_notMem_of_decimals hdecimal (slash_mem htoken)
    rw [or_iff_right hdecimal, Size.Vanishes, Size.amount?, Option.some.injEq, percentage,
      (Magnitude.percentage_cases _ (digitsValue_ne_zero hd)).2]
    constructor
    · rintro ⟨hsmall, hzero | hlarge⟩
      · exact ⟨n, hn, d, hd, htoken, .inl hzero⟩
      · exact ⟨n, hn, d, hd, htoken, .inr ⟨hsmall, hlarge⟩⟩
    · rintro ⟨n', hn', d', -, htoken', hcases⟩
      obtain ⟨rfl, rfl⟩ := eq_of_slash hn hn' (htoken.symm.trans htoken')
      rcases hcases with hzero | ⟨hsmall, hlarge⟩
      · exact ⟨hzero ▸ by decide +kernel, .inl hzero⟩
      · exact ⟨hsmall, .inr hlarge⟩

theorem vanishes_spacing_iff {token : String} {size : Size}
    (h : (Size.ofToken? token).filter Size.isSpacing = some size) :
    size.Vanishes ↔ VanishingDecimal token := by
  obtain ⟨hsize, hkind⟩ := Option.filter_eq_some_iff.1 h
  have hfraction : ¬ VanishingFraction token := by
    rintro ⟨n, hn, d, hd, htoken, -⟩
    obtain rfl := Option.some.inj ((ofToken?_of_fraction hn hd htoken).2.symm.trans hsize)
    cases hkind
  rw [vanishes_iff hsize, or_iff_left hfraction]

theorem not_holdsNegativeZero_of_notMem {s : List Char} (h : '-' ∉ s) : ¬ HoldsNegativeZero s := by
  rw [← List.append_nil s, holdsNegativeZero_append h]
  exact not_holdsNegativeZero_nil

/-- No minus sign stands before a digit. -/
theorem not_holdsNegativeZero {s : List Char}
    (h : s.tails.all fun t => t.head? != some '-' || !t.tail.head?.any Text.isDigit) :
    ¬ HoldsNegativeZero s := by
  rintro ⟨t, ht, rest, rfl, hdecimal, -⟩
  obtain ⟨c, behind, hcons, hdigit⟩ := exists_digit_of_decimals hdecimal
  have hhead : c ∈ rest.head? := by
    cases rest with
    | nil => cases hcons
    | cons d rest =>
      rw [List.takeWhile_cons] at hcons
      split at hcons
      · exact congrArg some (List.cons.inj hcons).1
      · cases hcons
  have hplain := List.all_eq_true.1 h _ ((List.mem_tails ..).2 ht)
  rw [List.tail_cons, Option.mem_def.1 hhead] at hplain
  simp [hdigit] at hplain

variable {token value : String} {before after : List Char}

/-- A size in a text that has no negative zero of its own. -/
theorem length_holdsNegativeZero_iff {axis : Axis} (h : length? token true axis = some value)
    (hbefore : '-' ∉ before) (hafter : ¬ HoldsNegativeZero after) :
    HoldsNegativeZero (before ++ (value.toList ++ after)) ↔
      VanishingDecimal token ∨ VanishingFraction token := by
  obtain ⟨size, hsize, rfl⟩ := Option.map_eq_some_iff.1 h
  rw [holdsNegativeZero_signed_iff size axis hbefore hafter, vanishes_iff hsize]

theorem spacing_holdsNegativeZero_iff (h : spacing? token true = some value)
    (hbefore : '-' ∉ before) (hafter : ¬ HoldsNegativeZero after) :
    HoldsNegativeZero (before ++ (value.toList ++ after)) ↔ VanishingDecimal token := by
  obtain ⟨size, hspacing, rfl⟩ := Option.map_eq_some_iff.1 h
  rw [holdsNegativeZero_signed_iff size .width hbefore hafter, vanishes_spacing_iff hspacing]

/-- A declaration among those of a styling has a negative zero. -/
def Styling.HoldsNegativeZero (s : Styling) : Prop :=
  ∃ d ∈ s.declarations, UtilityCss.HoldsNegativeZero d.value.toList

theorem holdsNegativeZero_setAll {properties : List String} (h : properties ≠ []) (value : String) :
    (Styling.setAll properties value).HoldsNegativeZero ↔ HoldsNegativeZero value.toList := by
  obtain ⟨property, hproperty⟩ := List.exists_mem_of_ne_nil properties h
  simp only [Styling.HoldsNegativeZero, Styling.setAll, Styling.of, List.map_map, List.mem_map,
    Function.comp_apply]
  constructor
  · rintro ⟨d, ⟨property, -, rfl⟩, hd⟩
    exact hd
  · exact fun hvalue => ⟨_, ⟨property, hproperty, rfl⟩, hvalue⟩

namespace Measure

variable {identifier : String}

theorem margin_holdsNegativeZero_iff {s : Styling} (h : margin ⟨identifier, some token, true⟩ = some s) :
    s.HoldsNegativeZero ↔ VanishingDecimal token := by
  have hedges : ∀ row ∈ edges, row.2 ≠ [] := by decide
  cases hproperties : edgeProperties? "m" "margin" identifier with
  | none =>
    simp [margin, hproperties] at h
  | some properties =>
  rw [margin_eq hproperties] at h
  obtain ⟨value, hvalue, rfl⟩ := Option.map_eq_some_iff.1 h
  obtain ⟨row, hrow, rfl⟩ := Option.map_eq_some_iff.1 hproperties
  have hne : row.2.map ("margin" ++ ·) ≠ [] := by
    simpa using hedges row (List.mem_of_find?_eq_some hrow)
  rw [holdsNegativeZero_setAll hne]
  rw [Option.bind_some] at hvalue
  split at hvalue
  · rename_i hauto
    obtain rfl := Option.some.inj hvalue
    refine iff_of_false (not_holdsNegativeZero_of_notMem (by decide)) ?_
    rintro ⟨hdecimal, -⟩
    exact notMem_decimals_of_word (hauto ▸ by decide) hdecimal
  · have hspacing := spacing_holdsNegativeZero_iff hvalue
      (List.not_mem_nil : '-' ∉ ([] : List Char)) not_holdsNegativeZero_nil
    rwa [List.nil_append, List.append_nil] at hspacing

theorem exists_of_translate {s : Styling} (h : translate ⟨identifier, some token, true⟩ = some s) :
    ∃ property axis value, length? (axisOf token).2 true axis = some value ∧
      s = .set property value := by
  have hset : ∀ property axis rest, (if rest = "auto" ∨ rest = "screen" then none
      else (length? rest true axis).bind fun value => some (Styling.set property value)) = some s →
      ∃ property axis value, length? rest true axis = some value ∧ s = .set property value := by
    intro property axis rest hs
    split at hs
    · cases hs
    · obtain ⟨value, hvalue, he⟩ := Option.bind_eq_some_iff.1 hs
      exact ⟨property, axis, value, hvalue, (Option.some.inj he).symm⟩
  simp only [translate, Option.bind_eq_bind, Option.bind_some, Option.pure_def] at h
  split at h
  · rename_i rest hcut
    simp only [axisOf, hcut]
    exact hset _ _ _ h
  · rename_i rest hcut
    simp only [axisOf, hcut]
    exact hset _ _ _ h
  · cases h

theorem translate_holdsNegativeZero_iff {s : Styling}
    (h : translate ⟨identifier, some token, true⟩ = some s) :
    s.HoldsNegativeZero ↔
      VanishingDecimal (axisOf token).2 ∨ VanishingFraction (axisOf token).2 := by
  obtain ⟨property, axis, value, hvalue, rfl⟩ := exists_of_translate h
  have hlength := length_holdsNegativeZero_iff hvalue
    (List.not_mem_nil : '-' ∉ ([] : List Char)) not_holdsNegativeZero_nil
  simpa [Styling.HoldsNegativeZero, Styling.set, Styling.of] using hlength

/-- The calculations around the quantity of a space. -/
def spaceAfter (axis : String) : List String :=
  [" * calc(1 - var(--space-" ++ axis ++ "-reverse)))", " * var(--space-" ++ axis ++ "-reverse))"]

theorem not_holdsNegativeZero_spaceAfter : ∀ axis ∈ ["x", "y"], ∀ after ∈ spaceAfter axis,
    ¬ HoldsNegativeZero after.toList := by
  have hplain : ∀ axis ∈ ["x", "y"], ∀ after ∈ spaceAfter axis, after.toList.tails.all fun t =>
      t.head? != some '-' || !t.tail.head?.any Text.isDigit := by decide
  exact fun axis haxis after hafter => not_holdsNegativeZero (hplain axis haxis after hafter)

theorem mem_values_spaceBetween (axis value text : String) :
    (∃ d ∈ (spaceBetween axis value).declarations, d.value = text) ↔
      text = "0" ∨ ∃ after ∈ spaceAfter axis, text = "calc(" ++ value ++ after := by
  have hlead : "calc(" ++ value ++ " * calc(1 - var(" ++ ("--space-" ++ axis ++ "-reverse") ++ ")))" =
      "calc(" ++ value ++ (" * calc(1 - var(--space-" ++ axis ++ "-reverse)))") := by
    simp [String.ext_iff]
  have htrail : "calc(" ++ value ++ " * var(" ++ ("--space-" ++ axis ++ "-reverse") ++ "))" =
      "calc(" ++ value ++ (" * var(--space-" ++ axis ++ "-reverse))") := by
    simp [String.ext_iff]
  unfold spaceBetween
  split <;> simp only [Keyword.betweenSiblings, Styling.of, hlead, htrail] <;>
    simp [spaceAfter, eq_comm, or_comm]

theorem space_holdsNegativeZero_iff {s : Styling} (h : space ⟨identifier, some token, true⟩ = some s) :
    s.HoldsNegativeZero ↔ VanishingDecimal (axisOf token).2 := by
  rw [space_eq] at h
  rcases haxis : axisOf token with ⟨axis?, rest⟩
  rw [haxis] at h
  cases axis? with
  | none => cases h
  | some axis =>
    have hmem := axisOf_mem haxis
    rw [Option.bind_some] at h
    split at h
    -- The word `reverse` sets a property to one, and is no number itself.
    · rename_i hreverse
      obtain rfl := Option.some.inj h
      refine iff_of_false ?_ ?_
      · rintro ⟨d, hd, hzero⟩
        obtain rfl := List.mem_singleton.1 hd
        exact not_holdsNegativeZero_of_notMem (by decide : '-' ∉ "1".toList) hzero
      · rintro ⟨hdecimal, -⟩
        obtain rfl : rest = "reverse" := hreverse
        have hletter := isChar_of_decimals hdecimal 'r' (by decide : 'r' ∈ "reverse".toList)
        exact absurd hletter (by decide)
    -- Both declarations hold the value behind `calc(`; the third is the plain zero of the other property.
    · obtain ⟨value, hvalue, rfl⟩ := Option.map_eq_some_iff.1 h
      have hholds : ∀ after ∈ spaceAfter axis,
          HoldsNegativeZero ("calc(" ++ value ++ after).toList ↔ VanishingDecimal rest := by
        intro after hafter
        rw [String.toList_append, String.toList_append, List.append_assoc]
        exact spacing_holdsNegativeZero_iff hvalue (by decide)
          (not_holdsNegativeZero_spaceAfter axis hmem after hafter)
      constructor
      · rintro ⟨d, hd, hzero⟩
        rcases (mem_values_spaceBetween axis value d.value).1 ⟨d, hd, rfl⟩ with hvalue | ⟨after, hafter, hvalue⟩
        · rw [hvalue] at hzero
          exact absurd hzero (not_holdsNegativeZero_of_notMem (by decide))
        · rw [hvalue] at hzero
          exact (hholds after hafter).1 hzero
      · intro hvanishes
        obtain ⟨after, hafter⟩ : ∃ after, after ∈ spaceAfter axis := ⟨_, List.mem_cons_self⟩
        obtain ⟨d, hd, hvalue⟩ := (mem_values_spaceBetween axis value _).2 (.inr ⟨after, hafter, rfl⟩)
        refine ⟨d, hd, ?_⟩
        rw [hvalue]
        exact (hholds after hafter).2 hvanishes

end Measure

/-- The size in the token of a margin, or behind the axis of a space or a translation. -/
def sizeToken (utility : Utility) (token : String) : String :=
  if utility = .margin then token else (Measure.axisOf token).2

/-- Where a minus sign stands before a zero: in the size of a token, and in what a candidate stands for. -/
structure SignsZeros (token : String) (c : Candidate) : Prop where
  length : ∀ axis value, length? token true axis = some value →
    (IsNegativeZero value.toList ↔ VanishingDecimal token ∨ VanishingFraction token)
  spacing : ∀ value, spacing? token true = some value →
    (IsNegativeZero value.toList ↔ VanishingDecimal token)
  utilities : ∀ (utility : Utility) (s : Styling), c.negative = true →
    Utility.ofIdentifier? c.identifier = some utility → utility ∈ [.margin, .space, .translate] →
    c.resolve? = some s →
    (s.HoldsNegativeZero ↔ ∃ token ∈ c.token, VanishingDecimal (sizeToken utility token) ∨
      utility = .translate ∧ VanishingFraction (sizeToken utility token))

/-- A zero carries a sign exactly if the size vanishes on the scale or as a percentage. -/
theorem signsZeros (token : String) (c : Candidate) : SignsZeros token c where
  length axis value h := by
    obtain ⟨size, hsize, rfl⟩ := Option.map_eq_some_iff.1 h
    have hzero := isNegativeZero_signed_iff size axis []
    rwa [List.append_nil, vanishes_iff hsize] at hzero
  spacing value h := by
    obtain ⟨size, hspacing, rfl⟩ := Option.map_eq_some_iff.1 h
    have hzero := isNegativeZero_signed_iff size .width []
    rwa [List.append_nil, vanishes_spacing_iff hspacing] at hzero
  utilities utility s hnegative hutility hfamily h := by
    obtain ⟨identifier, token?, negative⟩ := c
    obtain rfl : negative = true := hnegative
    -- None of the three families has keywords, so the candidate is measured.
    have hmeasure : utility.measure ⟨identifier, token?, true⟩ = some s := by
      have hquantity : utility ∈ Utility.space :: Utility.quantities ∧ utility ≠ .zIndex := by
        revert hfamily
        cases utility <;> decide
      rw [Candidate.resolve?, hutility, Option.bind_some] at h
      cases hkeyword : Keyword.styling? identifier token? with
      | none => rwa [hkeyword, Option.none_or] at h
      | some row => exact absurd (mapValues_keyword hutility hquantity.1 hkeyword).1 hquantity.2
    simp only [List.mem_cons, List.not_mem_nil, or_false] at hfamily
    cases token? with
    | none => rcases hfamily with rfl | rfl | rfl <;> cases hmeasure
    | some token =>
      simp only [Option.mem_some_iff, exists_eq_left']
      rcases hfamily with rfl | rfl | rfl
      · rw [Measure.margin_holdsNegativeZero_iff hmeasure]
        simp [sizeToken]
      · rw [Measure.space_holdsNegativeZero_iff hmeasure]
        simp [sizeToken]
      · rw [Measure.translate_holdsNegativeZero_iff hmeasure]
        simp [sizeToken]

theorem length?_no_fifths : length? "0/5" true .width = some "-0%" ∧ IsNegativeZero "-0%".toList := by
  refine ⟨by decide +kernel, "0%".toList, rfl, ?_, by decide +kernel⟩
  exact .inl (isInteger_iff.1 (by decide : isInteger "0"))

end UtilityCss
