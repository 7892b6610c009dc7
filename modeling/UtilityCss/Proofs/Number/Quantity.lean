import UtilityCss.Proofs.Number.Decimal
import UtilityCss.Proofs.Text.Pieces

namespace UtilityCss

def sizeUnits : List String := ["rem", "%", "px", "vw", "vh"]

/-- The sizes of style sheets. -/
inductive IsCssSize : String → Prop
  | zero : IsCssSize "0"
  | auto : IsCssSize "auto"
  | dimension (negative : Bool) {number unit : String} :
      number.toList ∈ decimals → unit ∈ sizeUnits →
      IsCssSize ((if negative then "-" else "") ++ number ++ unit)

def Magnitude.isFinite : Magnitude → Bool
  | .finite _ => true
  | .infinite | .undefined => false

namespace Size

/-- The number that a size was computed as. -/
def amount? : Size → Option Magnitude
  | .percent amount | .rem amount => some amount
  | .zero | .auto | .pixel | .full | .screen => none

def IsFinite (size : Size) : Prop := ∀ amount ∈ size.amount?, amount.isFinite

/-- A size that was computed as zero, and keeps its unit. -/
def Vanishes (size : Size) : Prop := size.amount? = some (.finite 0)

/-- The number and the unit that a size is written as. -/
def dimension? (axis : Axis) : Size → Option (String × String)
  | .zero | .auto => none
  | .pixel => some ("1", "px")
  | .full => some ("100", "%")
  | .screen => some ("100", match axis with | .width => "vw" | .height => "vh")
  | .percent amount => some (amount.text, "%")
  | .rem amount => some (amount.text, "rem")

end Size

def isNumeral (c : Char) : Bool := Text.isDigit c || c == '.'

theorem isNumeral_of_decimals {s : List Char} (h : s ∈ decimals) : ∀ c ∈ s, isNumeral c := by
  intro c hc
  simpa [isNumeral, Text.isDigit] using isChar_of_decimals h c hc

theorem exists_digit_of_decimals {s : List Char} (h : s ∈ decimals) :
    ∃ c rest, s = c :: rest ∧ Text.isDigit c := by
  have hrun : ∀ a ∈ digitRuns, ∀ rest, ∃ c rest', a ++ rest = c :: rest' ∧ Text.isDigit c := by
    intro a ha rest
    cases a with
    | nil => exact absurd rfl ha.1
    | cons c a => exact ⟨c, a ++ rest, rfl, isDigit_iff.2 (ha.2 c List.mem_cons_self)⟩
  rcases h with h | h
  · simpa using hrun s h []
  · obtain ⟨a, ha, b, -, rfl⟩ := mem_separated.1 h
    exact hrun a ha _

/-- A number as it is written: a decimal that is zero if the size vanishes, or a word for what is not finite. -/
structure IsNumberOf (size : Size) (number : String) : Prop where
  finite : size.IsFinite → number.toList ∈ decimals ∧ (decimalValue number.toList = 0 ↔ size.Vanishes)
  infinite : ¬ size.IsFinite → ¬ size.Vanishes ∧ number ∈ ["inf", "NaN"]

theorem isNumberOf_fixed {size : Size} {number : String} (hamount : size.amount? = none)
    (hdecimal : number.toList ∈ decimals) (hvalue : decimalValue number.toList ≠ 0) :
    IsNumberOf size number := by
  have hfinite : size.IsFinite := by simp [Size.IsFinite, hamount]
  have hvanishes : ¬ size.Vanishes := by simp [Size.Vanishes, hamount]
  exact ⟨fun _ => ⟨hdecimal, iff_of_false hvalue hvanishes⟩, fun h => absurd hfinite h⟩

theorem isNumberOf_text {size : Size} {amount : Magnitude} (hamount : size.amount? = some amount) :
    IsNumberOf size amount.text := by
  have hfinite : size.IsFinite ↔ amount.isFinite := by simp [Size.IsFinite, hamount]
  have hvanishes : size.Vanishes ↔ amount = .finite 0 := by simp [Size.Vanishes, hamount]
  constructor <;> rw [hfinite, hvanishes]
  · intro h
    cases amount with
    | finite units => simpa using Magnitude.text_finite units
    | infinite => cases h
    | undefined => cases h
  · intro h
    cases amount with
    | finite units => exact absurd rfl h
    | infinite => exact ⟨by decide, by decide⟩
    | undefined => exact ⟨by decide, by decide⟩

theorem isNumberOf_of_dimension? {size : Size} {axis : Axis} {number unit : String}
    (h : size.dimension? axis = some (number, unit)) : IsNumberOf size number ∧ unit ∈ sizeUnits := by
  have hone : "1".toList ∈ decimals := .inl (isInteger_iff.1 (by decide))
  have hhundred : "100".toList ∈ decimals := .inl (isInteger_iff.1 (by decide))
  cases size with
  | zero => cases h
  | auto => cases h
  | pixel =>
    cases h
    exact ⟨isNumberOf_fixed rfl hone (by decide), by decide⟩
  | full =>
    cases h
    exact ⟨isNumberOf_fixed rfl hhundred (by decide), by decide⟩
  | screen =>
    cases h
    refine ⟨isNumberOf_fixed rfl hhundred (by decide), ?_⟩
    cases axis <;> decide
  | percent amount =>
    cases h
    exact ⟨isNumberOf_text rfl, by decide⟩
  | rem amount =>
    cases h
    exact ⟨isNumberOf_text rfl, by decide⟩

/-- A word for what is not finite. -/
theorem exists_cons_of_word {word : String} (h : word ∈ ["inf", "NaN"]) :
    '-' ∉ word.toList ∧ ∃ c rest, word.toList = c :: rest ∧ isNumeral c = false ∧ c ≠ '-' ∧ c ≠ 'a' := by
  rcases List.mem_cons.1 h with rfl | h
  · exact ⟨by decide, _, _, rfl, by decide, by decide, by decide⟩
  · obtain rfl := List.mem_singleton.1 h
    exact ⟨by decide, _, _, rfl, by decide, by decide, by decide⟩

theorem ne_of_getLast? {text unit word : String} (h : unit.toList ≠ [])
    (hlast : unit.toList.getLast? ≠ word.toList.getLast?) : text ++ unit ≠ word := by
  rintro rfl
  rw [String.toList_append, List.getLast?_append_of_ne_nil _ h] at hlast
  exact hlast rfl

/-- A size without a number has no sign. -/
theorem signed_of_none {size : Size} {axis : Axis} (h : size.dimension? axis = none) (negative : Bool) :
    (size.amount? = none ∧ signed negative (size.text axis) ∈ ["0", "auto"]) := by
  cases size with
  | zero => simp [signed, Size.text, Size.amount?]
  | auto => simp [signed, Size.text, Size.amount?]
  | pixel | full | screen | percent | rem => cases h

theorem signed_of_some {size : Size} {axis : Axis} {number unit : String}
    (h : size.dimension? axis = some (number, unit)) (negative : Bool) :
    signed negative (size.text axis) = (if negative then "-" else "") ++ number ++ unit := by
  -- No unit ends like the two values that are spared the sign.
  have hunits : ∀ unit ∈ sizeUnits, unit.toList ≠ [] ∧
      unit.toList.getLast? ≠ "0".toList.getLast? ∧ unit.toList.getLast? ≠ "auto".toList.getLast? := by
    decide
  obtain ⟨hne, hzero, hauto⟩ := hunits unit (isNumberOf_of_dimension? h).2
  have htext : size.text axis = number ++ unit := by
    cases size with
    | zero | auto => cases h
    | pixel | full | percent | rem =>
      cases h
      rfl
    | screen =>
      cases h
      cases axis <;> rfl
  rw [htext]
  cases negative with
  | false => exact congrArg (· ++ unit) String.empty_append.symm
  | true => simp [signed, ne_of_getLast? hne hzero, ne_of_getLast? hne hauto, String.append_assoc]

/-- What a size of a style sheet begins with, its sign apart. -/
theorem IsCssSize.leads {text : String} (h : IsCssSize text) :
    ∃ c ∈ (text.toList.dropWhile (· == '-')).head?, Text.isDigit c ∨ c = 'a' := by
  cases h with
  | zero => exact ⟨'0', rfl, .inl rfl⟩
  | auto => exact ⟨'a', rfl, .inr rfl⟩
  | dimension negative hnumber hunit =>
    obtain ⟨c, rest, hcons, hdigit⟩ := exists_digit_of_decimals hnumber
    have hsign : (c == '-') = false := by
      rw [beq_eq_false_iff_ne]
      rintro rfl
      exact absurd hdigit (by decide)
    refine ⟨c, ?_, .inl hdigit⟩
    cases negative <;> simp [hcons, hsign]

theorem isCssSize_signed_iff (size : Size) (axis : Axis) (negative : Bool) :
    IsCssSize (signed negative (size.text axis)) ↔ size.IsFinite := by
  rcases hdimension : size.dimension? axis with - | ⟨number, unit⟩
  · obtain ⟨hamount, htext⟩ := signed_of_none hdimension negative
    have hfinite : size.IsFinite := by simp [Size.IsFinite, hamount]
    refine iff_of_true ?_ hfinite
    rcases List.mem_cons.1 htext with htext | htext
    · exact htext ▸ .zero
    · exact List.mem_singleton.1 htext ▸ .auto
  · obtain ⟨hnumber, hunit⟩ := isNumberOf_of_dimension? hdimension
    rw [signed_of_some hdimension]
    by_cases hfinite : size.IsFinite
    · exact iff_of_true (.dimension negative (hnumber.finite hfinite).1 hunit) hfinite
    · refine iff_of_false (fun h => ?_) hfinite
      obtain ⟨c, hc, hlead⟩ := h.leads
      obtain ⟨-, d, rest, hcons, hnumeral, hsign, hauto⟩ :=
        exists_cons_of_word (hnumber.infinite hfinite).2
      have hfirst : (((if negative then "-" else "") ++ number ++ unit).toList.dropWhile
          (· == '-')).head? = some d := by
        cases negative <;> simp [hcons, hsign]
      obtain rfl : d = c := Option.some.inj (hfirst.symm.trans hc)
      rcases hlead with hdigit | rfl
      · simp [isNumeral, hdigit] at hnumeral
      · exact hauto rfl

/-- A minus sign before a number that is zero. -/
def IsNegativeZero (s : List Char) : Prop := ∃ rest, s = '-' :: rest ∧
  rest.takeWhile isNumeral ∈ decimals ∧ decimalValue (rest.takeWhile isNumeral) = 0

/-- Somewhere in the text stands a minus sign before a zero. -/
def HoldsNegativeZero (s : List Char) : Prop := ∃ t, t <:+ s ∧ IsNegativeZero t

theorem holdsNegativeZero_cons {c : Char} {s : List Char} :
    HoldsNegativeZero (c :: s) ↔ IsNegativeZero (c :: s) ∨ HoldsNegativeZero s := by
  simp only [HoldsNegativeZero, List.suffix_cons_iff, or_and_right, exists_or, exists_eq_left]

theorem not_holdsNegativeZero_nil : ¬ HoldsNegativeZero [] := by
  rintro ⟨t, ht, rest, rfl, -⟩
  cases List.suffix_nil.1 ht

theorem holdsNegativeZero_append {a : List Char} (h : '-' ∉ a) (s : List Char) :
    HoldsNegativeZero (a ++ s) ↔ HoldsNegativeZero s := by
  induction a with
  | nil => rfl
  | cons c a ih =>
    obtain ⟨hc, ha⟩ := List.ne_and_not_mem_of_not_mem_cons h
    rw [List.cons_append, holdsNegativeZero_cons, ih ha, or_iff_right]
    rintro ⟨rest, hcons, -⟩
    exact hc (List.cons.inj hcons).1.symm

theorem isNegativeZero_decimal {number after : List Char} (hnumber : number ∈ decimals)
    (hafter : ∀ c ∈ after.head?, isNumeral c = false) :
    IsNegativeZero ('-' :: (number ++ after)) ↔ decimalValue number = 0 := by
  have htake := Text.takeWhile_append_of_ends (isNumeral_of_decimals hnumber) hafter
  constructor
  · rintro ⟨rest, hrest, -, hzero⟩
    rwa [← (List.cons.inj hrest).2, htake] at hzero
  · intro hzero
    exact ⟨_, rfl, by rwa [htake], by rwa [htake]⟩

theorem IsNumberOf.minus_notMem {size : Size} {number : String} (h : IsNumberOf size number) :
    '-' ∉ number.toList := by
  by_cases hfinite : size.IsFinite
  · intro hmem
    exact absurd (isNumeral_of_decimals (h.finite hfinite).1 _ hmem) (by decide)
  · exact (exists_cons_of_word (h.infinite hfinite).2).1

theorem IsNumberOf.isNegativeZero_iff {size : Size} {number : String} (h : IsNumberOf size number)
    {after : List Char} (hafter : ∀ c ∈ after.head?, isNumeral c = false) :
    IsNegativeZero ('-' :: (number.toList ++ after)) ↔ size.Vanishes := by
  by_cases hfinite : size.IsFinite
  · obtain ⟨hdecimal, hzero⟩ := h.finite hfinite
    rw [isNegativeZero_decimal hdecimal hafter, hzero]
  · obtain ⟨hvanishes, hword⟩ := h.infinite hfinite
    obtain ⟨-, d, rest, hcons, hnumeral, -⟩ := exists_cons_of_word hword
    refine iff_of_false ?_ hvanishes
    rintro ⟨behind, hbehind, hdecimal, -⟩
    rw [← (List.cons.inj hbehind).2, hcons, List.cons_append,
      List.takeWhile_cons_of_neg (by simp [hnumeral])] at hdecimal
    obtain ⟨_, _, hnil, -⟩ := exists_digit_of_decimals hdecimal
    cases hnil

theorem isNegativeZero_signed_iff (size : Size) (axis : Axis) (after : List Char) :
    IsNegativeZero ((signed true (size.text axis)).toList ++ after) ↔ size.Vanishes := by
  rcases hdimension : size.dimension? axis with - | ⟨number, unit⟩
  · obtain ⟨hamount, htext⟩ := signed_of_none hdimension true
    have hwords : ∀ word ∈ ["0", "auto"], word.toList.head?.any (· != '-') := by decide
    obtain ⟨c, hc, hne⟩ := (Option.any_eq_true ..).1 (hwords _ htext)
    refine iff_of_false ?_ (by simp [Size.Vanishes, hamount])
    rintro ⟨rest, hrest, -⟩
    have hhead := congrArg List.head? hrest
    rw [List.head?_append, hc] at hhead
    exact bne_iff_ne.1 hne (Option.some.inj hhead)
  · obtain ⟨hnumber, hunit⟩ := isNumberOf_of_dimension? hdimension
    have hunits : ∀ unit ∈ sizeUnits, unit.toList.head?.any (!isNumeral ·) := by decide
    obtain ⟨c, hc, hends⟩ := (Option.any_eq_true ..).1 (hunits unit hunit)
    have hhead : ∀ c ∈ (unit.toList ++ after).head?, isNumeral c = false := by
      intro d hd
      rw [List.head?_append, hc] at hd
      obtain rfl : c = d := Option.some.inj hd
      simpa using hends
    have htext : ((if true then "-" else "") ++ number ++ unit).toList ++ after =
        '-' :: (number.toList ++ (unit.toList ++ after)) := by simp
    rw [signed_of_some hdimension, htext, hnumber.isNegativeZero_iff hhead]

theorem minus_notMem_tail (size : Size) (axis : Axis) :
    '-' ∉ (signed true (size.text axis)).toList.tail := by
  rcases hdimension : size.dimension? axis with - | ⟨number, unit⟩
  · have hwords : ∀ word ∈ ["0", "auto"], '-' ∉ word.toList.tail := by decide
    exact hwords _ (signed_of_none hdimension true).2
  · obtain ⟨hnumber, hunit⟩ := isNumberOf_of_dimension? hdimension
    have hunits : ∀ unit ∈ sizeUnits, '-' ∉ unit.toList := by decide
    have htext : ((if true then "-" else "") ++ number ++ unit).toList =
        '-' :: (number.toList ++ unit.toList) := by simp
    rw [signed_of_some hdimension, htext, List.tail_cons, List.mem_append, not_or]
    exact ⟨hnumber.minus_notMem, hunits unit hunit⟩

/-- A size with a minus sign, in a text that has no negative zero of its own. -/
theorem holdsNegativeZero_signed_iff {before after : List Char} (size : Size) (axis : Axis)
    (hbefore : '-' ∉ before) (hafter : ¬ HoldsNegativeZero after) :
    HoldsNegativeZero (before ++ ((signed true (size.text axis)).toList ++ after)) ↔ size.Vanishes := by
  have hplain := minus_notMem_tail size axis
  rw [holdsNegativeZero_append hbefore, ← isNegativeZero_signed_iff size axis after]
  -- The value has no minus sign behind its first character, so no tail that begins later counts.
  generalize (signed true (size.text axis)).toList = value at *
  cases value with
  | nil => exact iff_of_false hafter fun h => hafter ⟨after, List.suffix_refl _, h⟩
  | cons c value =>
    rw [List.tail_cons] at hplain
    rw [List.cons_append, holdsNegativeZero_cons, holdsNegativeZero_append hplain, or_iff_left hafter]

end UtilityCss
