import Mathlib.Algebra.Field.Rat
import Mathlib.Algebra.Order.Ring.Rat
import Mathlib.Tactic.FieldSimp
import UtilityCss.Proofs.Number.Rounding
import UtilityCss.Proofs.Number.Token

namespace UtilityCss

/-- What a decimal denotes: its digits, over the power of ten for those behind the point. -/
def decimalValue (s : List Char) : ℚ :=
  match Text.cut '.' s with
  | none => digitsValue s
  | some (whole, part) => digitsValue (whole ++ part) / 10 ^ part.length

theorem point_notMem {s : List Char} (h : s ∈ digitRuns) : '.' ∉ s :=
  notMem_of_digitRuns (by decide) h

theorem decimalValue_digits {s : List Char} (h : s ∈ digitRuns) :
    decimalValue s = digitsValue s := by
  rw [decimalValue, Text.cut_eq_none_iff.2 (point_notMem h)]

theorem decimalValue_point {a : List Char} (ha : a ∈ digitRuns) (b : List Char) :
    decimalValue (a ++ '.' :: b) = digitsValue (a ++ b) / 10 ^ b.length := by
  rw [decimalValue, Text.cut_append b (point_notMem ha)]

theorem digitRuns_append {a b : List Char} (ha : a ∈ digitRuns) (hb : b ∈ digitRuns) :
    a ++ b ∈ digitRuns := by
  refine ⟨List.append_ne_nil_of_left_ne_nil ha.1 b, fun c hc => ?_⟩
  rcases List.mem_append.1 hc with hc | hc
  · exact ha.2 c hc
  · exact hb.2 c hc

theorem mem_decimals_point {a b : List Char} (ha : a ∈ digitRuns) (hb : b ∈ digitRuns) :
    a ++ '.' :: b ∈ decimals :=
  Language.mem_add _ _ _ |>.2 (.inr (mem_separated.2 ⟨a, ha, b, hb, rfl⟩))

/-- A decimal is read as the double next to what it denotes. -/
theorem number?_of_decimals {token : String} (h : token.toList ∈ decimals) :
    ∃ digits places, number? token = some (.ofDecimal digits places) ∧
      decimalValue token.toList = digits / 10 ^ places := by
  rcases h with hrun | hpoint
  · have hcut : Text.cutAt '.' token = none := Text.cutAt_eq_none_iff.2 (point_notMem hrun)
    refine ⟨digitsValue token.toList, 0, ?_, ?_⟩
    · rw [number?, hcut]
      exact if_pos (isInteger_iff.2 hrun)
    · rw [decimalValue_digits hrun]
      simp
  · obtain ⟨whole, hwhole, part, hpart, htext⟩ := mem_separated.1 hpoint
    have hcut : Text.cutAt '.' token = some (String.ofList whole, String.ofList part) := by
      rw [Text.cutAt_eq_some_iff]
      simpa using ⟨point_notMem hwhole, htext.symm⟩
    refine ⟨digitsValue (whole ++ part), part.length, ?_, ?_⟩
    · rw [number?, hcut]
      simp [isInteger_iff, hwhole, hpart]
    · rw [← htext, decimalValue_point hwhole]

namespace Magnitude

theorem positional_natCast (digits zeros : Nat) :
    positional digits zeros = Nat.toDigits 10 digits ++ List.replicate zeros '0' := by
  simp [positional]

theorem digitRuns_padded (digits zeros : Nat) :
    Nat.toDigits 10 digits ++ List.replicate zeros '0' ∈ digitRuns :=
  ⟨by simp [Nat.toDigits_ne_nil], fun _ hc => isDigit_iff.1 (isDigit_of_mem_digits hc)⟩

theorem digitsValue_padded (digits zeros : Nat) :
    digitsValue (Nat.toDigits 10 digits ++ List.replicate zeros '0') = digits * 10 ^ zeros := by
  change Nat.ofDigitChars 10 _ 0 = _
  rw [Nat.ofDigitChars_append, Nat.ofDigitChars_ten_toDigits, Nat.ofDigitChars_replicate_zero,
    Nat.mul_comm]

theorem digitsValue_leftpad (width digits : Nat) :
    digitsValue (List.leftpad width '0' (Nat.toDigits 10 digits)) = digits := by
  change Nat.ofDigitChars 10 (List.replicate _ '0' ++ _) 0 = _
  rw [Nat.ofDigitChars_append, Nat.ofDigitChars_replicate_zero, Nat.mul_zero,
    Nat.ofDigitChars_ten_toDigits]

theorem positional_of_leftpad {digits k : Nat} {a b : List Char}
    (h : List.leftpad (k + 2) '0' (Nat.toDigits 10 digits) = a ++ b) (hb : b.length = k + 1) :
    positional digits (Int.negSucc k) = a ++ '.' :: b := by
  have hlength : (a ++ b).length - (k + 1) = a.length := by
    rw [List.length_append]
    omega
  have htext : positional digits (Int.negSucc k) = (a ++ b).take ((a ++ b).length - (k + 1)) ++
      '.' :: (a ++ b).drop ((a ++ b).length - (k + 1)) := by
    rw [← h]
    simp [positional]
  rw [htext, hlength, List.take_left, List.drop_left]

/-- Digits behind the point are as many as the exponent says, and one more stands before it. -/
theorem positional_negSucc (digits k : Nat) : ∃ a b, positional digits (Int.negSucc k) = a ++ '.' :: b ∧
    a ∈ digitRuns ∧ b ∈ digitRuns ∧ b.length = k + 1 ∧ digitsValue (a ++ b) = digits := by
  obtain ⟨padded, hpadded⟩ : ∃ padded, padded = List.leftpad (k + 2) '0' (Nat.toDigits 10 digits) :=
    ⟨_, rfl⟩
  have hlength : k + 2 ≤ padded.length := by
    rw [hpadded, List.length_leftpad]
    exact Nat.le_max_left _ _
  have hdigits : ∀ c ∈ padded, '0' ≤ c ∧ c ≤ '9' := by
    intro c hc
    rw [hpadded] at hc
    rcases List.mem_append.1 hc with hc | hc
    · rw [List.eq_of_mem_replicate hc]
      decide
    · exact isDigit_iff.1 (isDigit_of_mem_toDigits hc)
  refine ⟨padded.take (padded.length - (k + 1)), padded.drop (padded.length - (k + 1)), ?_, ?_, ?_,
    ?_, ?_⟩
  · apply positional_of_leftpad
    · rw [List.take_append_drop, hpadded]
    · rw [List.length_drop]
      omega
  · refine ⟨List.ne_nil_of_length_pos ?_, fun c hc => hdigits c (List.mem_of_mem_take hc)⟩
    rw [List.length_take]
    omega
  · refine ⟨List.ne_nil_of_length_pos ?_, fun c hc => hdigits c (List.mem_of_mem_drop hc)⟩
    rw [List.length_drop]
    omega
  · rw [List.length_drop]
    omega
  · rw [List.take_append_drop, hpadded, digitsValue_leftpad]

theorem positional_mem_decimals (digits : Nat) (exponent : Int) :
    positional digits exponent ∈ decimals := by
  cases exponent with
  | ofNat zeros =>
    rw [Int.ofNat_eq_natCast, positional_natCast]
    exact .inl (digitRuns_padded digits zeros)
  | negSucc k =>
    obtain ⟨a, b, htext, ha, hb, -, -⟩ := positional_negSucc digits k
    exact htext ▸ mem_decimals_point ha hb

theorem decimalValue_positional (digits : Nat) (exponent : Int) :
    decimalValue (positional digits exponent) = digits * 10 ^ exponent := by
  cases exponent with
  | ofNat zeros =>
    rw [Int.ofNat_eq_natCast, positional_natCast, decimalValue_digits (digitRuns_padded digits zeros),
      digitsValue_padded]
    push_cast
    rw [zpow_natCast]
  | negSucc k =>
    obtain ⟨a, b, htext, ha, -, hlength, hvalue⟩ := positional_negSucc digits k
    rw [htext, decimalValue_point ha, hvalue, hlength, zpow_negSucc, div_eq_mul_inv]

theorem readsBack_zero {units : Nat} (h : units ≠ 0) (exponent : Int) :
    readsBack units 0 exponent = false := by
  have hgap := gap_le (Nat.pos_of_ne_zero h)
  have hbelow : 0 < (4 * units - if units = pow2 units.log2 ∧ 1 < gap units then gap units
      else 2 * gap units) * pow10 (-exponent).toNat := by
    refine Nat.mul_pos ?_ (pow10_pos _)
    split <;> omega
  unfold readsBack
  dsimp only
  rw [Nat.mul_zero, Nat.zero_mul, Nat.zero_mul]
  split
  · simp [Nat.not_le.2 hbelow]
  · simp

theorem readsBack_of_digitsAt {units digits : Nat} {exponent : Int}
    (h : digitsAt units exponent = some digits) : readsBack units digits exponent = true := by
  unfold digitsAt at h
  dsimp only at h
  split at h
  · rename_i hlow hhigh
    split at h <;> cases h
    · exact hlow
    · exact hhigh
  · rename_i hlow hhigh
    cases h
    exact hlow
  · rename_i hlow hhigh
    cases h
    exact hhigh
  · cases h

theorem digitsAt_ne_zero {units digits : Nat} (h : units ≠ 0) {exponent : Int}
    (hdigits : digitsAt units exponent = some digits) : digits ≠ 0 := by
  rintro rfl
  have hread := readsBack_of_digitsAt hdigits
  rw [readsBack_zero h] at hread
  cases hread

theorem shortest_ne_zero {units : Nat} (h : units ≠ 0) : (shortest units).1 ≠ 0 := by
  have hpow : ∀ n, Nat.pow 5 n ≠ 0 := fun n => (Nat.pow_pos (by decide)).ne'
  unfold shortest
  cases hfirst : (grids units).findSome? fun e => (digitsAt units e).map fun d => (d, e) with
  | none => exact Nat.mul_ne_zero h (hpow 1074)
  | some found =>
    obtain ⟨e, -, hfound⟩ := List.exists_of_findSome?_eq_some hfirst
    obtain ⟨digits, hdigits, rfl⟩ := Option.map_eq_some_iff.1 hfound
    exact digitsAt_ne_zero h hdigits

/-- The text of a finite double is a decimal, and zero only for zero. -/
theorem text_finite (units : Nat) : (finite units).text.toList ∈ decimals ∧
    (decimalValue (finite units).text.toList = 0 ↔ units = 0) := by
  rw [text]
  split
  · rename_i hzero
    exact ⟨.inl (mem_digitRuns_of_all (by decide) (by decide)), iff_of_true (by decide) hzero⟩
  · rename_i hpos
    have hdigits := shortest_ne_zero hpos
    rcases hshortest : shortest units with ⟨digits, exponent⟩
    rw [hshortest] at hdigits
    rw [String.toList_ofList]
    refine ⟨positional_mem_decimals digits exponent, iff_of_false ?_ hpos⟩
    rw [decimalValue_positional]
    exact mul_ne_zero (Nat.cast_ne_zero.2 hdigits) (zpow_ne_zero _ (by norm_num))

end Magnitude

end UtilityCss
