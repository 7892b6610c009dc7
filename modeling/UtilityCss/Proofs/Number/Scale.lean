import Mathlib.Data.Nat.Factorization.Basic
import UtilityCss.Proofs.Number.Nearest
import UtilityCss.Proofs.Number.Quantity

namespace UtilityCss

namespace Magnitude

/-- A decimal that reads back to a double is at most half a gap from it. -/
theorem near_of_readsBack {units digits : Nat} {exponent : Int}
    (h : readsBack units digits exponent = true) :
    (4 * units - 2 * gap units) * pow10 (-exponent).toNat ≤
        4 * digits * one * pow10 exponent.toNat ∧
      4 * digits * one * pow10 exponent.toNat ≤
        (4 * units + 2 * gap units) * pow10 (-exponent).toNat := by
  have hreach : (if units = pow2 units.log2 ∧ 1 < gap units then gap units else 2 * gap units) ≤
      2 * gap units := by
    split <;> omega
  have hbelow := Nat.mul_le_mul_right (pow10 (-exponent).toNat) (Nat.sub_le_sub_left hreach (4 * units))
  unfold readsBack at h
  dsimp only at h
  split at h <;> simp only [Bool.and_eq_true, decide_eq_true_eq] at h <;> omega

/-- A decimal that is equal to a double reads back to it. -/
theorem readsBack_of_eq {units digits : Nat} {exponent : Int} (hunits : units ≠ 0)
    (h : digits * one * pow10 exponent.toNat = units * pow10 (-exponent).toNat) :
    readsBack units digits exponent = true := by
  have hgap := gap_pos units
  have hscale := pow10_pos (-exponent).toNat
  have hpoint : 4 * digits * one * pow10 exponent.toNat = 4 * units * pow10 (-exponent).toNat := by
    rw [Nat.mul_assoc 4 units, ← h]
    ring
  have hbelow : ∀ reach, 0 < reach → (4 * units - reach) * pow10 (-exponent).toNat <
      4 * units * pow10 (-exponent).toNat := by
    intro reach hreach
    exact Nat.mul_lt_mul_of_pos_right (by omega) hscale
  have habove : 4 * units * pow10 (-exponent).toNat <
      (4 * units + 2 * gap units) * pow10 (-exponent).toNat :=
    Nat.mul_lt_mul_of_pos_right (by omega) hscale
  have hreach : 0 < (if units = pow2 units.log2 ∧ 1 < gap units then gap units else 2 * gap units) := by
    split <;> omega
  unfold readsBack
  dsimp only
  rw [hpoint]
  split
  · simp [(hbelow _ hreach).le, habove.le]
  · simp [hbelow _ hreach, habove]

theorem digitsAt_of_eq {units digits : Nat} {exponent : Int} (hunits : units ≠ 0)
    (h : digits * one * pow10 exponent.toNat = units * pow10 (-exponent).toNat) :
    digitsAt units exponent = some digits := by
  have hden : 0 < one * pow10 exponent.toNat := Nat.mul_pos one_pos (pow10_pos _)
  have hlow : units * pow10 (-exponent).toNat / (one * pow10 exponent.toNat) = digits := by
    rw [← h, Nat.mul_assoc]
    exact Nat.mul_div_cancel _ hden
  have hnear : 2 * (units * pow10 (-exponent).toNat) <
      (2 * digits + 1) * (one * pow10 exponent.toNat) := by
    rw [← h]
    linarith
  unfold digitsAt
  dsimp only
  rw [hlow, readsBack_of_eq hunits h]
  cases readsBack units (digits + 1) exponent with
  | true => exact congrArg some (if_pos hnear)
  | false => rfl

theorem pairwise_grids (units : Nat) : (grids units).Pairwise (· > ·) := by
  unfold grids
  dsimp only
  rw [List.pairwise_map]
  exact List.pairwise_lt_range.imp fun h => by omega

theorem shortest_eq {units digits : Nat} {exponent : Int} (hgrid : exponent ∈ grids units)
    (hfirst : ∀ e, exponent < e → digitsAt units e = none)
    (hdigits : digitsAt units exponent = some digits) : shortest units = (digits, exponent) := by
  obtain ⟨before, behind, hsplit⟩ := List.append_of_mem hgrid
  have hpairs := pairwise_grids units
  rw [hsplit, List.pairwise_append] at hpairs
  have hfound : ((grids units).findSome? fun e => (digitsAt units e).map fun d => (d, e)) =
      some (digits, exponent) := by
    rw [List.findSome?_eq_some_iff]
    refine ⟨before, exponent, behind, hsplit, by rw [hdigits]; rfl, fun e he => ?_⟩
    rw [hfirst e (hpairs.2.2 e he exponent List.mem_cons_self)]
    rfl
  rw [shortest, hfound]
  rfl

theorem ofDecimal_of_lt {n : Nat} (h : n < 2 ^ 53) : ofDecimal n 0 = .finite (n * one) := by
  have hlt : n * one < limit := calc
    n * one < 2 ^ 53 * one := Nat.mul_lt_mul_of_pos_right h one_pos
    _ ≤ limit := by decide +kernel
  have hexact := ofQuotient_of_dvd (pow10_pos 0) (gap_dvd h 1074) hlt
  rwa [show pow10 0 = 1 from rfl, Nat.mul_one] at hexact

/-- The units of a quarter. -/
def quarter : Nat := pow2 1072

theorem quarter_pos : 0 < quarter := pow2_pos _

theorem one_eq : one = 4 * quarter := by decide +kernel

theorem step_eq : step = .finite quarter := by decide +kernel

/-- Less than a double's worth of steps is a double of quarters. -/
theorem ofDecimal_mul_step {n : Nat} (h : n < 2 ^ 53) :
    ofDecimal n 0 * step = .finite (n * quarter) := by
  have hlt : n * quarter < limit := calc
    n * quarter < 2 ^ 53 * quarter := Nat.mul_lt_mul_of_pos_right h quarter_pos
    _ ≤ limit := by decide +kernel
  rw [ofDecimal_of_lt h, step_eq, finite_mul_finite, Nat.mul_right_comm]
  exact ofQuotient_of_dvd one_pos (gap_dvd h 1072) hlt

theorem gap_quarters_le {n : Nat} (hpos : 0 < n) (hn : n < 2 ^ 51) :
    4 * gap (n * quarter) ≤ quarter := by
  have hlog : (n * quarter).log2 < 51 + 1072 := log2_mul_pow2_lt hpos.ne' hn 1072
  have hgap : gap (n * quarter) ≤ pow2 1070 := pow2_le (by omega)
  calc 4 * gap (n * quarter) ≤ 4 * pow2 1070 := Nat.mul_le_mul_left 4 hgap
    _ ≤ quarter := by decide +kernel

/-- Doubles of less than `2 ^ 51` quarters are so close that no other decimal with one digit behind the
point, or none, reads back to them. -/
theorem eq_of_readsBack {n digits : Nat} {exponent : Int} (hpos : 0 < n) (hn : n < 2 ^ 51)
    (hexponent : -1 ≤ exponent) (h : readsBack (n * quarter) digits exponent = true) :
    4 * (digits * 10 ^ exponent.toNat) = n * 10 ^ (-exponent).toNat := by
  obtain ⟨hlow, hhigh⟩ := near_of_readsBack h
  have hgap := gap_quarters_le hpos hn
  have hscale : ∀ k, pow10 k = 10 ^ k := fun _ => rfl
  have hpoint : 4 * digits * one * pow10 exponent.toNat =
      16 * (digits * 10 ^ exponent.toNat) * quarter := by
    rw [one_eq, hscale]
    ring
  rw [hpoint, hscale] at hlow hhigh
  generalize digits * 10 ^ exponent.toNat = value at *
  generalize gap (n * quarter) = g at *
  -- The width of the range is less than the distance between different multiples.
  have hrange : 8 * n * 10 ^ (-exponent).toNat ≤ 32 * value + 10 ^ (-exponent).toNat ∧
      32 * value ≤ 8 * n * 10 ^ (-exponent).toNat + 10 ^ (-exponent).toNat := by
    generalize 10 ^ (-exponent).toNat = scale at *
    have hwidth : 4 * g * scale ≤ quarter * scale := Nat.mul_le_mul_right scale hgap
    rw [Nat.sub_mul, Nat.sub_le_iff_le_add] at hlow
    rw [Nat.add_mul] at hhigh
    constructor <;> refine Nat.le_of_mul_le_mul_right ?_ quarter_pos <;> linarith
  have hplaces : (-exponent).toNat = 0 ∨ (-exponent).toNat = 1 := by omega
  rcases hplaces with hplaces | hplaces <;> rw [hplaces] at hrange ⊢ <;> omega

theorem le_length_toDigits {n k : Nat} (h : 10 ^ k ≤ n) : k < (Nat.toDigits 10 n).length := by
  refine Nat.lt_of_not_le fun hle => ?_
  rcases Nat.eq_zero_or_pos k with rfl | hk
  · exact Nat.toDigits_ne_nil (List.eq_nil_of_length_eq_zero (Nat.le_zero.1 hle))
  · exact Nat.not_lt.2 h ((Nat.length_toDigits_le_iff (by decide) hk).1 hle)

theorem mem_grids_iff {units : Nat} {exponent : Int} : exponent ∈ grids units ↔
    -1075 < exponent ∧ exponent ≤ (Nat.toDigits 10 (units / one)).length := by
  unfold grids
  dsimp only
  simp only [List.mem_map, List.mem_range]
  constructor
  · rintro ⟨i, hi, rfl⟩
    omega
  · intro h
    refine ⟨((Nat.toDigits 10 (units / one)).length - exponent).toNat, ?_, ?_⟩ <;> omega

/-- The decimal with the fewest digits among those equal to a number of quarters is its text. -/
theorem shortest_quarters {n digits : Nat} {exponent : Int} (hpos : 0 < n) (hn : n < 2 ^ 51)
    (hexponent : -2 ≤ exponent) (hwhole : exponent ≤ 0 ∨ 4 * 10 ^ exponent.toNat ≤ n)
    (hexact : 4 * (digits * 10 ^ exponent.toNat) = n * 10 ^ (-exponent).toNat)
    (hleast : ∀ e d, exponent < e → 4 * (d * 10 ^ e.toNat) ≠ n * 10 ^ (-e).toNat) :
    shortest (n * quarter) = (digits, exponent) := by
  have hscale : ∀ k, pow10 k = 10 ^ k := fun _ => rfl
  have hne : n * quarter ≠ 0 := (Nat.mul_pos hpos quarter_pos).ne'
  apply shortest_eq
  · have hunits : n * quarter / one = n / 4 := by
      rw [one_eq, Nat.mul_div_mul_right _ _ quarter_pos]
    rw [mem_grids_iff, hunits]
    refine ⟨by omega, ?_⟩
    rcases hwhole with hle | hle
    · omega
    · have := le_length_toDigits ((Nat.le_div_iff_mul_le (by decide)).2 (Nat.mul_comm .. ▸ hle))
      omega
  · intro e he
    refine Option.eq_none_iff_forall_ne_some.2 fun d hd => hleast e d he ?_
    exact eq_of_readsBack hpos hn (by omega) (readsBack_of_digitsAt hd)
  · apply digitsAt_of_eq hne
    rw [one_eq, hscale, hscale]
    calc digits * (4 * quarter) * 10 ^ exponent.toNat
        = 4 * (digits * 10 ^ exponent.toNat) * quarter := by ring
      _ = n * quarter * 10 ^ (-exponent).toNat := by rw [hexact]; ring

theorem toDigits_mul_pow {n : Nat} (h : 0 < n) (zeros : Nat) :
    Nat.toDigits 10 (n * 10 ^ zeros) = Nat.toDigits 10 n ++ List.replicate zeros '0' := by
  induction zeros with
  | zero => simp
  | succ zeros ih =>
    have hpos : 0 < n * 10 ^ zeros := Nat.mul_pos h (Nat.pow_pos (by decide))
    have happend := Nat.toDigits_append_toDigits (by decide : 1 < 10) hpos (by decide : 0 < 10)
    rw [ih, Nat.add_zero] at happend
    rw [Nat.pow_succ, ← Nat.mul_assoc, Nat.mul_comm _ 10, ← happend, List.replicate_succ',
      List.append_assoc]
    rfl

theorem leftpad_toDigits (k v : Nat) {d : Nat} (hd : d < 10) :
    List.leftpad (k + 2) '0' (Nat.toDigits 10 (10 * v + d)) =
      List.leftpad (k + 1) '0' (Nat.toDigits 10 v) ++ [Nat.digitChar d] := by
  have hlast : Nat.toDigits 10 d = [Nat.digitChar d] := Nat.toDigits_of_lt_base hd
  rcases Nat.eq_zero_or_pos v with rfl | hv
  · rw [Nat.mul_zero, Nat.zero_add, hlast, Nat.toDigits_zero]
    simp [List.leftpad, ← List.replicate_succ']
  · rw [← Nat.toDigits_append_toDigits (by decide) hv hd, hlast]
    simp [List.leftpad]

theorem leftpad_one_toDigits (v : Nat) :
    List.leftpad 1 '0' (Nat.toDigits 10 v) = Nat.toDigits 10 v := by
  have hlength := List.length_pos_of_ne_nil (Nat.toDigits_ne_nil (n := v) (b := 10))
  rw [List.leftpad, Nat.sub_eq_zero_of_le hlength]
  rfl

/-- What stands behind the whole part of a number of quarters. -/
def quarterPart : Nat → String
  | 0 => ""
  | 1 => ".25"
  | 2 => ".5"
  | _ => ".75"

/-- The decimal expansion of a quarter of a number. -/
def quarters (n : Nat) : String := Nat.repr (n / 4) ++ quarterPart (n % 4)

theorem text_of_shortest {units digits : Nat} {exponent : Int} (h : units ≠ 0)
    (hshortest : shortest units = (digits, exponent)) :
    (finite units).text = String.ofList (positional digits exponent) := by
  rw [text, if_neg h, hshortest]

theorem text_whole {v : Nat} (hpos : 0 < v) (hlt : 4 * v < 2 ^ 51) :
    (finite (4 * v * quarter)).text = Nat.repr v := by
  obtain ⟨zeros, digits, hlast, hv⟩ := Nat.exists_eq_pow_mul_and_not_dvd hpos.ne' 10 (by decide)
  rw [Nat.mul_comm] at hv
  have hdigits : 0 < digits := Nat.pos_of_ne_zero (by rintro rfl; exact hlast (Nat.dvd_zero 10))
  have hshortest : shortest (4 * v * quarter) = (digits, (zeros : Int)) := by
    apply shortest_quarters (by omega) hlt (by omega)
    · refine .inr (Nat.mul_le_mul_left 4 ?_)
      rw [Int.toNat_natCast, hv]
      exact Nat.le_mul_of_pos_left _ hdigits
    · rw [Int.toNat_natCast, ← hv, Int.toNat_neg_natCast, Nat.pow_zero, Nat.mul_one]
    · -- A coarser grid would take a zero from the end of the digits.
      intro e d he heq
      obtain ⟨more, rfl⟩ : ∃ more : Nat, e = (zeros + 1 + more : Nat) :=
        ⟨(e - zeros - 1).toNat, by omega⟩
      rw [Int.toNat_natCast, Int.toNat_neg_natCast, Nat.pow_zero, Nat.mul_one, hv] at heq
      have hsplit : 10 ^ (zeros + 1 + more) = 10 * 10 ^ more * 10 ^ zeros := by ring
      have hcancel : 10 ^ more * 10 * d = digits := by
        refine Nat.eq_of_mul_eq_mul_right (Nat.pow_pos (n := zeros) (by decide : 0 < 10)) ?_
        refine Nat.eq_of_mul_eq_mul_left (by decide : 0 < 4) ?_
        rw [← heq, hsplit]
        ring
      exact hlast ⟨10 ^ more * d, by rw [← hcancel]; ring⟩
  rw [text_of_shortest (Nat.mul_pos (by omega) quarter_pos).ne' hshortest, positional_natCast,
    ← toDigits_mul_pow hdigits, ← hv]
  rfl

theorem text_half {v : Nat} (hlt : 4 * v + 2 < 2 ^ 51) :
    (finite ((4 * v + 2) * quarter)).text = Nat.repr v ++ ".5" := by
  have hshortest : shortest ((4 * v + 2) * quarter) = (10 * v + 5, Int.negSucc 0) := by
    apply shortest_quarters (by omega) hlt (by decide) (.inl (by decide))
    · change 4 * ((10 * v + 5) * 10 ^ 0) = (4 * v + 2) * 10 ^ 1
      omega
    · intro e d he heq
      rw [show (-e).toNat = 0 by omega, Nat.pow_zero] at heq
      omega
  have hpad : List.leftpad 2 '0' (Nat.toDigits 10 (10 * v + 5)) = Nat.toDigits 10 v ++ ['5'] := by
    rw [leftpad_toDigits 0 v (by decide : 5 < 10), leftpad_one_toDigits]
    rfl
  rw [text_of_shortest (Nat.mul_pos (by omega) quarter_pos).ne' hshortest,
    positional_of_leftpad hpad rfl, String.ofList_append]
  rfl

theorem text_odd {v r d : Nat} (hr : 25 * r = 10 * d + 5) (hd : d < 10) (hlt : 4 * v + r < 2 ^ 51) :
    (finite ((4 * v + r) * quarter)).text = Nat.repr v ++ String.ofList ['.', Nat.digitChar d, '5'] := by
  have hshortest : shortest ((4 * v + r) * quarter) = (10 * (10 * v + d) + 5, Int.negSucc 1) := by
    apply shortest_quarters (by omega) hlt (by decide) (.inl (by decide))
    · change 4 * ((10 * (10 * v + d) + 5) * 10 ^ 0) = (4 * v + r) * 10 ^ 2
      omega
    · intro e c he heq
      have hplaces : (-e).toNat = 0 ∨ (-e).toNat = 1 := by omega
      rcases hplaces with hplaces | hplaces <;> rw [hplaces] at heq <;> omega
  have hpad : List.leftpad 3 '0' (Nat.toDigits 10 (10 * (10 * v + d) + 5)) =
      Nat.toDigits 10 v ++ [Nat.digitChar d, '5'] := by
    rw [leftpad_toDigits 1 _ (by decide : 5 < 10), leftpad_toDigits 0 v hd, leftpad_one_toDigits]
    simp
  rw [text_of_shortest (Nat.mul_pos (by omega) quarter_pos).ne' hshortest,
    positional_of_leftpad hpad rfl, String.ofList_append]
  rfl

theorem text_quarters {n : Nat} (hpos : 0 < n) (hlt : n < 2 ^ 51) :
    (finite (n * quarter)).text = quarters n := by
  obtain ⟨v, r, hr, rfl⟩ : ∃ v r, r < 4 ∧ n = 4 * v + r := ⟨n / 4, n % 4, by omega, by omega⟩
  have hwhole : (4 * v + r) / 4 = v := by omega
  have hpart : (4 * v + r) % 4 = r := by omega
  rw [quarters, hwhole, hpart]
  have hcases : r = 0 ∨ r = 1 ∨ r = 2 ∨ r = 3 := by omega
  rcases hcases with rfl | rfl | rfl | rfl
  · rw [Nat.add_zero, text_whole (by omega) hlt]
    exact String.append_empty.symm
  · rw [text_odd (d := 2) (by decide) (by decide) hlt]
    rfl
  · rw [text_half hlt]
    rfl
  · rw [text_odd (d := 7) (by decide) (by decide) hlt]
    rfl

end Magnitude

/-- The decimal that denotes a value with no zero ahead of other digits of its whole part, and none at the
end of those behind its point. -/
structure IsExpansion (s : List Char) (value : ℚ) : Prop where
  decimal : s ∈ decimals
  denotes : decimalValue s = value
  leading : ∀ c rest, s = '0' :: c :: rest → c = '.'
  trailing : '.' ∈ s → s.getLast? ≠ some '0'

theorem head?_toDigits {n : Nat} (h : 0 < n) : (Nat.toDigits 10 n).head? ≠ some '0' := by
  induction n using Nat.strongRecOn with
  | ind n ih =>
    rcases Nat.lt_or_ge n 10 with hsmall | hlarge
    · rw [Nat.toDigits_of_lt_base hsmall]
      simpa using h.ne'
    · have hhead := ih (n / 10) (by omega) (by omega)
      rw [Nat.toDigits_of_base_le (by decide) hlarge, List.head?_append_of_ne_nil _ Nat.toDigits_ne_nil]
      exact hhead

theorem toDigits_mem_digitRuns (v : Nat) : Nat.toDigits 10 v ∈ digitRuns :=
  ⟨Nat.toDigits_ne_nil, fun _ hc => isDigit_iff.1 (Magnitude.isDigit_of_mem_toDigits hc)⟩

theorem isExpansion_whole (v : Nat) : IsExpansion (Nat.toDigits 10 v) v where
  decimal := .inl (toDigits_mem_digitRuns v)
  denotes := by
    rw [decimalValue_digits (toDigits_mem_digitRuns v)]
    exact congrArg Nat.cast Nat.ofDigitChars_ten_toDigits
  leading c rest h := by
    rcases Nat.eq_zero_or_pos v with rfl | hv
    · rw [Nat.toDigits_zero] at h
      cases h
    · exact absurd (congrArg List.head? h) (head?_toDigits hv)
  trailing h := absurd h (point_notMem (toDigits_mem_digitRuns v))

theorem isExpansion_point (v : Nat) {b : List Char} {d : Nat} {part : ℚ}
    (hb : b ∈ digitRuns) (hlast : b.getLast? ≠ some '0') (hdigits : digitsValue b = d)
    (hpart : d / 10 ^ b.length = part) :
    IsExpansion (Nat.toDigits 10 v ++ '.' :: b) (v + part) where
  decimal := mem_decimals_point (toDigits_mem_digitRuns v) hb
  denotes := by
    have hvalue : digitsValue (Nat.toDigits 10 v ++ b) = 10 ^ b.length * v + d := by
      rw [← hdigits]
      change Nat.ofDigitChars 10 _ 0 = _ + Nat.ofDigitChars 10 _ 0
      rw [Nat.ofDigitChars_append, Nat.ofDigitChars_ten_toDigits,
        Nat.ofDigitChars_eq_ofDigitChars_zero]
    have hscale : (10 : ℚ) ^ b.length ≠ 0 := pow_ne_zero _ (by norm_num)
    rw [decimalValue_point (toDigits_mem_digitRuns v), hvalue, ← hpart]
    push_cast
    field_simp
  leading c rest h := by
    rcases Nat.eq_zero_or_pos v with rfl | hv
    · rw [Nat.toDigits_zero] at h
      exact (List.cons.inj (List.cons.inj h).2).1.symm
    · have hhead := congrArg List.head? h
      rw [List.head?_append_of_ne_nil _ Nat.toDigits_ne_nil] at hhead
      exact absurd hhead (head?_toDigits hv)
  trailing _ := by
    rw [List.getLast?_append_of_ne_nil _ (List.cons_ne_nil _ _), List.getLast?_cons]
    cases b using List.reverseRecOn with
    | nil => exact absurd rfl hb.1
    | append_singleton b c => simpa using hlast

theorem isExpansion_quarters (n : Nat) : IsExpansion (Magnitude.quarters n).toList (n / 4) := by
  obtain ⟨v, r, hr, rfl⟩ : ∃ v r, r < 4 ∧ n = 4 * v + r := ⟨n / 4, n % 4, by omega, by omega⟩
  have hwhole : (4 * v + r) / 4 = v := by omega
  have hpart : (4 * v + r) % 4 = r := by omega
  rw [Magnitude.quarters, hwhole, hpart, String.toList_append, Nat.toList_repr]
  have hvalue : ((4 * v + r : Nat) : ℚ) / 4 = v + r / 4 := by
    push_cast
    ring
  rw [hvalue]
  have hcases : r = 0 ∨ r = 1 ∨ r = 2 ∨ r = 3 := by omega
  rcases hcases with rfl | rfl | rfl | rfl
  · simpa [Magnitude.quarterPart] using isExpansion_whole v
  · exact isExpansion_point v (b := ['2', '5']) (d := 25) (mem_digitRuns_of_all (by decide) (by decide))
      (by decide) rfl (by norm_num)
  · exact isExpansion_point v (b := ['5']) (d := 5) (mem_digitRuns_of_all (by decide) (by decide))
      (by decide) rfl (by norm_num)
  · exact isExpansion_point v (b := ['7', '5']) (d := 75) (mem_digitRuns_of_all (by decide) (by decide))
      (by decide) rfl (by norm_num)

theorem ofToken?_of_digits {token : String} (hdigits : token.toList ∈ digitRuns)
    (hpos : 0 < digitsValue token.toList) (hlt : digitsValue token.toList < 2 ^ 53) :
    Size.ofToken? token = some (.rem (.finite (digitsValue token.toList * Magnitude.quarter))) := by
  have hword : token ∉ "0" :: sizeWords := by
    have hzero : ∀ word ∈ "0" :: sizeWords, isInteger word → digitsValue word.toList = 0 := by decide
    intro hmem
    exact hpos.ne' (hzero token hmem (isInteger_iff.2 hdigits))
  have hnumber : number? token = some (.ofDecimal (digitsValue token.toList) 0) := by
    rw [number?, Text.cutAt_eq_none_iff.2 (point_notMem hdigits)]
    exact if_pos (isInteger_iff.2 hdigits)
  rw [ofToken?_of_notMem hword, fraction?_eq_none (by rw [hnumber]; rfl), hnumber, Option.map_none,
    Option.none_or, Option.map_some, Size.ofSteps, if_neg (mt Magnitude.ofDecimal_eq_zero_iff.1 hpos.ne'),
    Magnitude.ofDecimal_mul_step hlt]

/-- A token of digits is read as that many quarters of a rem, written without rounding. -/
structure OnScale (token : String) : Prop where
  expansion : IsExpansion (Magnitude.quarters (digitsValue token.toList)).toList
    (digitsValue token.toList / 4)
  length : ∀ negative axis, length? token negative axis =
    some ((if negative then "-" else "") ++ Magnitude.quarters (digitsValue token.toList) ++ "rem")
  spacing : ∀ negative, spacing? token negative =
    some ((if negative then "-" else "") ++ Magnitude.quarters (digitsValue token.toList) ++ "rem")

theorem onScale {token : String} (hdigits : token.toList ∈ digitRuns)
    (hpos : 0 < digitsValue token.toList) (hlt : digitsValue token.toList < 2 ^ 51) : OnScale token := by
  have hsize := ofToken?_of_digits hdigits hpos (by omega)
  have htext : ∀ negative axis,
      signed negative (Size.text axis (.rem (.finite (digitsValue token.toList * Magnitude.quarter)))) =
        (if negative then "-" else "") ++ Magnitude.quarters (digitsValue token.toList) ++ "rem" := by
    intro negative axis
    rw [← Magnitude.text_quarters hpos hlt]
    exact signed_of_some rfl negative
  refine ⟨isExpansion_quarters _, fun negative axis => ?_, fun negative => ?_⟩
  · rw [length?, hsize, Option.map_some, htext]
  · rw [spacing?, hsize, Option.filter_some_pos (show Size.isSpacing (.rem _) from rfl), Option.map_some,
      htext]

theorem onScale_padded : "0011".toList ∈ digitRuns ∧ 0 < digitsValue "0011".toList ∧
    digitsValue "0011".toList < 2 ^ 51 ∧ OnScale "0011" := by
  have hdigits : "0011".toList ∈ digitRuns := isInteger_iff.1 (by decide)
  exact ⟨hdigits, by decide, by decide, onScale hdigits (by decide) (by decide)⟩

end UtilityCss
