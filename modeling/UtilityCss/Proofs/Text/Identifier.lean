import UtilityCss.ClassName
import UtilityCss.Source.Classes

namespace UtilityCss

namespace Identifier
open Text

/-- A character that can begin an identifier. -/
def isStart (c : Char) : Bool := isLetter c || c = '_' || 0x80 ≤ c.toNat

def isPart (c : Char) : Bool := isStart c || isDigit c || c = '-'

def hexValue? (c : Char) : Option Nat :=
  if isDigit c then some (c.toNat - '0'.toNat)
  else if 'a' ≤ c ∧ c ≤ 'f' then some (c.toNat - 'a'.toNat + 10)
  else if 'A' ≤ c ∧ c ≤ 'F' then some (c.toNat - 'A'.toNat + 10)
  else none

/-- The character with this code, or else the one that stands for unknown ones. -/
def ofCode (code : Nat) : Char :=
  if code = 0 ∨ ¬ code.isValidChar then '\ufffd' else Char.ofNat code

/-- The code that at most `n` more digits give, and the text behind it. A blank that ends the digits
belongs to them. -/
def readCode (code : Nat) : (n : Nat) → List Char → Nat × List Char
  | _, [] => (code, [])
  | 0, c :: s => (code, if ['\t', '\n', ' '].contains c then s else c :: s)
  | n + 1, c :: s =>
    match hexValue? c with
    | some digit => readCode (16 * code + digit) n s
    | none => (code, if ['\t', '\n', ' '].contains c then s else c :: s)

theorem length_readCode (code n : Nat) (s : List Char) : (readCode code n s).2.length ≤ s.length := by
  fun_induction readCode code n s with
  | case1 => exact Nat.le_refl _
  | case2 => split <;> simp
  | case3 code c s n digit _ ih => exact Nat.le_succ_of_le ih
  | case4 => split <;> simp

/-- What a backslash in front of a text stands for, and the text behind that. -/
def escaped? : List Char → Option (Char × List Char)
  | [] => none
  | c :: s =>
    if c = '\n' then none
    else match hexValue? c with
      | some digit => some (ofCode (readCode digit 5 s).1, (readCode digit 5 s).2)
      | none => some (c, s)

theorem length_escaped? {s rest : List Char} {c : Char} (h : escaped? s = some (c, rest)) :
    rest.length < s.length := by
  cases s with
  | nil => cases h
  | cons d s =>
    rw [escaped?] at h
    split at h
    · cases h
    · split at h
      · cases h
        exact Nat.lt_succ_of_le (length_readCode _ 5 s)
      · cases h
        exact Nat.lt_succ_self _

/-- What the parts of an identifier at the front of a text stand for, and the text behind them. -/
def readParts : List Char → List Char × List Char
  | [] => ([], [])
  | c :: s =>
    if isPart c then let (name, rest) := readParts s; (c :: name, rest)
    else if c = '\\' then
      match _h : escaped? s with
      | some (d, s') => let (name, rest) := readParts s'; (d :: name, rest)
      | none => ([], c :: s)
    else ([], c :: s)
termination_by s => s.length
decreasing_by
  · exact Nat.lt_succ_self _
  · exact Nat.lt_succ_of_lt (length_escaped? _h)

def opens : List Char → Bool
  | [] => false
  | c :: s => isStart c || (c = '\\' && (escaped? s).isSome)

/-- Whether an identifier begins here, behind one hyphen or two if need be. -/
def begins : List Char → Bool
  | '-' :: s => s.head? = some '-' || opens s
  | s => opens s

/-- The identifier at the front of a text, and the text behind it. -/
def read? (s : List Char) : Option (List Char × List Char) :=
  if begins s then some (readParts s) else none

theorem length_readParts (s : List Char) : (readParts s).2.length ≤ s.length := by
  fun_induction readParts s with
  | case1 => exact Nat.le_refl _
  | case2 _ _ _ _ _ hs ih =>
    rw [hs] at ih
    exact Nat.le_succ_of_le ih
  | case3 s d s' h _ _ hs _ ih =>
    rw [hs] at ih
    exact Nat.le_trans ih (Nat.le_succ_of_le (Nat.le_of_lt (length_escaped? h)))
  | case4 => exact Nat.le_refl _
  | case5 => exact Nat.le_refl _

/-- A text that no identifier in front of it goes on with. -/
def Apart (s : List Char) : Prop := ∀ c ∈ s.head?, isPart c = false ∧ c ≠ '\\'

theorem readParts_of_apart {s : List Char} (h : Apart s) : readParts s = ([], s) := by
  cases s with
  | nil => rw [readParts]
  | cons c s =>
    obtain ⟨hpart, hslash⟩ := h c rfl
    rw [readParts, hpart, if_neg Bool.false_ne_true, if_neg hslash]

theorem readParts_part {c : Char} (h : isPart c) (s : List Char) :
    readParts (c :: s) = (c :: (readParts s).1, (readParts s).2) := by
  rw [readParts, if_pos h]

/-- The marks of class names that are escaped. -/
def marks : List Char := [':', '/', '.']

theorem escaped?_mark {c : Char} (h : c ∈ marks) (s : List Char) : escaped? (c :: s) = some (c, s) := by
  simp only [marks, List.mem_cons, List.not_mem_nil, or_false] at h
  rcases h with rfl | rfl | rfl <;> rfl

theorem readParts_mark {c : Char} (h : c ∈ marks) (s : List Char) :
    readParts ('\\' :: c :: s) = (c :: (readParts s).1, (readParts s).2) := by
  have hc := escaped?_mark h s
  rw [readParts, if_neg (by decide), if_pos rfl]
  split
  · rename_i hsome
    rw [hc] at hsome
    cases hsome
    rfl
  · rename_i hnone
    rw [hc] at hnone
    cases hnone

theorem isPart_or_mark {name : List Char} (h : isClassName name) {c : Char} (hc : c ∈ name) :
    isPart c ∨ c ∈ marks := by
  have hall := List.all_eq_true.1 (Bool.and_eq_true_iff.1 h).2 c hc
  simp only [Bool.or_eq_true, List.contains_iff_mem] at hall
  rcases hall with (hletter | hdigit) | hmark
  · exact .inl (by simp [isPart, isStart, hletter])
  · exact .inl (by simp [isPart, hdigit])
  · simp only [List.mem_cons, List.not_mem_nil, or_false] at hmark
    rcases hmark with rfl | rfl | hmark
    · exact .inl rfl
    · exact .inl rfl
    · exact .inr (by simpa [marks] using hmark)

theorem escapeChars_part {c : Char} (h : isPart c) (s : List Char) :
    ClassName.escapeChars (c :: s) = c :: ClassName.escapeChars s := by
  rw [ClassName.escapeChars, if_neg]
  rintro (rfl | rfl | rfl) <;> exact absurd h (by decide)

theorem escapeChars_mark {c : Char} (h : c ∈ marks) (s : List Char) :
    ClassName.escapeChars (c :: s) = '\\' :: c :: ClassName.escapeChars s := by
  rw [ClassName.escapeChars, if_pos (by simpa [marks] using h)]

/-- A class name that is escaped reads back, up to a text that it does not go on with. -/
theorem readParts_escapeChars {name : List Char} (h : ∀ c ∈ name, isPart c ∨ c ∈ marks)
    {tail : List Char} (ht : Apart tail) :
    readParts (ClassName.escapeChars name ++ tail) = (name, tail) := by
  induction name with
  | nil => exact readParts_of_apart ht
  | cons c name ih =>
    obtain ⟨hc, hname⟩ := List.forall_mem_cons.1 h
    rcases hc with hpart | hmark
    · rw [escapeChars_part hpart, List.cons_append, readParts_part hpart, ih hname]
    · rw [escapeChars_mark hmark, List.cons_append, List.cons_append, readParts_mark hmark,
        ih hname]

/-- A digit comes first, or right behind a hyphen that comes first. -/
def ledByDigit : List Char → Bool
  | '-' :: s => s.head?.any isDigit
  | s => s.head?.any isDigit

theorem not_digit_of_isStart {c : Char} (h : isStart c) : isDigit c = false ∧ c ≠ '-' := by
  simp only [isStart, isLetter, Bool.or_eq_true, Bool.and_eq_true, decide_eq_true_eq, Char.le_def,
    UInt32.le_iff_toNat_le] at h
  have hcode : 0x41 ≤ c.toNat := by
    rcases h with ((hsmall | hcapital) | rfl) | hbeyond
    · exact Nat.le_trans (by decide) hsmall.1
    · exact hcapital.1
    · decide
    · omega
  constructor
  · simp only [isDigit, Bool.and_eq_false_iff, decide_eq_false_iff_not, Char.le_def,
      UInt32.le_iff_toNat_le]
    exact .inr (Nat.not_le.2 (Nat.lt_of_lt_of_le (by decide) hcode))
  · rintro rfl
    exact absurd hcode (by decide)

theorem isStart_of_isPart {c : Char} (h : isPart c) : isStart c = (!isDigit c && c != '-') := by
  cases hstart : isStart c with
  | true => simp [not_digit_of_isStart hstart]
  | false => cases hdigit : isDigit c <;> simp_all [isPart]

theorem opens_escapeChars {c : Char} (h : isPart c ∨ c ∈ marks) (s tail : List Char) :
    opens (ClassName.escapeChars (c :: s) ++ tail) = (!isDigit c && c != '-') := by
  rcases h with hpart | hmark
  · have hslash : c ≠ '\\' := by
      rintro rfl
      exact absurd hpart (by decide)
    rw [escapeChars_part hpart, List.cons_append, opens, isStart_of_isPart hpart]
    simp [hslash]
  · rw [escapeChars_mark hmark, List.cons_append, List.cons_append, opens, escaped?_mark hmark]
    simp only [marks, List.mem_cons, List.not_mem_nil, or_false] at hmark
    rcases hmark with rfl | rfl | rfl <;> rfl

theorem head?_escapeChars {c : Char} (h : isPart c ∨ c ∈ marks) (s tail : List Char) :
    (ClassName.escapeChars (c :: s) ++ tail).head? = some '-' ↔ c = '-' := by
  rcases h with hpart | hmark
  · simp [escapeChars_part hpart]
  · rw [escapeChars_mark hmark]
    simp only [marks, List.mem_cons, List.not_mem_nil, or_false] at hmark
    rcases hmark with rfl | rfl | rfl <;> simp

theorem begins_of_head? {s : List Char} (h : s.head? ≠ some '-') : begins s = opens s := by
  rw [begins.eq_def]
  split
  · exact absurd rfl h
  · rfl

theorem ledByDigit_of_ne {c : Char} (h : c ≠ '-') (s : List Char) :
    ledByDigit (c :: s) = isDigit c := by
  rw [ledByDigit.eq_def]
  split
  · rename_i hs
    exact absurd (List.cons.inj hs).1 h
  · rfl

/-- An escaped class name begins an identifier just if no digit leads it. -/
theorem begins_escapeChars {name : List Char} (h : isClassName name) (tail : List Char) :
    begins (ClassName.escapeChars name ++ tail) = !ledByDigit name := by
  have hall : ∀ c ∈ name, isPart c ∨ c ∈ marks := fun c hc => isPart_or_mark h hc
  cases name with
  | nil => cases h
  | cons c s =>
    have hc := hall c (by simp)
    by_cases hhyphen : c = '-'
    · subst hhyphen
      cases s with
      | nil => cases h
      | cons d s =>
        have hd := hall d (by simp)
        have hhead : decide ((ClassName.escapeChars (d :: s) ++ tail).head? = some '-') =
            (d == '-') := by
          rw [Bool.eq_iff_iff, decide_eq_true_iff, head?_escapeChars hd, beq_iff_eq]
        rw [escapeChars_part rfl, List.cons_append, begins, hhead, opens_escapeChars hd]
        by_cases hsecond : d = '-'
        · subst hsecond
          rfl
        · simp [ledByDigit, bne, beq_eq_false_iff_ne.2 hsecond]
    · rw [begins_of_head? (mt (head?_escapeChars hc s tail).1 hhyphen), opens_escapeChars hc,
        ledByDigit_of_ne hhyphen]
      simp [hhyphen]

theorem read?_escapeChars {name : List Char} (h : isClassName name) {tail : List Char}
    (ht : Apart tail) : read? (ClassName.escapeChars name ++ tail) =
      if ledByDigit name then none else some (name, tail) := by
  rw [read?, begins_escapeChars h, readParts_escapeChars (fun c hc => isPart_or_mark h hc) ht]
  cases ledByDigit name <;> rfl

end Identifier
end UtilityCss
