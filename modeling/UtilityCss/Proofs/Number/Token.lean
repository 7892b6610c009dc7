import Mathlib.Computability.Language
import UtilityCss.Length
import UtilityCss.Proofs.Number.Rounding
import UtilityCss.Text.Cut

namespace UtilityCss

/-- Runs of one ASCII digit or more. -/
def digitRuns : Language Char := {s | s ≠ [] ∧ ∀ c ∈ s, '0' ≤ c ∧ c ≤ '9'}

/-- Digits, or digits on both sides of a point. -/
def decimals : Language Char := digitRuns + digitRuns * {['.']} * digitRuns

/-- Digits that are not all zeros. -/
def denominators : Language Char := {s | s ∈ digitRuns ∧ ∃ c ∈ s, c ≠ '0'}

/-- Digits on both sides of a slash, of which those behind it are not all zeros. -/
def fractions : Language Char := digitRuns * {['/']} * denominators

theorem mem_digitRuns {s : List Char} :
    s ∈ digitRuns ↔ s ≠ [] ∧ ∀ c ∈ s, '0' ≤ c ∧ c ≤ '9' := Iff.rfl

theorem isInteger_iff {token : String} : isInteger token ↔ token.toList ∈ digitRuns := by
  rw [mem_digitRuns, isInteger]
  simp [Text.isDigit]

theorem mem_digitRuns_of_all {s : List Char} (hne : s ≠ []) (h : s.all Text.isDigit) :
    s ∈ digitRuns :=
  ⟨hne, fun c hc => by simpa [Text.isDigit] using List.all_eq_true.1 h c hc⟩

/-- Two texts with a separator between them. -/
theorem mem_separated {first last : Language Char} {sep : Char} {s : List Char} :
    s ∈ first * {[sep]} * last ↔ ∃ a ∈ first, ∃ b ∈ last, a ++ sep :: b = s := by
  rw [Language.mem_mul]
  constructor
  · rintro ⟨_, hfirst, b, hb, rfl⟩
    obtain ⟨a, ha, _, rfl, rfl⟩ := Language.mem_mul.1 hfirst
    exact ⟨a, ha, b, hb, by simp⟩
  · rintro ⟨a, ha, b, hb, rfl⟩
    exact ⟨a ++ [sep], Language.mem_mul.2 ⟨a, ha, [sep], rfl, rfl⟩, b, hb, by simp⟩

theorem notMem_of_digitRuns {sep : Char} (hsep : ¬ ('0' ≤ sep ∧ sep ≤ '9')) {s : List Char}
    (h : s ∈ digitRuns) : sep ∉ s := fun hm => hsep (h.2 sep hm)

/-- A text of digits on both sides of a separator is cut at that. -/
theorem mem_separated_of_cutAt {last : Language Char} {sep : Char}
    (hsep : ¬ ('0' ≤ sep ∧ sep ≤ '9')) {token first behind : String}
    (hcut : Text.cutAt sep token = some (first, behind)) :
    token.toList ∈ digitRuns * {[sep]} * last ↔ isInteger first ∧ behind.toList ∈ last := by
  obtain ⟨hfree, htext⟩ := Text.cutAt_eq_some_iff.1 hcut
  rw [mem_separated, htext, isInteger_iff]
  constructor
  · rintro ⟨a, ha, b, hb, he⟩
    have hcuts := congrArg (Text.cut sep) he
    rw [Text.cut_append b (notMem_of_digitRuns hsep ha), Text.cut_append _ hfree] at hcuts
    obtain ⟨rfl, rfl⟩ := Prod.mk.inj (Option.some.inj hcuts)
    exact ⟨ha, hb⟩
  · rintro ⟨ha, hb⟩
    exact ⟨_, ha, _, hb, rfl⟩

theorem notMem_separated_of_cutAt {first last : Language Char} {sep : Char} {token : String}
    (hcut : Text.cutAt sep token = none) : token.toList ∉ first * {[sep]} * last := by
  rw [mem_separated]
  rintro ⟨a, -, b, -, he⟩
  exact Text.cutAt_eq_none_iff.1 hcut (he ▸ by simp)

theorem isSome_number?_iff {token : String} :
    (number? token).isSome ↔ token.toList ∈ decimals := by
  rw [decimals, Language.mem_add, number?]
  cases hcut : Text.cutAt '.' token with
  | none =>
    rw [or_iff_left (notMem_separated_of_cutAt hcut), ← isInteger_iff]
    simp
  | some parts =>
    obtain ⟨whole, part⟩ := parts
    have hpoint : token.toList ∉ digitRuns := by
      intro h
      refine notMem_of_digitRuns (show ¬ ('0' ≤ '.' ∧ '.' ≤ '9') by decide) h ?_
      rw [(Text.cutAt_eq_some_iff.1 hcut).2]
      simp
    rw [or_iff_right hpoint, mem_separated_of_cutAt (by decide) hcut, ← isInteger_iff]
    simp

/-- Reads digits to the end, with a point among them unless one was seen. -/
def readsOn : (seen : Bool) → List Char → Bool
  | _, [] => true
  | seen, c :: s =>
    if c = '.' then !seen && readsOn true s
    else Text.isDigit c && readsOn seen s

/-- A token that neither begins nor ends with a point is read from front to back. -/
def readsDecimal (token : List Char) : Bool :=
  !token.isEmpty && token.head? != some '.' && token.getLast? != some '.' && readsOn false token

theorem readOn_true {s : List Char} : readsOn true s = s.all Text.isDigit := by
  induction s with
  | nil => rfl
  | cons c s ih =>
    by_cases hc : c = '.'
    · subst hc
      rfl
    · rw [readsOn, if_neg hc, ih, List.all_cons]

/-- The first point is the last. -/
theorem readOn_false {s : List Char} : readsOn false s = match Text.cut '.' s with
    | none => s.all Text.isDigit
    | some (whole, part) => whole.all Text.isDigit && part.all Text.isDigit := by
  induction s with
  | nil => rfl
  | cons c s ih =>
    by_cases hc : c = '.'
    · rw [readsOn, if_pos hc, readOn_true, Text.cut, if_pos hc]
      simp
    · rw [readsOn, if_neg hc, ih, Text.cut, if_neg hc]
      cases Text.cut '.' s with
      | none => rfl
      | some parts => simp [Bool.and_assoc]

/-- What is read from front to back are the decimals. -/
theorem readsDecimal_iff {token : String} : readsDecimal token.toList ↔ (number? token).isSome := by
  rw [readsDecimal, readOn_false, number?, Text.cutAt]
  cases hcut : Text.cut '.' token.toList with
  | none =>
    have hpoint := Text.cut_eq_none_iff.1 hcut
    have hhead : token.toList.head? ≠ some '.' := fun h => hpoint (List.mem_of_head? h)
    have hlast : token.toList.getLast? ≠ some '.' := fun h => hpoint (List.mem_of_getLast? h)
    simp [isInteger, hhead, hlast]
  | some parts =>
    obtain ⟨whole, part⟩ := parts
    have htext := Text.eq_of_cut hcut
    have hpoint := Text.not_mem_of_cut hcut
    -- A point at an end leaves one of the two parts empty, and the other way round.
    have hhead : (token.toList.head? != some '.') = !whole.isEmpty := by
      rw [htext]
      cases whole with
      | nil => rfl
      | cons c whole => simpa using Ne.symm (List.ne_of_not_mem_cons hpoint)
    have hlast : part.all Text.isDigit →
        (token.toList.getLast? != some '.') = !part.isEmpty := by
      intro hdigits
      rw [htext, List.getLast?_append_of_ne_nil _ (List.cons_ne_nil _ _)]
      cases part with
      | nil => rfl
      | cons c part =>
        rw [List.getLast?_cons_cons, List.getLast?_eq_some_getLast (List.cons_ne_nil c part)]
        have hdigit := List.all_eq_true.1 hdigits _ (List.getLast_mem (List.cons_ne_nil c part))
        simp only [List.isEmpty_cons, Bool.not_false, bne_iff_ne, ne_eq, Option.some.injEq]
        exact fun h => absurd (h ▸ hdigit) (by decide)
    have hne : token.toList.isEmpty = false := by simp [htext]
    cases hdigits : part.all Text.isDigit with
    | false => simp [isInteger, hdigits]
    | true => simp [isInteger, hdigits, hhead, hlast hdigits, hne, Bool.and_right_comm]

theorem foldl_digits_eq_zero_iff {s : List Char} {n : Nat} :
    s.foldl (fun n c => 10 * n + (c.toNat - '0'.toNat)) n = 0 ↔
      n = 0 ∧ ∀ c ∈ s, c.toNat - '0'.toNat = 0 := by
  induction s generalizing n with
  | nil => simp
  | cons c s ih =>
    rw [List.foldl_cons, ih, List.forall_mem_cons, Nat.add_eq_zero_iff, and_assoc]
    exact and_congr_left' (by omega)

theorem digitsValue_eq_zero_iff {s : List Char} (h : s ∈ digitRuns) :
    digitsValue s = 0 ↔ ∀ c ∈ s, c = '0' := by
  rw [digitsValue, foldl_digits_eq_zero_iff]
  refine ⟨fun hzero c hc => ?_, fun hzero => ⟨rfl, fun c hc => by rw [hzero c hc]; rfl⟩⟩
  have hlow : '0'.toNat ≤ c.toNat := (h.2 c hc).1
  have hdigit := hzero.2 c hc
  exact Char.toNat_inj.1 (by omega)

theorem isSome_fraction?_iff {token : String} :
    (fraction? token).isSome ↔ token.toList ∈ fractions := by
  rw [fractions, fraction?]
  cases hcut : Text.cutAt '/' token with
  | none => simpa using notMem_separated_of_cutAt hcut
  | some parts =>
    obtain ⟨numerator, denominator⟩ := parts
    rw [mem_separated_of_cutAt (by decide) hcut]
    have hden : denominator.toList ∈ denominators ↔
        isInteger denominator ∧ digitsValue denominator.toList ≠ 0 := by
      rw [isInteger_iff]
      refine and_congr_right fun hdigits => ?_
      rw [Ne, digitsValue_eq_zero_iff hdigits]
      simp
    rw [hden]
    by_cases hnumerator : isInteger numerator <;> by_cases hdenominator : isInteger denominator <;>
      simp [hnumerator, hdenominator, Magnitude.ofDecimal_eq_zero_iff]

/-- The keywords among the sizes that no decimal writes. -/
def sizeWords : List String := ["auto", "px", "full", "screen"]

theorem isChar_of_mem_separated {sep : Char} {a b : List Char} (ha : a ∈ digitRuns)
    (hb : b ∈ digitRuns) : ∀ c ∈ a ++ sep :: b, ('0' ≤ c ∧ c ≤ '9') ∨ c = sep := by
  intro c hc
  rcases List.mem_append.1 hc with hc | hc
  · exact .inl (ha.2 c hc)
  · rcases List.mem_cons.1 hc with hc | hc
    · exact .inr hc
    · exact .inl (hb.2 c hc)

theorem isChar_of_decimals {s : List Char} (h : s ∈ decimals) :
    ∀ c ∈ s, ('0' ≤ c ∧ c ≤ '9') ∨ c = '.' := by
  rcases h with h | h
  · exact fun c hc => .inl (h.2 c hc)
  · obtain ⟨a, ha, b, hb, rfl⟩ := mem_separated.1 h
    exact isChar_of_mem_separated ha hb

theorem isChar_of_fractions {s : List Char} (h : s ∈ fractions) :
    ∀ c ∈ s, ('0' ≤ c ∧ c ≤ '9') ∨ c = '/' := by
  obtain ⟨a, ha, b, hb, rfl⟩ := mem_separated.1 h
  exact isChar_of_mem_separated ha hb.1

theorem slash_mem_of_fractions {s : List Char} (h : s ∈ fractions) : '/' ∈ s := by
  obtain ⟨a, -, b, -, rfl⟩ := mem_separated.1 h
  simp

theorem fraction?_eq_none {token : String} (h : (number? token).isSome) : fraction? token = none := by
  rw [← Option.not_isSome_iff_eq_none, isSome_fraction?_iff]
  intro hfraction
  have hslash := isChar_of_decimals (isSome_number?_iff.1 h) '/' (slash_mem_of_fractions hfraction)
  exact absurd hslash (by decide)

/-- Keywords apart, a token is read as a fraction or as a count of steps. -/
theorem ofToken?_of_notMem {token : String} (h : token ∉ "0" :: sizeWords) :
    Size.ofToken? token =
      ((fraction? token).map Size.percent).or ((number? token).map Size.ofSteps) := by
  have hkeywords : Size.keywords.lookup token = none := by
    rw [List.lookup_eq_none_iff]
    intro entry hentry
    have hname : entry.1 ∈ "0" :: sizeWords := List.mem_map_of_mem hentry
    rw [bne_iff_ne]
    rintro rfl
    exact h hname
  rw [Size.ofToken?, hkeywords]
  cases fraction? token <;> rfl

theorem isSpacing_ofSteps (steps : Magnitude) : (Size.ofSteps steps).isSpacing := by
  unfold Size.ofSteps
  split <;> rfl

theorem isSome_ofToken?_iff {token : String} : (Size.ofToken? token).isSome ↔
    token ∈ sizeWords ∨ (number? token).isSome ∨ (fraction? token).isSome := by
  by_cases hword : token ∈ "0" :: sizeWords
  · have hall : ∀ t ∈ "0" :: sizeWords, (Size.ofToken? t).isSome ∧
        (t ∈ sizeWords ∨ (number? t).isSome) := by decide
    obtain ⟨hsome, hvalue⟩ := hall token hword
    exact iff_of_true hsome (hvalue.imp_right .inl)
  · rw [ofToken?_of_notMem hword, or_iff_right fun h => hword (List.mem_cons_of_mem _ h)]
    cases number? token <;> cases fraction? token <;> simp

theorem isSome_spacing_iff {token : String} :
    ((Size.ofToken? token).filter Size.isSpacing).isSome ↔
      token = "px" ∨ (number? token).isSome := by
  by_cases hword : token ∈ "0" :: sizeWords
  · have hall : ∀ t ∈ "0" :: sizeWords, ((Size.ofToken? t).filter Size.isSpacing).isSome ↔
        t = "px" ∨ (number? t).isSome := by decide
    exact hall token hword
  · have hpixel : token ≠ "px" := by
      rintro rfl
      exact hword (by decide)
    rw [ofToken?_of_notMem hword, or_iff_right hpixel]
    cases hnumber : number? token with
    | some amount =>
      rw [fraction?_eq_none (by simp [hnumber])]
      simp [isSpacing_ofSteps]
    | none => cases fraction? token <;> simp [Size.isSpacing]

/-- No reader of sizes takes the token, whatever the sign and the axis. -/
structure IsRefused (token : String) : Prop where
  number : number? token = none
  fraction : fraction? token = none
  length : ∀ negative axis, length? token negative axis = none
  spacing : ∀ negative, spacing? token negative = none

theorem isRefused_of_notMem {token : String} (hword : token ∉ sizeWords)
    (hnumber : token.toList ∉ decimals) (hfraction : token.toList ∉ fractions) :
    IsRefused token := by
  rw [← isSome_number?_iff, Option.not_isSome_iff_eq_none] at hnumber
  rw [← isSome_fraction?_iff, Option.not_isSome_iff_eq_none] at hfraction
  have hsize : Size.ofToken? token = none := by
    rw [← Option.not_isSome_iff_eq_none, isSome_ofToken?_iff]
    simp [hword, hnumber, hfraction]
  refine ⟨hnumber, hfraction, fun negative axis => ?_, fun negative => ?_⟩
  · rw [length?, hsize, Option.map_none]
  · rw [spacing?, hsize, Option.filter_none, Option.map_none]

theorem isDigit_iff {c : Char} : Text.isDigit c ↔ '0' ≤ c ∧ c ≤ '9' := by simp [Text.isDigit]

theorem not_isDigit_of_isLetter {c : Char} (h : Text.isLetter c) : ¬ Text.isDigit c := by
  simp only [Text.isLetter, Text.isDigit, Bool.or_eq_true, Bool.and_eq_true, decide_eq_true_eq,
    Char.le_def, UInt32.le_iff_toNat_le] at *
  have hsmall : 'a'.val.toNat = 97 := rfl
  have hlarge : 'A'.val.toNat = 65 := rfl
  have hnine : '9'.val.toNat = 57 := rfl
  omega

/-- A token with a character that neither a decimal nor a fraction has. -/
theorem isRefused_of_mem {token : String} {c : Char} (hword : token ∉ sizeWords)
    (hmem : c ∈ token.toList) (hdigit : ¬ Text.isDigit c) (hpoint : c ≠ '.') (hslash : c ≠ '/') :
    IsRefused token := by
  rw [isDigit_iff] at hdigit
  refine isRefused_of_notMem hword (fun h => ?_) (fun h => ?_)
  · exact (isChar_of_decimals h c hmem).elim hdigit hpoint
  · exact (isChar_of_fractions h c hmem).elim hdigit hslash

theorem isLetter_of_mem_sizeWords {word : String} (hword : word ∈ sizeWords) {c : Char}
    (hc : c ∈ word.toList) : Text.isLetter c := by
  have hletters : ∀ word ∈ sizeWords, word.toList.all Text.isLetter := by decide
  exact List.all_eq_true.1 (hletters word hword) c hc

theorem isRefused_foreign {token : String}
    (h : ∃ c ∈ token.toList, ¬ (Text.isLetter c ∨ Text.isDigit c ∨ c = '.' ∨ c = '/')) :
    IsRefused token := by
  obtain ⟨c, hmem, hforeign⟩ := h
  simp only [not_or] at hforeign
  exact isRefused_of_mem (fun hword => hforeign.1 (isLetter_of_mem_sizeWords hword hmem)) hmem
    hforeign.2.1 hforeign.2.2.1 hforeign.2.2.2

theorem isRefused_mixed {token : String} (hdigit : ∃ c ∈ token.toList, Text.isDigit c)
    (hletter : ∃ c ∈ token.toList, Text.isLetter c) : IsRefused token := by
  obtain ⟨d, hd, hdigit⟩ := hdigit
  obtain ⟨c, hc, hletter⟩ := hletter
  refine isRefused_of_mem (fun hword => ?_) hc (not_isDigit_of_isLetter hletter) ?_ ?_
  · exact not_isDigit_of_isLetter (isLetter_of_mem_sizeWords hword hd) hdigit
  · rintro rfl
    exact absurd hletter (by decide)
  · rintro rfl
    exact absurd hletter (by decide)

def isSeparator (c : Char) : Bool := c = '.' || c = '/'

theorem countP_isSeparator {s : List Char} (h : s ∈ digitRuns) : s.countP isSeparator = 0 := by
  rw [List.countP_eq_zero]
  intro c hc hsep
  have hdigit := h.2 c hc
  simp only [isSeparator, Bool.or_eq_true, decide_eq_true_eq] at hsep
  rcases hsep with rfl | rfl
  · exact absurd hdigit (by decide)
  · exact absurd hdigit (by decide)

theorem isRefused_repeated {token : String} (h : 2 ≤ token.toList.countP isSeparator) :
    IsRefused token := by
  have hwords : ∀ word ∈ sizeWords, word.toList.countP isSeparator = 0 := by decide
  have hone : ∀ (sep : Char) {a b : List Char}, a ∈ digitRuns → b ∈ digitRuns →
      (a ++ sep :: b).countP isSeparator ≤ 1 := by
    intro sep a b ha hb
    rw [List.countP_append, List.countP_cons, countP_isSeparator ha, countP_isSeparator hb]
    split <;> omega
  refine isRefused_of_notMem (fun hword => ?_) (fun hnumber => ?_) (fun hfraction => ?_)
  · have := hwords token hword
    omega
  · rcases hnumber with hrun | hpoint
    · have := countP_isSeparator hrun
      omega
    · obtain ⟨a, ha, b, hb, he⟩ := mem_separated.1 hpoint
      have := hone '.' ha hb
      rw [he] at this
      omega
  · obtain ⟨a, ha, b, hb, he⟩ := mem_separated.1 hfraction
    have := hone '/' ha hb.1
    rw [he] at this
    omega

/-- What the readers of sizes take. -/
structure ReadByGrammar (token : String) : Prop where
  number : (number? token).isSome ↔ token.toList ∈ decimals
  fraction : (fraction? token).isSome ↔ token.toList ∈ fractions
  length : ∀ negative axis, (length? token negative axis).isSome ↔
    token ∈ sizeWords ∨ (number? token).isSome ∨ (fraction? token).isSome
  spacing : ∀ negative, (spacing? token negative).isSome ↔
    token = "px" ∨ (number? token).isSome
  /-- signs, white space, digits beyond ASCII -/
  foreign : (∃ c ∈ token.toList, ¬ (Text.isLetter c ∨ Text.isDigit c ∨ c = '.' ∨ c = '/')) →
    IsRefused token
  /-- exponents -/
  mixed : (∃ c ∈ token.toList, Text.isDigit c) → (∃ c ∈ token.toList, Text.isLetter c) →
    IsRefused token
  /-- a second point or slash -/
  repeated : 2 ≤ token.toList.countP isSeparator → IsRefused token

/-- Every token is taken or refused by the grammar of its characters alone. -/
theorem readByGrammar (token : String) : ReadByGrammar token where
  number := isSome_number?_iff
  fraction := isSome_fraction?_iff
  length negative axis := by rw [length?, Option.isSome_map, isSome_ofToken?_iff]
  spacing negative := by rw [spacing?, Option.isSome_map, isSome_spacing_iff]
  foreign := isRefused_foreign
  mixed := isRefused_mixed
  repeated := isRefused_repeated

end UtilityCss
