import UtilityCss.Proofs.Distinct
import UtilityCss.Proofs.Source.Group
import UtilityCss.Proofs.Source.Literal
import UtilityCss.Proofs.Text.Pieces

namespace UtilityCss

namespace Source

/-- `word` stands in `s`, behind `taken` characters or more, at a place with a character before it, or with
`before` where it stands at the start, and the text behind it. -/
def Stands (word : List Char) (taken : Nat) (before : Option Char) (s : List Char)
    (place : Option Char × List Char) : Prop :=
  ∃ ahead : List Char, taken ≤ ahead.length ∧ s = ahead ++ (word ++ place.2) ∧
    place.1 = (before.toList ++ ahead).getLast?

theorem stands_cons {word s : List Char} {taken : Nat} {before : Option Char} {c : Char}
    {place : Option Char × List Char} : Stands word taken before (c :: s) place ↔
      (taken = 0 ∧ c :: s = word ++ place.2 ∧ place.1 = before) ∨
        Stands word (taken - 1) (some c) s place := by
  constructor
  · rintro ⟨_ | ⟨d, ahead⟩, hlen, htext, hbefore⟩
    · left
      exact ⟨by simpa using hlen, htext, by cases before <;> simpa using hbefore⟩
    · right
      obtain ⟨rfl, rfl⟩ := List.cons_eq_cons.1 htext
      refine ⟨ahead, ?_, rfl, ?_⟩
      · rw [List.length_cons] at hlen
        omega
      · cases before <;> simpa using hbefore
  · rintro (⟨rfl, htext, hbefore⟩ | ⟨ahead, hlen, rfl, hbefore⟩)
    · exact ⟨[], Nat.le_refl _, htext, by cases before <;> simpa using hbefore⟩
    · refine ⟨c :: ahead, ?_, rfl, ?_⟩
      · rw [List.length_cons]
        omega
      · cases before <;> simpa using hbefore

/-- A word whose first character does not come again cannot stand at a place that begins within another. -/
theorem length_le_of_stands {a : Char} {w rest : List Char} (ha : a ∉ w) {before : Option Char}
    {place : Option Char × List Char} (h : Stands (a :: w) 0 before (w ++ rest) place) :
    Stands (a :: w) w.length before (w ++ rest) place := by
  obtain ⟨ahead, -, htext, hbefore⟩ := h
  refine ⟨ahead, ?_, htext, hbefore⟩
  obtain ⟨more, rfl, -⟩ | ⟨more, rfl, hrest⟩ := List.append_eq_append_iff.1 htext
  · simp
  · cases more with
    | nil => simp
    | cons b more =>
      rw [List.cons_append, List.cons_append, List.cons_eq_cons] at hrest
      exact absurd (List.mem_append_right ahead (by rw [hrest.1]; exact List.mem_cons_self)) ha

/-- The search finds all places, although it goes on only behind each one found. -/
theorem mem_occurrences_iff {a : Char} {w : List Char} (ha : a ∉ w) {s : List Char} {taken : Nat}
    {before : Option Char} {place : Option Char × List Char} :
    place ∈ occurrences (a :: w) taken before s ↔ Stands (a :: w) taken before s place := by
  fun_induction occurrences (a :: w) taken before s with
  | case1 => simp [Stands]
  | case2 taken before c s ih => simp [stands_cons, ih]
  | case3 before c s rest hrest ih =>
    rw [Text.after?_eq_some_iff, List.cons_append, List.cons_eq_cons] at hrest
    obtain ⟨rfl, rfl⟩ := hrest
    rw [List.mem_cons, ih, stands_cons]
    refine or_congr ?_ ⟨fun ⟨ahead, _, h⟩ => ⟨ahead, Nat.zero_le _, h⟩, length_le_of_stands ha⟩
    obtain ⟨first, last⟩ := place
    simp [Prod.mk.injEq, eq_comm, and_comm]
  | case4 before c s hnone ih =>
    rw [ih, stands_cons, or_iff_right]
    rintro ⟨-, htext, -⟩
    rw [Text.after?_eq_some_iff.2 htext] at hnone
    cases hnone

theorem mem_behindWord_iff {isNameChar : Char → Bool} {word : String} {a : Char} {w : List Char}
    (hword : word.toList = a :: w) (ha : a ∉ w) {s rest : List Char} :
    rest ∈ behindWord isNameChar word s ↔ ∃ ahead : List Char, s = ahead ++ (word.toList ++ rest) ∧
      (∀ c ∈ ahead.getLast?, isNameChar c = false) ∧ ∀ c ∈ rest.head?, isNameChar c = false := by
  have hbounds : ∀ before : Option Char, (∀ c ∈ before, isNameChar c = false) ∧
      (∀ c ∈ rest.head?, isNameChar c = false) ↔
        (before.any isNameChar || rest.head?.any isNameChar) = false := fun before => by
    rw [Bool.or_eq_false_iff, Option.any_eq_false, Option.any_eq_false]
    rfl
  simp only [behindWord, hword, List.mem_filterMap, mem_occurrences_iff ha, hbounds]
  constructor
  · rintro ⟨⟨before, behind⟩, ⟨ahead, -, htext, hbefore⟩, hkept⟩
    obtain rfl : before = ahead.getLast? := hbefore
    rw [Option.ite_none_left_eq_some, Option.some_inj] at hkept
    obtain ⟨htouched, rfl⟩ := hkept
    exact ⟨ahead, htext, Bool.eq_false_iff.2 htouched⟩
  · rintro ⟨ahead, htext, hfree⟩
    exact ⟨(ahead.getLast?, rest), ⟨ahead, Nat.zero_le _, htext, rfl⟩,
      if_neg (Bool.eq_false_iff.1 hfree)⟩

def isBareChar (c : Char) : Bool := !Text.isBlank c && c != '>'

/-- No brace closes the group that `s` is in. -/
def NeverCloses (s : List Char) : Prop :=
  ∀ (code : Code) (tail : List Char), code.isSound .brace → s ≠ code.text .brace ++ '}' :: tail

/-- The texts that are read for classes where `s` begins with the value of an attribute. -/
inductive IsValue : List Char → List Char → Prop
  | quoted {mark : Char} {body : List Letter} {tail : List Char} (hmark : isQuote mark)
      (hbody : body.all (Letter.isSound mark)) (htail : EndsLiteral mark tail) :
      IsValue (mark :: (body.flatMap Letter.text ++ tail)) (body.map Letter.char)
  | group {code : Code} {value tail : List Char} (hcode : code.isSound .brace)
      (hvalue : value ∈ code.literals) : IsValue ('{' :: (code.text .brace ++ '}' :: tail)) value
  /-- a group that runs to the end of the text -/
  | unclosed {s value : List Char} (hopen : NeverCloses s) (hvalue : value ∈ stringLiterals s) :
      IsValue ('{' :: s) value
  | bare {c : Char} {s value tail : List Char} (hquote : isQuote c = false) (hbrace : c ≠ '{')
      (htext : c :: s = value ++ tail) (hvalue : ∀ d ∈ value, isBareChar d)
      (htail : ∀ d ∈ tail.head?, isBareChar d = false) : IsValue (c :: s) value

theorem fst_quoted_of_ends {mark : Char} {body : List Letter} {tail : List Char}
    (hmark : isQuote mark) (hbody : body.all (Letter.isSound mark)) (htail : EndsLiteral mark tail) :
    (quoted mark (body.flatMap Letter.text ++ tail)).1 = body.map Letter.char := by
  rw [quoted_letters hbody]
  obtain hhead | rfl | rfl := htail
  · obtain ⟨rest, rfl⟩ := List.head?_eq_some_iff.1 hhead
    simp [quoted_plain (ne_backslash_of_isQuote hmark)]
  · simp [quoted]
  · simp [quoted]

theorem fst_group_of_open {s : List Char} (hopen : NeverCloses s) : (group .brace s).1 = s := by
  obtain ⟨code, tail, hcode, htext⟩ | hall := group_code_or_unclosed .brace s
  · exact absurd htext (hopen code tail hcode)
  · rw [hall]

theorem isValue_quoted_iff {mark : Char} (hmark : isQuote mark) {s value : List Char} :
    IsValue (mark :: s) value ↔ value = (quoted mark s).1 := by
  constructor
  · intro h
    cases h with
    | quoted _ hbody htail => exact (fst_quoted_of_ends hmark hbody htail).symm
    | group | unclosed => exact absurd hmark (by decide)
    | bare hquote => exact absurd hmark (by simp [hquote])
  · rintro rfl
    obtain ⟨body, tail, hbody, htail, rfl⟩ := exists_body mark s
    rw [fst_quoted_of_ends hmark hbody htail]
    exact .quoted hmark hbody htail

theorem isValue_brace_iff {s value : List Char} :
    IsValue ('{' :: s) value ↔ value ∈ stringLiterals (group .brace s).1 := by
  have hread {code : Code} (hcode : code.isSound .brace) (tail : List Char) :
      stringLiterals (group .brace (code.text .brace ++ '}' :: tail)).1 = code.literals := by
    have hgroup : group .brace (code.text .brace ++ '}' :: tail) = _ := group_code hcode tail
    rw [hgroup, stringLiterals_text hcode]
  -- The value is the inside of the group, which the text determines.
  constructor
  · intro h
    cases h with
    | quoted hmark => exact absurd hmark (by decide)
    | @group code _ tail hcode hvalue =>
      rw [hread hcode]
      exact hvalue
    | unclosed hopen hvalue =>
      rw [fst_group_of_open hopen]
      exact hvalue
    | bare _ hbrace => exact absurd rfl hbrace
  · intro hvalue
    by_cases hclosed : ∃ (code : Code) (tail : List Char),
        code.isSound .brace ∧ s = code.text .brace ++ '}' :: tail
    · obtain ⟨code, tail, hcode, rfl⟩ := hclosed
      rw [hread hcode] at hvalue
      exact .group hcode hvalue
    · have hopen : NeverCloses s :=
        fun code tail hcode htext => hclosed ⟨code, tail, hcode, htext⟩
      rw [fst_group_of_open hopen] at hvalue
      exact .unclosed hopen hvalue

theorem isValue_bare_iff {c : Char} (hquote : isQuote c = false) (hbrace : c ≠ '{')
    {s value : List Char} : IsValue (c :: s) value ↔ value = (c :: s).takeWhile isBareChar := by
  constructor
  · intro h
    cases h with
    | quoted hmark => exact absurd hmark (by simp [hquote])
    | group | unclosed => exact absurd rfl hbrace
    | bare _ _ htext hvalue htail =>
      rw [htext]
      exact (Text.takeWhile_append_of_ends hvalue htail).symm
  · rintro rfl
    exact .bare hquote hbrace List.takeWhile_append_dropWhile.symm (fun _ => List.mem_takeWhile_imp)
      (Text.forall_head?_dropWhile isBareChar (c :: s))

theorem mem_attributeValue_iff {s value : List Char} :
    value ∈ attributeValue s ↔ IsValue s value := by
  cases s with
  | nil => exact ⟨nofun, nofun⟩
  | cons c s =>
    rw [attributeValue]
    split
    · rename_i hquote
      rw [List.mem_singleton, isValue_quoted_iff hquote]
    · rename_i hquote
      split
      · rename_i hbrace
        rw [hbrace, isValue_brace_iff]
      · rename_i hbrace
        rw [List.mem_singleton, isValue_bare_iff (by simpa using hquote) hbrace]
        rfl

/-- A place in `text` where an attribute for classes stands. -/
structure ClassAttribute (text : List Char) where
  ahead : List Char
  name : String
  gap : List Char
  indent : List Char
  /-- the text that begins with the value -/
  rest : List Char
  text_eq : text = ahead ++ (name.toList ++ (gap ++ '=' :: (indent ++ rest)))
  name_mem : name ∈ ["class", "className"]
  apart_ahead : ∀ c ∈ ahead.getLast?, isAttributeChar c = false
  apart_behind : ∀ c ∈ (gap ++ ['=']).head?, isAttributeChar c = false
  blank_gap : ∀ c ∈ gap, Text.isBlank c
  blank_indent : ∀ c ∈ indent, Text.isBlank c
  solid_rest : ∃ c ∈ rest.head?, Text.isBlank c = false

theorem IsValue.ne_nil {s value : List Char} (h : IsValue s value) : s ≠ [] := by
  cases h <;> simp

/-- No name of a class attribute can overlap itself. -/
theorem first_notMem {name : String} (h : name ∈ ["class", "className"]) :
    ∃ (a : Char) (w : List Char), name.toList = a :: w ∧ a ∉ w := by
  rcases List.mem_pair.1 h with rfl | rfl
  · exact ⟨'c', "lass".toList, rfl, by decide⟩
  · exact ⟨'c', "lassName".toList, rfl, by decide⟩

theorem exists_attribute {text value : List Char} (h : value ∈ classAttributes text) :
    ∃ a : ClassAttribute text, IsValue a.rest value := by
  obtain ⟨name, hname, hvalues⟩ := List.mem_flatMap.1 h
  obtain ⟨behind, hbehind, hvalue⟩ := List.mem_flatMap.1 hvalues
  obtain ⟨first, w, hword, hfirst⟩ := first_notMem hname
  obtain ⟨ahead, htext, hahead, hfree⟩ := (mem_behindWord_iff hword hfirst).1 hbehind
  split at hvalue
  · rename_i indented htrim
    obtain ⟨⟨gap, hgap, rfl⟩, -⟩ := Text.trimStart_eq_iff.1 htrim
    generalize hindented : Text.trimStart indented = rest at hvalue
    obtain ⟨⟨indent, hindent, rfl⟩, hsolid⟩ := Text.trimStart_eq_iff.1 hindented
    have hread := mem_attributeValue_iff.1 hvalue
    refine ⟨⟨ahead, name, gap, indent, rest, htext, hname, hahead, ?_, hgap, hindent, ?_⟩, hread⟩
    · cases gap <;> exact hfree
    · obtain ⟨c, s, rfl⟩ := List.exists_cons_of_ne_nil hread.ne_nil
      exact ⟨c, rfl, hsolid c rfl⟩
  · cases hvalue

theorem mem_of_attribute {text value : List Char} (a : ClassAttribute text)
    (h : IsValue a.rest value) : value ∈ classAttributes text := by
  obtain ⟨first, w, hword, hfirst⟩ := first_notMem a.name_mem
  refine List.mem_flatMap.2 ⟨a.name, a.name_mem, List.mem_flatMap.2
    ⟨a.gap ++ '=' :: (a.indent ++ a.rest), (mem_behindWord_iff hword hfirst).2
      ⟨a.ahead, a.text_eq, a.apart_ahead, ?_⟩, ?_⟩⟩
  · have hbehind := a.apart_behind
    generalize a.gap = gap at hbehind ⊢
    cases gap <;> exact hbehind
  · obtain ⟨c, hc, hsolid⟩ := a.solid_rest
    have hgap : Text.trimStart (a.gap ++ '=' :: (a.indent ++ a.rest)) = '=' :: (a.indent ++ a.rest) :=
      Text.trimStart_eq_iff.2 ⟨⟨a.gap, a.blank_gap, rfl⟩, fun d hd => by cases hd; decide⟩
    have hindent : Text.trimStart (a.indent ++ a.rest) = a.rest :=
      Text.trimStart_eq_iff.2 ⟨⟨a.indent, a.blank_indent, rfl⟩, fun d hd => by
        rwa [Option.mem_unique hd hc]⟩
    rw [hgap]
    simpa only [hindent] using mem_attributeValue_iff.2 h

end Source

open Source

namespace SourceKind

/-- The classes of markup are the class names among the words of the values of its class attributes, each
listed once. What stands ahead of an attribute may be any text and hides none. -/
theorem mem_classes_markup (text : String) :
    (markup.classes text).Nodup ∧ ∀ name, name ∈ markup.classes text ↔ isClassName name.toList ∧
      ∃ (a : ClassAttribute text.toList) (value : List Char),
        IsValue a.rest value ∧ name.toList ∈ Text.words value := by
  constructor
  · exact (Distinct.nodup_eraseDups _).map fun _ _ => String.ofList_injective
  · intro name
    rw [mem_classes]
    refine and_congr_right fun _ => ⟨?_, ?_⟩
    · rintro ⟨value, hvalue, hword⟩
      obtain ⟨a, ha⟩ := exists_attribute hvalue
      exact ⟨a, value, ha, hword⟩
    · rintro ⟨a, value, ha, hword⟩
      exact ⟨value, mem_of_attribute a ha, hword⟩

end SourceKind

end UtilityCss
