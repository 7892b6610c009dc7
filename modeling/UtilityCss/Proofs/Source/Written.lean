import Mathlib.Data.List.Infix
import UtilityCss.Proofs.Source.Code

namespace UtilityCss.Source

/-- Text in which no literal begins. -/
def isFree (s : List Char) : Bool := s.all fun c => !isQuote c && c != '`'

/-- Each closing brace closes one that is open, and none stays open. -/
structure IsBalanced (s : List Char) : Prop where
  closes : ∀ p, p <+: s → p.count '}' ≤ p.count '{'
  ends : s.count '{' = s.count '}'

instance : DecidablePred IsBalanced := fun s =>
  decidable_of_iff ((∀ p ∈ s.inits, p.count '}' ≤ p.count '{') ∧ s.count '{' = s.count '}')
    ⟨fun h => ⟨fun p hp => h.1 p ((List.mem_inits p s).2 hp), h.2⟩,
      fun h => ⟨fun p hp => h.closes p ((List.mem_inits p s).1 hp), h.ends⟩⟩

/-- A backslash is before a letter that means more in a template. -/
def Letter.isGuarded (l : Letter) : Bool := l.escaped || ['\\', '`', '$'].all (l.char != ·)

/-- A string literal. -/
inductive Literal where
  | quoted (mark : Char) (body : List Letter)
  /-- The pieces of a template, with code in front of each but the first. -/
  | template (first : List Letter) (more : List (List Char × List Letter))

namespace Literal

/-- The text of an interpolation and the piece behind it. -/
def holeText (hole : List Char × List Letter) : List Char :=
  '$' :: '{' :: (hole.1 ++ '}' :: hole.2.flatMap Letter.text)

def text : Literal → List Char
  | quoted mark body => mark :: (body.flatMap Letter.text ++ [mark])
  | template first more => '`' :: (first.flatMap Letter.text ++ (more.flatMap holeText ++ ['`']))

def isSoundHole (hole : List Char × List Letter) : Bool :=
  isFree hole.1 && decide (IsBalanced hole.1) && hole.2.all Letter.isGuarded

def isSound : Literal → Bool
  | quoted mark body => isQuote mark && body.all (Letter.isSound mark)
  | template first more => first.all Letter.isGuarded && more.all isSoundHole

/-- The values that a literal is written for: its own, or those of its pieces. -/
def values : Literal → List (List Char)
  | quoted _ body => [body.map Letter.char]
  | template first more => (first :: more.map Prod.snd).map fun piece => piece.map Letter.char

/-- The values that hold something: any character in quotes, and in templates more than white space. -/
def shown : Literal → List (List Char)
  | l@(quoted _ _) => l.values.filter fun value => !value.isEmpty
  | l@(template _ _) => l.values.filter fun value => !value.all Text.isBlank

end Literal

theorem plain_of_isFree {c : Char} {s : List Char} (h : isFree (c :: s)) :
    (isQuote c = false ∧ c ≠ '`') ∧ isFree s := by
  simpa [isFree] using h

/-- Text without literals that closes no brace of those around it goes as many braces deeper as it opens more
of them than it closes. -/
theorem passes_of_isFree {s : List Char} (hfree : isFree s) {n : Nat}
    (hcloses : ∀ p, p <+: s → p.count '}' ≤ n + p.count '{') :
    Passes (List.replicate (n + 1) (.group .brace))
      (List.replicate (n + s.count '{' - s.count '}' + 1) (.group .brace)) s := by
  induction s generalizing n with
  | nil => exact .nil _
  | cons c s ih =>
    obtain ⟨⟨hquote, hbacktick⟩, hfree⟩ := plain_of_isFree hfree
    have hrest : ∀ p, p <+: s → (c :: p).count '}' ≤ n + (c :: p).count '{' :=
      fun p hp => hcloses (c :: p) (List.cons_prefix_cons.2 ⟨rfl, hp⟩)
    rw [List.replicate_succ]
    by_cases hopen : c = '{'
    · subst hopen
      simp only [List.count_cons_self, List.count_cons_of_ne (show '{' ≠ '}' by decide)] at hrest ⊢
      have hdeeper := ih hfree (n := n + 1) fun p hp => by
        have hp' := hrest p hp
        omega
      rw [show n + 1 + s.count '{' = n + (s.count '{' + 1) by omega] at hdeeper
      exact .cons (fun _ => step_opener .brace _ _) hdeeper
    by_cases hclose : c = '}'
    · subst hclose
      simp only [List.count_cons_self, List.count_cons_of_ne (show '}' ≠ '{' by decide)] at hrest ⊢
      -- This brace is a prefix by itself, so there is one around it that it closes.
      have hpos : 1 ≤ n := by simpa using hrest [] List.nil_prefix
      obtain ⟨k, rfl⟩ := Nat.exists_eq_add_of_le' hpos
      have hhigher := ih hfree (n := k) fun p hp => by
        have hp' := hrest p hp
        omega
      rw [show k + s.count '{' - s.count '}' = k + 1 + s.count '{' - (s.count '}' + 1) by omega]
        at hhigher
      exact .cons (fun _ => step_closer .brace _ _) hhigher
    · simp only [List.count_cons_of_ne hopen, List.count_cons_of_ne hclose] at hrest ⊢
      exact .cons (fun _ => step_plain (b := .brace) hquote hbacktick hopen hclose _ _) (ih hfree hrest)

theorem group_of_isBalanced {s : List Char} (hfree : isFree s) (h : IsBalanced s) (t : List Char) :
    group .brace (s ++ '}' :: t) = (s, t) := by
  have hpasses := passes_of_isFree hfree (n := 0) fun p hp => by simpa using h.closes p hp
  have hlevel : 0 + s.count '{' - s.count '}' = 0 := by
    have hends := h.ends
    omega
  rw [hlevel] at hpasses
  exact group_of_passes hpasses t

theorem plain_of_isGuarded {l : Letter} (h : l.isGuarded) :
    l.isSound '`' ∧ (l.escaped = false → l.char ≠ '$') := by
  cases hescaped : l.escaped <;>
    simp_all [Letter.isGuarded, Letter.isSound]

theorem templatePieces_letters {letters : List Letter} (h : letters.all Letter.isGuarded)
    {s p t : List Char} {ps : List (List Char)} (hs : templatePieces s = (p :: ps, t)) :
    templatePieces (letters.flatMap Letter.text ++ s) = ((letters.map Letter.char ++ p) :: ps, t) := by
  induction letters with
  | nil => exact hs
  | cons l letters ih =>
    rw [List.all_cons, Bool.and_eq_true] at h
    obtain ⟨hsound, hdollar⟩ := plain_of_isGuarded h.1
    rw [List.flatMap_cons, List.append_assoc,
      templatePieces_letter hsound fun hplain hhole => hdollar hplain hhole.1, ih h.2]
    rfl

namespace Literal

theorem templatePieces_written {more : List (List Char × List Letter)} (hmore : more.all isSoundHole)
    {first : List Letter} (hfirst : first.all Letter.isGuarded) (s : List Char) :
    templatePieces (first.flatMap Letter.text ++ (more.flatMap holeText ++ '`' :: s)) =
      ((template first more).values, s) := by
  induction more generalizing first with
  | nil =>
    have hend : templatePieces ('`' :: s) = ([[]], s) := by rw [templatePieces]
    have hread := templatePieces_letters hfirst hend
    rwa [List.append_nil] at hread
  | cons hole more ih =>
    obtain ⟨code, piece⟩ := hole
    simp only [List.all_cons, isSoundHole, Bool.and_eq_true, decide_eq_true_eq] at hmore
    obtain ⟨⟨⟨hfree, hbalanced⟩, hpiece⟩, hmore⟩ := hmore
    have hhole : templatePieces (holeText (code, piece) ++ (more.flatMap holeText ++ '`' :: s)) =
        ([] :: (template piece more).values, s) := by
      simp only [holeText, List.cons_append, List.append_assoc]
      rw [templatePieces, group_of_isBalanced hfree hbalanced, ih hmore hpiece]
    have hread := templatePieces_letters hfirst hhole
    rw [List.append_nil] at hread
    rw [List.flatMap_cons, List.append_assoc, hread]
    rfl

theorem stringLiterals_literal {l : Literal} (h : l.isSound) (s : List Char) :
    stringLiterals (l.text ++ s) = l.shown ++ stringLiterals s := by
  cases l with
  | quoted mark body =>
    simp only [isSound, Bool.and_eq_true] at h
    simp only [text, List.cons_append, List.append_assoc, List.nil_append]
    rw [stringLiterals_cons, item_quoted h.1 h.2]
    cases hempty : (body.map Letter.char).isEmpty <;>
      simp [Item.literals, shown, values, hempty]
  | template first more =>
    simp only [isSound, Bool.and_eq_true] at h
    simp only [text, List.cons_append, List.append_assoc, List.nil_append]
    rw [stringLiterals_cons, item, templatePieces_written h.2 h.1]
    rfl

end Literal

theorem stringLiterals_isFree {gap : List Char} (h : isFree gap) (s : List Char) :
    stringLiterals (gap ++ s) = stringLiterals s := by
  induction gap with
  | nil => rfl
  | cons c gap ih =>
    obtain ⟨⟨hquote, hbacktick⟩, hfree⟩ := plain_of_isFree h
    rw [List.cons_append, stringLiterals_char hquote hbacktick, ih hfree]

/-- Reading a text for its literals gives the values that these are written for, in order and unchanged,
except empty quoted ones and pieces of templates that are white space throughout. -/
theorem stringLiterals_written {before : List Char} {parts : List (Literal × List Char)}
    (hbefore : isFree before) (hparts : ∀ part ∈ parts, part.1.isSound ∧ isFree part.2) :
    stringLiterals (before ++ parts.flatMap fun part => part.1.text ++ part.2) =
      parts.flatMap fun part => part.1.shown := by
  rw [stringLiterals_isFree hbefore]
  induction parts with
  | nil => rw [List.flatMap_nil, List.flatMap_nil, stringLiterals, items, List.flatMap_nil]
  | cons part parts ih =>
    rw [List.forall_mem_cons] at hparts
    obtain ⟨⟨hliteral, hgap⟩, hrest⟩ := hparts
    rw [List.flatMap_cons, List.flatMap_cons, List.append_assoc, Literal.stringLiterals_literal hliteral,
      stringLiterals_isFree hgap, ih hrest]

/-- Literals with marks, backslashes and dollar signs in their values, an empty one, and blank pieces. -/
def escapedParts : List (Literal × List Char) :=
  [(.quoted '"' (Letter.plain "p-4 it's " ++ [⟨'"', true⟩, ⟨'\\', true⟩, ⟨'n', true⟩]),
      " \x7d + f(".toList),
    (.quoted '\'' [], ", ".toList),
    (.template (Letter.plain "px-" ++ [⟨'$', true⟩] ++ Letter.plain "\x7b")
      [("g(\x7b a: \x7b\x7d \x7d)".toList, Letter.plain " \n"), ("x".toList, [⟨'`', true⟩])],
      ")".toList)]

theorem stringLiterals_escapedParts :
    isFree "const x = ".toList ∧ (∀ part ∈ escapedParts, part.1.isSound ∧ isFree part.2) ∧
    stringLiterals ("const x = ".toList ++ escapedParts.flatMap fun part => part.1.text ++ part.2) =
      ["p-4 it's \"\\n".toList, "px-$\x7b".toList, "`".toList] := by
  have hbefore : isFree "const x = ".toList := by decide +kernel
  have hparts : ∀ part ∈ escapedParts, part.1.isSound ∧ isFree part.2 := by decide
  refine ⟨hbefore, hparts, (stringLiterals_written hbefore hparts).trans ?_⟩
  decide

end UtilityCss.Source
