import Mathlib.Data.List.Basic
import UtilityCss.Proofs.Source.Code

namespace UtilityCss.Source

/-- Characters that open or close something in code. -/
def delimiters : List Char := ['"', '\'', '`', '{', '}', '(', ')', '[', ']']

/-- Code with groups of all kinds of brackets, one within the other. -/
inductive Expression where
  | nil
  | char (c : Char) (rest : Expression)
  | quoted (mark : Char) (body : List Letter) (rest : Expression)
  | template (t : Template) (rest : Expression)
  | group (b : Bracket) (inside rest : Expression)

namespace Expression

/-- An expression with some characters in front. -/
def after (s : List Char) (rest : Expression) : Expression := s.foldr .char rest

def text : Expression → List Char
  | nil => []
  | char c rest => c :: rest.text
  | quoted mark body rest => mark :: (body.flatMap Letter.text ++ mark :: rest.text)
  | template t rest => '`' :: (t.text ++ rest.text)
  | group b inside rest => b.opener :: (inside.text ++ b.closer :: rest.text)

def isSound : Expression → Bool
  | nil => true
  | char c rest => !delimiters.contains c && rest.isSound
  | quoted mark body rest => isQuote mark && body.all (Letter.isSound mark) && rest.isSound
  | template t rest => t.isSound && rest.isSound
  | group _ inside rest => inside.isSound && rest.isSound

/-- No comma stands outside of literals and groups. -/
def isSingle : Expression → Bool
  | nil => true
  | char c rest => c != ',' && rest.isSingle
  | quoted _ _ rest | template _ rest | group _ _ rest => rest.isSingle

/-- The items of an expression where brackets of all kinds are looked for. -/
def items : Expression → List Item
  | nil => []
  | char c rest => .char c :: rest.items
  | quoted _ body rest => .quoted (body.map Letter.char) :: rest.items
  | template t rest =>
    .template (t.pieces.filter fun piece => !piece.all Text.isBlank) :: rest.items
  | group b inside rest => .group b inside.text :: rest.items

@[simp] theorem text_after (s : List Char) (e : Expression) : (after s e).text = s ++ e.text := by
  induction s with
  | nil => rfl
  | cons c s ih => exact congrArg (c :: ·) ih

@[simp] theorem items_after (s : List Char) (e : Expression) :
    (after s e).items = s.map .char ++ e.items := by
  induction s with
  | nil => rfl
  | cons c s ih => exact congrArg (Item.char c :: ·) ih

theorem isSound_after {s : List Char} {e : Expression} (hs : ∀ c ∈ s, c ∉ delimiters)
    (he : e.isSound) : (after s e).isSound := by
  induction s with
  | nil => exact he
  | cons c s ih =>
    rw [List.forall_mem_cons] at hs
    rw [after, List.foldr_cons, isSound, Bool.and_eq_true]
    exact ⟨by simpa using hs.1, ih hs.2⟩

theorem isSingle_after {s : List Char} {e : Expression} (hs : ',' ∉ s) (he : e.isSingle) :
    (after s e).isSingle := by
  induction s with
  | nil => exact he
  | cons c s ih =>
    rw [List.mem_cons, not_or] at hs
    rw [after, List.foldr_cons, isSingle, Bool.and_eq_true]
    exact ⟨by simpa using Ne.symm hs.1, ih hs.2⟩

theorem comma_notMem_items {e : Expression} (h : e.isSingle) : Item.char ',' ∉ e.items := by
  induction e with
  | nil => simp [items]
  | char c rest ih =>
    simp only [isSingle, Bool.and_eq_true, bne_iff_ne] at h
    simp [items, Ne.symm h.1, ih h.2]
  | quoted mark body rest ih => simpa [items] using ih h
  | template t rest ih => simpa [items] using ih h
  | group b inside rest _ ih => simpa [items] using ih h

end Expression

/-- The characters of an expression are plain to every reader. -/
theorem plain_of_isSound {c : Char} {rest : Expression} (h : (Expression.char c rest).isSound) :
    (isQuote c = false ∧ c ≠ '`' ∧ ∀ b : Bracket, c ≠ b.opener ∧ c ≠ b.closer) ∧ rest.isSound := by
  simp only [Expression.isSound, Bool.and_eq_true, Bool.not_eq_true', List.contains_eq_mem,
    decide_eq_false_iff_not] at h
  obtain ⟨hc, hrest⟩ := h
  simp only [delimiters, List.mem_cons, List.not_mem_nil, or_false, not_or] at hc
  refine ⟨⟨by simp [isQuote, hc], hc.2.2.1, fun b => ?_⟩, hrest⟩
  cases b <;> simp [Bracket.opener, Bracket.closer, hc]

/-- A bracket of one kind is no delimiter of groups of another. -/
theorem plain_of_ne {k b : Bracket} (h : k ≠ b) {c : Char} (hc : c ∈ [k.opener, k.closer]) :
    isQuote c = false ∧ c ≠ '`' ∧ c ≠ b.opener ∧ c ≠ b.closer := by
  rcases List.mem_pair.1 hc with rfl | rfl <;> revert h <;> cases k <;> cases b <;> decide

theorem passes_expression {b : Bracket} {e : Expression} (h : e.isSound) (outer : List Frame) :
    Passes (.group b :: outer) (.group b :: outer) e.text := by
  induction e generalizing outer with
  | nil => exact .nil _
  | char c rest ih =>
    obtain ⟨⟨hquote, hbacktick, hbracket⟩, hrest⟩ := plain_of_isSound h
    exact .cons (fun _ => step_plain hquote hbacktick (hbracket b).1 (hbracket b).2 _ _)
      (ih hrest outer)
  | quoted mark body rest ih =>
    simp only [Expression.isSound, Bool.and_eq_true] at h
    exact .quoted h.1.1 h.1.2 (ih h.2 outer)
  | template t rest ih =>
    simp only [Expression.isSound, Bool.and_eq_true] at h
    exact .cons (fun _ => rfl) ((passes_template t h.1 _ _).append (ih h.2 outer))
  | group k inside rest ihInside ihRest =>
    simp only [Expression.isSound, Bool.and_eq_true] at h
    by_cases hk : k = b
    · subst hk
      exact .cons (fun _ => step_opener k _ _) ((ihInside h.1 _).append
        (.cons (fun _ => step_closer k _ _) (ihRest h.2 outer)))
    · -- Brackets of another kind are characters like others.
      obtain ⟨hquote, hbacktick, hopener, hcloser⟩ := plain_of_ne hk (c := k.opener) (by simp)
      obtain ⟨hquote', hbacktick', hopener', hcloser'⟩ := plain_of_ne hk (c := k.closer) (by simp)
      exact .cons (fun _ => step_plain hquote hbacktick hopener hcloser _ _)
        ((ihInside h.1 _).append
          (.cons (fun _ => step_plain hquote' hbacktick' hopener' hcloser' _ _) (ihRest h.2 outer)))

theorem items_nil (brackets : List Bracket) : Source.items brackets [] = [] := by
  rw [Source.items]

theorem items_cons (brackets : List Bracket) (c : Char) (s : List Char) :
    Source.items brackets (c :: s) =
      (item brackets c s).1 :: Source.items brackets (item brackets c s).2 := by
  rw [Source.items]

/-- The items of an expression are read in order, and what follows it is left to read. -/
theorem items_expression {e : Expression} (h : e.isSound) (s : List Char) :
    Source.items [.brace, .paren, .square] (e.text ++ s) =
      e.items ++ Source.items [.brace, .paren, .square] s := by
  induction e with
  | nil => rfl
  | char c rest ih =>
    obtain ⟨⟨hquote, hbacktick, hbracket⟩, hrest⟩ := plain_of_isSound h
    rw [Expression.text, List.cons_append, items_cons,
      item_char hquote hbacktick fun b _ => (hbracket b).1, ih hrest]
    rfl
  | quoted mark body rest ih =>
    simp only [Expression.isSound, Bool.and_eq_true] at h
    simp only [Expression.text, List.cons_append, List.append_assoc]
    rw [items_cons, item_quoted h.1.1 h.1.2, ih h.2]
    rfl
  | template t rest ih =>
    simp only [Expression.isSound, Bool.and_eq_true] at h
    simp only [Expression.text, List.cons_append, List.append_assoc]
    rw [items_cons, item_template h.1, ih h.2]
    rfl
  | group b inside rest _ ih =>
    simp only [Expression.isSound, Bool.and_eq_true] at h
    have hb : b ∈ [Bracket.brace, .paren, .square] := by cases b <;> decide
    simp only [Expression.text, List.cons_append, List.append_assoc]
    rw [items_cons, item_group hb (passes_expression h.1 []), ih h.2]
    rfl

end UtilityCss.Source
