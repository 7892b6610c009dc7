import UtilityCss.Proofs.Cursor.Literal
import UtilityCss.Proofs.Source.Code

namespace UtilityCss.Source

/-- All of `s` is inside of what `f` opened. -/
def Unclosed (f : Frame) (s : List Char) : Prop := ∀ outer, enclosed (f :: outer) s = (s, [])

namespace Unclosed

theorem nil (f : Frame) : Unclosed f [] := fun _ => rfl

theorem cons {f g : Frame} {c : Char} {s : List Char}
    (h : ∀ outer, ∃ more, f.step outer c s.head? = g :: more) (hs : Unclosed g s) :
    Unclosed f (c :: s) := by
  intro outer
  obtain ⟨more, hstep⟩ := h outer
  rw [enclosed, hstep]
  simp only [hs more]

theorem append {f : Frame} {u s : List Char} (h : ∀ outer, Passes (f :: outer) (f :: outer) u)
    (hs : Unclosed f s) : Unclosed f (u ++ s) := by
  intro outer
  rw [h outer, hs outer]

theorem escaped {s : List Char} (c : Char) (hs : Unclosed .template s) :
    Unclosed .template ('\\' :: c :: s) :=
  hs.append (u := ['\\', c]) fun _ => .cons (fun _ => rfl) (.cons (fun _ => rfl) (.nil _))

theorem hole {code : Code} (h : code.isSound .brace) {s : List Char} (hs : Unclosed .template s) :
    Unclosed .template ('$' :: '{' :: (code.text .brace ++ '}' :: s)) := by
  have hpasses : ∀ outer, Passes (.template :: outer) (.template :: outer)
      ('$' :: '{' :: (code.text .brace ++ ['}'])) := fun outer =>
    .cons (fun _ => rfl) (.cons (fun _ => rfl)
      ((passes_code code h _).append (.cons (fun _ => rfl) (.nil _))))
  simpa using hs.append hpasses

end Unclosed

/-- Where a literal between marks can end: before its mark, or with the text, of which a backslash may be
left over. -/
def EndsLiteral (mark : Char) (tail : List Char) : Prop :=
  tail.head? = some mark ∨ tail = [] ∨ tail = ['\\']

theorem exists_body (mark : Char) (s : List Char) : ∃ (body : List Letter) (tail : List Char),
    body.all (Letter.isSound mark) ∧ EndsLiteral mark tail ∧
      s = body.flatMap Letter.text ++ tail := by
  fun_induction quoted mark s with
  | case1 => exact ⟨[], [], rfl, .inr (.inl rfl), rfl⟩
  | case2 c s value rest _ ih =>
    obtain ⟨body, tail, hbody, htail, rfl⟩ := ih
    exact ⟨⟨c, true⟩ :: body, tail, by simpa [Letter.isSound] using hbody, htail, rfl⟩
  | case3 s hs =>
    have hnil : s = [] := List.eq_nil_iff_forall_not_mem.2 fun c hc => by
      obtain ⟨d, t, rfl⟩ := List.exists_cons_of_ne_nil (List.ne_nil_of_mem hc)
      exact hs d t rfl rfl
    exact ⟨[], ['\\'], rfl, .inr (.inr rfl), by rw [hnil]; rfl⟩
  | case4 s => exact ⟨[], mark :: s, rfl, .inl rfl, rfl⟩
  | case5 c s _ hslash hmark value rest _ ih =>
    obtain ⟨body, tail, hbody, htail, rfl⟩ := ih
    exact ⟨⟨c, false⟩ :: body, tail, by simpa [Letter.isSound, hslash, hmark] using hbody,
      htail, rfl⟩

/-- A quoted literal is closed by its mark or runs to the end of the text. -/
theorem quoted_or_unclosed (mark : Char) (s : List Char) :
    (∃ (body : List Letter) (rest : List Char), body.all (Letter.isSound mark) ∧
      s = body.flatMap Letter.text ++ mark :: rest) ∨ Unclosed (.quote mark) s := by
  obtain ⟨body, tail, hbody, htail, rfl⟩ := exists_body mark s
  obtain hmark | rfl | rfl := htail
  · obtain ⟨rest, rfl⟩ := List.head?_eq_some_iff.1 hmark
    exact .inl ⟨body, rest, hbody, rfl⟩
  · exact .inr ((Unclosed.nil _).append (passes_body hbody))
  · exact .inr ((Unclosed.cons (fun _ => ⟨_, rfl⟩) (.nil .escaped)).append (passes_body hbody))

mutual

/-- Every text begins with code that reaches a closing bracket or something that is not closed. -/
theorem exists_code (b : Bracket) : (s : List Char) → ∃ (code : Code) (rest : List Char),
    code.isSound b ∧ s = code.text b ++ rest ∧
      (rest.head? = some b.closer ∨ Unclosed (.group b) rest)
  | [] => ⟨.nil, [], rfl, rfl, .inr (.nil _)⟩
  | c :: s => by
    -- By the first character, in the order in which the reader asks: each kind of item either ends, and code
    -- goes on behind it, or all that is left stays open.
    by_cases hquote : isQuote c
    · obtain ⟨body, rest, hbody, rfl⟩ | hs := quoted_or_unclosed c s
      · obtain ⟨code, last, hcode, rfl, hlast⟩ := exists_code b rest
        exact ⟨.quoted c body code, last, by simp [Code.isSound, hquote, hbody, hcode],
          by simp [Code.text], hlast⟩
      · exact ⟨.nil, c :: s, rfl, rfl, .inr (hs.cons fun _ => ⟨_, if_pos hquote⟩)⟩
    by_cases hbacktick : c = '`'
    · subst hbacktick
      obtain ⟨t, rest, ht, rfl⟩ | hs := template_or_unclosed s
      · obtain ⟨code, last, hcode, rfl, hlast⟩ := exists_code b rest
        exact ⟨.template t code, last, by simp [Code.isSound, ht, hcode],
          by simp [Code.text], hlast⟩
      · exact ⟨.nil, '`' :: s, rfl, rfl, .inr (hs.cons fun _ => ⟨_, rfl⟩)⟩
    by_cases hopener : c = b.opener
    · subst hopener
      obtain ⟨inside, rest, hinside, rfl, hrest | hrest⟩ := exists_code b s
      · obtain ⟨rest, rfl⟩ := List.head?_eq_some_iff.1 hrest
        obtain ⟨code, last, hcode, rfl, hlast⟩ := exists_code b rest
        exact ⟨.group inside code, last, by simp [Code.isSound, hinside, hcode],
          by simp [Code.text], hlast⟩
      · exact ⟨.nil, _, rfl, rfl, .inr
          ((hrest.append (passes_code inside hinside)).cons fun _ => ⟨_, step_opener b _ _⟩)⟩
    by_cases hcloser : c = b.closer
    · exact ⟨.nil, c :: s, rfl, rfl, .inl (congrArg some hcloser)⟩
    obtain ⟨code, last, hcode, rfl, hlast⟩ := exists_code b s
    exact ⟨.char c code, last,
      by simp [Code.isSound, hquote, hbacktick, hopener, hcloser, hcode], rfl, hlast⟩
termination_by s => s.length

/-- A template literal is closed by its backtick or runs to the end of the text. -/
theorem template_or_unclosed : (s : List Char) →
    (∃ (t : Template) (rest : List Char), t.isSound ∧ s = t.text ++ rest) ∨ Unclosed .template s
  | [] => .inr (.nil _)
  | c :: s => by
    -- The same for templates, whose holes are code again.
    by_cases hbacktick : c = '`'
    · exact .inl ⟨.nil, s, rfl, by rw [hbacktick]; rfl⟩
    by_cases hslash : c = '\\'
    · subst hslash
      match s with
      | [] => exact .inr ((Unclosed.nil .escaped).cons fun _ => ⟨_, rfl⟩)
      | d :: s =>
        obtain ⟨t, rest, ht, rfl⟩ | hs := template_or_unclosed s
        · exact .inl ⟨.letter ⟨d, true⟩ t, rest, by simp [Template.isSound, Letter.isSound, ht], rfl⟩
        · exact .inr (hs.escaped d)
    by_cases hhole : c = '$' ∧ s.head? = some '{'
    · obtain ⟨rfl, hs⟩ := hhole
      obtain ⟨s, rfl⟩ := List.head?_eq_some_iff.1 hs
      obtain ⟨code, rest, hcode, rfl, hrest | hrest⟩ := exists_code .brace s
      · obtain ⟨rest, rfl⟩ := List.head?_eq_some_iff.1 hrest
        obtain ⟨t, last, ht, rfl⟩ | hs := template_or_unclosed rest
        · exact .inl ⟨.hole code t, last, by simp [Template.isSound, hcode, ht],
            by simp [Template.text, Bracket.closer]⟩
        · exact .inr (hs.hole hcode)
      · exact .inr (((hrest.append (passes_code code hcode)).cons
          (f := .hole) fun _ => ⟨_, rfl⟩).cons fun _ => ⟨_, rfl⟩)
    obtain ⟨t, rest, ht, rfl⟩ | hs := template_or_unclosed s
    · rw [t.head?_text] at hhole
      exact .inl ⟨.letter ⟨c, false⟩ t, rest,
        by simp [Template.isSound, Letter.isSound, hbacktick, hslash, hhole, ht], rfl⟩
    · exact .inr (hs.cons fun outer => ⟨outer, by simp [Frame.step, hbacktick, hslash, hhole]⟩)
termination_by s => s.length

end

theorem group_code_or_unclosed (b : Bracket) (s : List Char) :
    (∃ (code : Code) (rest : List Char), code.isSound b ∧ s = code.text b ++ b.closer :: rest) ∨
      group b s = (s, []) := by
  obtain ⟨code, rest, hcode, rfl, hrest | hrest⟩ := exists_code b s
  · obtain ⟨rest, rfl⟩ := List.head?_eq_some_iff.1 hrest
    exact .inl ⟨code, rest, hcode, rfl⟩
  · exact .inr (hrest.append (passes_code code hcode) [])

theorem exists_code_of_group {b : Bracket} {inside rest : List Char}
    (h : (group b (inside ++ b.closer :: rest)).1 = inside) :
    ∃ code : Code, code.isSound b ∧ code.text b = inside := by
  obtain ⟨code, last, hcode, htext⟩ | hall := group_code_or_unclosed b (inside ++ b.closer :: rest)
  · rw [htext, group_code hcode] at h
    exact ⟨code, hcode, h⟩
  · rw [hall] at h
    exact absurd (congrArg List.length h) (by simp)

/-- A group is read as what stands between its brackets, and what follows is left, exactly where the inside
is code: brackets in literals count at no depth, and no other inside is closed by its bracket. -/
theorem group_eq_iff {b : Bracket} {inside rest : List Char} :
    group b (inside ++ b.closer :: rest) = (inside, rest) ↔
      ∃ code : Code, code.isSound b ∧ code.text b = inside := by
  constructor
  · exact fun h => exists_code_of_group (congrArg Prod.fst h)
  · rintro ⟨code, hcode, rfl⟩
    exact group_code hcode rest

/-- So it is with a cursor before the opening bracket, which is then left behind the closing one. -/
theorem Cursor.run_balanced_iff {b : Bracket} {ahead inside rest : List Char} {fuel : Nat}
    (hfuel : (inside ++ b.closer :: rest).length + 1 < fuel) :
    (balanced (ahead ++ b.opener :: (inside ++ b.closer :: rest)) fuel b).run (Text.size ahead) =
        pure (inside, Text.size (ahead ++ b.opener :: (inside ++ [b.closer]))) ↔
      ∃ code : Code, code.isSound b ∧ code.text b = inside := by
  obtain ⟨read, htext, hrun⟩ := reads_balanced b fuel _ hfuel ahead rfl
  rw [hrun]
  constructor
  · intro h
    exact exists_code_of_group (congrArg Prod.fst (Except.ok.inj h))
  · rintro ⟨code, hcode, rfl⟩
    rw [group_code hcode rest] at htext ⊢
    have hread : read ++ rest = ahead ++ b.opener :: (code.text b ++ [b.closer]) ++ rest :=
      htext.symm.trans (by simp)
    rw [List.append_cancel_right hread]

end UtilityCss.Source
