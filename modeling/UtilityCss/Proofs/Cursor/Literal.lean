import UtilityCss.Proofs.Cursor.Reads
import UtilityCss.Proofs.Source.Code
import UtilityCss.Proofs.Source.Enclosed
import UtilityCss.Proofs.Text.Pieces

namespace UtilityCss.Source.Cursor

variable {α σ : Type} {text s : List Char}

/-- A course whose states need no proof data, where no more than `n` characters are left. -/
def Course.plain (n : Nat) (answer : σ → List Char → α × List Char) : Course σ σ α :=
  ⟨id, fun _ s => s.length ≤ n, answer⟩

def blankCourse (n : Nat) : Course Unit Unit Unit := .plain n fun _ s => ((), Text.trimStart s)

theorem advances_blank (n : Nat) : (blankCourse n).Advances text (blankTurn text) := by
  rintro ⟨⟩ s hle
  cases s with
  | nil => exact ⟨.ended (), [], reads_peek.bind (.pure _), rfl, rfl⟩
  | cons c s =>
    by_cases hc : Text.isBlank c
    · refine ⟨.again (), s, reads_peek.bind ?_, Nat.lt_succ_self _, (), rfl, Nat.le_of_succ_le hle, ?_⟩
      · rw [List.head?_cons, Option.any_some, if_pos hc]
        exact (reads_bump_cons c s).bind (.pure _)
      · simp [blankCourse, Course.plain, Text.trimStart, hc]
    · refine ⟨.ended (), c :: s, reads_peek.bind ?_, rfl, ?_⟩
      · rw [List.head?_cons, Option.any_some, if_neg hc]
        exact .pure _
      · simp [blankCourse, Course.plain, Text.trimStart, hc]

theorem reads_skipBlank {fuel : Nat} (h : s.length < fuel) :
    Reads text (skipBlank text fuel) s () (Text.trimStart s) :=
  reads_loop (advances_blank s.length) () s (Nat.le_refl _) h

theorem length_tail_lt (c : Char) (s : List Char) : s.tail.length < (c :: s).length := by
  rw [List.length_tail, List.length_cons]
  omega

def quotedCourse (n : Nat) (mark : Char) : Course (List Char) (List Char) (List Char) :=
  .plain n fun value s => (value ++ (Source.quoted mark s).1, (Source.quoted mark s).2)

theorem advances_quoted (n : Nat) (mark : Char) :
    (quotedCourse n mark).Advances text (quotedTurn text mark) := by
  intro value s hle
  replace hle : s.length ≤ n := hle
  cases s with
  | nil =>
    exact ⟨.ended value, [], reads_bump_nil.bind (.pure _), rfl,
      by simp [quotedCourse, Course.plain, Source.quoted]⟩
  | cons c s =>
    by_cases hslash : c = '\\'
    · subst hslash
      refine ⟨.again (value ++ s.head?.toList), s.tail, (reads_bump_cons _ s).bind ?_,
        length_tail_lt _ s, value ++ s.head?.toList, rfl, ((length_tail_lt _ s).trans_le hle).le, ?_⟩
      · dsimp only
        rw [if_pos rfl]
        exact (reads_bump s).bind (.pure _)
      · cases s <;> simp [quotedCourse, Course.plain, Source.quoted]
    · by_cases hmark : c = mark
      · refine ⟨.left value, s, (reads_bump_cons c s).bind ?_, Nat.lt_succ_self _, ?_⟩
        · dsimp only
          rw [if_neg hslash, if_pos hmark]
          exact .pure _
        · show (value ++ (Source.quoted mark (c :: s)).1, (Source.quoted mark (c :: s)).2) = (value, s)
          rw [quoted_plain hslash, if_pos hmark, List.append_nil]
      · refine ⟨.again (value ++ [c]), s, (reads_bump_cons c s).bind ?_, Nat.lt_succ_self _,
          value ++ [c], rfl, Nat.le_of_succ_le hle, ?_⟩
        · dsimp only
          rw [if_neg hslash, if_neg hmark]
          exact .pure _
        · simp [quotedCourse, Course.plain, quoted_plain hslash, hmark]

theorem reads_quoted {fuel : Nat} (h : s.length < fuel) (mark : Char) :
    Reads text (quoted text fuel mark) s (Source.quoted mark s).1 (Source.quoted mark s).2 :=
  reads_loop (advances_quoted s.length mark) [] s (Nat.le_refl _) h

/-- A text before the first of some pieces. -/
def lead (u : List Char) : List (List Char) → List (List Char)
  | [] => [u]
  | w :: ws => (u ++ w) :: ws

theorem lead_nil {ws : List (List Char)} (h : ws ≠ []) : lead [] ws = ws := by
  cases ws with
  | nil => exact absurd rfl h
  | cons w ws => rfl

theorem lead_nil_cons (u : List Char) (ws : List (List Char)) : lead u ([] :: ws) = u :: ws := by
  rw [lead, List.append_nil]

theorem lead_glue (u : List Char) (c : Char) (ws : List (List Char)) :
    lead u (glue c ws) = lead (u ++ [c]) ws := by
  cases ws <;> simp [lead, glue]

theorem templatePieces_ne_nil (s : List Char) : (templatePieces s).1 ≠ [] := by
  have hglue : ∀ (c : Char) (ws : List (List Char)), glue c ws ≠ [] := fun c ws => by
    cases ws <;> simp [glue]
  fun_cases templatePieces s <;> simp [hglue]

/-- The pieces that count, and the text behind the template. -/
def templateAnswer (s : List Char) : List (List Char) × List Char :=
  ((templatePieces s).1.filter fun piece => !piece.all Text.isBlank, (templatePieces s).2)

theorem isEmpty_trim (s : List Char) : (Text.trim s).isEmpty = s.all Text.isBlank := by
  rw [Bool.eq_iff_iff, List.isEmpty_iff, Text.trim_eq_nil_iff, List.all_eq_true]

def templateCourse (n : Nat) :
    Course (List (List Char) × List Char) (List (List Char) × List Char) (List (List Char)) where
  state := id
  Holds _ s := s.length ≤ n
  answer state s := (state.1 ++ lead state.2 (templatePieces s).1, (templatePieces s).2)

theorem reads_templateTurn_escape (hole : Reading (List Char))
    (state : List (List Char) × List Char) (s : List Char) :
    Reads text (templateTurn text hole state) ('\\' :: s)
      (.again (state.1, state.2 ++ s.head?.toList)) s.tail := by
  refine (reads_bump_cons _ s).bind ?_
  dsimp only
  rw [if_neg (by decide), if_pos rfl]
  exact (reads_bump s).bind (.pure _)

/-- The brace behind a dollar sign is read, and read again as the start of a group. -/
theorem reads_templateTurn_hole {hole : Reading (List Char)} {t inside : List Char}
    (hgroup : Reads text hole ('{' :: s) inside t) (state : List (List Char) × List Char) :
    Reads text (templateTurn text hole state) ('$' :: '{' :: s)
      (.again (state.1 ++ [state.2], [])) t := by
  refine .of_suffix fun ahead htext => ?_
  have hbrace : text = (ahead ++ ['$']) ++ '{' :: s := by rw [htext, List.append_assoc]; rfl
  refine (reads_bump_cons _ _).bind ?_
  dsimp only
  rw [if_neg (by decide), if_neg (by decide), if_pos rfl]
  refine (reads_eat_cons '{' s).bind ?_
  rw [if_pos rfl]
  exact (reads_stepBack (by decide) hbrace).bind (hgroup.bind (.pure _))

theorem reads_templateTurn_plain {c : Char} (hbacktick : c ≠ '`') (hslash : c ≠ '\\')
    (hhole : ¬(c = '$' ∧ s.head? = some '{')) (hole : Reading (List Char))
    (state : List (List Char) × List Char) :
    Reads text (templateTurn text hole state) (c :: s) (.again (state.1, state.2 ++ [c])) s := by
  refine (reads_bump_cons c s).bind ?_
  dsimp only
  rw [if_neg hbacktick, if_neg hslash]
  split
  · rename_i hdollar
    refine (reads_eat_of_ne fun hs => hhole ⟨hdollar, hs⟩).bind ?_
    rw [if_neg Bool.false_ne_true]
    exact .pure _
  · exact .pure _

theorem advances_template {n : Nat} {hole : Reading (List Char)}
    (hgroup : ∀ s, s.length + 2 ≤ n → Reads text hole ('{' :: s) (group .brace s).1
      (group .brace s).2) : (templateCourse n).Advances text (templateTurn text hole) := by
  rintro ⟨pieces, current⟩ s hle
  replace hle : s.length ≤ n := hle
  cases s with
  | nil =>
    refine ⟨.ended (pieces ++ [current]), [], ?_, rfl,
      by simp [templateCourse, templatePieces, lead_nil_cons]⟩
    exact reads_bump_nil.bind (.pure _)
  | cons c s =>
    rw [List.length_cons] at hle
    -- One turn takes the end, a character with a backslash before it, a hole or one character.
    by_cases hbacktick : c = '`'
    · subst hbacktick
      refine ⟨.left (pieces ++ [current]), s, ?_, Nat.lt_succ_self _,
        by simp [templateCourse, templatePieces, lead_nil_cons]⟩
      exact (reads_bump_cons _ s).bind (.pure _)
    by_cases hslash : c = '\\'
    · subst hslash
      have hlength := length_tail_lt '\\' s
      refine ⟨_, s.tail, reads_templateTurn_escape hole _ s, hlength,
        (pieces, current ++ s.head?.toList), rfl, Nat.le_of_lt (hlength.trans_le hle), ?_⟩
      cases s <;> simp [templateCourse, templatePieces, lead_nil_cons, lead_glue]
    by_cases hhole : c = '$' ∧ s.head? = some '{'
    · obtain ⟨rfl, hs⟩ := hhole
      obtain ⟨s, rfl⟩ := List.head?_eq_some_iff.1 hs
      rw [List.length_cons] at hle
      have hlength : (group .brace s).2.length < s.length + 2 :=
        Nat.lt_of_le_of_lt (length_enclosed _ s) (by omega)
      have hbound : (group .brace s).2.length ≤ n := Nat.le_of_lt (hlength.trans_le hle)
      refine ⟨_, _, reads_templateTurn_hole (hgroup s hle) _, hlength,
        (pieces ++ [current], []), rfl, hbound, ?_⟩
      simp [templateCourse, templatePieces, lead_nil_cons, lead_nil (templatePieces_ne_nil _)]
    · refine ⟨_, s, reads_templateTurn_plain hbacktick hslash hhole hole _, Nat.lt_succ_self _,
        (pieces, current ++ [c]), rfl, Nat.le_of_succ_le hle, ?_⟩
      simp [templateCourse, templatePieces_plain hbacktick hslash hhole, lead_glue]

theorem reads_pass {fuel : Nat} (hfuel : s.length < fuel) {template : Reading (List (List Char))}
    (h : Reads text template s (templateAnswer s).1 (templateAnswer s).2) (c : Char) :
    Reads text (pass text fuel template c) (c :: s) () (item [] c s).2 := by
  rw [item]
  refine (reads_bump_cons c s).bind ?_
  split
  · exact (reads_quoted hfuel c).bind (.pure _)
  · split
    · exact h.bind (.pure _)
    · exact .pure _

/-- The proof data are the inside as far as it has been read, and the depth. -/
def groupCourse (text ahead : List Char) (b : Bracket) (n : Nat) :
    Course (List Char × Nat) Nat (List Char) where
  state g := g.2
  Holds g s := text = ahead ++ (g.1 ++ s) ∧ 0 < g.2 ∧ s.length ≤ n
  answer g s :=
    let (inside, rest) := enclosed (List.replicate g.2 (.group b)) s
    (g.1 ++ inside, rest)

/-- The depth behind a character that begins no literal. -/
def depthBehind (b : Bracket) (c : Char) (depth : Nat) : Nat :=
  if c = b.opener then depth + 1 else if c = b.closer then depth - 1 else depth

theorem step_group {b : Bracket} {c : Char} (hc : ¬(isQuote c ∨ c = '`')) (d : Nat)
    (next : Option Char) : (Frame.group b).step (List.replicate d (.group b)) c next =
      List.replicate (depthBehind b c (d + 1)) (.group b) := by
  rw [not_or] at hc
  rw [Frame.step, if_neg hc.1, if_neg hc.2, depthBehind]
  split_ifs <;> rfl

variable {fuel : Nat} {template : Reading (List (List Char))}

theorem reads_balancedTurn_nil {start depth : Nat} {inside : List Char}
    (h : behind text start = pure inside) (b : Bracket) :
    Reads text (balancedTurn text fuel template b start depth) [] (.ended inside) [] :=
  reads_peek.bind ((Reads.lift h).bind (.pure _))

theorem reads_balancedTurn_literal (hfuel : s.length < fuel)
    (h : Reads text template s (templateAnswer s).1 (templateAnswer s).2) {c : Char}
    (hc : isQuote c ∨ c = '`') (b : Bracket) (start depth : Nat) :
    Reads text (balancedTurn text fuel template b start depth) (c :: s) (.again depth)
      (item [] c s).2 := by
  refine reads_peek.bind ?_
  dsimp only [List.head?_cons]
  rw [if_pos hc]
  exact (reads_pass hfuel h c).bind (.pure _)

theorem reads_balancedTurn_again {b : Bracket} {c : Char} (hc : ¬(isQuote c ∨ c = '`'))
    {depth e : Nat} (hdepth : depthBehind b c depth = e + 1) (start : Nat) :
    Reads text (balancedTurn text fuel template b start depth) (c :: s) (.again (e + 1)) s := by
  refine reads_peek.bind ?_
  dsimp only [List.head?_cons]
  rw [if_neg hc]
  have hbump : ∀ next : Turn Nat (List Char), next = .again (e + 1) →
      Reads text (do let _ ← bump text; return next) (c :: s) (.again (e + 1)) s := by
    rintro _ rfl
    exact (reads_bump_cons c s).bind (.pure _)
  by_cases hopener : c = b.opener
  · rw [depthBehind, if_pos hopener] at hdepth
    rw [if_pos hopener]
    exact hbump _ (by rw [hdepth])
  rw [depthBehind, if_neg hopener] at hdepth
  rw [if_neg hopener]
  by_cases hcloser : c = b.closer
  · rw [if_pos hcloser] at hdepth
    rw [if_pos hcloser]
    obtain rfl : depth = e + 2 := by omega
    exact hbump _ rfl
  · rw [if_neg hcloser] at hdepth
    rw [if_neg hcloser]
    exact hbump _ (by rw [hdepth])

theorem reads_balancedTurn_left {ahead inside : List Char} {b : Bracket} {c : Char}
    (htext : text = ahead ++ (inside ++ c :: s)) (hc : ¬(isQuote c ∨ c = '`')) {d : Nat}
    (hdepth : depthBehind b c (d + 1) = 0) :
    Reads text (balancedTurn text fuel template b (Text.size ahead) (d + 1)) (c :: s)
      (.left inside) s := by
  have hopener : c ≠ b.opener := fun h => by simp [depthBehind, h] at hdepth
  have hcloser : c = b.closer := by
    by_contra h
    simp [depthBehind, hopener, h] at hdepth
  rw [depthBehind, if_neg hopener, if_pos hcloser] at hdepth
  obtain rfl : d = 0 := by omega
  have hhere : text = (ahead ++ inside) ++ c :: s := by rw [htext, List.append_assoc]
  have hinside : between text (Text.size ahead) (Text.size (ahead ++ inside)) = pure inside := by
    rw [htext, between_append]
  refine reads_peek.bind ?_
  dsimp only [List.head?_cons]
  rw [if_neg hc, if_neg hopener, if_pos hcloser]
  exact (reads_get hhere).bind ((Reads.lift hinside).bind ((reads_bump_cons c s).bind (.pure _)))

theorem advances_balanced {ahead : List Char} {b : Bracket} {n : Nat} (hfuel : n ≤ fuel)
    (htemplate : ∀ s, s.length < n → Reads text template s (templateAnswer s).1
      (templateAnswer s).2) : (groupCourse text ahead b n).Advances text
        (balancedTurn text fuel template b (Text.size ahead)) := by
  rintro ⟨read, depth⟩ s ⟨htext, hdepth, hle⟩
  obtain ⟨d, rfl⟩ : ∃ d, depth = d + 1 := Nat.exists_eq_add_one.2 hdepth
  replace htext : text = ahead ++ (read ++ s) := htext
  cases s with
  | nil =>
    refine ⟨.ended read, [], reads_balancedTurn_nil ?_ b, rfl,
      by simp [groupCourse, List.replicate_succ, enclosed]⟩
    rw [htext, behind_append, List.append_nil]
  | cons c s =>
    rw [List.length_cons] at hle
    -- Literals leave the depth as it is; a bracket changes it, and ends the loop where it comes to none.
    by_cases hliteral : isQuote c ∨ c = '`'
    · obtain ⟨u, hs, hu⟩ := enclosed_literal hliteral s
      have hlength := length_item [] c s
      refine ⟨.again (d + 1), (item [] c s).2,
        reads_balancedTurn_literal (by omega) (htemplate s (by omega)) hliteral b _ _,
        Nat.lt_succ_of_le hlength, (read ++ c :: u, d + 1), rfl, ⟨?_, hdepth, by omega⟩, ?_⟩
      · rw [htext]
        simp [← hs]
      · simp [groupCourse, List.replicate_succ, hu]
    have hstep := @step_group b c hliteral d s.head?
    cases hbehind : depthBehind b c (d + 1) with
    | zero =>
      rw [hbehind] at hstep
      refine ⟨.left read, s, reads_balancedTurn_left htext hliteral hbehind, Nat.lt_succ_self _, ?_⟩
      simp [groupCourse, List.replicate_succ, enclosed_cons_of_step_nil hstep]
    | succ e =>
      rw [hbehind, List.replicate_succ] at hstep
      refine ⟨.again (e + 1), s, reads_balancedTurn_again hliteral hbehind _, Nat.lt_succ_self _,
        (read ++ [c], e + 1), rfl, ⟨by rw [htext]; simp, Nat.succ_pos e, by omega⟩, ?_⟩
      simp [groupCourse, List.replicate_succ, enclosed_cons_of_step hstep]

mutual

/-- A template is read to its end, with as much fuel as characters are left. -/
theorem reads_template : (fuel : Nat) → (s : List Char) → s.length < fuel →
    Reads text (Cursor.template text fuel) s (templateAnswer s).1 (templateAnswer s).2
  | fuel + 1, s, hfuel => by
    have hadvances : (templateCourse s.length).Advances text
        (templateTurn text (balanced text fuel .brace)) :=
      advances_template fun t ht => reads_balanced .brace fuel t (by omega)
    have hpieces := reads_loop hadvances ([], []) s (Nat.le_refl _) hfuel
    simp only [templateCourse, List.nil_append, lead_nil (templatePieces_ne_nil s), id] at hpieces
    rw [Cursor.template]
    simp only [isEmpty_trim]
    exact hpieces.bind (.pure _)

theorem reads_balanced (b : Bracket) : (fuel : Nat) → (s : List Char) → s.length + 1 < fuel →
    Reads text (balanced text fuel b) (b.opener :: s) (group b s).1 (group b s).2
  | fuel + 1, s, hfuel => by
    refine .of_suffix fun ahead htext => ?_
    have hs : text = (ahead ++ [b.opener]) ++ s := by rw [htext, List.append_assoc]; rfl
    have hadvances : (groupCourse text (ahead ++ [b.opener]) b s.length).Advances text
        (balancedTurn text (fuel + 1) (Cursor.template text fuel) b
          (Text.size (ahead ++ [b.opener]))) :=
      advances_balanced (by omega) fun t ht => reads_template fuel t (by omega)
    have hinside := reads_loop hadvances ([], 1) s ⟨hs, Nat.one_pos, Nat.le_refl _⟩
      (Nat.lt_of_succ_lt hfuel)
    rw [balanced]
    refine (reads_eat_cons b.opener s).bind ?_
    rw [if_pos rfl]
    exact (reads_get hs).bind hinside

end

def literalCourse (n : Nat) : Course (List (List Char)) (List (List Char)) (List (List Char)) :=
  .plain n fun literals s => (literals ++ Source.stringLiterals s, [])

theorem reads_literalTurn_cons (hfuel : s.length < fuel) (literals : List (List Char)) (c : Char) :
    Reads text (literalTurn text fuel literals) (c :: s)
      (.again (literals ++ (item [] c s).1.literals)) (item [] c s).2 := by
  rw [item]
  refine (reads_bump_cons c s).bind ?_
  dsimp only
  split
  · refine (reads_quoted hfuel c).bind ?_
    rw [Item.literals]
    split
    · rw [List.append_nil]
      exact .pure _
    · exact .pure _
  · split
    · exact (reads_template fuel s hfuel).bind (.pure _)
    · rw [List.find?_nil, Item.literals, List.append_nil]
      exact .pure _

theorem advances_literal {n : Nat} (hfuel : n ≤ fuel) :
    (literalCourse n).Advances text (literalTurn text fuel) := by
  intro literals s hle
  replace hle : s.length ≤ n := hle
  cases s with
  | nil =>
    exact ⟨.ended literals, [], reads_bump_nil.bind (.pure _), rfl,
      by simp [literalCourse, Course.plain, Source.stringLiterals, items]⟩
  | cons c s =>
    have hlength := Nat.lt_succ_of_le (length_item [] c s)
    refine ⟨_, _, reads_literalTurn_cons (Nat.lt_of_lt_of_le hle hfuel) literals c, hlength,
      literals ++ (item [] c s).1.literals, rfl, (hlength.trans_le hle).le, ?_⟩
    simp [literalCourse, Course.plain, stringLiterals_cons]

theorem stringLiterals_eq (hfuel : text.length < fuel) :
    stringLiterals text fuel = pure (Source.stringLiterals text) :=
  startingAt_eq (List.nil_append text).symm
    (reads_loop (advances_literal hfuel.le) [] text (Nat.le_refl _) hfuel)

end UtilityCss.Source.Cursor
