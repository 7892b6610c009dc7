import UtilityCss.Source.Item

namespace UtilityCss.Source

/-- A character of a literal, by itself or behind a backslash. -/
structure Letter where
  char : Char
  escaped : Bool
  deriving DecidableEq, Repr

namespace Letter

def text (l : Letter) : List Char := if l.escaped then ['\\', l.char] else [l.char]

/-- The letter can stand in a literal between marks. -/
def isSound (mark : Char) (l : Letter) : Bool := l.escaped || l.char != mark && l.char != '\\'

end Letter

mutual

/-- Code in which the brackets of one kind are balanced. -/
inductive Code where
  | nil
  | char (c : Char) (rest : Code)
  | quoted (mark : Char) (body : List Letter) (rest : Code)
  | template (t : Template) (rest : Code)
  | group (inside rest : Code)

/-- What stands behind the backtick of a template literal, up to the backtick at its end. -/
inductive Template where
  | nil
  | letter (l : Letter) (rest : Template)
  | hole (code : Code) (rest : Template)

end

/-- Letters without backslashes. -/
def Letter.plain (s : String) : List Letter := s.toList.map (⟨·, false⟩)

/-- Code with some characters in front. -/
def Code.after (s : String) (rest : Code) : Code := s.toList.foldr .char rest

/-- A template with some letters in front, none of them behind a backslash. -/
def Template.after (s : String) (rest : Template) : Template := (Letter.plain s).foldr .letter rest

mutual

/-- The text of code whose groups are in brackets of the kind `b`. -/
def Code.text (b : Bracket) : Code → List Char
  | .nil => []
  | .char c rest => c :: rest.text b
  | .quoted mark body rest => mark :: (body.flatMap Letter.text ++ mark :: rest.text b)
  | .template t rest => '`' :: (t.text ++ rest.text b)
  | .group inside rest => b.opener :: (inside.text b ++ b.closer :: rest.text b)

def Template.text : Template → List Char
  | .nil => ['`']
  | .letter l rest => l.text ++ rest.text
  | .hole code rest => '$' :: '{' :: (code.text .brace ++ '}' :: rest.text)

end

mutual

/-- Each part has characters that make it up, and do not end it or open another one. -/
def Code.isSound (b : Bracket) : Code → Bool
  | .nil => true
  | .char c rest => !isQuote c && c != '`' && c != b.opener && c != b.closer && rest.isSound b
  | .quoted mark body rest => isQuote mark && body.all (Letter.isSound mark) && rest.isSound b
  | .template t rest => t.isSound && rest.isSound b
  | .group inside rest => inside.isSound b && rest.isSound b

def Template.isSound : Template → Bool
  | .nil => true
  | .letter l rest =>
    l.isSound '`' && (l.escaped || !decide (l.char = '$' ∧ rest.text.head? = some '{')) &&
      rest.isSound
  | .hole code rest => code.isSound .brace && rest.isSound

end

theorem Template.head?_text (t : Template) (s : List Char) : (t.text ++ s).head? = t.text.head? := by
  cases t with
  | nil => rfl
  | letter l rest => cases h : l.escaped <;> simp [text, Letter.text, h]
  | hole code rest => rfl

/-- Text that leads from what is open in front of it to what is open behind it, and is inside. -/
def Passes (fs gs : List Frame) (u : List Char) : Prop :=
  ∀ s, enclosed fs (u ++ s) = (u ++ (enclosed gs s).1, (enclosed gs s).2)

namespace Passes

theorem nil (fs : List Frame) : Passes fs fs [] := fun _ => rfl

theorem append {fs gs hs : List Frame} {u v : List Char} (hu : Passes fs gs u)
    (hv : Passes gs hs v) : Passes fs hs (u ++ v) := by
  intro s
  rw [List.append_assoc, hu, hv, List.append_assoc]

theorem cons {f g : Frame} {outer gs hs : List Frame} {c : Char} {u : List Char}
    (h : ∀ s, f.step outer c (u ++ s).head? = g :: gs) (hu : Passes (g :: gs) hs u) :
    Passes (f :: outer) hs (c :: u) := by
  intro s
  rw [List.cons_append, enclosed, h s]
  simp only [hu s, List.cons_append]

/-- A letter stays in its literal, if the literal takes it as it is where no backslash is before it. -/
theorem letter {f : Frame} {outer hs : List Frame} {l : Letter} {u : List Char}
    (hescape : ∀ next, f.step outer '\\' next = .escaped :: f :: outer)
    (hplain : l.escaped = false → ∀ s, f.step outer l.char (u ++ s).head? = f :: outer)
    (hu : Passes (f :: outer) hs u) : Passes (f :: outer) hs (l.text ++ u) := by
  unfold Letter.text
  cases h : l.escaped with
  | true => exact cons (fun _ => hescape _) (cons (fun _ => rfl) hu)
  | false => exact cons (hplain h) hu

end Passes

theorem ne_backslash_of_isQuote {mark : Char} (h : isQuote mark) : mark ≠ '\\' := by
  rintro rfl
  exact absurd h (by decide)

theorem step_opener (b : Bracket) (outer : List Frame) (next : Option Char) :
    Frame.step (.group b) outer b.opener next = .group b :: .group b :: outer := by
  cases b <;> simp [Frame.step, Bracket.opener, isQuote]

theorem step_closer (b : Bracket) (outer : List Frame) (next : Option Char) :
    Frame.step (.group b) outer b.closer next = outer := by
  cases b <;> simp [Frame.step, Bracket.opener, Bracket.closer, isQuote]

theorem step_plain {b : Bracket} {c : Char} (hquote : isQuote c = false) (hbacktick : c ≠ '`')
    (hopener : c ≠ b.opener) (hcloser : c ≠ b.closer) (outer : List Frame) (next : Option Char) :
    Frame.step (.group b) outer c next = .group b :: outer := by
  simp [Frame.step, hquote, hbacktick, hopener, hcloser]

theorem passes_body {mark : Char} {body : List Letter} (h : body.all (Letter.isSound mark))
    (outer : List Frame) :
    Passes (.quote mark :: outer) (.quote mark :: outer) (body.flatMap Letter.text) := by
  induction body with
  | nil => exact .nil _
  | cons l body ih =>
    rw [List.all_cons, Bool.and_eq_true] at h
    rw [List.flatMap_cons]
    refine .letter (fun _ => rfl) (fun hplain s => ?_) (ih h.2)
    have hl := h.1
    simp only [Letter.isSound, hplain, Bool.false_or, Bool.and_eq_true, bne_iff_ne] at hl
    simp [Frame.step, hl.1, hl.2]

/-- A quoted literal in a group is passed by. -/
theorem Passes.quoted {b : Bracket} {mark : Char} (hmark : isQuote mark) {body : List Letter}
    (hbody : body.all (Letter.isSound mark)) {outer gs : List Frame} {u : List Char}
    (hu : Passes (.group b :: outer) gs u) :
    Passes (.group b :: outer) gs (mark :: (body.flatMap Letter.text ++ mark :: u)) := by
  have hslash := ne_backslash_of_isQuote hmark
  exact .cons (fun _ => if_pos hmark) ((passes_body hbody _).append
    (.cons (fun _ => (if_neg hslash).trans (if_pos rfl)) hu))

mutual

theorem passes_code {b : Bracket} : (code : Code) → code.isSound b → ∀ outer,
    Passes (.group b :: outer) (.group b :: outer) (code.text b)
  | .nil, _, outer => .nil _
  | .char c rest, h, outer => by
    simp only [Code.isSound, Bool.and_eq_true, Bool.not_eq_true', bne_iff_ne] at h
    obtain ⟨⟨⟨⟨hquote, hbacktick⟩, hopener⟩, hcloser⟩, hrest⟩ := h
    exact .cons (fun _ => step_plain hquote hbacktick hopener hcloser _ _)
      (passes_code rest hrest outer)
  | .quoted mark body rest, h, outer => by
    simp only [Code.isSound, Bool.and_eq_true] at h
    obtain ⟨⟨hmark, hbody⟩, hrest⟩ := h
    exact .quoted hmark hbody (passes_code rest hrest outer)
  | .template t rest, h, outer => by
    simp only [Code.isSound, Bool.and_eq_true] at h
    exact .cons (fun s => rfl) ((passes_template t h.1 _ _).append (passes_code rest h.2 outer))
  | .group inside rest, h, outer => by
    simp only [Code.isSound, Bool.and_eq_true] at h
    exact .cons (fun _ => step_opener b _ _) ((passes_code inside h.1 _).append
      (.cons (fun _ => step_closer b _ _) (passes_code rest h.2 outer)))

theorem passes_template : (t : Template) → t.isSound → ∀ f outer,
    Passes (.template :: f :: outer) (f :: outer) t.text
  | .nil, _, f, outer => .cons (fun _ => rfl) (.nil _)
  | .letter l rest, h, f, outer => by
    simp only [Template.isSound, Bool.and_eq_true] at h
    obtain ⟨⟨hl, hhole⟩, hrest⟩ := h
    -- A dollar sign needs the letter behind it, and `rest` has one whatever follows.
    refine .letter (fun _ => rfl) (fun hplain s => ?_) (passes_template rest hrest f outer)
    simp only [Letter.isSound, hplain, Bool.false_or, Bool.and_eq_true, bne_iff_ne,
      Bool.not_eq_true', decide_eq_false_iff_not] at hl hhole
    simp only [Frame.step, rest.head?_text, if_neg hl.1, if_neg hl.2, if_neg hhole]
  | .hole code rest, h, f, outer => by
    simp only [Template.isSound, Bool.and_eq_true] at h
    refine .cons (fun s => rfl) (.cons (fun s => rfl) ?_)
    refine (passes_code code h.1 _).append (.cons (fun s => rfl) (passes_template rest h.2 f outer))

end

/-- A group ends at the first closing bracket that its inside does not take up. -/
theorem group_of_passes {b : Bracket} {u : List Char} (h : Passes [.group b] [.group b] u)
    (s : List Char) : group b (u ++ b.closer :: s) = (u, s) := by
  have hend : enclosed [.group b] (b.closer :: s) = ([], s) := by
    rw [enclosed, step_closer]
  rw [group, h, hend, List.append_nil]

/-- A group is read back whole, and what follows it is left. -/
theorem group_code {b : Bracket} {code : Code} (h : code.isSound b) (s : List Char) :
    group b (code.text b ++ b.closer :: s) = (code.text b, s) :=
  group_of_passes (passes_code code h []) s

theorem quoted_plain {mark c : Char} (h : c ≠ '\\') (s : List Char) :
    quoted mark (c :: s) =
      if c = mark then ([], s) else (c :: (quoted mark s).1, (quoted mark s).2) := by
  rw [quoted.eq_3 _ _ _ fun _ _ hc => absurd hc h, if_neg h]

theorem quoted_letter {mark : Char} {l : Letter} (h : l.isSound mark) (s : List Char) :
    quoted mark (l.text ++ s) = (l.char :: (quoted mark s).1, (quoted mark s).2) := by
  unfold Letter.text
  cases hescaped : l.escaped with
  | true =>
    simp only [if_true, List.cons_append, List.nil_append]
    rw [quoted]
  | false =>
    simp only [Letter.isSound, hescaped, Bool.false_or, Bool.and_eq_true, bne_iff_ne] at h
    simp only [Bool.false_eq_true, if_false, List.cons_append, List.nil_append]
    rw [quoted_plain h.2, if_neg h.1]

theorem quoted_letters {mark : Char} {body : List Letter} (h : body.all (Letter.isSound mark))
    (s : List Char) : quoted mark (body.flatMap Letter.text ++ s) =
      (body.map Letter.char ++ (quoted mark s).1, (quoted mark s).2) := by
  induction body with
  | nil => rfl
  | cons l body ih =>
    rw [List.all_cons, Bool.and_eq_true] at h
    rw [List.flatMap_cons, List.append_assoc, quoted_letter h.1, ih h.2]
    rfl

theorem quoted_body {mark : Char} (hmark : isQuote mark) {body : List Letter}
    (h : body.all (Letter.isSound mark)) (s : List Char) :
    quoted mark (body.flatMap Letter.text ++ mark :: s) = (body.map Letter.char, s) := by
  rw [quoted_letters h, quoted_plain (ne_backslash_of_isQuote hmark), if_pos rfl, List.append_nil]

theorem templatePieces_plain {c : Char} {s : List Char} (hbacktick : c ≠ '`') (hslash : c ≠ '\\')
    (hhole : ¬ (c = '$' ∧ s.head? = some '{')) :
    templatePieces (c :: s) = (glue c (templatePieces s).1, (templatePieces s).2) := by
  apply templatePieces.eq_6
  · exact hbacktick
  · exact fun _ _ hc => absurd hc hslash
  · exact fun hc => absurd hc hslash
  · rintro s' rfl rfl
    exact hhole ⟨rfl, rfl⟩

theorem templatePieces_letter {l : Letter} {s : List Char} (h : l.isSound '`')
    (hhole : l.escaped = false → ¬ (l.char = '$' ∧ s.head? = some '{')) :
    templatePieces (l.text ++ s) = (glue l.char (templatePieces s).1, (templatePieces s).2) := by
  unfold Letter.text
  cases hescaped : l.escaped with
  | true =>
    simp only [if_true, List.cons_append, List.nil_append]
    rw [templatePieces]
  | false =>
    simp only [Letter.isSound, hescaped, Bool.false_or, Bool.and_eq_true, bne_iff_ne] at h
    simp only [Bool.false_eq_true, if_false, List.cons_append, List.nil_append]
    exact templatePieces_plain h.1 h.2 (hhole hescaped)

/-- The static pieces of a template literal. -/
def Template.pieces : Template → List (List Char)
  | .nil => [[]]
  | .letter l rest => glue l.char rest.pieces
  | .hole _ rest => [] :: rest.pieces

theorem templatePieces_text : (t : Template) → t.isSound → ∀ s,
    templatePieces (t.text ++ s) = (t.pieces, s)
  | .nil, _, s => by
    rw [Template.text, Template.pieces, List.cons_append, List.nil_append, templatePieces]
  | .letter l rest, h, s => by
    simp only [Template.isSound, Bool.and_eq_true] at h
    obtain ⟨⟨hl, hhole⟩, hrest⟩ := h
    have hletter : templatePieces (l.text ++ (rest.text ++ s)) = _ :=
      templatePieces_letter hl fun hescaped => by
        simpa only [rest.head?_text, hescaped, Bool.false_or, Bool.not_eq_true',
          decide_eq_false_iff_not] using hhole
    rw [Template.text, Template.pieces, List.append_assoc, hletter, templatePieces_text rest hrest]
  | .hole code rest, h, s => by
    simp only [Template.isSound, Bool.and_eq_true] at h
    have hgroup := group_code h.1 (rest.text ++ s)
    have ih := templatePieces_text rest h.2 s
    simp only [Template.text, Template.pieces, List.cons_append, List.append_assoc]
    rw [templatePieces]
    simp only [Bracket.closer] at hgroup
    rw [hgroup, ih]

theorem item_char {brackets : List Bracket} {c : Char} (hquote : isQuote c = false)
    (hbacktick : c ≠ '`') (hopener : ∀ b ∈ brackets, c ≠ b.opener) (s : List Char) :
    item brackets c s = (.char c, s) := by
  have hnone : brackets.find? (·.opener == c) = none :=
    List.find?_eq_none.2 fun b hb => by simpa using Ne.symm (hopener b hb)
  simp [item, hquote, hbacktick, hnone]

theorem opener_injective {b k : Bracket} (h : b.opener = k.opener) : b = k := by
  revert h
  cases b <;> cases k <;> decide

theorem item_group {brackets : List Bracket} {b : Bracket} (hb : b ∈ brackets) {u : List Char}
    (h : Passes [.group b] [.group b] u) (s : List Char) :
    item brackets b.opener (u ++ b.closer :: s) = (.group b u, s) := by
  have hplain : isQuote b.opener = false ∧ b.opener ≠ '`' := by cases b <;> decide
  have hfind : brackets.find? (·.opener == b.opener) = some b := by
    have hsome : (brackets.find? (·.opener == b.opener)).isSome :=
      List.find?_isSome.2 ⟨b, hb, by simp⟩
    obtain ⟨k, hk⟩ := Option.isSome_iff_exists.1 hsome
    have hsame : k.opener = b.opener := by simpa using List.find?_some hk
    rw [hk, opener_injective hsame]
  simp only [item, hplain, hfind, group_of_passes h]
  simp

theorem item_quoted {brackets : List Bracket} {mark : Char} (hmark : isQuote mark)
    {body : List Letter} (h : body.all (Letter.isSound mark)) (s : List Char) :
    item brackets mark (body.flatMap Letter.text ++ mark :: s) =
      (.quoted (body.map Letter.char), s) := by
  rw [item, if_pos hmark, quoted_body hmark h]

theorem item_template {brackets : List Bracket} {t : Template} (h : t.isSound) (s : List Char) :
    item brackets '`' (t.text ++ s) =
      (.template (t.pieces.filter fun piece => !piece.all Text.isBlank), s) := by
  rw [item, templatePieces_text t h]
  rfl

/-- The literals that a scan for them comes upon: those that stand in no template, and the static pieces
of templates. -/
def Code.literals : Code → List (List Char)
  | .nil => []
  | .char _ rest => rest.literals
  | .quoted _ body rest => (Item.quoted (body.map Letter.char)).literals ++ rest.literals
  | .template t rest => (t.pieces.filter fun piece => !piece.all Text.isBlank) ++ rest.literals
  | .group inside rest => inside.literals ++ rest.literals

theorem stringLiterals_cons (c : Char) (s : List Char) : stringLiterals (c :: s) =
    (item [] c s).1.literals ++ stringLiterals (item [] c s).2 := by
  rw [stringLiterals, items, List.flatMap_cons]
  rfl

theorem stringLiterals_char {c : Char} (hquote : isQuote c = false) (hbacktick : c ≠ '`')
    (s : List Char) : stringLiterals (c :: s) = stringLiterals s := by
  rw [stringLiterals_cons, item_char hquote hbacktick (by simp)]
  rfl

/-- A scan for literals finds those of the code, and goes on behind it. -/
theorem stringLiterals_code {b : Bracket} : (code : Code) → code.isSound b → ∀ s,
    stringLiterals (code.text b ++ s) = code.literals ++ stringLiterals s
  | .nil, _, s => rfl
  | .char c rest, h, s => by
    simp only [Code.isSound, Bool.and_eq_true, Bool.not_eq_true', bne_iff_ne] at h
    obtain ⟨⟨⟨⟨hquote, hbacktick⟩, -⟩, -⟩, hrest⟩ := h
    rw [Code.text, Code.literals, List.cons_append, stringLiterals_char hquote hbacktick,
      stringLiterals_code rest hrest]
  | .quoted mark body rest, h, s => by
    simp only [Code.isSound, Bool.and_eq_true] at h
    obtain ⟨⟨hmark, hbody⟩, hrest⟩ := h
    simp only [Code.text, Code.literals, List.cons_append, List.append_assoc]
    rw [stringLiterals_cons, item_quoted hmark hbody, stringLiterals_code rest hrest]
  | .template t rest, h, s => by
    simp only [Code.isSound, Bool.and_eq_true] at h
    simp only [Code.text, Code.literals, List.cons_append, List.append_assoc]
    rw [stringLiterals_cons, item_template h.1, stringLiterals_code rest h.2]
    rfl
  | .group inside rest, h, s => by
    simp only [Code.isSound, Bool.and_eq_true] at h
    -- The scan looks for no brackets, so these are characters like others.
    have hopener : isQuote b.opener = false ∧ b.opener ≠ '`' := by cases b <;> decide
    have hcloser : isQuote b.closer = false ∧ b.closer ≠ '`' := by cases b <;> decide
    simp only [Code.text, Code.literals, List.cons_append, List.append_assoc]
    rw [stringLiterals_char hopener.1 hopener.2, stringLiterals_code inside h.1,
      stringLiterals_char hcloser.1 hcloser.2, stringLiterals_code rest h.2]

end UtilityCss.Source
