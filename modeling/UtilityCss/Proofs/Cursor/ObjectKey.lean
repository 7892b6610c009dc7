import UtilityCss.Proofs.Cursor.Literal
import UtilityCss.Proofs.Source.ObjectKey

namespace UtilityCss.Source.Cursor

variable {text s : List Char} {fuel : Nat}

/-- A text in which items stand, of which those that are no single characters begin with a delimiter. -/
inductive Spells : List Item → List Char → Prop
  | nil : Spells [] []
  | char (c : Char) {entry : List Item} {s : List Char} (h : Spells entry s) :
      Spells (.char c :: entry) (c :: s)
  | other {i : Item} {d : Char} (hitem : ∀ c, i ≠ .char c) (hd : d ∈ delimiters) (u : List Char)
      {entry : List Item} {s : List Char} (h : Spells entry s) : Spells (i :: entry) (d :: (u ++ s))

theorem isChar_eq_false {i : Item} (h : ∀ c, i ≠ .char c) (p : Char → Bool) : i.isChar p = false := by
  cases i with
  | char c => exact absurd rfl (h c)
  | quoted | template | group => rfl

/-- The characters at the front that `p` holds of are the same, where it holds of no delimiter. -/
theorem Spells.run {p : Char → Bool} (hp : (',' :: delimiters).all fun d => !p d) {entry : List Item}
    (h : Spells entry s) : Spells (entry.dropWhile (Item.isChar p)) (s.dropWhile p) ∧
      entry.takeWhile (Item.isChar p) = (s.takeWhile p).map .char := by
  induction h with
  | nil => exact ⟨.nil, rfl⟩
  | @char c entry s h ih =>
    cases hc : p c with
    | true => simpa [Item.isChar, hc] using ih
    | false => simpa [Item.isChar, hc] using h.char c
  | @other i d hitem hd u entry s h ih =>
    have hfalse : p d = false := by
      simpa using List.all_eq_true.1 hp d (List.mem_cons_of_mem _ hd)
    simpa [isChar_eq_false hitem, hfalse] using h.other hitem hd u

/-- Whether nothing is there, or `c` comes first, is the same, where `c` is no delimiter. -/
theorem Spells.isEmpty_or_head {c : Char} (hc : c ∉ delimiters) {entry : List Item}
    (h : Spells entry s) : (entry.isEmpty || entry.head?.any (Item.isChar (· == c))) =
      (s.isEmpty || s.head? == some c) := by
  cases h with
  | nil => rfl
  | char d h => simp [Item.isChar]
  | other hitem hd u h =>
    have hne : _ ≠ c := fun h => hc (h ▸ hd)
    simp [isChar_eq_false hitem, hne]

/-- The stretches of a text between its commas, those within literals and groups apart. -/
def stretches : List Char → List (List Char)
  | [] => [[]]
  | c :: s =>
    let rest := (item [.brace, .paren, .square] c s).2
    if c = ',' then [] :: stretches s
    else lead (c :: s.take (s.length - rest.length)) (stretches rest)
termination_by s => s.length
decreasing_by
  · exact Nat.lt_succ_self _
  · exact Nat.lt_succ_of_le (length_item _ c s)

/-- An item is its first character, or something that a delimiter begins. -/
theorem item_char_or (brackets : List Bracket) (c : Char) (s : List Char) :
    item brackets c s = (.char c, s) ∨
      (∀ d, (item brackets c s).1 ≠ .char d) ∧ c ∈ delimiters := by
  unfold item
  split
  · rename_i hquote
    right
    refine ⟨by simp, ?_⟩
    rcases (by simpa [isQuote] using hquote : c = '"' ∨ c = '\'') with rfl | rfl <;> decide
  · split
    · rename_i hbacktick
      exact .inr ⟨by simp, by rw [hbacktick]; decide⟩
    · split
      · rename_i b hb
        have hopener : b.opener = c := by simpa using List.find?_some hb
        refine .inr ⟨by simp, hopener ▸ ?_⟩
        cases b <;> decide
      · exact .inl rfl

theorem spells_item (brackets : List Bracket) (c : Char) (s : List Char) {entry : List Item}
    {v : List Char} (h : Spells entry v) : Spells ((item brackets c s).1 :: entry)
      (c :: (s.take (s.length - (item brackets c s).2.length) ++ v)) := by
  obtain hchar | ⟨hother, hd⟩ := item_char_or brackets c s
  · rw [hchar, Nat.sub_self, List.take_zero, List.nil_append]
    exact h.char c
  · exact h.other hother hd _

/-- The entries of a text are spelled by its stretches. -/
theorem spells_entries (s : List Char) : List.Forall₂ Spells (entries s) (stretches s) := by
  fun_induction stretches s with
  | case1 =>
    rw [entries, items_nil]
    exact .cons .nil .nil
  | case2 s ih =>
    have hitem : item [.brace, .paren, .square] ',' s = (.char ',', s) := by rfl
    rw [entries, items_cons, hitem, Text.pieces]
    exact .cons .nil ih
  | case3 c s rest hcomma ih =>
    have hitem : (item [.brace, .paren, .square] c s).1.isChar (· == ',') = false := by
      obtain hchar | ⟨hother, -⟩ := item_char_or [.brace, .paren, .square] c s
      · rw [hchar]
        simpa [Item.isChar] using hcomma
      · exact isChar_eq_false hother _
    rw [entries, items_cons, Text.pieces, if_neg (by rw [hitem]; exact Bool.false_ne_true)]
    rw [entries] at ih
    generalize hpieces : Text.pieces (Item.isChar (· == ',')) (items _ rest) = es at ih
    generalize stretches rest = ws at ih
    cases ih with
    | nil => exact absurd hpieces (Text.pieces_ne_nil _ _)
    | cons hw hws => exact .cons (spells_item _ c s hw) hws

theorem identifier_gap {gap : List Char} (hgap : ∀ c ∈ gap, Text.isBlank c) :
    ∀ c ∈ gap, isIdentifierChar c = false := fun c hc => by
  by_contra h
  have hblank := isBlank_eq_false_of_isIdentifierChar (Bool.not_eq_false _ ▸ h)
  rw [hgap c hc] at hblank
  cases hblank

/-- A run does not reach into what `p` holds of nowhere. -/
theorem run_append {p : Char → Bool} {gap : List Char} (hgap : ∀ c ∈ gap, p c = false)
    (s : List Char) : (s ++ gap).takeWhile p = s.takeWhile p ∧
      (s ++ gap).dropWhile p = s.dropWhile p ++ gap := by
  induction s with
  | nil =>
    cases gap with
    | nil => exact ⟨rfl, rfl⟩
    | cons c gap => simp [hgap c List.mem_cons_self]
  | cons c s ih =>
    cases hc : p c with
    | true => simp [hc, ih]
    | false => simp [hc]

/-- White space at the end decides nothing about what comes first. -/
theorem first_trimStart_append {gap : List Char} (hgap : ∀ c ∈ gap, Text.isBlank c) (c : Char)
    (s : List Char) : ((Text.trimStart (s ++ gap)).isEmpty || (Text.trimStart (s ++ gap)).head? == some c) =
      ((Text.trimStart s).isEmpty || (Text.trimStart s).head? == some c) := by
  induction s with
  | nil =>
    rw [List.nil_append, Text.trimStart_eq_nil_iff.2 hgap]
    rfl
  | cons d s ih =>
    cases hd : Text.isBlank d with
    | true => simpa [Text.trimStart, hd] using ih
    | false => simp [Text.trimStart, hd]

theorem size_find?_identifier (s : List Char) :
    (Text.find? (!isIdentifierChar ·) s).getD (Text.size s) =
      Text.size (s.takeWhile isIdentifierChar) := by
  rw [Text.getD_find?]
  simp only [Bool.not_not]

/-- The key is read off the text of an entry as it is off its items. -/
theorem key?_eq {entry : List Item} (h : Spells entry s) : key? s = pure (bareKey? entry) := by
  obtain ⟨gap, hgap, hstart⟩ := Text.exists_trimStart_eq s
  obtain ⟨htake, hdrop⟩ := run_append (identifier_gap hgap) (Text.trim s)
  have hcut : Text.trim s = (Text.trim s).takeWhile isIdentifierChar ++
      (Text.trim s).dropWhile isIdentifierChar := List.takeWhile_append_dropWhile.symm
  rw [key?, bareKey?]
  simp only [size_find?_identifier]
  generalize (Text.trim s).takeWhile isIdentifierChar = name at htake hcut ⊢
  generalize (Text.trim s).dropWhile isIdentifierChar = rest at hdrop hcut
  have hentry : Spells (entry.dropWhile (Item.isChar Text.isBlank)) (Text.trim s ++ gap) := by
    rw [← hstart]
    exact (h.run blank_free).1
  obtain ⟨hbehind, hname⟩ := hentry.run identifier_free
  rw [htake] at hname
  rw [hdrop] at hbehind
  have hfirst := (hbehind.run blank_free).1.isEmpty_or_head (show ':' ∉ delimiters by decide)
  rw [← Text.trimStart, first_trimStart_append hgap] at hfirst
  simp only [hname, hfirst, hcut, behind_append, before_append, Text.size_eq_zero_iff, pure_bind]
  simp only [List.filterMap_map, Function.comp_def, List.filterMap_some, List.isEmpty_iff]
  by_cases hempty : name = []
  · rw [if_pos hempty, if_pos hempty]
  · rw [if_neg hempty, if_neg hempty]
    split <;> rfl

theorem filterMapM_key?_eq {es : List (List Item)} {ss : List (List Char)}
    (h : List.Forall₂ Spells es ss) : ss.filterMapM key? = pure (es.filterMap bareKey?) := by
  induction h with
  | nil => rfl
  | @cons e s es ss he _ ih =>
    rw [List.filterMapM_cons, key?_eq he, pure_bind, ih]
    cases hkey : bareKey? e with
    | none => simp [hkey]
    | some key => simp [hkey]

/-- The proof data are the complete segments, and the text before the one that is being read and in it. -/
def segmentCourse (text : List Char) (n : Nat) :
    Course (List (List Char) × List Char × List Char) (List (List Char) × Nat) (List (List Char)) where
  state g := (g.1, Text.size g.2.1)
  Holds g s := text = g.2.1 ++ (g.2.2 ++ s) ∧ s.length ≤ n
  answer g s := (g.1 ++ lead g.2.2 (stretches s), [])

theorem stretches_cons {c : Char} (hc : c ≠ ',') {u rest : List Char}
    (h : (item [.brace, .paren, .square] c (u ++ rest)).2 = rest) :
    stretches (c :: (u ++ rest)) = lead (c :: u) (stretches rest) := by
  have htake : (u ++ rest).take ((u ++ rest).length - rest.length) = u := by simp
  rw [stretches, if_neg hc, h, htake]

theorem lead_lead (u v : List Char) (ws : List (List Char)) :
    lead u (lead v ws) = lead (u ++ v) ws := by
  cases ws <;> simp [lead]

theorem stretches_ne_nil (s : List Char) : stretches s ≠ [] := by
  cases s with
  | nil => simp [stretches]
  | cons c s =>
    rw [stretches]
    split
    · exact List.cons_ne_nil _ _
    · cases stretches (item [.brace, .paren, .square] c s).2 <;> simp [lead]

theorem reads_segmentTurn_comma {ahead read : List Char} (htext : text = ahead ++ (read ++ ',' :: s))
    (done : List (List Char)) : Reads text (segmentTurn text fuel (done, Text.size ahead)) (',' :: s)
      (.again (done ++ [read], Text.size (ahead ++ read ++ [',']))) s := by
  have hhere : text = (ahead ++ read) ++ ',' :: s := by rw [htext, List.append_assoc]
  have hbehind : text = (ahead ++ read ++ [',']) ++ s := by rw [hhere]; simp
  have hsegment : between text (Text.size ahead) (Text.size (ahead ++ read)) = pure read := by
    rw [htext, between_append]
  exact reads_peek.bind ((reads_get hhere).bind ((Reads.lift hsegment).bind
    ((reads_bump_cons ',' s).bind ((reads_get hbehind).bind (.pure _)))))

theorem item_of_literal {c : Char} (hc : isQuote c ∨ c = '`') (brackets : List Bracket)
    (s : List Char) : item brackets c s = item [] c s := by
  unfold item
  split
  · rfl
  · rw [if_pos (hc.resolve_left ‹_›), if_pos (hc.resolve_left ‹_›)]

/-- Any other turn reads one item. -/
theorem reads_segmentTurn_item {c : Char} (hc : c ≠ ',') (hfuel : s.length + 1 < fuel)
    (state : List (List Char) × Nat) : Reads text (segmentTurn text fuel state) (c :: s)
      (.again state) (item [.brace, .paren, .square] c s).2 := by
  refine reads_peek.bind ?_
  dsimp only [List.head?_cons]
  by_cases hliteral : isQuote c ∨ c = '`'
  · rw [if_pos hliteral, item_of_literal hliteral]
    exact (reads_pass (Nat.lt_of_succ_lt hfuel)
      (reads_template fuel s (Nat.lt_of_succ_lt hfuel)) c).bind (.pure _)
  rw [if_neg hliteral, item, if_neg fun h => hliteral (.inl h), if_neg fun h => hliteral (.inr h)]
  cases hfind : [Bracket.brace, .paren, .square].find? (·.opener == c) with
  | none =>
    dsimp only
    rw [if_neg hc]
    exact (reads_bump_cons c s).bind (.pure _)
  | some b =>
    obtain rfl : b.opener = c := by simpa using List.find?_some hfind
    exact (reads_balanced b fuel s hfuel).bind (.pure _)

theorem advances_segment {n : Nat} (hfuel : n < fuel) :
    (segmentCourse text n).Advances text (segmentTurn text fuel) := by
  rintro ⟨done, ahead, read⟩ s ⟨htext, hle⟩
  replace htext : text = ahead ++ (read ++ s) := htext
  cases s with
  | nil =>
    have hlast : behind text (Text.size ahead) = pure read := by
      rw [htext, behind_append, List.append_nil]
    refine ⟨.ended (done ++ [read]), [], ?_, rfl, ?_⟩
    · exact reads_peek.bind ((Reads.lift hlast).bind (.pure _))
    · simp [segmentCourse, stretches, lead_nil_cons]
  | cons c s =>
    -- A comma begins another stretch; whatever else comes, the whole item joins what has been read.
    by_cases hcomma : c = ','
    · subst hcomma
      refine ⟨_, s, reads_segmentTurn_comma htext done, Nat.lt_succ_self _,
        (done ++ [read], ahead ++ read ++ [','], []), rfl, ⟨?_, Nat.le_of_succ_le hle⟩, ?_⟩
      · rw [htext]
        simp
      · simp [segmentCourse, stretches, lead_nil_cons, lead_nil (stretches_ne_nil s)]
    · obtain ⟨u, rest, hs, hrest⟩ : ∃ u rest, s = u ++ rest ∧
          (item [.brace, .paren, .square] c s).2 = rest :=
        (suffix_item [.brace, .paren, .square] c s).imp fun u hu => ⟨_, hu.symm, rfl⟩
      subst hs
      have hturn : Reads text _ _ _ _ :=
        reads_segmentTurn_item hcomma (Nat.lt_of_le_of_lt hle hfuel) (done, Text.size ahead)
      have hlength : rest.length < (c :: (u ++ rest)).length := by
        rw [List.length_cons, List.length_append]
        omega
      rw [hrest] at hturn
      refine ⟨_, rest, hturn, hlength, (done, ahead, read ++ c :: u), rfl,
        ⟨?_, (hlength.trans_le hle).le⟩, ?_⟩
      · rw [htext]
        simp
      · simp [segmentCourse, stretches_cons hcomma hrest, lead_lead]

theorem segments_eq (hfuel : text.length < fuel) : segments text fuel = pure (stretches text) := by
  have h := startingAt_eq (List.nil_append text).symm
    (reads_loop (advances_segment hfuel) ([], [], []) text ⟨rfl, Nat.le_refl _⟩ hfuel)
  simp only [segmentCourse, List.nil_append, lead_nil (stretches_ne_nil text)] at h
  exact h

theorem bareKeys_eq (hfuel : text.length < fuel) :
    bareKeys text fuel = pure ((entries text).filterMap bareKey?) := by
  rw [bareKeys, segments_eq hfuel, pure_bind]
  exact filterMapM_key?_eq (spells_entries text)

def keyCourse (n : Nat) : Course (List (List Char)) (List (List Char)) (List (List Char)) :=
  .plain n fun keys s => (keys ++ Source.objectKeys s, [])

/-- The keys that an item brings. -/
def itemKeys : Item → List (List Char)
  | .group _ inside => (entries inside).filterMap bareKey?
  | _ => []

theorem objectKeys_cons (c : Char) (s : List Char) : Source.objectKeys (c :: s) =
    itemKeys (item [.brace] c s).1 ++ Source.objectKeys (item [.brace] c s).2 := by
  rw [Source.objectKeys, items_cons, List.flatMap_cons]
  rfl

theorem item_brace {c : Char} (hc : c ≠ '{') (s : List Char) :
    item [.brace] c s = item [] c s ∧ itemKeys (item [] c s).1 = [] := by
  have hnone : [Bracket.brace].find? (·.opener == c) = none := by simpa [Bracket.opener] using hc.symm
  constructor
  · rw [item, hnone]
    rfl
  · unfold item
    split
    · rfl
    · split <;> rfl

theorem reads_keyTurn_cons (hfuel : s.length + 1 < fuel) (keys : List (List Char)) (c : Char) :
    Reads text (keyTurn text fuel keys) (c :: s) (.again (keys ++ itemKeys (item [.brace] c s).1))
      (item [.brace] c s).2 := by
  have hless := Nat.lt_of_succ_lt hfuel
  refine reads_peek.bind ?_
  dsimp only [List.head?_cons]
  by_cases hbrace : c = '{'
  · subst hbrace
    have hkeys := bareKeys_eq (Nat.lt_of_le_of_lt (length_inside [.group .brace] s) hless)
    rw [if_pos rfl]
    exact (reads_balanced .brace fuel s hfuel).bind ((Reads.lift hkeys).bind (.pure _))
  · obtain ⟨hitem, hkeys⟩ := item_brace hbrace s
    rw [if_neg hbrace, hitem, hkeys, List.append_nil]
    exact (reads_pass hless (reads_template fuel s hless) c).bind (.pure _)

theorem advances_key {n : Nat} (hfuel : n < fuel) :
    (keyCourse n).Advances text (keyTurn text fuel) := by
  intro keys s hle
  replace hle : s.length ≤ n := hle
  cases s with
  | nil =>
    exact ⟨.ended keys, [], reads_peek.bind (.pure _), rfl,
      by simp [keyCourse, Course.plain, Source.objectKeys, items_nil]⟩
  | cons c s =>
    have hlength := Nat.lt_succ_of_le (length_item [.brace] c s)
    refine ⟨_, _, reads_keyTurn_cons (Nat.lt_of_le_of_lt hle hfuel) keys c, hlength,
      keys ++ itemKeys (item [.brace] c s).1, rfl, (hlength.trans_le hle).le, ?_⟩
    simp [keyCourse, Course.plain, objectKeys_cons]

theorem objectKeys_eq (hfuel : text.length < fuel) :
    objectKeys text fuel = pure (Source.objectKeys text) :=
  startingAt_eq (List.nil_append text).symm
    (reads_loop (advances_key hfuel) [] text (Nat.le_refl _) hfuel)

end UtilityCss.Source.Cursor
