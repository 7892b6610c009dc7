import UtilityCss.Proofs.Cursor.Classes

namespace UtilityCss.Source.Cursor

open Text (IsBoundary)

variable {α γ σ : Type} {text : List Char} {fuel : Nat}

theorem exists_between {a b s t : List Char} (h : a ++ s = b ++ t) (hlen : t.length ≤ s.length) :
    ∃ u, b = a ++ u ∧ s = u ++ t := by
  obtain ⟨u, hb, hs⟩ | ⟨u, ha, ht⟩ := List.append_eq_append_iff.1 h
  · exact ⟨u, hb, hs⟩
  · rw [ht, List.length_append] at hlen
    obtain rfl : u = [] := List.eq_nil_of_length_eq_zero (by omega)
    exact ⟨[], by simpa using ha.symm, by simpa using ht.symm⟩

theorem size_le_size {a b s t : List Char} (h : a ++ s = b ++ t) (hlen : t.length ≤ s.length) :
    Text.size a ≤ Text.size b := by
  obtain ⟨u, rfl, -⟩ := exists_between h hlen
  simp

theorem size_lt_size {a b s t : List Char} (h : a ++ s = b ++ t) (hlen : t.length < s.length) :
    Text.size a < Text.size b := by
  obtain ⟨u, rfl, rfl⟩ := exists_between h hlen.le
  have hne : u ≠ [] := by
    rintro rfl
    exact hlen.ne rfl
  have hpos : 0 < Text.size u := Nat.pos_of_ne_zero (Text.size_eq_zero_iff.not.2 hne)
  simp [hpos]

/-- From wherever the cursor stands, a call returns, with the cursor no earlier. -/
def Returns (text : List Char) (reading : Reading α) : Prop :=
  ∀ p, IsBoundary text p → ∃ value q,
    reading.run p = pure (value, q) ∧ IsBoundary text q ∧ p ≤ q

theorem returns_of_reads {reading : Reading α} (h : ∀ s, s.length ≤ text.length →
    ∃ value t, Reads text reading s value t ∧ t.length ≤ s.length) : Returns text reading := by
  rintro p ⟨ahead, s, htext, rfl⟩
  obtain ⟨value, t, hread, hlen⟩ := h s (List.IsSuffix.length_le ⟨ahead, htext.symm⟩)
  obtain ⟨read, hrest, hrun⟩ := hread ahead htext
  exact ⟨value, Text.size read, hrun, ⟨read, t, hrest, rfl⟩,
    size_le_size (htext.symm.trans hrest) hlen⟩

theorem returns_balanced (hfuel : text.length < fuel) (b : Bracket) :
    Returns text (balanced text fuel b) := by
  obtain ⟨n, rfl⟩ := Nat.exists_eq_add_one_of_ne_zero (Nat.ne_zero_of_lt hfuel)
  refine returns_of_reads fun s hle => ?_
  by_cases hopener : s.head? = some b.opener
  · obtain ⟨s, rfl⟩ := List.head?_eq_some_iff.1 hopener
    have hlength : (group b s).2.length ≤ s.length := length_enclosed _ s
    exact ⟨_, _, reads_balanced b _ s (Nat.lt_of_le_of_lt hle hfuel), hlength.trans (Nat.le_succ _)⟩
  · refine ⟨[], s, ?_, Nat.le_refl _⟩
    rw [balanced]
    refine (reads_eat_of_ne hopener).bind ?_
    rw [if_neg Bool.false_ne_true]
    exact .pure _

/-- Whether a turn that began at the byte `p` ends at `q` as it should: later, unless there was none, and
where the loop goes on with what holds between its turns. -/
def Turn.EndsLater (Holds : σ → Nat → Prop) (p q : Nat) : Turn σ α → Prop
  | .ended _ => q = p
  | .left _ => p < q
  | .again next => p < q ∧ Holds next q

/-- From wherever the cursor stands between two turns, the next one ends, and later. -/
def Progresses (text : List Char) (Holds : σ → Nat → Prop) (turn : σ → Reading (Turn σ α)) : Prop :=
  ∀ state p, IsBoundary text p → Holds state p → ∃ result q,
    (turn state).run p = pure (result, q) ∧ IsBoundary text q ∧ result.EndsLater Holds p q

theorem Course.Advances.progresses {course : Course γ σ α} {turn : σ → Reading (Turn σ α)}
    (h : course.Advances text turn) {Holds : σ → Nat → Prop}
    (hfrom : ∀ state ahead s, text = ahead ++ s → Holds state (Text.size ahead) →
      ∃ g, course.state g = state ∧ course.Holds g s)
    (hto : ∀ g ahead s, text = ahead ++ s → course.Holds g s →
      Holds (course.state g) (Text.size ahead)) : Progresses text Holds turn := by
  rintro state p ⟨ahead, s, htext, rfl⟩ hstate
  obtain ⟨g, rfl, hg⟩ := hfrom state ahead s htext hstate
  obtain ⟨result, t, hread, hkept⟩ := h g s hg
  obtain ⟨read, hrest, hrun⟩ := hread ahead htext
  refine ⟨result, Text.size read, hrun, ⟨read, t, hrest, rfl⟩, ?_⟩
  have hsame := htext.symm.trans hrest
  cases result with
  | ended value =>
    obtain ⟨rfl, -⟩ := hkept
    exact congrArg Text.size (List.append_cancel_right hsame).symm
  | left value => exact size_lt_size hsame hkept.1
  | again next =>
    obtain ⟨hlt, g', rfl, ht, -⟩ := hkept
    exact ⟨size_lt_size hsame hlt, hto g' read t hrest ht⟩

theorem progresses_of_plain {answer : σ → List Char → α × List Char}
    {turn : σ → Reading (Turn σ α)} (h : (Course.plain text.length answer).Advances text turn) :
    Progresses text (fun _ _ => True) turn :=
  h.progresses
    (fun state ahead _ htext _ => ⟨state, rfl, List.IsSuffix.length_le ⟨ahead, htext.symm⟩⟩)
    fun _ _ _ _ _ => trivial

theorem progresses_template (hfuel : text.length < fuel) :
    Progresses text (fun _ _ => True) (templateTurn text (balanced text fuel .brace)) := by
  have hadvances : (templateCourse text.length).Advances text
      (templateTurn text (balanced text fuel .brace)) :=
    advances_template fun s hs => reads_balanced .brace fuel s (by omega)
  refine hadvances.progresses (fun state ahead s htext _ => ⟨state, rfl, ?_⟩) fun _ _ _ _ _ => trivial
  exact List.IsSuffix.length_le ⟨ahead, htext.symm⟩

/-- A slice may begin at the byte `start` and end at the byte `p`. -/
def IsSlice (text : List Char) (start p : Nat) : Prop := IsBoundary text start ∧ start ≤ p

theorem exists_append_of_size_le {a b s t : List Char} (h : a ++ s = b ++ t)
    (hle : Text.size a ≤ Text.size b) : ∃ u, b = a ++ u := by
  obtain ⟨u, hb, -⟩ | ⟨u, rfl, -⟩ := List.append_eq_append_iff.1 h
  · exact ⟨u, hb⟩
  · rw [Text.size_append] at hle
    obtain rfl : u = [] := Text.size_eq_zero_iff.1 (by omega)
    exact ⟨[], by simp⟩

theorem progresses_balanced (hfuel : text.length < fuel) (b : Bracket) (start : Nat) :
    Progresses text (fun depth p => 0 < depth ∧ IsSlice text start p)
      (balancedTurn text fuel (template text fuel) b start) := by
  by_cases hstart : IsBoundary text start
  · obtain ⟨ahead, rest, htext, rfl⟩ := hstart
    have hadvances : (groupCourse text ahead b text.length).Advances text
        (balancedTurn text fuel (template text fuel) b (Text.size ahead)) :=
      advances_balanced hfuel.le fun s hs => reads_template fuel s (hs.trans hfuel)
    refine hadvances.progresses ?_ ?_
    · rintro depth a s ha ⟨hdepth, -, hle⟩
      obtain ⟨read, rfl⟩ := exists_append_of_size_le (htext.symm.trans ha) hle
      have hlength : s.length ≤ text.length := List.IsSuffix.length_le ⟨_, ha.symm⟩
      exact ⟨(read, depth), rfl, by rw [ha, List.append_assoc], hdepth, hlength⟩
    · rintro ⟨read, depth⟩ a s ha ⟨hs, hdepth, -⟩
      have hread : a = ahead ++ read := by
        rw [← List.append_left_inj s, ← ha, hs, List.append_assoc]
      exact ⟨hdepth, ⟨ahead, rest, htext, rfl⟩, by simp [hread]⟩
  · exact fun _ _ _ hholds => absurd hholds.2.1 hstart

theorem progresses_segment (hfuel : text.length < fuel) :
    Progresses text (fun state p => IsSlice text state.2 p) (segmentTurn text fuel) := by
  refine (advances_segment hfuel).progresses ?_ ?_
  · rintro ⟨done, start⟩ a s ha ⟨⟨ahead, rest, htext, rfl⟩, hle⟩
    obtain ⟨read, rfl⟩ := exists_append_of_size_le (htext.symm.trans ha) hle
    have hlength : s.length ≤ text.length := List.IsSuffix.length_le ⟨_, ha.symm⟩
    exact ⟨(done, ahead, read), rfl, by rw [ha, List.append_assoc], hlength⟩
  · rintro ⟨done, ahead, read⟩ a s ha ⟨hs, -⟩
    replace hs : text = ahead ++ (read ++ s) := hs
    have hread : a = ahead ++ read := by
      rw [← List.append_left_inj s, ← ha, hs, List.append_assoc]
    have hle : Text.size ahead ≤ Text.size a := by simp [hread]
    exact ⟨⟨ahead, read ++ s, hs, rfl⟩, hle⟩

theorem forall_le_offsets (word : List Char) (taken n : Nat) (s : List Char) :
    ∀ m ∈ offsets word taken n s, n ≤ m := by
  fun_induction offsets word taken n s with
  | case1 => exact nofun
  | case2 taken n c s ih => exact fun m hm => (Nat.le_add_right _ _).trans (ih m hm)
  | case3 n c s rest h ih =>
    intro m hm
    obtain rfl | hm := List.mem_cons.1 hm
    · exact Nat.le_refl _
    · exact (Nat.le_add_right _ _).trans (ih m hm)
  | case4 n c s h ih => exact fun m hm => (Nat.le_add_right _ _).trans (ih m hm)

theorem pairwise_offsets (word : List Char) (taken n : Nat) (s : List Char) :
    (offsets word taken n s).Pairwise (· < ·) := by
  fun_induction offsets word taken n s with
  | case1 => exact .nil
  | case2 taken n c s ih => exact ih
  | case3 n c s rest h ih =>
    refine .cons (fun m hm => ?_) ih
    have hle := forall_le_offsets _ _ _ _ m hm
    have hpos := c.utf8Size_pos
    omega
  | case4 n c s h ih => exact ih

theorem isBoundary_of_mem_offsets {word : List Char} {taken n m : Nat} {s ahead : List Char}
    (hm : m ∈ offsets word taken n s) (htext : text = ahead ++ s) (hn : Text.size ahead = n) :
    IsBoundary text m ∧ IsBoundary text (m + Text.size word) := by
  fun_induction offsets word taken n s generalizing ahead with
  | case1 => cases hm
  | case2 taken n c s ih =>
    exact ih hm (show text = (ahead ++ [c]) ++ s by rw [htext]; simp) (by simp [hn])
  | case3 n c s rest h ih =>
    obtain rfl | hm := List.mem_cons.1 hm
    · have hword : text = (ahead ++ word) ++ rest := by
        rw [htext, Text.after?_eq_some_iff.1 h, List.append_assoc]
      exact ⟨⟨ahead, c :: s, htext, hn⟩, ⟨ahead ++ word, rest, hword, by simp [hn]⟩⟩
    · exact ih hm (show text = (ahead ++ [c]) ++ s by rw [htext]; simp) (by simp [hn])
  | case4 n c s h ih =>
    exact ih hm (show text = (ahead ++ [c]) ++ s by rw [htext]; simp) (by simp [hn])

/-- What the cursor does in a text: its loops make progress in every turn, its calls return no earlier than
they began, and the functions that start it end without a fault, with what the running search finds. -/
structure EndsSoundly (text : List Char) (fuel : Nat) : Prop where
  /-- what holds of every byte at which the cursor stands -/
  boundary {n : Nat} (h : IsBoundary text n) :
    n ≤ Text.size text ∧ (⟨n⟩ : String.Pos.Raw).IsValid (String.ofList text)
  blankTurn : Progresses text (fun _ _ => True) (blankTurn text)
  quotedTurn (mark : Char) : Progresses text (fun _ _ => True) (quotedTurn text mark)
  templateTurn :
    Progresses text (fun _ _ => True) (templateTurn text (balanced text fuel .brace))
  balancedTurn (b : Bracket) (start : Nat) : Progresses text
    (fun depth p => 0 < depth ∧ IsSlice text start p)
    (balancedTurn text fuel (template text fuel) b start)
  literalTurn : Progresses text (fun _ _ => True) (literalTurn text fuel)
  keyTurn : Progresses text (fun _ _ => True) (keyTurn text fuel)
  segmentTurn : Progresses text (fun state p => IsSlice text state.2 p) (segmentTurn text fuel)
  skipBlank : Returns text (skipBlank text fuel)
  quoted (mark : Char) : Returns text (quoted text fuel mark)
  template : Returns text (template text fuel)
  balanced (b : Bracket) : Returns text (balanced text fuel b)
  /-- the places where a word is searched for come one behind the other -/
  places (word : List Char) : (offsets word 0 0 text).Pairwise (· < ·) ∧
    ∀ n ∈ offsets word 0 0 text, IsBoundary text n ∧ IsBoundary text (n + Text.size word)
  stringLiterals : stringLiterals text fuel = pure (Source.stringLiterals text)
  classAttributes : classAttributes text fuel = pure (Source.classAttributes text)
  helperKeys : helperKeys text fuel = pure (Source.helperKeys text)
  objectKeys : objectKeys text fuel = pure (Source.objectKeys text)
  segments : segments text fuel = pure (stretches text)
  key? : key? text = pure (bareKey? (text.map .char))
  classes (kind : SourceKind) :
    classes fuel kind (String.ofList text) = pure (kind.classes (String.ofList text))

theorem spells_map_char (s : List Char) : Spells (s.map .char) s := by
  induction s with
  | nil => exact .nil
  | cons c s ih => exact ih.char c

/-- The search for class names ends on every text without a fault: no loop takes more turns than the text
has characters and one more, and no calls are within each other to a greater depth. -/
theorem endsSoundly {text : List Char} {fuel : Nat} (hfuel : text.length < fuel) :
    EndsSoundly text fuel where
  boundary h := ⟨h.le_size, Text.isBoundary_iff_isValid.1 h⟩
  blankTurn := progresses_of_plain (advances_blank text.length)
  quotedTurn mark := progresses_of_plain (advances_quoted text.length mark)
  templateTurn := progresses_template hfuel
  balancedTurn := progresses_balanced hfuel
  literalTurn := progresses_of_plain (advances_literal hfuel.le)
  keyTurn := progresses_of_plain (advances_key hfuel)
  segmentTurn := progresses_segment hfuel
  skipBlank := returns_of_reads fun s hs =>
    ⟨_, _, reads_skipBlank (Nat.lt_of_le_of_lt hs hfuel), length_trimStart_le s⟩
  quoted mark := returns_of_reads fun s hs =>
    ⟨_, _, reads_quoted (Nat.lt_of_le_of_lt hs hfuel) mark, length_quoted mark s⟩
  template := returns_of_reads fun s hs =>
    ⟨_, _, reads_template fuel s (Nat.lt_of_le_of_lt hs hfuel), length_templatePieces s⟩
  balanced := returns_balanced hfuel
  places word := ⟨pairwise_offsets word 0 0 text, fun _ hn =>
    isBoundary_of_mem_offsets hn (List.nil_append text).symm rfl⟩
  stringLiterals := stringLiterals_eq hfuel
  classAttributes := classAttributes_eq hfuel
  helperKeys := helperKeys_eq hfuel
  objectKeys := objectKeys_eq hfuel
  segments := segments_eq hfuel
  key? := key?_eq (spells_map_char text)
  classes kind := classes_eq (String.ofList text) (by rwa [String.toList_ofList]) kind

/-- A text that breaks off in a string within a call within a template, with characters of several bytes
beside the delimiters. -/
def truncated : List Char :=
  ['é', '`', 'ß', '$', '\x7b', 'c', 'x', '(', '\x7b', '€', '\'', 'ü', '\\']

theorem endsSoundly_truncated : truncated.length < 20 ∧ EndsSoundly truncated 20 :=
  ⟨by decide, endsSoundly (by decide)⟩

end UtilityCss.Source.Cursor
