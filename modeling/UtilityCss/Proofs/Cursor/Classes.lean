import UtilityCss.Proofs.Cursor.ObjectKey

namespace UtilityCss.Source.Cursor

variable {text s : List Char} {fuel : Nat}

theorem isApart_eq {ahead word rest : List Char} (h : text = ahead ++ (word ++ rest))
    (isNameChar : Char → Bool) :
    isApart text isNameChar (Text.size ahead) (Text.size ahead + Text.size word) =
      pure (!(ahead.getLast?.any isNameChar || rest.head?.any isNameChar)) := by
  have hbehind : text = (ahead ++ word) ++ rest := by rw [h, List.append_assoc]
  rw [isApart, ← Text.size_append]
  conv_lhs =>
    rw [h, before_append, ← h, hbehind, behind_append]
  simp

section

variable {isNameChar : Char → Bool} {reading : Reading (List (List Char))}
  {found : List Char → List (List Char)}
  (hreading : ∀ s, s.length ≤ text.length → ∃ t, Reads text reading s (found s) t)

include hreading

theorem behindPlace_eq {ahead word rest : List Char} (htext : text = ahead ++ (word ++ rest)) :
    behindPlace text isNameChar reading (Text.size ahead) (Text.size ahead + Text.size word) =
      pure (if ahead.getLast?.any isNameChar || rest.head?.any isNameChar then [] else found rest) := by
  have hbehind : text = (ahead ++ word) ++ rest := by rw [htext, List.append_assoc]
  obtain ⟨t, hread⟩ := hreading rest (List.IsSuffix.length_le ⟨ahead ++ word, hbehind.symm⟩)
  have hstart := startingAt_eq hbehind hread
  rw [Text.size_append] at hstart
  rw [behindPlace, isApart_eq htext, pure_bind, hstart]
  cases ahead.getLast?.any isNameChar || rest.head?.any isNameChar <;> rfl

/-- The places are those that the running search finds, each at its byte. -/
theorem flatMapM_offsets {word : List Char} (taken : Nat) (before : Option Char)
    (s ahead : List Char) (htext : text = ahead ++ s) (hbefore : ahead.getLast? = before) :
    ((offsets word taken (Text.size ahead) s).flatMapM fun n =>
        behindPlace text isNameChar reading n (n + Text.size word)) =
      pure (((occurrences word taken before s).filterMap fun (before, rest) =>
        if before.any isNameChar || rest.head?.any isNameChar then none
        else some rest).flatMap found) := by
  fun_induction occurrences word taken before s generalizing ahead with
  | case1 => rfl
  | case2 taken before c s ih =>
    -- What lies within a word that was found is passed over.
    have htail := ih (ahead ++ [c]) (by rw [htext]; simp) (by simp)
    simpa [offsets] using htail
  | case3 before c s rest hrest ih =>
    have htail := ih (ahead ++ [c]) (by rw [htext]; simp) (by simp)
    have hoffsets : offsets word 0 (Text.size ahead) (c :: s) =
        Text.size ahead :: offsets word (word.length - 1) (Text.size (ahead ++ [c])) s := by
      simp [offsets, hrest]
    rw [Text.after?_eq_some_iff] at hrest
    rw [hoffsets, List.flatMapM_cons, behindPlace_eq hreading (hrest ▸ htext), pure_bind, htail,
      pure_bind, hbefore]
    rw [List.filterMap_cons]
    cases h : before.any isNameChar || rest.head?.any isNameChar with
    | true =>
      simp only [h]
      rfl
    | false =>
      simp only [h]
      rfl
  | case4 before c s hnone ih =>
    have htail := ih (ahead ++ [c]) (by rw [htext]; simp) (by simp)
    simpa [offsets, hnone] using htail

theorem behindWord_eq (word : String) : behindWord text isNameChar reading word =
    pure ((Source.behindWord isNameChar word text).flatMap found) :=
  flatMapM_offsets hreading 0 none text [] (List.nil_append text).symm rfl

end

theorem flatMapM_eq_pure {α β : Type} {f : α → Outcome (List β)} {g : α → List β}
    (h : ∀ a, f a = pure (g a)) (l : List α) : l.flatMapM f = pure (l.flatMap g) := by
  induction l with
  | nil => rfl
  | cons a l ih => rw [List.flatMapM_cons, h, ih, List.flatMap_cons]; rfl

theorem reads_bareValue (s : List Char) :
    Reads text (bareValue text) s (s.takeWhile fun c => !Text.isBlank c && c != '>') s := by
  refine .of_suffix fun ahead htext => (reads_get htext).bind ?_
  have hrest : behind text (Text.size ahead) = pure s := by rw [htext, behind_append]
  refine (Reads.lift hrest).bind (Reads.lift ?_)
  have hends : (fun c => !(Text.isBlank c || c == '>')) = fun c => !Text.isBlank c && c != '>' :=
    funext fun c => Bool.not_or _ _
  rw [Text.getD_find?, hends]
  have hcut := before_append (s.takeWhile fun c => !Text.isBlank c && c != '>')
    (s.dropWhile fun c => !Text.isBlank c && c != '>')
  rwa [List.takeWhile_append_dropWhile] at hcut

theorem reads_attributeValue (hfuel : s.length < fuel) :
    ∃ t, Reads text (attributeValue text fuel) s (Source.attributeValue s) t := by
  cases s with
  | nil => exact ⟨[], reads_peek.bind (.pure _)⟩
  | cons c s =>
    have hless : s.length < fuel := Nat.lt_of_succ_lt hfuel
    rw [Source.attributeValue]
    by_cases hquote : isQuote c
    · refine ⟨(Source.quoted c s).2, reads_peek.bind ?_⟩
      dsimp only [List.head?_cons]
      rw [if_pos hquote, if_pos hquote]
      exact (reads_bump_cons c s).bind ((reads_quoted hless c).bind (.pure _))
    rw [if_neg hquote]
    by_cases hbrace : c = '{'
    · subst hbrace
      have hinside := stringLiterals_eq (Nat.lt_of_le_of_lt (length_inside [.group .brace] s) hless)
      refine ⟨(group .brace s).2, reads_peek.bind ?_⟩
      exact (reads_balanced .brace fuel s hfuel).bind (Reads.lift hinside)
    · refine ⟨c :: s, reads_peek.bind ?_⟩
      dsimp only [List.head?_cons]
      rw [if_neg hquote, if_neg hbrace, if_neg hbrace]
      exact (reads_bareValue (c :: s)).bind (.pure _)

theorem length_trimStart_le (s : List Char) : (Text.trimStart s).length ≤ s.length :=
  (List.dropWhile_suffix _).length_le

theorem reads_attributeTexts (hfuel : s.length < fuel) :
    ∃ t, Reads text (attributeTexts text fuel) s
      (match Text.trimStart s with
        | '=' :: value => Source.attributeValue (Text.trimStart value)
        | _ => []) t := by
  have hstart := length_trimStart_le s
  by_cases hequals : (Text.trimStart s).head? = some '='
  · obtain ⟨value, hvalue⟩ := List.head?_eq_some_iff.1 hequals
    rw [hvalue, List.length_cons] at hstart
    have hless : value.length < fuel := by omega
    obtain ⟨t, hread⟩ := @reads_attributeValue text (Text.trimStart value) fuel
      (Nat.lt_of_le_of_lt (length_trimStart_le value) hless)
    refine ⟨t, (reads_skipBlank hfuel).bind ?_⟩
    rw [hvalue]
    refine (reads_eat_cons '=' value).bind ?_
    exact (reads_skipBlank hless).bind hread
  · refine ⟨Text.trimStart s, (reads_skipBlank hfuel).bind ((reads_eat_of_ne hequals).bind ?_)⟩
    rw [if_neg Bool.false_ne_true]
    split
    · rename_i value hvalue
      exact absurd (by rw [hvalue]; rfl) hequals
    · exact .pure _

theorem reads_call (hfuel : s.length < fuel) : ∃ t, Reads text (call text fuel) s
    (match Text.trimStart s with
      | '(' :: call => Source.objectKeys (group .paren call).1
      | _ => []) t := by
  have hstart := length_trimStart_le s
  by_cases hparen : (Text.trimStart s).head? = some '('
  · obtain ⟨arguments, harguments⟩ := List.head?_eq_some_iff.1 hparen
    rw [harguments, List.length_cons] at hstart
    have hinside := objectKeys_eq (Nat.lt_of_le_of_lt (length_inside [.group .paren] arguments)
      (show arguments.length < fuel by omega))
    refine ⟨(group .paren arguments).2, (reads_skipBlank hfuel).bind (reads_peek.bind ?_)⟩
    rw [harguments]
    exact (reads_balanced .paren fuel arguments (by omega)).bind (Reads.lift hinside)
  · refine ⟨Text.trimStart s, (reads_skipBlank hfuel).bind (reads_peek.bind ?_)⟩
    rw [if_neg hparen]
    split
    · rename_i arguments harguments
      exact absurd (by rw [harguments]; rfl) hparen
    · exact .pure _

theorem classAttributes_eq (hfuel : text.length < fuel) :
    classAttributes text fuel = pure (Source.classAttributes text) :=
  flatMapM_eq_pure (behindWord_eq fun _ hs => reads_attributeTexts (Nat.lt_of_le_of_lt hs hfuel)) _

theorem helperKeys_eq (hfuel : text.length < fuel) :
    helperKeys text fuel = pure (Source.helperKeys text) :=
  flatMapM_eq_pure (behindWord_eq fun _ hs => reads_call (Nat.lt_of_le_of_lt hs hfuel)) _

theorem texts_eq (hfuel : text.length < fuel) (kind : SourceKind) :
    texts text fuel kind = pure (kind.texts text) := by
  cases kind with
  | markup => exact classAttributes_eq hfuel
  | script =>
    rw [texts, stringLiterals_eq hfuel, helperKeys_eq hfuel]
    rfl
  | other =>
    rw [texts, stringLiterals_eq hfuel, classAttributes_eq hfuel]
    rfl

theorem classes_eq (text : String) (hfuel : text.toList.length < fuel) (kind : SourceKind) :
    classes fuel kind text = pure (kind.classes text) := by
  rw [classes, texts_eq hfuel]
  rfl

end UtilityCss.Source.Cursor
