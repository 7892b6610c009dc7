import UtilityCss.Proofs.Text.Pieces

namespace UtilityCss.Text

/-- A text without its line feeds and the run of spaces at the start of each line. -/
def joinLines (s : String) : String :=
  String.ofList ((pieces (· == '\n') s.toList).flatMap fun line => line.dropWhile (· == ' '))

/-- Joining the lines of `s` leaves `t`, and what follows `s` begins a line. -/
def Joins (s t : String) : Prop := ∀ rest, joinLines (s ++ rest) = t ++ joinLines rest

/-- A text within one line that begins with something else than a space. -/
structure Line (s : String) : Prop where
  no_feed : '\n' ∉ s.toList
  start : ∃ c, s.toList.head? = some c ∧ c ≠ ' '

/-- A literal stands for the text of its characters, so `rfl` proves the hypothesis of one. -/
theorem notMem_literal {c : Char} {l : List Char} (h : l.contains c = false) :
    c ∉ (String.ofList l).toList := by
  rw [String.toList_ofList]
  simpa using h

theorem line_literal {c : Char} {l : List Char} (hfeed : (c :: l).contains '\n' = false)
    (hc : (c == ' ') = false) : Line (String.ofList (c :: l)) := by
  refine ⟨notMem_literal hfeed, c, ?_, by simpa using hc⟩
  rw [String.toList_ofList]
  rfl

theorem Line.append {s t : String} (hs : Line s) (ht : '\n' ∉ t.toList) : Line (s ++ t) := by
  obtain ⟨c, hc, hne⟩ := hs.start
  constructor
  · rw [String.toList_append, List.mem_append, not_or]
    exact ⟨hs.no_feed, ht⟩
  · refine ⟨c, ?_, hne⟩
    rw [String.toList_append, List.head?_append, hc]
    rfl

theorem joins_empty : Joins "" "" := by
  intro rest
  rw [String.empty_append, String.empty_append]

theorem Joins.append {s t s' t' : String} (h : Joins s t) (h' : Joins s' t') :
    Joins (s ++ s') (t ++ t') := by
  intro rest
  rw [String.append_assoc, h, h', String.append_assoc]

theorem joins_join {α : Type} {as : List α} {f g : α → String}
    (h : ∀ a ∈ as, Joins (f a) (g a)) :
    Joins (String.join (as.map f)) (String.join (as.map g)) := by
  induction as with
  | nil => exact joins_empty
  | cons a as ih =>
    simp only [List.map_cons, String.join_cons]
    exact (h a List.mem_cons_self).append (ih fun b hb => h b (List.mem_cons_of_mem _ hb))

theorem Joins.joinLines_eq {s t : String} (h : Joins s t) : joinLines s = t := by
  have he := h ""
  rwa [String.append_empty, show joinLines "" = "" from rfl, String.append_empty] at he

/-- A line is joined without its feed and its indentation. -/
theorem joins_line (n : Nat) {body : String} (h : Line body) :
    Joins (String.ofList (List.replicate n ' ') ++ body ++ "\n") body := by
  intro rest
  have hfeed : ∀ c ∈ List.replicate n ' ' ++ body.toList, (c == '\n') = false := by
    intro c hc
    rw [beq_eq_false_iff_ne]
    rintro rfl
    rcases List.mem_append.1 hc with hc | hc
    · exact absurd (List.eq_of_mem_replicate hc) (by decide)
    · exact h.no_feed hc
  have hdrop : (List.replicate n ' ' ++ body.toList).dropWhile (· == ' ') = body.toList := by
    obtain ⟨c, hc, hne⟩ := h.start
    obtain ⟨l, hl⟩ := List.head?_eq_some_iff.1 hc
    rw [List.dropWhile_append_of_pos (by simp), hl, List.dropWhile_cons_of_neg (by simpa using hne)]
  have hlist : (String.ofList (List.replicate n ' ') ++ body ++ "\n" ++ rest).toList =
      List.replicate n ' ' ++ body.toList ++ '\n' :: rest.toList := by
    simp
  rw [joinLines, hlist, pieces_append rest.toList hfeed rfl, List.flatMap_cons, hdrop,
    String.ofList_append, String.ofList_toList]
  rfl

end UtilityCss.Text
