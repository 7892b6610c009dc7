import UtilityCss.Proofs.Sheet.Batch

namespace UtilityCss.Sheet
open Rules

/-- Containers have a rule outermost, and in the outermost blocks of breakpoints. -/
def holdsContainers : List MediaQuery → Bool
  | [] | [.breakpoint _] => true
  | _ => false

/-- Some rule stands at the path or further in. -/
def Occupied (names : List String) (p : List MediaQuery) : Prop :=
  (∃ name ∈ names, isStyled name ∧ p <+: pathOf name) ∨
    holdsContainers p ∧ ∃ name ∈ names, isContainer name

instance (names : List String) (p : List MediaQuery) : Decidable (Occupied names p) :=
  inferInstanceAs (Decidable (_ ∨ _))

/-- The media queries behind a path whose blocks have any text. -/
def shownAt (names : List String) (p : List MediaQuery) : List MediaQuery :=
  (queriesAt names p).filter fun q => Occupied names (p ++ [q])

theorem prefix_iff_eq_or {p path : List MediaQuery} :
    p <+: path ↔ path = p ∨ ∃ q, p ++ [q] <+: path := by
  constructor
  · rintro ⟨rest, rfl⟩
    cases rest with
    | nil => exact .inl (List.append_nil p)
    | cons q rest => exact .inr ⟨q, rest, by simp⟩
  · rintro (rfl | ⟨q, h⟩)
    · exact List.prefix_rfl
    · exact (List.prefix_append p [q]).trans h

section Occupied
variable {names : List String} {p : List MediaQuery}

theorem holdsContainers_mono {p' : List MediaQuery} (hp : p <+: p') (h : holdsContainers p') :
    holdsContainers p := by
  obtain ⟨rest, rfl⟩ := hp
  match p, rest, h with
  | [], _, _ => rfl
  | [.breakpoint _], [], _ => rfl

/-- What stands further in stands behind every path that leads there. -/
theorem Occupied.mono {p' : List MediaQuery} (hp : p <+: p') (h : Occupied names p') :
    Occupied names p := by
  rcases h with ⟨name, hn, hs, hp'⟩ | ⟨hh, hc⟩
  · exact .inl ⟨name, hn, hs, hp.trans hp'⟩
  · exact .inr ⟨holdsContainers_mono hp hh, hc⟩

theorem occupied_iff : Occupied names p ↔
    (∃ name ∈ names, isStyled name ∧ pathOf name = p) ∨
      (holdsContainers p ∧ ∃ name ∈ names, isContainer name) ∨
      ∃ q ∈ queriesAt names p, Occupied names (p ++ [q]) := by
  constructor
  · rintro (⟨name, hn, hs, hp⟩ | hc)
    · rcases prefix_iff_eq_or.1 hp with he | ⟨q, hq⟩
      · exact .inl ⟨name, hn, hs, he⟩
      · exact .inr (.inr ⟨q, mem_queriesAt.2 ⟨name, hn, hq⟩, .inl ⟨name, hn, hs, hq⟩⟩)
    · exact .inr (.inl hc)
  · rintro (⟨name, hn, hs, rfl⟩ | hc | ⟨q, -, h⟩)
    · exact .inl ⟨name, hn, hs, List.prefix_rfl⟩
    · exact .inr hc
    · exact h.mono (List.prefix_append p [q])

end Occupied

theorem nodup_shownAt (names : List String) (p : List MediaQuery) : (shownAt names p).Nodup :=
  (nodup_queriesAt names p).filter _

theorem mem_shownAt {names : List String} {p : List MediaQuery} {q : MediaQuery} :
    q ∈ shownAt names p ↔ q ∈ queriesAt names p ∧ Occupied names (p ++ [q]) := by
  simp [shownAt]

theorem join_eq_empty {texts : List String} : String.join texts = "" ↔ ∀ t ∈ texts, t = "" := by
  induction texts with
  | nil => simp
  | cons t texts ih => simp [String.append_eq_empty_iff, ih]

theorem opening_ne_empty (layout : Layout) (level : Nat) (head : String) :
    layout.opening level head ≠ "" := by
  simp [Layout.opening, String.append_eq_empty_iff]

theorem text_ne_empty (layout : Layout) (rule : StyleRule) : rule.text layout ≠ "" := by
  simp [StyleRule.text, String.append_eq_empty_iff, opening_ne_empty]

theorem mediaText_ne_empty (layout : Layout) (level : Nat) (q : MediaQuery) (body : String) :
    mediaText layout level q body ≠ "" := by
  simp [mediaText, String.append_eq_empty_iff, opening_ne_empty]

theorem wrap_eq_empty {layout : Layout} {level : Nat} {q : MediaQuery} {body : String} :
    wrap layout level q body = "" ↔ body = "" := by
  rw [wrap]
  split
  · simp [*]
  · simp [*, mediaText_ne_empty]

/-- Rules have no text just if there are none. -/
theorem join_text_eq_empty (layout : Layout) {rules : List StyleRule} :
    String.join (rules.map (StyleRule.text layout)) = "" ↔ rules = [] := by
  rw [join_eq_empty, List.forall_mem_map]
  constructor
  · intro h
    rw [List.eq_nil_iff_forall_not_mem]
    exact fun rule hr => text_ne_empty layout rule (h rule hr)
  · rintro rfl
    simp

theorem stylesAt_ne_nil {names : List String} {p : List MediaQuery} :
    stylesAt names p ≠ [] ↔ ∃ name ∈ names, isStyled name ∧ pathOf name = p := by
  rw [Ne, stylesAt, List.filterMap_eq_nil_iff]
  push Not
  simp only [List.mem_filter, decide_eq_true_eq, Option.ne_none_iff_isSome, isSome_styleRule?]
  constructor
  · rintro ⟨name, ⟨hn, hp⟩, hs⟩
    exact ⟨name, hn, hs, hp⟩
  · rintro ⟨name, hn, hs, hp⟩
    exact ⟨name, ⟨hn, hp⟩, hs⟩

theorem containerRuleAt?_ne_none (layout : Layout) {names : List String} {p : List MediaQuery} :
    containerRuleAt? layout (names.filter isContainer) p ≠ none ↔
      holdsContainers p ∧ ∃ name ∈ names, isContainer name := by
  have hc : names.filter isContainer ≠ [] ↔ ∃ name ∈ names, isContainer name := by
    rw [Ne, List.filter_eq_nil_iff]
    push Not
    rfl
  rw [← hc]
  unfold containerRuleAt? holdsContainers
  split
  · simp [*]
  · split <;> simp_all

/-- A path has text just if some rule stands there or further in, whatever the layout. -/
theorem textAt_eq_empty (layout : Layout) (names : List String) (p : List MediaQuery) :
    textAt layout names p = "" ↔ ¬ Occupied names p := by
  induction p using queries_induction names with
  | step p ih =>
    have hq : String.join ((queriesAt names p).map fun q =>
        wrap layout p.length q (textAt layout names (p ++ [q]))) = "" ↔
        ¬ ∃ q ∈ queriesAt names p, Occupied names (p ++ [q]) := by
      rw [join_eq_empty, List.forall_mem_map]
      push Not
      exact forall₂_congr fun q hq => wrap_eq_empty.trans (ih q hq)
    rw [textAt_eq, String.append_eq_empty_iff, String.append_eq_empty_iff, join_text_eq_empty,
      join_text_eq_empty, hq, occupied_iff, not_or, not_or, and_assoc, ← stylesAt_ne_nil,
      ← containerRuleAt?_ne_none layout, not_not, not_not, Option.toList_eq_nil_iff]

/-- The text of a path by the blocks that are not left out. -/
theorem textAt_eq_shown (layout : Layout) (names : List String) (p : List MediaQuery) :
    textAt layout names p =
      String.join ((stylesAt names p).map (StyleRule.text layout)) ++
      String.join ((containerRuleAt? layout (names.filter isContainer) p).toList.map
        (StyleRule.text layout)) ++
      String.join ((shownAt names p).map fun q =>
        mediaText layout p.length q (textAt layout names (p ++ [q]))) := by
  rw [textAt_eq, shownAt]
  congr 1
  -- What `shownAt` leaves out are the queries whose `wrap` is empty.
  induction queriesAt names p with
  | nil => rfl
  | cons q qs ih =>
    have he := textAt_eq_empty layout names (p ++ [q])
    by_cases h : Occupied names (p ++ [q])
    · rw [List.map_cons, String.join_cons, ih, wrap, if_neg (mt he.1 (not_not.2 h)),
        List.filter_cons_of_pos (by simpa using h), List.map_cons, String.join_cons]
    · rw [List.map_cons, String.join_cons, ih, wrap, if_pos (he.2 h), String.empty_append,
        List.filter_cons_of_neg (by simpa using h)]

end UtilityCss.Sheet
