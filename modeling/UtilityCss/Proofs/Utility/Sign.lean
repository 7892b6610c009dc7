import UtilityCss.Proofs.Utility.Keyword

namespace UtilityCss

/-- The quantity of the other sign. Zero and `auto` have none. -/
def opposite (value : String) : String :=
  if value = "0" ∨ value = "auto" then value else "-" ++ value

def Styling.mapValues (f : String → String) (s : Styling) : Styling :=
  ⟨s.target, s.declarations.map fun d => ⟨d.property, f d.value⟩⟩

/-- The margins that make a space between siblings. -/
def spaceBetween (axis value : String) : Styling :=
  if axis = "y" then
    Keyword.betweenSiblings ("--space-" ++ axis ++ "-reverse") "margin-top" "margin-bottom" value true
  else
    Keyword.betweenSiblings ("--space-" ++ axis ++ "-reverse") "margin-left" "margin-right" value false

/-- The side of the space is exchanged. -/
def spaceReversed (axis : String) : Styling := .of [("--space-" ++ axis ++ "-reverse", "1")] .siblings

namespace Utility

/-- The families whose values are quantities with a sign. -/
def quantities : List Utility := [margin, zIndex, rotate, translate, skew]

/-- What a family makes of a candidate with a sign, beside the same candidate without. -/
structure Negates (utility : Utility) (plain negative : Styling) : Prop where
  target : negative.target = plain.target
  properties : negative.declarations.map (·.property) = plain.declarations.map (·.property)
  quantity : utility ∈ quantities → negative = plain.mapValues opposite
  /-- the quantity stands in two calculations -/
  space : utility = .space → (∃ axis ∈ ["x", "y"], plain = spaceReversed axis ∧ negative = plain) ∨
    ∃ axis ∈ ["x", "y"], ∃ value,
      plain = spaceBetween axis value ∧ negative = spaceBetween axis (opposite value)
  dropped : utility ∉ Utility.space :: quantities → negative = plain

namespace Negates

theorem of_dropped {utility : Utility} (h : utility ∉ Utility.space :: quantities) (s : Styling) :
    utility.Negates s s where
  target := rfl
  properties := rfl
  quantity hq := absurd (List.mem_cons_of_mem _ hq) h
  space hs := absurd (hs ▸ List.mem_cons_self) h
  dropped _ := rfl

theorem of_mapValues {utility : Utility} (h : utility ∈ quantities) (s : Styling) :
    utility.Negates s (s.mapValues opposite) where
  target := rfl
  properties := by simp [Styling.mapValues]
  quantity _ := rfl
  space hs := by
    subst hs
    exact absurd h (by decide)
  dropped hd := absurd (List.mem_cons_of_mem _ h) hd

theorem of_space {plain negative : Styling}
    (h : (∃ axis ∈ ["x", "y"], plain = spaceReversed axis ∧ negative = plain) ∨
      ∃ axis ∈ ["x", "y"], ∃ value,
        plain = spaceBetween axis value ∧ negative = spaceBetween axis (opposite value)) :
    Utility.space.Negates plain negative where
  target := by
    obtain ⟨axis, -, rfl, rfl⟩ | ⟨axis, -, value, rfl, rfl⟩ := h
    · rfl
    · unfold spaceBetween
      split <;> rfl
  properties := by
    obtain ⟨axis, -, rfl, rfl⟩ | ⟨axis, -, value, rfl, rfl⟩ := h
    · rfl
    · unfold spaceBetween
      split <;> rfl
  quantity hq := absurd hq (by decide)
  space _ := h
  dropped hd := absurd List.mem_cons_self hd

end Negates

end Utility

theorem signed_false (value : String) : signed false value = value := rfl

theorem signed_true (value : String) : signed true value = opposite value := by
  by_cases hzero : value = "0"
  · simp [signed, opposite, hzero]
  · simp [signed, opposite, hzero]

theorem length?_true (token : String) (axis : Axis) :
    length? token true axis = (length? token false axis).map opposite := by
  simp only [length?, Option.map_map]
  congr 1
  funext size
  exact signed_true _

theorem spacing?_true (token : String) :
    spacing? token true = (spacing? token false).map opposite := by
  simp only [spacing?, Option.map_map]
  congr 1
  funext size
  exact signed_true _

theorem mapValues_setAll (properties : List String) (value : String) :
    (Styling.setAll properties value).mapValues opposite =
      .setAll properties (opposite value) := by
  simp [Styling.setAll, Styling.of, Styling.mapValues]

/-- One property that is set to a quantity. -/
theorem bind_set_opposite (property : String) (value? : Option String) :
    ((value?.map opposite).bind fun value => some (Styling.set property value)) =
      (value?.bind fun value => some (Styling.set property value)).map
        (Styling.mapValues opposite) := by
  cases value? <;> rfl

namespace Measure

theorem degrees?_true (token : String) :
    degrees? token true = (degrees? token false).map opposite := by
  simp only [degrees?, Option.map_map]
  congr 1
  funext amount
  simp only [Function.comp_apply]
  split
  · rfl
  · exact signed_true _

variable (identifier : String) (token : Option String)

/-- The styling of the candidate without a sign and with it, where all values are of the other sign. -/
theorem margin_true : margin ⟨identifier, token, true⟩ =
    (margin ⟨identifier, token, false⟩).map (Styling.mapValues opposite) := by
  cases token with
  | none => rfl
  | some token =>
    simp only [margin, Option.bind_eq_bind, Option.bind_some, Option.pure_def]
    split
    · cases edgeProperties? "m" "margin" identifier with
      | none => rfl
      | some properties => simp [mapValues_setAll, opposite]
    · rw [spacing?_true]
      cases spacing? token false <;> cases edgeProperties? "m" "margin" identifier <;>
        simp [mapValues_setAll]

theorem zIndex_true : zIndex ⟨identifier, token, true⟩ =
    (zIndex ⟨identifier, token, false⟩).map (Styling.mapValues opposite) := by
  simp only [zIndex, Option.bind_eq_bind, Option.pure_def, signed_true, signed_false]
  cases integer? token <;> rfl

theorem rotate_true : rotate ⟨identifier, token, true⟩ =
    (rotate ⟨identifier, token, false⟩).map (Styling.mapValues opposite) := by
  cases token with
  | none => rfl
  | some token =>
    simp only [rotate, Option.bind_eq_bind, Option.bind_some, Option.pure_def, degrees?_true]
    exact bind_set_opposite _ _

theorem translate_true : translate ⟨identifier, token, true⟩ =
    (translate ⟨identifier, token, false⟩).map (Styling.mapValues opposite) := by
  cases token with
  | none => rfl
  | some token =>
    simp only [translate, Option.bind_eq_bind, Option.bind_some, Option.pure_def, length?_true]
    split
    · split
      · rfl
      · exact bind_set_opposite _ _
    · split
      · rfl
      · exact bind_set_opposite _ _
    · rfl

theorem skew_true : skew ⟨identifier, token, true⟩ =
    (skew ⟨identifier, token, false⟩).map (Styling.mapValues opposite) := by
  cases token with
  | none => rfl
  | some token =>
    simp only [skew, Option.bind_eq_bind, Option.bind_some, Option.pure_def, degrees?_true]
    split
    · exact bind_set_opposite _ _
    · exact bind_set_opposite _ _
    · rfl

/-- An offset is `0` or `auto`, which have no sign. -/
theorem inset_true : inset ⟨identifier, token, true⟩ = inset ⟨identifier, token, false⟩ := by
  cases token with
  | none => rfl
  | some token =>
    simp only [inset, Option.bind_eq_bind, Option.bind_some, Option.pure_def]
    congr 1
    funext sides
    split <;> rfl

theorem axisOf_mem {token axis rest : String} (h : axisOf token = (some axis, rest)) :
    axis ∈ ["x", "y"] := by
  unfold axisOf at h
  split at h <;> cases h <;> decide

theorem space_eq (token : String) (negative : Bool) : space ⟨identifier, some token, negative⟩ =
    (axisOf token).1.bind fun axis =>
      if (axisOf token).2 = "reverse" then some (spaceReversed axis)
      else (spacing? (axisOf token).2 negative).map (spaceBetween axis) := by
  simp only [space, Option.bind_eq_bind, Option.bind_some, Option.pure_def]
  obtain ⟨axis?, rest⟩ := axisOf token
  cases axis? with
  | none => rfl
  | some axis =>
    simp only [Option.bind_some]
    by_cases hreverse : rest = "reverse"
    · rw [if_pos hreverse, if_pos hreverse, spaceReversed]
    · rw [if_neg hreverse, if_neg hreverse, Option.map_eq_bind]
      simp only [Function.comp_def, spaceBetween, apply_ite some]

theorem space_true :
    Option.Rel (Utility.Negates .space) (space ⟨identifier, token, false⟩)
      (space ⟨identifier, token, true⟩) := by
  cases token with
  | none => exact .none
  | some token =>
    rw [space_eq, space_eq]
    rcases haxis : axisOf token with ⟨axis?, rest⟩
    cases axis? with
    | none => exact .none
    | some axis =>
      have hmem := axisOf_mem haxis
      simp only [Option.bind_some]
      split
      · exact .some (.of_space (.inl ⟨axis, hmem, rfl, rfl⟩))
      · rw [spacing?_true]
        cases spacing? rest false with
        | none => exact .none
        | some value => exact .some (.of_space (.inr ⟨axis, hmem, value, rfl, rfl⟩))

end Measure

/-- What a keyword of a family with quantities sets is none. -/
theorem mapValues_keyword {identifier : String} {token : Option String} {utility : Utility}
    (hutility : Utility.ofIdentifier? identifier = some utility)
    (hquantity : utility ∈ Utility.space :: Utility.quantities) {s : Styling}
    (h : Keyword.styling? identifier token = some s) :
    utility = .zIndex ∧ s.mapValues opposite = s := by
  have hnames : ∀ pair ∈ Utility.identifiers, pair.2 ∈ Utility.space :: Utility.quantities →
      pair = ("z", .zIndex) ∨ pair.1 ∈ Keyword.wordless := by decide
  have hmem : (identifier, utility) ∈ Utility.identifiers := by
    obtain ⟨before, behind, hrows, -⟩ := List.lookup_eq_some_iff.1 hutility
    exact hrows ▸ by simp
  obtain hz | hwordless := hnames _ hmem hquantity
  · obtain ⟨rfl, rfl⟩ := Prod.mk.inj hz
    rw [Keyword.styling?_eq, Keyword.filter_z] at h
    obtain ⟨e, he, rfl⟩ := Option.map_eq_some_iff.1 h
    obtain ⟨value, hvalue, rfl⟩ := List.mem_map.1 (List.mem_of_find?_eq_some he)
    obtain rfl := List.mem_singleton.1 hvalue
    exact ⟨rfl, rfl⟩
  · rw [Keyword.styling?_of_wordless hwordless] at h
    cases h

theorem rel_imp {α β : Type} {r r' : α → β → Prop} {a : Option α} {b : Option β}
    (hr : Option.Rel r a b) (h : ∀ x y, r x y → r' x y) : Option.Rel r' a b := by
  cases hr with
  | some hxy => exact .some (h _ _ hxy)
  | none => exact .none

namespace Utility

variable {utility : Utility} {plain negative : Option Styling}

theorem rel_of_dropped (h : utility ∉ Utility.space :: quantities) (he : negative = plain) :
    Option.Rel utility.Negates plain negative := by
  subst he
  cases negative with
  | none => exact .none
  | some s => exact .some (.of_dropped h s)

theorem rel_of_mapValues (h : utility ∈ quantities)
    (he : negative = plain.map (Styling.mapValues opposite)) :
    Option.Rel utility.Negates plain negative := by
  subst he
  cases plain with
  | none => exact .none
  | some s => exact .some (.of_mapValues h s)

theorem rel_measure (utility : Utility) (identifier : String) (token : Option String) :
    Option.Rel utility.Negates (utility.measure ⟨identifier, token, false⟩)
      (utility.measure ⟨identifier, token, true⟩) := by
  cases utility
  case space => exact Measure.space_true identifier token
  case margin => exact rel_of_mapValues (by decide) (Measure.margin_true identifier token)
  case zIndex => exact rel_of_mapValues (by decide) (Measure.zIndex_true identifier token)
  case rotate => exact rel_of_mapValues (by decide) (Measure.rotate_true identifier token)
  case translate => exact rel_of_mapValues (by decide) (Measure.translate_true identifier token)
  case skew => exact rel_of_mapValues (by decide) (Measure.skew_true identifier token)
  case inset => exact rel_of_dropped (by decide) (Measure.inset_true identifier token)
  -- The other families do not look at the sign.
  all_goals exact rel_of_dropped (by decide) rfl

theorem rel_keyword {identifier : String} (hutility : ofIdentifier? identifier = some utility)
    {token : Option String} {s : Styling} (h : Keyword.styling? identifier token = some s) :
    utility.Negates s s := by
  by_cases hquantity : utility ∈ Utility.space :: quantities
  · obtain ⟨rfl, hvalues⟩ := mapValues_keyword hutility hquantity h
    have hnegates : Utility.zIndex.Negates s (s.mapValues opposite) := .of_mapValues (by decide) s
    rwa [hvalues] at hnegates
  · exact .of_dropped hquantity s

end Utility

/-- A candidate with a sign is resolved where the one without is, and to what the sign makes of that. -/
theorem negates_resolve? (identifier : String) (token : Option String) :
    Option.Rel
      (fun plain negative => ∃ utility, Utility.ofIdentifier? identifier = some utility ∧
        utility.Negates plain negative)
      (⟨identifier, token, false⟩ : Candidate).resolve?
      (⟨identifier, token, true⟩ : Candidate).resolve? := by
  unfold Candidate.resolve?
  cases hutility : Utility.ofIdentifier? identifier with
  | none => exact .none
  | some utility =>
    simp only [Option.bind_some]
    cases hkeyword : Keyword.styling? identifier token with
    | some s => exact .some ⟨utility, rfl, utility.rel_keyword hutility hkeyword⟩
    | none =>
      simp only [Option.none_or]
      exact rel_imp (utility.rel_measure identifier token) fun _ _ h => ⟨utility, rfl, h⟩

end UtilityCss
