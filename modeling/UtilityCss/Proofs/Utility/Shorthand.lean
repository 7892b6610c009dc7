import UtilityCss.Text.Cut
import UtilityCss.Proofs.Utility.Reader

namespace UtilityCss

/-- The token of a side with a size, or with the one that goes without saying. -/
def sized (side : String) : Option String → String
  | none => side
  | some size => side ++ "-" ++ size

/-- The axes of paddings and margins, each with its two sides. -/
def axisEdges : List (String × String × String) := [("x", "r", "l"), ("y", "t", "b")]

def axisOffsets : List (String × String × String) := [("x", "right", "left"), ("y", "top", "bottom")]

/-- The axes of a scale, each with its property. -/
def axisFactors : List (String × String) := [("x", Keyword.scaleX), ("y", Keyword.scaleY)]

/-- The sides of a box, each with the corners at its ends. -/
def sideCorners : List (String × String × String) :=
  [("t", "tl", "tr"), ("r", "tr", "br"), ("b", "br", "bl"), ("l", "tl", "bl")]

/-- A shorthand with the candidates for its sides, in their order. -/
inductive Shorthand : Candidate → List Candidate → Prop
  | edges {letter axis first second : String} (hletter : letter ∈ ["p", "m"])
      (haxis : (axis, first, second) ∈ axisEdges) (token : Option String) (negative : Bool) :
    Shorthand ⟨letter ++ axis, token, negative⟩
      [⟨letter ++ first, token, negative⟩, ⟨letter ++ second, token, negative⟩]
  | offsets {axis first second : String} (haxis : (axis, first, second) ∈ axisOffsets)
      (token : String) (negative : Bool) :
    Shorthand ⟨"inset", some (axis ++ "-" ++ token), negative⟩
      [⟨first, some token, negative⟩, ⟨second, some token, negative⟩]
  | allOffsets {token : String} (hx : ¬ ['x', '-'] <+: token.toList)
      (hy : ¬ ['y', '-'] <+: token.toList) (negative : Bool) :
    Shorthand ⟨"inset", some token, negative⟩
      [⟨"top", some token, negative⟩, ⟨"right", some token, negative⟩,
       ⟨"bottom", some token, negative⟩, ⟨"left", some token, negative⟩]
  | corners {side first second : String} (hside : (side, first, second) ∈ sideCorners)
      (size : Option String) (negative : Bool) :
    Shorthand ⟨"rounded", some (sized side size), negative⟩
      [⟨"rounded", some (sized first size), negative⟩,
       ⟨"rounded", some (sized second size), negative⟩]
  | factors {token : String} (h : '-' ∉ token.toList) (negative : Bool) :
    Shorthand ⟨"scale", some token, negative⟩
      [⟨"scale", some ("x-" ++ token), negative⟩, ⟨"scale", some ("y-" ++ token), negative⟩]

/-- A candidate stands for what the sides do: it has the declarations of all of them, or none of them and
not the candidate is resolved. -/
def Candidate.IsMadeOf (c : Candidate) (sides : List Candidate) : Prop :=
  (c.resolve? = none ∧ ∀ side ∈ sides, side.resolve? = none) ∨
    ∃ parts : List (List Declaration),
      sides.map Candidate.resolve? = parts.map (fun part => some ⟨.element, part⟩) ∧
        c.resolve? = some ⟨.element, parts.flatten⟩

/-- One value for the properties of all sides. -/
theorem isMadeOf_of_setAll {c : Candidate} {sides : List Candidate} (value? : Option String)
    (properties : List (List String))
    (hc : c.resolve? = value?.map (Styling.setAll properties.flatten))
    (hsides : sides.map Candidate.resolve? =
      properties.map fun names => value?.map (Styling.setAll names)) : c.IsMadeOf sides := by
  cases value? with
  | none =>
    refine .inl ⟨hc, fun side hside => ?_⟩
    have hmem : side.resolve? ∈ sides.map Candidate.resolve? := List.mem_map_of_mem hside
    rw [hsides] at hmem
    obtain ⟨names, -, he⟩ := List.mem_map.1 hmem
    exact he.symm
  | some value =>
    refine .inr ⟨properties.map fun names => (Styling.setAll names value).declarations, ?_, ?_⟩
    · rw [hsides, List.map_map]
      rfl
    · rw [hc]
      simp [Styling.setAll, Styling.of, List.map_flatten, Function.comp_def]

theorem resolve?_of_wordless {identifier : String} {utility : Utility}
    (h : identifier ∈ Keyword.wordless) (hutility : Utility.ofIdentifier? identifier = some utility)
    (token : Option String) (negative : Bool) :
    (⟨identifier, token, negative⟩ : Candidate).resolve? =
      utility.measure ⟨identifier, token, negative⟩ := by
  rw [Candidate.resolve?, hutility, Option.bind_some, Keyword.styling?_of_wordless h,
    Option.none_or]

namespace Measure

theorem padding_eq {identifier : String} {properties : List String}
    (h : edgeProperties? "p" "padding" identifier = some properties) (token : Option String)
    (negative : Bool) : padding ⟨identifier, token, negative⟩ =
      (token.bind fun t => spacing? t false).map (Styling.setAll properties) := by
  cases token with
  | none => rfl
  | some token =>
    simp only [padding, h, Option.bind_eq_bind, Option.bind_some, Option.pure_def]
    cases spacing? token false <;> rfl

theorem margin_eq {identifier : String} {properties : List String}
    (h : edgeProperties? "m" "margin" identifier = some properties) (token : Option String)
    (negative : Bool) : margin ⟨identifier, token, negative⟩ =
      (token.bind fun t => if t = "auto" then some "auto" else spacing? t negative).map
        (Styling.setAll properties) := by
  cases token with
  | none => rfl
  | some token =>
    simp only [margin, h, Option.bind_eq_bind, Option.bind_some, Option.pure_def]
    split
    · rfl
    · cases spacing? token negative <;> rfl

end Measure

/-- A family has no keywords behind its edges, and knows the properties of each. -/
def HasEdges (utility : Utility) (letter property : String) : Prop :=
  ∀ row ∈ Measure.edges, letter ++ row.1 ∈ Keyword.wordless ∧
    Utility.ofIdentifier? (letter ++ row.1) = some utility ∧
    Measure.edgeProperties? letter property (letter ++ row.1) =
      some (row.2.map fun side => property ++ side)

theorem HasEdges.resolve? {utility : Utility} {letter property : String}
    (h : HasEdges utility letter property) {token value? : Option String} {negative : Bool}
    (hmeasure : ∀ {identifier : String} {properties : List String},
      Measure.edgeProperties? letter property identifier = some properties →
        utility.measure ⟨identifier, token, negative⟩ = value?.map (Styling.setAll properties)) :
    ∀ row ∈ Measure.edges, (⟨letter ++ row.1, token, negative⟩ : Candidate).resolve? =
      value?.map (Styling.setAll (row.2.map fun side => property ++ side)) := by
  intro row hrow
  obtain ⟨hwordless, hutility, hproperties⟩ := h row hrow
  rw [resolve?_of_wordless hwordless hutility]
  exact hmeasure hproperties

theorem hasEdges_padding : HasEdges .padding "p" "padding" := by
  unfold HasEdges
  decide

theorem hasEdges_margin : HasEdges .margin "m" "margin" := by
  unfold HasEdges
  decide

/-- The sides of an axis, where each edge takes the same value for its sides. -/
theorem isMadeOf_edges {letter property : String} {token value? : Option String} {negative : Bool}
    (hresolve : ∀ row ∈ Measure.edges, (⟨letter ++ row.1, token, negative⟩ : Candidate).resolve? =
      value?.map (Styling.setAll (row.2.map fun side => property ++ side)))
    {axis first second : String} (haxis : (axis, first, second) ∈ axisEdges) :
    (⟨letter ++ axis, token, negative⟩ : Candidate).IsMadeOf
      [⟨letter ++ first, token, negative⟩, ⟨letter ++ second, token, negative⟩] := by
  have hrows : ∀ row ∈ axisEdges, ∃ a b, (row.1, [a, b]) ∈ Measure.edges ∧
      (row.2.1, [a]) ∈ Measure.edges ∧ (row.2.2, [b]) ∈ Measure.edges := by
    simp [axisEdges, Measure.edges]
  obtain ⟨a, b, hboth, hfirst, hsecond⟩ := hrows _ haxis
  refine isMadeOf_of_setAll value? [[property ++ a], [property ++ b]] (hresolve _ hboth) ?_
  simp only [List.map_cons, List.map_nil]
  rw [hresolve _ hfirst, hresolve _ hsecond]
  rfl

/-- An offset, of which the digit zero is all that counts. -/
def offset (token : String) (negative : Bool) : String :=
  signed negative (if token.toList.contains '0' then "0" else "auto")

namespace Measure

theorem inset_eq {identifier token rest : String} {sides : List String}
    (h : offsetSides? identifier token = some (sides, rest)) (negative : Bool) :
    inset ⟨identifier, some token, negative⟩ =
      (some (offset rest negative)).map (Styling.setAll sides) := by
  simp only [inset, h, Option.bind_eq_bind, Option.bind_some, Option.pure_def, Option.map_some,
    offset]

theorem offsetSides?_axis {axis first second : String}
    (haxis : (axis, first, second) ∈ axisOffsets) (token : String) :
    offsetSides? "inset" (axis ++ "-" ++ token) = some ([first, second], token) := by
  have hplain : ∀ row ∈ axisOffsets, '-' ∉ row.1.toList := by decide
  have hcut : Text.cutAt '-' (axis ++ "-" ++ token) = some (axis, token) :=
    Text.cutAt_append (hplain _ haxis) token
  simp only [axisOffsets, List.mem_cons, List.not_mem_nil, or_false, Prod.mk.injEq] at haxis
  rw [offsetSides?, if_pos rfl, hcut]
  obtain ⟨rfl, rfl, rfl⟩ | ⟨rfl, rfl, rfl⟩ := haxis
  · rfl
  · rfl

theorem offsetSides?_all {token : String} (hx : ¬ ['x', '-'] <+: token.toList)
    (hy : ¬ ['y', '-'] <+: token.toList) :
    offsetSides? "inset" token = some (["top", "right", "bottom", "left"], token) := by
  rw [offsetSides?, if_pos rfl]
  split
  · rename_i rest hcut
    exact absurd ⟨rest.toList, (Text.cutAt_eq_some_iff.1 hcut).2.symm⟩ hx
  · rename_i rest hcut
    exact absurd ⟨rest.toList, (Text.cutAt_eq_some_iff.1 hcut).2.symm⟩ hy
  · rfl

end Measure

theorem resolve?_inset {identifier token rest : String} {sides : List String}
    (hidentifier : identifier ∈ ["inset", "top", "right", "bottom", "left"])
    (h : Measure.offsetSides? identifier token = some (sides, rest)) (negative : Bool) :
    (⟨identifier, some token, negative⟩ : Candidate).resolve? =
      (some (offset rest negative)).map (Styling.setAll sides) := by
  have hnames : ∀ name ∈ ["inset", "top", "right", "bottom", "left"],
      name ∈ Keyword.wordless ∧ Utility.ofIdentifier? name = some .inset := by decide
  obtain ⟨hwordless, hutility⟩ := hnames identifier hidentifier
  rw [resolve?_of_wordless hwordless hutility]
  exact Measure.inset_eq h negative

theorem resolve?_side {side : String} (hside : side ∈ ["top", "right", "bottom", "left"])
    (token : String) (negative : Bool) :
    (⟨side, some token, negative⟩ : Candidate).resolve? =
      (some (offset token negative)).map (Styling.setAll [side]) := by
  refine resolve?_inset (List.mem_cons_of_mem _ hside) ?_ negative
  have hinset : side ≠ "inset" := by
    rintro rfl
    exact absurd hside (by decide)
  rw [Measure.offsetSides?, if_neg hinset, if_pos (List.contains_iff_mem.2 hside)]

namespace Measure

theorem scale_all {token : String} (h : '-' ∉ token.toList) (negative : Bool) :
    scale ⟨"scale", some token, negative⟩ =
      ((hundredth? token).map Magnitude.text).map
        (Styling.setAll [Keyword.scaleX, Keyword.scaleY]) := by
  simp only [scale, Option.bind_eq_bind, Option.bind_some, Option.pure_def,
    Text.cutAt_eq_none_iff.2 h]
  cases hundredth? token <;> rfl

theorem scale_axis {axis property : String} (haxis : (axis, property) ∈ axisFactors)
    (token : String) (negative : Bool) :
    scale ⟨"scale", some (axis ++ "-" ++ token), negative⟩ =
      ((hundredth? token).map Magnitude.text).map (Styling.setAll [property]) := by
  have hplain : ∀ row ∈ axisFactors, '-' ∉ row.1.toList := by decide
  have hcut : Text.cutAt '-' (axis ++ "-" ++ token) = some (axis, token) :=
    Text.cutAt_append (hplain _ haxis) token
  simp only [axisFactors, List.mem_cons, List.not_mem_nil, or_false, Prod.mk.injEq] at haxis
  obtain ⟨rfl, rfl⟩ | ⟨rfl, rfl⟩ := haxis
  · simp only [scale, Option.bind_eq_bind, Option.bind_some, Option.pure_def, hcut]
    cases hundredth? token <;> rfl
  · simp only [scale, Option.bind_eq_bind, Option.bind_some, Option.pure_def, hcut]
    cases hundredth? token <;> rfl

end Measure

theorem resolve?_scale (token : Option String) (negative : Bool) :
    (⟨"scale", token, negative⟩ : Candidate).resolve? =
      Measure.scale ⟨"scale", token, negative⟩ := by
  have hwordless : "scale" ∈ Keyword.wordless := by decide
  have hutility : Utility.ofIdentifier? "scale" = some .scale := by decide
  exact resolve?_of_wordless hwordless hutility token negative

namespace Keyword

/-- The radius of a size. -/
def radius? : Option String → Option String
  | none => some "0.25rem"
  | some size => radii.lookup size

/-- The radii of the corners on a side. -/
def cornerProperties (side : String) : List String :=
  ((corners.lookup side).getD []).map fun corner => "border-" ++ corner ++ "-radius"

theorem styling?_rounded {side : String} (hside : side ∈ corners.map Prod.fst)
    (size : Option String) :
    styling? "rounded" (some (sized side size)) =
      (radius? size).map (Styling.setAll (cornerProperties side)) := by
  have hsides : ∀ side ∈ corners.map Prod.fst, '-' ∉ side.toList ∧ radii.lookup side = none ∧
      (corners.lookup side).isSome := by decide
  have hradii : ∀ size ∈ radii.map Prod.fst, Text.cutAt '-' size = none := by decide
  obtain ⟨hplain, hradius, hcorners⟩ := hsides side hside
  obtain ⟨names, hnames⟩ := Option.isSome_iff_exists.1 hcorners
  rw [rounded_eq_readRounded, cornerProperties, hnames]
  cases size with
  | none =>
    simp only [sized, readRounded, hradius, Text.cutAt_eq_none_iff.2 hplain, Option.bind_eq_bind,
      Option.bind_some, hnames]
    rfl
  | some size =>
    have hcut : Text.cutAt '-' (side ++ "-" ++ size) = some (side, size) :=
      Text.cutAt_append hplain size
    have hwhole : radii.lookup (side ++ "-" ++ size) = none := by
      cases h : radii.lookup (side ++ "-" ++ size) with
      | none => rfl
      | some radius =>
        rw [hradii _ (mem_of_lookup h)] at hcut
        cases hcut
    simp only [sized, readRounded, hwhole, hcut, radius?]
    cases radii.lookup size with
    | none => rfl
    | some radius =>
      simp only [Option.map_some, Option.bind_eq_bind, Option.bind_some, hnames]
      rfl

end Keyword

theorem resolve?_rounded {side : String} (hside : side ∈ Keyword.corners.map Prod.fst)
    (size : Option String) (negative : Bool) :
    (⟨"rounded", some (sized side size), negative⟩ : Candidate).resolve? =
      (Keyword.radius? size).map (Styling.setAll (Keyword.cornerProperties side)) := by
  have hutility : Utility.ofIdentifier? "rounded" = some .rounded := by decide
  rw [Candidate.resolve?, hutility, Option.bind_some, Keyword.styling?_rounded hside]
  exact Option.or_none

/-- The corners at the ends of a side are those of the side. -/
theorem cornerProperties_side : ∀ row ∈ sideCorners,
    (∀ name ∈ [row.1, row.2.1, row.2.2], name ∈ Keyword.corners.map Prod.fst) ∧
      Keyword.cornerProperties row.1 =
        [Keyword.cornerProperties row.2.1, Keyword.cornerProperties row.2.2].flatten := by
  decide

/-- A shorthand stands for the declarations of its sides, and for nothing where they do. -/
theorem isMadeOf_of_shorthand {c : Candidate} {sides : List Candidate} (h : Shorthand c sides) :
    c.IsMadeOf sides := by
  cases h with
  | edges hletter haxis token negative =>
    obtain rfl | rfl : _ = "p" ∨ _ = "m" := by simpa using hletter
    · have hresolve := hasEdges_padding.resolve? fun h => Measure.padding_eq h token negative
      exact isMadeOf_edges hresolve haxis
    · have hresolve := hasEdges_margin.resolve? fun h => Measure.margin_eq h token negative
      exact isMadeOf_edges hresolve haxis
  -- Each side sets properties of its own, and the shorthand all of them, to one value.
  | @offsets axis first second haxis token negative =>
    have hsides : ∀ row ∈ axisOffsets, ∀ side ∈ [row.2.1, row.2.2],
        side ∈ ["top", "right", "bottom", "left"] := by decide
    have hresolve : ∀ side ∈ [first, second], (⟨side, some token, negative⟩ : Candidate).resolve? =
        (some (offset token negative)).map (Styling.setAll [side]) :=
      fun side hside => resolve?_side (hsides _ haxis side hside) token negative
    refine isMadeOf_of_setAll (some (offset token negative)) [[first], [second]]
      (resolve?_inset (by decide) (Measure.offsetSides?_axis haxis token) negative) ?_
    simp only [List.map_cons, List.map_nil]
    rw [hresolve first (by simp), hresolve second (by simp)]
  | @allOffsets token hx hy negative =>
    refine isMadeOf_of_setAll (some (offset token negative)) [["top"], ["right"], ["bottom"], ["left"]]
      (resolve?_inset (by decide) (Measure.offsetSides?_all hx hy) negative) ?_
    have hresolve := fun side (hside : side ∈ ["top", "right", "bottom", "left"]) =>
      resolve?_side hside token negative
    simp only [List.map_cons, List.map_nil]
    rw [hresolve "top" (by decide), hresolve "right" (by decide), hresolve "bottom" (by decide),
      hresolve "left" (by decide)]
  | @corners side first second hside size negative =>
    obtain ⟨hnames, hproperties⟩ := cornerProperties_side _ hside
    have hresolve := fun name (hname : name ∈ [side, first, second]) =>
      resolve?_rounded (hnames name hname) size negative
    refine isMadeOf_of_setAll (Keyword.radius? size)
      [Keyword.cornerProperties first, Keyword.cornerProperties second] ?_ ?_
    · rw [hresolve side (by simp), hproperties]
    · simp only [List.map_cons, List.map_nil]
      rw [hresolve first (by simp), hresolve second (by simp)]
  | @factors token hplain negative =>
    refine isMadeOf_of_setAll ((Measure.hundredth? token).map Magnitude.text)
      [[Keyword.scaleX], [Keyword.scaleY]] ?_ ?_
    · rw [resolve?_scale, Measure.scale_all hplain]
      rfl
    · have hx : Measure.scale ⟨"scale", some ("x-" ++ token), negative⟩ = _ :=
        Measure.scale_axis (show ("x", Keyword.scaleX) ∈ axisFactors by decide) token negative
      have hy : Measure.scale ⟨"scale", some ("y-" ++ token), negative⟩ = _ :=
        Measure.scale_axis (show ("y", Keyword.scaleY) ∈ axisFactors by decide) token negative
      simp only [List.map_cons, List.map_nil, resolve?_scale, hx, hy]

theorem isMadeOf_rounded_top :
    Shorthand ⟨"rounded", some "t-lg", true⟩
      [⟨"rounded", some "tl-lg", true⟩, ⟨"rounded", some "tr-lg", true⟩] ∧
    (⟨"rounded", some "t-lg", true⟩ : Candidate).IsMadeOf
      [⟨"rounded", some "tl-lg", true⟩, ⟨"rounded", some "tr-lg", true⟩] := by
  have h : Shorthand ⟨"rounded", some "t-lg", true⟩
      [⟨"rounded", some "tl-lg", true⟩, ⟨"rounded", some "tr-lg", true⟩] :=
    .corners (show ("t", "tl", "tr") ∈ sideCorners by decide) (some "lg") true
  exact ⟨h, isMadeOf_of_shorthand h⟩

end UtilityCss
