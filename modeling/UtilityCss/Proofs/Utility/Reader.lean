import UtilityCss.Proofs.Utility.Keyword

namespace UtilityCss.Keyword

theorem find?_entries (identifier token : String) (style : String → Styling)
    (pairs : List (String × String)) :
    ((pairs.map fun pair => entry identifier pair.1 (style pair.2)).find? (·.token == some token)).map
        Entry.styling = (pairs.lookup token).map style := by
  induction pairs with
  | nil => rfl
  | cons pair pairs ih =>
    rw [List.map_cons, List.find?_cons, List.lookup_cons]
    cases h : token == pair.1 with
    | true =>
      obtain rfl := beq_iff_eq.1 h
      simp [entry]
    | false =>
      have hsymm : (pair.1 == token) = false := by rwa [Bool.beq_comm]
      simpa [entry, hsymm] using ih

/-- Rows are what a reader makes of tokens, if it takes each of theirs for what the row says, and all
others for what further rows say. -/
theorem styling?_eq_read {identifier : String} {rows more : List Entry}
    {read : Option String → Option Styling}
    (hrows : table.filter (·.identifier == identifier) = rows ++ more)
    (hread : ∀ e ∈ rows, read e.token = some e.styling)
    (hrest : ∀ token, token ∉ rows.map Entry.token →
      read token = (more.find? (·.token == token)).map Entry.styling) :
    styling? identifier = read := by
  funext token
  rw [styling?_eq, hrows, List.find?_append]
  cases hfind : rows.find? (·.token == token) with
  | none =>
    rw [Option.none_or, hrest token]
    intro hmem
    obtain ⟨e, he, htoken⟩ := List.mem_map.1 hmem
    exact List.find?_eq_none.1 hfind e he (by simp [htoken])
  | some e =>
    have htoken := List.find?_some hfind
    rw [beq_iff_eq] at htoken
    rw [Option.some_or, Option.map_some, ← hread e (List.mem_of_find?_eq_some hfind), htoken]

theorem styling?_eq_read_of_rows {identifier : String} {rows : List Entry}
    {read : Option String → Option Styling}
    (hrows : table.filter (·.identifier == identifier) = rows)
    (hread : ∀ e ∈ rows, read e.token = some e.styling)
    (honly : ∀ token, (read token).isSome → token ∈ rows.map Entry.token) :
    styling? identifier = read :=
  styling?_eq_read (hrows.trans (List.append_nil rows).symm) hread fun token hmem =>
    Option.not_isSome_iff_eq_none.1 (mt (honly token) hmem)

theorem mem_of_lookup {α : Type} {rows : List (String × α)} {token : String} {value : α}
    (h : rows.lookup token = some value) : token ∈ rows.map Prod.fst := by
  obtain ⟨before, behind, rfl, -⟩ := List.lookup_eq_some_iff.1 h
  simp

theorem lookup_eq_none {α : Type} {rows : List (String × α)} {token : String}
    (h : token ∉ rows.map Prod.fst) : rows.lookup token = none :=
  Option.eq_none_iff_forall_ne_some.2 fun _ hlookup => h (mem_of_lookup hlookup)

theorem eq_of_cutAt {token first behind : String} (h : Text.cutAt '-' token = some (first, behind)) :
    token = first ++ "-" ++ behind := by
  rw [← String.toList_inj, (Text.cutAt_eq_some_iff.1 h).2]
  simp

theorem eq_of_after? {start token : String} {rest : List Char}
    (h : Text.after? start.toList token.toList = some rest) : token = start ++ String.ofList rest := by
  rw [← String.toList_inj, Text.after?_eq_some_iff.1 h]
  simp

/-- A token is a value, behind the letter of an axis for that axis alone. -/
def readAxis (property : String) (allowed : List String) (token : Option String) : Option Styling := do
  let token ← token
  let (property, value) := match Text.cutAt '-' token with
    | some ("x", value) => (property ++ "-x", value)
    | some ("y", value) => (property ++ "-y", value)
    | _ => (property, token)
  if value ∈ allowed then some (.set property value) else none

/-- The rows of an identifier whose values may be those of one axis alone. -/
def axisRows (identifier property : String) (allowed : List String) : List Entry :=
  verbatim identifier property allowed ++ behindVerbatim identifier "x-" (property ++ "-x") allowed ++
  behindVerbatim identifier "y-" (property ++ "-y") allowed

theorem mem_axisRows {identifier property : String} {allowed : List String} {e : Entry} :
    e ∈ axisRows identifier property allowed ↔ ∃ value ∈ allowed,
      e = entry identifier value (.set property value) ∨
      e = entry identifier ("x-" ++ value) (.set (property ++ "-x") value) ∨
      e = entry identifier ("y-" ++ value) (.set (property ++ "-y") value) := by
  simp only [axisRows, verbatim, behindVerbatim, behind, List.map_map, List.mem_append, List.mem_map]
  grind

theorem styling?_eq_readAxis {identifier property : String} {allowed : List String}
    (hrows : table.filter (·.identifier == identifier) = axisRows identifier property allowed)
    (hplain : ∀ value ∈ allowed, '-' ∉ value.toList) :
    styling? identifier = readAxis property allowed := by
  have hx (value : String) : Text.cutAt '-' ("x-" ++ value) = some ("x", value) := by
    simpa using Text.cutAt_append (by decide : '-' ∉ "x".toList) value
  have hy (value : String) : Text.cutAt '-' ("y-" ++ value) = some ("y", value) := by
    simpa using Text.cutAt_append (by decide : '-' ∉ "y".toList) value
  -- Rows are read as they say since no value has a hyphen of its own.
  refine styling?_eq_read_of_rows hrows (fun e he => ?_) fun token h => ?_
  · obtain ⟨value, hvalue, rfl | rfl | rfl⟩ := mem_axisRows.1 he
    · simp [readAxis, entry, Text.cutAt_eq_none_iff.2 (hplain value hvalue), hvalue]
    · simp [readAxis, entry, hx, hvalue]
    · simp [readAxis, entry, hy, hvalue]
  · obtain ⟨styling, hread⟩ := Option.isSome_iff_exists.1 h
    obtain ⟨token, rfl, hvalue⟩ := Option.bind_eq_some_iff.1 hread
    rw [List.mem_map]
    simp only [Option.ite_none_right_eq_some] at hvalue
    split at hvalue
    · rename_i value hcut
      exact ⟨_, mem_axisRows.2 ⟨value, hvalue.1, .inr (.inl rfl)⟩, by simp [entry, eq_of_cutAt hcut]⟩
    · rename_i value hcut
      exact ⟨_, mem_axisRows.2 ⟨value, hvalue.1, .inr (.inr rfl)⟩, by simp [entry, eq_of_cutAt hcut]⟩
    · exact ⟨_, mem_axisRows.2 ⟨token, hvalue.1, .inl rfl⟩, rfl⟩

theorem overflow_eq_readAxis : styling? "overflow" = readAxis "overflow" clipping := by
  have hrows : overflow.filter (·.identifier == "overflow") =
      axisRows "overflow" "overflow" clipping := by decide
  exact styling?_eq_readAxis (by simp [filter_table, parts, hrows]) (by decide)

theorem overscroll_eq_readAxis : styling? "overscroll" = readAxis "overscroll-behavior" chaining := by
  have hrows : overflow.filter (·.identifier == "overscroll") =
      axisRows "overscroll" "overscroll-behavior" chaining := by decide
  exact styling?_eq_readAxis (by simp [filter_table, parts, hrows]) (by decide)

/-- A token is a way to spread items, or behind a first word a place in a cell. -/
def readJustify (token : Option String) : Option Styling := do
  let token ← token
  match Text.after? "items-".toList token.toList with
  | some items => (inCell.lookup (String.ofList items)).map (.set "justify-items" ·)
  | none =>
    match Text.after? "self-".toList token.toList with
    | some own => (inCell.lookup (String.ofList own)).map (.set "justify-self" ·)
    | none => (distribution.lookup token).map (.set "justify-content" ·)

theorem justify_eq_readJustify : styling? "justify" = readJustify := by
  have hrows : table.filter (·.identifier == "justify") =
      alignment.filter (·.identifier == "justify") := by
    simp [filter_table, parts]
  have hcell : ∀ value ∈ inCell.map Prod.fst, ∀ start ∈ ["items-", "self-"],
      some (start ++ value) ∈ (alignment.filter (·.identifier == "justify")).map Entry.token := by
    decide
  have hspread : ∀ value ∈ distribution.map Prod.fst,
      some value ∈ (alignment.filter (·.identifier == "justify")).map Entry.token := by decide
  refine styling?_eq_read_of_rows hrows (by decide) fun token h => ?_
  cases token with
  | none => cases h
  | some token =>
    simp only [readJustify, Option.bind_eq_bind, Option.bind_some] at h
    split at h
    · rename_i items hitems
      obtain ⟨value, hvalue⟩ := Option.isSome_iff_exists.1 (Option.isSome_map .. ▸ h)
      exact eq_of_after? hitems ▸ hcell _ (mem_of_lookup hvalue) "items-" (by decide)
    · split at h
      · rename_i own hown
        obtain ⟨value, hvalue⟩ := Option.isSome_iff_exists.1 (Option.isSome_map .. ▸ h)
        exact eq_of_after? hown ▸ hcell _ (mem_of_lookup hvalue) "self-" (by decide)
      · obtain ⟨value, hvalue⟩ := Option.isSome_iff_exists.1 (Option.isSome_map .. ▸ h)
        exact hspread _ (mem_of_lookup hvalue)

/-- A token is a dimension and a size that it may have at least. -/
def readMin (token : Option String) : Option Styling := do
  match ← Text.cutAt '-' (← token) with
  | ("h", size) => (minHeights.lookup size).map (.set "min-height" ·)
  | ("w", size) => (minWidths.lookup size).map (.set "min-width" ·)
  | _ => none

def screenWidth? : MediaQuery → Option String
  | .breakpoint b => some b.size
  | .feature _ => none

/-- A token is a dimension and a size that it may have at most, which for widths may be that of a screen. -/
def readMax (token : Option String) : Option Styling := do
  match ← Text.cutAt '-' (← token) with
  | ("h", size) => (maxHeights.lookup size).map (.set "max-height" ·)
  | ("w", size) =>
    match Text.after? "screen-".toList size.toList with
    | some name =>
      ((MediaQuery.ofName? (String.ofList name)).bind screenWidth?).map (.set "max-width" ·)
    | none => (maxWidths.lookup size).map (.set "max-width" ·)
  | _ => none

theorem min_eq_readMin : styling? "min" = readMin := by
  have hrows : table.filter (·.identifier == "min") = extent.filter (·.identifier == "min") := by
    simp [filter_table, parts]
  have hheight : ∀ size ∈ minHeights.map Prod.fst,
      some ("h" ++ "-" ++ size) ∈ (extent.filter (·.identifier == "min")).map Entry.token := by
    decide
  have hwidth : ∀ size ∈ minWidths.map Prod.fst,
      some ("w" ++ "-" ++ size) ∈ (extent.filter (·.identifier == "min")).map Entry.token := by
    decide
  refine styling?_eq_read_of_rows hrows (by decide) fun token h => ?_
  obtain ⟨styling, h⟩ := Option.isSome_iff_exists.1 h
  obtain ⟨token, rfl, h⟩ := Option.bind_eq_some_iff.1 h
  obtain ⟨parts, hcut, h⟩ := Option.bind_eq_some_iff.1 h
  split at h
  · rw [eq_of_cutAt hcut]
    obtain ⟨value, hvalue, -⟩ := Option.map_eq_some_iff.1 h
    exact hheight _ (mem_of_lookup hvalue)
  · rw [eq_of_cutAt hcut]
    obtain ⟨value, hvalue, -⟩ := Option.map_eq_some_iff.1 h
    exact hwidth _ (mem_of_lookup hvalue)
  · cases h

theorem max_eq_readMax : styling? "max" = readMax := by
  have hrows : table.filter (·.identifier == "max") = extent.filter (·.identifier == "max") := by
    simp [filter_table, parts]
  have hheight : ∀ size ∈ maxHeights.map Prod.fst,
      some ("h" ++ "-" ++ size) ∈ (extent.filter (·.identifier == "max")).map Entry.token := by
    decide
  have hwidth : ∀ size ∈ maxWidths.map Prod.fst,
      some ("w" ++ "-" ++ size) ∈ (extent.filter (·.identifier == "max")).map Entry.token := by
    decide
  have hscreen : ∀ q ∈ MediaQuery.all, (screenWidth? q).isSome →
      some ("w" ++ "-" ++ ("screen-" ++ q.name)) ∈
        (extent.filter (·.identifier == "max")).map Entry.token := by decide
  -- The rows of breakpoints are all queries with a width, by name.
  refine styling?_eq_read_of_rows hrows (by decide) fun token h => ?_
  obtain ⟨styling, h⟩ := Option.isSome_iff_exists.1 h
  obtain ⟨token, rfl, h⟩ := Option.bind_eq_some_iff.1 h
  obtain ⟨parts, hcut, h⟩ := Option.bind_eq_some_iff.1 h
  split at h
  · rw [eq_of_cutAt hcut]
    obtain ⟨value, hvalue, -⟩ := Option.map_eq_some_iff.1 h
    exact hheight _ (mem_of_lookup hvalue)
  · rw [eq_of_cutAt hcut]
    split at h
    · rename_i name hname
      obtain ⟨value, hvalue, -⟩ := Option.map_eq_some_iff.1 h
      obtain ⟨q, hq, hsize⟩ := Option.bind_eq_some_iff.1 hvalue
      rw [eq_of_after? hname, ← MediaQuery.name_of_ofName? hq]
      exact hscreen q (MediaQuery.mem_all q) (by rw [hsize]; rfl)
    · obtain ⟨value, hvalue, -⟩ := Option.map_eq_some_iff.1 h
      exact hwidth _ (mem_of_lookup hvalue)
  · cases h

/-- A colour with a hyphen begins with its family. -/
theorem mem_families_of_cutAt : ∀ name ∈ Palette.colors.map Prod.fst, ∀ cut ∈ Text.cutAt '-' name,
    cut.1 ∈ Palette.families.map Prod.fst := by
  have hkeywords : ∀ name ∈ Palette.keywords.map Prod.fst, Text.cutAt '-' name = none := by decide
  have hfamilies : ∀ row ∈ Palette.families, '-' ∉ row.1.toList := by decide
  intro name hname cut hcut
  rw [Palette.colors, List.map_append, List.mem_append] at hname
  cases hname with
  | inl hkeyword =>
    rw [hkeywords name hkeyword] at hcut
    cases hcut
  | inr hshade =>
    obtain ⟨color, hcolor, rfl⟩ := List.mem_map.1 hshade
    obtain ⟨row, hrow, hcolor⟩ := List.mem_flatMap.1 hcolor
    obtain ⟨shade, -, rfl⟩ := List.mem_map.1 hcolor
    rw [Text.cutAt_append (hfamilies row hrow) shade.1] at hcut
    obtain rfl := Option.some.inj hcut
    exact List.mem_map_of_mem hrow

/-- A token is a width, a side with a width or without, a style, a way to collapse, or a colour. -/
def readBorder : Option String → Option Styling
  | none => some (.set "border-width" "1px")
  | some token =>
    match borderWidths.lookup token with
    | some width => some (.set "border-width" width)
    | none =>
      match borderSides.lookup token with
      | some property => some (.set property "1px")
      | none =>
        match (Text.cutAt '-' token).bind fun (side, width) =>
            (borderSides.lookup side).map fun property => (property, width) with
        | some (property, width) => (borderWidths.lookup width).map (.set property ·)
        | none =>
          if token ∈ borderStyles then some (.set "border-style" token)
          else if token ∈ collapses then some (.set "border-collapse" token)
          else (Palette.color? token).map (.set "border-color" ·)

theorem border_eq_readBorder : styling? "border" = readBorder := by
  have hrows : table.filter (·.identifier == "border") =
      borders ++ values "border" "border-color" Palette.colors := by
    simp [filter_table, parts, concern_borders.filter_eq_self, Concern.filter_eq_self]
  have hwidth : ∀ width ∈ borderWidths.map Prod.fst, some width ∈ borders.map Entry.token := by
    decide
  have hside : ∀ side ∈ borderSides.map Prod.fst, some side ∈ borders.map Entry.token := by
    decide
  have hboth : ∀ side ∈ borderSides.map Prod.fst, ∀ width ∈ borderWidths.map Prod.fst,
      some (side ++ "-" ++ width) ∈ borders.map Entry.token := by decide
  have hstyle : ∀ style ∈ borderStyles ++ collapses, some style ∈ borders.map Entry.token := by
    decide
  -- What begins with a side goes to no colour, and no colour begins with one.
  have hcolor : ∀ family ∈ Palette.families.map Prod.fst, family ∉ borderSides.map Prod.fst := by
    decide
  refine styling?_eq_read hrows (by decide) fun token hmem => ?_
  cases token with
  | none => exact absurd (by decide) hmem
  | some token =>
    -- No row has the token, so that only a colour is left.
    have hplain : borderWidths.lookup token = none := lookup_eq_none fun h => hmem (hwidth _ h)
    have haside : borderSides.lookup token = none := lookup_eq_none fun h => hmem (hside _ h)
    have hstyles : token ∉ borderStyles ∧ token ∉ collapses := by
      rw [← not_or, ← List.mem_append]
      exact fun h => hmem (hstyle token h)
    rw [values, find?_entries]
    simp only [readBorder, hplain, haside, if_neg hstyles.1, if_neg hstyles.2]
    cases hparts : (Text.cutAt '-' token).bind fun parts =>
        (borderSides.lookup parts.1).map fun property => (property, parts.2) with
    | none => rfl
    | some parts =>
      obtain ⟨⟨side, width⟩, hcut, hproperty⟩ := Option.bind_eq_some_iff.1 hparts
      obtain ⟨property, hlookup, rfl⟩ := Option.map_eq_some_iff.1 hproperty
      have hnone : borderWidths.lookup width = none := lookup_eq_none fun h =>
        hmem (eq_of_cutAt hcut ▸ hboth _ (mem_of_lookup hlookup) _ h)
      have hcolors : Palette.colors.lookup token = none := lookup_eq_none fun h =>
        hcolor _ (mem_families_of_cutAt _ h _ hcut) (mem_of_lookup hlookup)
      simp only [hnone, hcolors, Option.map_none]

/-- A token is a radius, or a side or corner with a radius or without. -/
def readRounded : Option String → Option Styling
  | none => some (.set "border-radius" "0.25rem")
  | some token =>
    match radii.lookup token with
    | some radius => some (.set "border-radius" radius)
    | none => do
      let (side, radius) ← match Text.cutAt '-' token with
        | some (side, size) => (radii.lookup size).map fun radius => (side, radius)
        | none => some (token, "0.25rem")
      let names ← corners.lookup side
      return .setAll (names.map fun corner => "border-" ++ corner ++ "-radius") radius

theorem rounded_eq_readRounded : styling? "rounded" = readRounded := by
  have hradius : ∀ size ∈ radii.map Prod.fst, some size ∈ rounding.map Entry.token := by
    decide
  have hside : ∀ side ∈ corners.map Prod.fst, some side ∈ rounding.map Entry.token := by
    decide
  have hboth : ∀ side ∈ corners.map Prod.fst, ∀ size ∈ radii.map Prod.fst,
      some (side ++ "-" ++ size) ∈ rounding.map Entry.token := by decide
  have hrows : table.filter (·.identifier == "rounded") = rounding := by
    simp [filter_table, parts, concern_rounding.filter_eq_self]
  refine styling?_eq_read_of_rows hrows (by decide) fun token h => ?_
  cases token with
  | none => decide
  | some token =>
    rw [readRounded] at h
    cases hr : radii.lookup token with
    | some radius => exact hradius _ (mem_of_lookup hr)
    | none =>
      obtain ⟨styling, h⟩ := Option.isSome_iff_exists.1 h
      cases hcut : Text.cutAt '-' token with
      | none =>
        simp only [hr, hcut, Option.bind_eq_bind, Option.bind_some] at h
        obtain ⟨names, hnames, -⟩ := Option.bind_eq_some_iff.1 h
        exact hside _ (mem_of_lookup hnames)
      | some parts =>
        simp only [hr, hcut] at h
        obtain ⟨placed, hplaced, h⟩ := Option.bind_eq_some_iff.1 h
        obtain ⟨value, hvalue, rfl⟩ := Option.map_eq_some_iff.1 hplaced
        obtain ⟨names, hnames, -⟩ := Option.bind_eq_some_iff.1 h
        rw [eq_of_cutAt hcut]
        exact hboth _ (mem_of_lookup hnames) _ (mem_of_lookup hvalue)

/-- A token is the letter of an axis with a width, the word `reverse` or nothing behind it, or a colour. -/
def readDivide (token : Option String) : Option Styling := do
  let token ← token
  let parts := if token ∈ ["x", "y"] then some (token, none)
    else (Text.cutAt '-' token).bind fun (axis, raw) =>
      if axis ∈ ["x", "y"] then some (axis, some raw) else none
  match parts with
  | none => (Palette.color? token).map fun color => .of [("border-color", color)] .siblings
  | some (axis, raw) =>
    let reverse := "--divide-" ++ axis ++ "-reverse"
    if raw = some "reverse" then some (.of [(reverse, "1")] .siblings)
    else
      let width ← match raw with
        | none => some "1px"
        | some raw => if raw ∈ ["0", "2", "4", "8"] then some (raw ++ "px") else none
      return if axis = "y" then
          betweenSiblings reverse "border-top-width" "border-bottom-width" width true
        else betweenSiblings reverse "border-left-width" "border-right-width" width false

theorem divide_eq_readDivide : styling? "divide" = readDivide := by
  have hrows : table.filter (·.identifier == "divide") = dividers ++ dividerColors := by
    simp [filter_table, parts, concern_dividers.filter_eq_self, concern_dividerColors.filter_eq_self]
  have hletter : ∀ axis ∈ ["x", "y"], some axis ∈ dividers.map Entry.token := by decide
  have haxis : ∀ axis ∈ ["x", "y"], ∀ raw ∈ ["reverse", "0", "2", "4", "8"],
      some (axis ++ "-" ++ raw) ∈ dividers.map Entry.token := by decide
  -- What begins with an axis goes to no colour, and no colour begins with one.
  have hcolor : ∀ family ∈ Palette.families.map Prod.fst, family ∉ ["x", "y"] := by decide
  refine styling?_eq_read hrows (by decide) fun token hmem => ?_
  cases token with
  | none => decide
  | some token =>
    have hplain : token ∉ ["x", "y"] := fun h => hmem (hletter token h)
    rw [dividerColors, find?_entries _ _ fun color => .of [("border-color", color)] .siblings]
    simp only [readDivide, Option.bind_eq_bind, Option.bind_some, if_neg hplain]
    cases hcut : Text.cutAt '-' token with
    | none => rfl
    | some parts =>
      obtain ⟨axis, raw⟩ := parts
      by_cases ha : axis ∈ ["x", "y"]
      · have hraw : raw ∉ ["reverse", "0", "2", "4", "8"] :=
          fun h => hmem (eq_of_cutAt hcut ▸ haxis axis ha raw h)
        have hlookup : Palette.colors.lookup token = none := lookup_eq_none fun h =>
          hcolor _ (mem_families_of_cutAt _ h _ hcut) ha
        rw [List.mem_cons, not_or] at hraw
        have hreverse : some raw ≠ some "reverse" := by simpa using hraw.1
        simp only [Option.bind_some, if_pos ha, if_neg hreverse, if_neg hraw.2, hlookup]
        rfl
      · simp only [Option.bind_some, if_neg ha]
        rfl

end UtilityCss.Keyword
