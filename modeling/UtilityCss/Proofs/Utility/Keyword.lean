import UtilityCss.Proofs.Modifier
import UtilityCss.Utility.Resolve

namespace UtilityCss.Keyword

/-- All rows are of these identifiers. -/
def Concern (identifiers : List String) (rows : List Entry) : Prop :=
  ∀ e ∈ rows, e.identifier ∈ identifiers

section
variable {identifiers : List String} {identifier property : String}

@[simp] theorem identifier_alone (styling : Styling) :
    (alone identifier styling).identifier = identifier := rfl

@[simp] theorem identifier_entry (token : String) (styling : Styling) :
    (entry identifier token styling).identifier = identifier := rfl

@[simp] theorem concern_nil : Concern identifiers [] := List.forall_mem_nil _

@[simp] theorem concern_cons {e : Entry} {rows : List Entry} :
    Concern identifiers (e :: rows) ↔ e.identifier ∈ identifiers ∧ Concern identifiers rows :=
  List.forall_mem_cons

@[simp] theorem concern_append {rows more : List Entry} :
    Concern identifiers (rows ++ more) ↔ Concern identifiers rows ∧ Concern identifiers more :=
  List.forall_mem_append

@[simp] theorem concern_flatMap {α : Type} {l : List α} {f : α → List Entry} :
    Concern identifiers (l.flatMap f) ↔ ∀ a ∈ l, Concern identifiers (f a) := by
  simp only [Concern, List.mem_flatMap]
  exact ⟨fun h a ha e he => h e ⟨a, ha, he⟩, fun h e ⟨a, ha, he⟩ => h a ha e he⟩

theorem concern_map {α : Type} {l : List α} {f : α → Entry}
    (h : ∀ a, (f a).identifier ∈ identifiers) : Concern identifiers (l.map f) :=
  List.forall_mem_map.2 fun a _ => h a

@[simp] theorem concern_values {pairs : List (String × String)} (h : identifier ∈ identifiers) :
    Concern identifiers (values identifier property pairs) := concern_map fun _ => h

@[simp] theorem concern_verbatim {tokens : List String} (h : identifier ∈ identifiers) :
    Concern identifiers (verbatim identifier property tokens) := concern_map fun _ => h

@[simp] theorem concern_verbatimSpaced {tokens : List String} (h : identifier ∈ identifiers) :
    Concern identifiers (verbatimSpaced identifier property tokens) := concern_map fun _ => h

@[simp] theorem concern_behind {start : String} {pairs : List (String × String)}
    (h : identifier ∈ identifiers) : Concern identifiers (behind identifier start property pairs) :=
  concern_map fun _ => h

theorem Concern.filter_eq_self {rows : List Entry} (h : Concern [identifier] rows) :
    rows.filter (·.identifier == identifier) = rows :=
  List.filter_eq_self.2 fun e he => beq_iff_eq.2 (List.mem_singleton.1 (h e he))

theorem Concern.filter_eq_nil {rows : List Entry} (h : Concern identifiers rows)
    (hnot : identifier ∉ identifiers) : rows.filter (·.identifier == identifier) = [] := by
  rw [List.filter_eq_nil_iff]
  intro e he heq
  exact hnot (beq_iff_eq.1 heq ▸ h e he)

end

def placeholders : List Entry :=
  Palette.colors.map fun (name, color) =>
    entry "placeholder" name (.of [("color", color)] .placeholder)

def dividerColors : List Entry :=
  Palette.colors.map fun (name, color) => entry "divide" name (.of [("border-color", color)] .siblings)

/-- The parts of the table, each behind the identifiers of its rows. -/
def parts : List (List String × List Entry) :=
  [(["block", "inline", "table", "contents", "hidden", "flex", "grid", "flow"], display),
   (["static", "fixed", "absolute", "relative", "sticky", "visible", "invisible", "float", "clear",
     "clearfix", "z"], position),
   (["overflow", "scrolling", "overscroll"], overflow), (["box", "object", "min", "max"], extent),
   (["flex", "order"], flexible), (["items", "content", "self", "justify"], alignment),
   (["grid", "col", "row"], gridded),
   (["text", "font", "italic", "not", "antialiased", "subpixel"], fonts),
   (["uppercase", "lowercase", "capitalize", "normal", "underline", "line", "no", "tracking"],
     lettering),
   (["text", "leading", "whitespace", "break", "truncate", "list"], lines),
   (["sr", "not"], screenReaders), (["bg"], backgrounds), (["border"], borders),
   (["rounded"], rounding), (["divide"], dividers), (["shadow"], shadows),
   (["transform", "origin"], transforms), (["transition", "ease"], transitions),
   (["cursor", "select", "pointer", "resize", "appearance", "outline"], pointing),
   (["bg"], values "bg" "background-color" Palette.colors),
   (["text"], values "text" "color" Palette.colors),
   (["border"], values "border" "border-color" Palette.colors), (["placeholder"], placeholders),
   (["divide"], dividerColors)]

theorem table_eq_parts : table = parts.flatMap Prod.snd := by
  unfold table parts colored placeholders dividerColors
  simp only [List.flatMap_cons, List.flatMap_nil, List.append_nil, List.append_assoc]

theorem concern_rounding : Concern ["rounded"] rounding := by
  rw [rounding, concern_append, concern_cons, concern_flatMap]
  exact ⟨⟨by simp, by simp⟩, fun side _ => concern_cons.2 ⟨by simp, concern_map fun _ => by simp⟩⟩

theorem concern_borders : Concern ["border"] borders := by simp [borders]

theorem concern_dividers : Concern ["divide"] dividers := by
  rw [dividers, concern_flatMap]
  exact fun axis _ => concern_cons.2
    ⟨by simp, concern_cons.2 ⟨by simp, concern_map fun _ => by simp⟩⟩

theorem concern_dividerColors : Concern ["divide"] dividerColors := concern_map fun _ => by simp

theorem concern_of_mem_parts : ∀ part ∈ parts, Concern part.1 part.2 := by
  have hplaceholders : Concern ["placeholder"] placeholders := concern_map fun _ => by simp
  simp [parts, concern_borders, concern_rounding, concern_dividers, concern_dividerColors,
    hplaceholders, display, position, overflow, extent, flexible, alignment, gridded, fonts, lettering,
    lines, screenReaders, backgrounds, shadows, transforms, transitions, pointing, behindVerbatim]

/-- The rows of one identifier stand in the parts that have some of it. -/
theorem filter_table (identifier : String) :
    table.filter (·.identifier == identifier) =
      (parts.filter (identifier ∈ ·.1)).flatMap fun part =>
        part.2.filter (·.identifier == identifier) := by
  have hparts := concern_of_mem_parts
  rw [table_eq_parts, List.filter_flatMap]
  -- The parts only have to concern what they say, so the induction is over any list of such parts.
  generalize parts = l at hparts
  induction l with
  | nil => rfl
  | cons part l ih =>
    rw [List.forall_mem_cons] at hparts
    rw [List.flatMap_cons, ih hparts.2, List.filter_cons]
    split
    · rfl
    · rename_i hnot
      rw [hparts.1.filter_eq_nil (by simpa using hnot), List.nil_append]

/-- The identifiers without a keyword. -/
def wordless : List String :=
  ["inset", "top", "right", "bottom", "left", "space", "gap",
   "p", "px", "py", "pt", "pr", "pb", "pl", "m", "mx", "my", "mt", "mr", "mb", "ml",
   "h", "w", "opacity", "scale", "rotate", "translate", "skew", "duration", "delay"]

theorem notMem_parts_of_wordless : ∀ identifier ∈ wordless, ∀ part ∈ parts, identifier ∉ part.1 := by
  decide

/-- The keywords of one identifier. -/
theorem styling?_eq (identifier : String) (token : Option String) :
    styling? identifier token =
      ((table.filter (·.identifier == identifier)).find? (·.token == token)).map Entry.styling := by
  rw [styling?, List.find?_filter]
  congr 2
  funext e
  rw [Bool.eq_iff_iff]
  simp

theorem styling?_of_wordless {identifier : String} (h : identifier ∈ wordless)
    (token : Option String) : styling? identifier token = none := by
  have hparts : parts.filter (identifier ∈ ·.1) = [] :=
    List.filter_eq_nil_iff.2 fun part hpart => by
      simpa using notMem_parts_of_wordless identifier h part hpart
  rw [styling?_eq, filter_table, hparts]
  rfl

theorem filter_z : table.filter (·.identifier == "z") = verbatim "z" "z-index" ["auto"] := by
  have hposition : position.filter (·.identifier == "z") = verbatim "z" "z-index" ["auto"] := by
    decide
  simp [filter_table, parts, hposition]

end UtilityCss.Keyword
