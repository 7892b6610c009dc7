import UtilityCss.Declaration
import UtilityCss.Modifier

namespace UtilityCss.Keyword

structure Entry where
  identifier : String
  token : Option String
  styling : Styling
  deriving DecidableEq, Repr

/-- The identifier by itself. -/
def alone (identifier : String) (styling : Styling) : Entry := ⟨identifier, none, styling⟩

def entry (identifier token : String) (styling : Styling) : Entry := ⟨identifier, some token, styling⟩

/-- Tokens that choose the value of one property. -/
def values (identifier property : String) (pairs : List (String × String)) : List Entry :=
  pairs.map fun (token, value) => entry identifier token (.set property value)

/-- Tokens that are the value. -/
def verbatim (identifier property : String) (tokens : List String) : List Entry :=
  tokens.map fun token => entry identifier token (.set property token)

/-- Tokens that are the value once their hyphens are read as spaces. -/
def verbatimSpaced (identifier property : String) (tokens : List String) : List Entry :=
  tokens.map fun token => entry identifier token (.set property (Text.spaced token))

/-- Values that the identifier takes behind a first part of the token, such as `x-`. -/
def behind (identifier start property : String) (pairs : List (String × String)) : List Entry :=
  pairs.map fun (token, value) => entry identifier (start ++ token) (.set property value)

def behindVerbatim (identifier start property : String) (tokens : List String) : List Entry :=
  behind identifier start property (tokens.map fun token => (token, token))

def display : List Entry :=
  [alone "block" (.set "display" "block"),
   alone "inline" (.set "display" "inline"),
   alone "table" (.set "display" "table"),
   alone "contents" (.set "display" "contents"),
   alone "hidden" (.set "display" "none"),
   alone "flex" (.set "display" "flex"),
   alone "grid" (.set "display" "grid")] ++
  verbatim "table" "table-layout" ["auto", "fixed"] ++
  values "inline" "display"
    [("block", "inline-block"), ("flex", "inline-flex"), ("grid", "inline-grid"),
     ("table", "inline-table")] ++
  values "table" "display"
    [("caption", "table-caption"), ("cell", "table-cell"), ("column", "table-column"),
     ("column-group", "table-column-group"), ("footer-group", "table-footer-group"),
     ("header-group", "table-header-group"), ("row-group", "table-row-group"), ("row", "table-row")] ++
  values "flow" "display" [("root", "flow-root")]

def position : List Entry :=
  (["static", "fixed", "absolute", "relative"].map fun name => alone name (.set "position" name)) ++
  [alone "sticky" (.of [("position", "-webkit-sticky"), ("position", "sticky")] .element),
   alone "visible" (.set "visibility" "visible"),
   alone "invisible" (.set "visibility" "hidden")] ++
  verbatim "float" "float" ["right", "left", "none"] ++
  verbatim "clear" "clear" ["left", "right", "both", "none"] ++
  [alone "clearfix" (.of [("content", "\"\""), ("display", "table"), ("clear", "both")] .after)] ++
  verbatim "z" "z-index" ["auto"]

/-- What becomes of content that reaches over the edge. -/
def clipping : List String := ["auto", "hidden", "visible", "scroll"]

/-- What becomes of scrolling that reaches the end. -/
def chaining : List String := ["auto", "contain", "none"]

def overflow : List Entry :=
  verbatim "overflow" "overflow" clipping ++
  behindVerbatim "overflow" "x-" "overflow-x" clipping ++
  behindVerbatim "overflow" "y-" "overflow-y" clipping ++
  verbatim "scrolling" "-webkit-overflow-scrolling" ["touch", "auto"] ++
  verbatim "overscroll" "overscroll-behavior" chaining ++
  behindVerbatim "overscroll" "x-" "overscroll-behavior-x" chaining ++
  behindVerbatim "overscroll" "y-" "overscroll-behavior-y" chaining

def minHeights : List (String × String) := [("0", "0"), ("full", "100%"), ("screen", "100vh")]

def minWidths : List (String × String) := [("0", "0"), ("full", "100%")]

def maxHeights : List (String × String) := [("full", "100%"), ("screen", "100vh")]

def maxWidths : List (String × String) :=
  [("none", "none"), ("xs", "20rem"), ("sm", "24rem"), ("md", "28rem"), ("lg", "32rem"),
   ("xl", "36rem"), ("2xl", "42rem"), ("3xl", "48rem"), ("4xl", "56rem"), ("5xl", "64rem"),
   ("6xl", "72rem"), ("full", "100%")]

def extent : List Entry :=
  values "box" "box-sizing" [("border", "border-box"), ("content", "content-box")] ++
  verbatim "object" "object-fit" ["contain", "cover", "fill", "none", "scale-down"] ++
  verbatimSpaced "object" "object-position"
    ["bottom", "center", "left", "left-bottom", "left-top", "right", "right-bottom", "right-top",
     "top"] ++
  behind "min" "h-" "min-height" minHeights ++
  behind "min" "w-" "min-width" minWidths ++
  behind "max" "h-" "max-height" maxHeights ++
  behind "max" "w-" "max-width" maxWidths ++
  behind "max" "w-screen-" "max-width" (Breakpoint.all.map fun b => (b.name, b.size))

def flexible : List Entry :=
  values "flex" "flex-direction"
    [("row", "row"), ("row-reverse", "row-reverse"), ("col", "column"),
     ("col-reverse", "column-reverse")] ++
  values "flex" "flex-wrap"
    [("wrap", "wrap"), ("wrap-reverse", "wrap-reverse"), ("no-wrap", "nowrap")] ++
  values "flex" "flex"
    [("1", "1 1 0%"), ("auto", "1 1 auto"), ("initial", "0 1 auto"), ("none", "none")] ++
  values "flex" "flex-grow" [("grow", "1"), ("grow-0", "0")] ++
  values "flex" "flex-shrink" [("shrink", "1"), ("shrink-0", "0")] ++
  values "order" "order" [("first", "-9999"), ("last", "9999"), ("none", "0")]

/-- Ways to spread items along an axis. -/
def distribution : List (String × String) :=
  [("start", "flex-start"), ("end", "flex-end"), ("center", "center"), ("between", "space-between"),
   ("around", "space-around"), ("evenly", "space-evenly")]

/-- Where an item stands in its cell. -/
def inCell : List (String × String) :=
  [("auto", "auto"), ("start", "start"), ("end", "end"), ("center", "center"),
   ("stretch", "stretch")]

def alignment : List Entry :=
  values "items" "align-items"
    [("start", "flex-start"), ("end", "flex-end"), ("center", "center"), ("baseline", "baseline"),
     ("stretch", "stretch")] ++
  values "content" "align-content" distribution ++
  values "self" "align-self"
    [("auto", "auto"), ("start", "flex-start"), ("end", "flex-end"), ("center", "center"),
     ("stretch", "stretch")] ++
  behind "justify" "items-" "justify-items" inCell ++
  behind "justify" "self-" "justify-self" inCell ++
  values "justify" "justify-content" distribution

def gridded : List Entry :=
  values "grid" "grid-template-columns" [("cols-none", "none")] ++
  values "grid" "grid-template-rows" [("rows-none", "none")] ++
  behind "grid" "flow-" "grid-auto-flow"
    [("row", "row"), ("col", "column"), ("row-dense", "row dense"), ("col-dense", "column dense")] ++
  [("col", "grid-column"), ("row", "grid-row")].flatMap fun (identifier, property) =>
    values identifier property [("span-full", "1 / -1")] ++
    values identifier (property ++ "-start") [("start-auto", "auto")] ++
    values identifier (property ++ "-end") [("end-auto", "auto")]

end UtilityCss.Keyword
