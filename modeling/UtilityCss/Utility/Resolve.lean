import UtilityCss.Length
import UtilityCss.Utility.Basic
import UtilityCss.Keyword.Surface

namespace UtilityCss.Measure

/-- The edges that follow a family's letter: all at once, an axis, or one side. -/
def edges : List (String × List String) :=
  [("", [""]), ("x", ["-right", "-left"]), ("y", ["-top", "-bottom"]), ("t", ["-top"]),
   ("r", ["-right"]), ("b", ["-bottom"]), ("l", ["-left"])]

/-- The properties behind an identifier such as `px`. -/
def edgeProperties? (letter property identifier : String) : Option (List String) :=
  (edges.find? fun (edge, _) => letter ++ edge == identifier).map fun (_, sides) =>
    sides.map fun side => property ++ side

/-- A padding is never negative. -/
def padding (c : Candidate) : Option Styling := do
  let value ← spacing? (← c.token) false
  return .setAll (← edgeProperties? "p" "padding" c.identifier) value

def margin (c : Candidate) : Option Styling := do
  let token ← c.token
  let value ← if token = "auto" then some "auto" else spacing? token c.negative
  return .setAll (← edgeProperties? "m" "margin" c.identifier) value

/-- The sides that an offset moves, and the rest of the token behind an axis. -/
def offsetSides? (identifier token : String) : Option (List String × String) :=
  if identifier = "inset" then
    match Text.cutAt '-' token with
    | some ("x", rest) => some (["right", "left"], rest)
    | some ("y", rest) => some (["top", "bottom"], rest)
    | _ => some (["top", "right", "bottom", "left"], token)
  else if ["top", "right", "bottom", "left"].contains identifier then some ([identifier], token)
  else none

/-- An offset is `0` where its token has the digit zero, and `auto` otherwise. -/
def inset (c : Candidate) : Option Styling := do
  let (sides, rest) ← offsetSides? c.identifier (← c.token)
  return .setAll sides (signed c.negative (if rest.toList.contains '0' then "0" else "auto"))

/-- The axis of a token such as `x-4`, and what stands behind it. -/
def axisOf (token : String) : Option String × String :=
  match Text.cutAt '-' token with
  | some ("x", rest) => (some "x", rest)
  | some ("y", rest) => (some "y", rest)
  | _ => (none, token)

/-- Gaps are declared under their older name too. -/
def gap (c : Candidate) : Option Styling := do
  let (properties, rest) ← match axisOf (← c.token) with
    | (some "x", rest) => some (["grid-column-gap", "column-gap"], rest)
    | (some _, rest) => some (["grid-row-gap", "row-gap"], rest)
    | (none, rest) => some (["grid-gap", "gap"], rest)
  return .setAll properties (← spacing? rest false)

/-- Space between siblings: a margin on every child after the first. -/
def space (c : Candidate) : Option Styling := do
  let (axis, rest) ← match axisOf (← c.token) with
    | (some axis, rest) => some (axis, rest)
    | (none, _) => none
  let reverse := "--space-" ++ axis ++ "-reverse"
  if rest = "reverse" then return .of [(reverse, "1")] .siblings
  let value ← spacing? rest c.negative
  return if axis = "y" then Keyword.betweenSiblings reverse "margin-top" "margin-bottom" value true
    else Keyword.betweenSiblings reverse "margin-left" "margin-right" value false

/-- Extents are never negative. -/
def height (c : Candidate) : Option Styling := do
  return .set "height" (← length? (← c.token) false .height)

def width (c : Candidate) : Option Styling := do
  return .set "width" (← length? (← c.token) false .width)

def integer? (token : Option String) : Option String := token.filter isInteger

def zIndex (c : Candidate) : Option Styling := do
  return .set "z-index" (signed c.negative (← integer? c.token))

def order (c : Candidate) : Option Styling := do
  return .set "order" (← integer? c.token)

/-- So many equal tracks. -/
def tracks (count : String) : String := "repeat(" ++ count ++ ", minmax(0, 1fr))"

def grid (c : Candidate) : Option Styling := do
  let (kind, rest) ← Text.cutAt '-' (← c.token)
  let count ← integer? rest
  match kind with
  | "cols" => return .set "grid-template-columns" (tracks count)
  | "rows" => return .set "grid-template-rows" (tracks count)
  | _ => none

/-- Placement on grid lines: how many tracks to span, or the line to start or end at. -/
def gridLine (property : String) (c : Candidate) : Option Styling := do
  let (kind, rest) ← Text.cutAt '-' (← c.token)
  let line ← integer? rest
  match kind with
  | "span" => return .set property ("span " ++ line ++ " / span " ++ line)
  | "start" => return .set (property ++ "-start") line
  | "end" => return .set (property ++ "-end") line
  | _ => none

def leading (c : Candidate) : Option Styling := do
  return .set "line-height" (← spacing? (← integer? c.token) false)

/-- The hundredth of a whole percentage below `2 ^ 32`. -/
def hundredth? (token : String) : Option Magnitude :=
  let percent := digitsValue token.toList
  if isInteger token && percent < 0x100000000 then some (.ofDecimal percent 0 / .ofDecimal 100 0) else none

/-- Opacities end at one hundred percent. -/
def opacity (c : Candidate) : Option Styling := do
  let token ← c.token
  let amount ← hundredth? token
  if digitsValue token.toList ≤ 100 then return .set "opacity" amount.text
  none

def scale (c : Candidate) : Option Styling := do
  let token ← c.token
  let (properties, rest) ← match Text.cutAt '-' token with
    | some ("x", rest) => some ([Keyword.scaleX], rest)
    | some ("y", rest) => some ([Keyword.scaleY], rest)
    | some _ => none
    | none => some ([Keyword.scaleX, Keyword.scaleY], token)
  return .setAll properties (← hundredth? rest).text

def degrees? (token : String) (negative : Bool) : Option String :=
  (number? token).map fun amount =>
    if amount = .finite 0 then "0" else signed negative (amount.text ++ "deg")

def rotate (c : Candidate) : Option Styling := do
  return .set Keyword.rotate (← degrees? (← c.token) c.negative)

def translate (c : Candidate) : Option Styling := do
  let (property, axis, rest) ← match Text.cutAt '-' (← c.token) with
    | some ("x", rest) => some (Keyword.translateX, Axis.width, rest)
    | some ("y", rest) => some (Keyword.translateY, Axis.height, rest)
    | _ => none
  if rest = "auto" ∨ rest = "screen" then none
  return .set property (← length? rest c.negative axis)

def skew (c : Candidate) : Option Styling := do
  let (property, rest) ← match Text.cutAt '-' (← c.token) with
    | some ("x", rest) => some (Keyword.skewX, rest)
    | some ("y", rest) => some (Keyword.skewY, rest)
    | _ => none
  return .set property (← degrees? rest c.negative)

/-- Times are whole milliseconds. -/
def timing (property : String) (c : Candidate) : Option Styling := do
  let token ← c.token
  if isInteger token then return .set property (token ++ "ms")
  none

end UtilityCss.Measure

namespace UtilityCss

def Keyword.table : List Keyword.Entry :=
  display ++ position ++ overflow ++ extent ++ flexible ++ alignment ++ gridded ++ fonts ++
  lettering ++ lines ++ screenReaders ++ backgrounds ++ borders ++ rounding ++ dividers ++ shadows ++
  transforms ++ transitions ++ pointing ++ colored

/-- A keyword stands for the same with a sign and without. -/
def Keyword.styling? (identifier : String) (token : Option String) : Option Styling :=
  (table.find? fun e => e.identifier == identifier && e.token == token).map Entry.styling

/-- How a family reads tokens that no keyword covers. -/
def Utility.measure : Utility → Candidate → Option Styling
  | inset => Measure.inset
  | zIndex => Measure.zIndex
  | space => Measure.space
  | order => Measure.order
  | grid => Measure.grid
  | gridColumn => Measure.gridLine "grid-column"
  | gridRow => Measure.gridLine "grid-row"
  | gap => Measure.gap
  | padding => Measure.padding
  | margin => Measure.margin
  | height => Measure.height
  | width => Measure.width
  | leading => Measure.leading
  | opacity => Measure.opacity
  | scale => Measure.scale
  | rotate => Measure.rotate
  | translate => Measure.translate
  | skew => Measure.skew
  | duration => Measure.timing "transition-duration"
  | delay => Measure.timing "transition-delay"
  | _ => fun _ => none

/-- The styling of a candidate, where some utility has one for it. -/
def Candidate.resolve? (c : Candidate) : Option Styling :=
  (Utility.ofIdentifier? c.identifier).bind fun utility =>
    (Keyword.styling? c.identifier c.token).or (utility.measure c)

end UtilityCss
