import UtilityCss.Glob.Basic

namespace UtilityCss.Glob

/-- Characters that mean something in an expression, and are escaped to stand for themselves. -/
def metacharacters : List Char :=
  ['\\', '.', '+', '*', '?', '(', ')', '|', '[', ']', '\x7b', '\x7d', '^', '$', '#', '&', '-', '~']

/-- A character as bytes: ASCII ones as they are, others by their codes. -/
def escaped (c : Char) : String :=
  if c.toNat < 0x80 then (if metacharacters.contains c then "\\" else "") ++ c.toString
  else String.join ((bytesOf c).map fun b => "\\x" ++ String.ofList (Nat.toDigits 16 b.toNat))

def rangeExpression (range : Char × Char) : String :=
  if range.1 = range.2 then escaped range.1 else escaped range.1 ++ "-" ++ escaped range.2

mutual

def Sign.expression (separated : Bool) : Sign → String
  | .literal c => escaped c
  | .one => if separated then "[^/]" else "."
  | .many => if separated then "[^/]*" else ".*"
  | .leading => "(?:/?|.*/)"
  | .beneath => "/.*"
  | .between => "(?:/|/.*/)"
  | .oneOf negated ranges =>
    "[" ++ (if negated then "^" else "") ++ String.join (ranges.map rangeExpression) ++ "]"
  | .choice alternatives =>
    match (expressions separated alternatives).filter (!·.isEmpty) with
    | [] => ""
    | parts => "(?:" ++ "|".intercalate parts ++ ")"

def expressionOf (separated : Bool) : List Sign → String
  | [] => ""
  | sign :: signs => sign.expression separated ++ expressionOf separated signs

def expressions (separated : Bool) : List (List Sign) → List String
  | [] => []
  | signs :: rest => expressionOf separated signs :: expressions separated rest

end

def expression (g : Glob) : String :=
  let inside := match g.signs with
    | [.leading] => ".*"
    | signs => expressionOf g.separated signs
  "(?-u)^" ++ inside ++ "$"

/-- How many items an expression has side by side, and how deep they nest. -/
structure Extent where
  items : Nat
  depth : Nat
  deriving DecidableEq, Repr

namespace Extent

def none : Extent := ⟨0, 0⟩

def beside (a b : Extent) : Extent := ⟨a.items + b.items, max a.depth b.depth⟩

/-- The depth of the items together: a sequence of two or more is a level of its own. -/
def level (e : Extent) : Nat := if e.items ≤ 1 then e.depth else e.depth + 1

/-- The depth of a class with so many bytes and ranges of bytes in it. -/
def ofClass (ranges : List (Char × Char)) : Extent :=
  let size := ranges.foldl (fun n r =>
    n + (bytesOf r.1).length + if r.1 = r.2 then 0 else (bytesOf r.2).length - 1) 0
  ⟨1, if size ≤ 1 then 1 else 2⟩

end Extent

mutual

/-- Groups, alternatives, sequences, classes and repetitions are a level each. -/
def Sign.extent (separated : Bool) : Sign → Extent
  | .literal c => ⟨(bytesOf c).length, 0⟩
  | .one => ⟨1, if separated then 1 else 0⟩
  | .many => ⟨1, if separated then 2 else 1⟩
  | .leading | .between => ⟨1, 4⟩
  | .beneath => ⟨2, 1⟩
  | .oneOf _ ranges => Extent.ofClass ranges
  | .choice alternatives =>
    if areVoid alternatives then Extent.none
    else ⟨1, 1 + Extent.level (extentOfSome separated alternatives)⟩

def extentOf (separated : Bool) : List Sign → Extent
  | [] => Extent.none
  | sign :: signs => (sign.extent separated).beside (extentOf separated signs)

/-- Alternatives side by side, of which the empty ones do not count. -/
def extentOfSome (separated : Bool) : List (List Sign) → Extent
  | [] => Extent.none
  | signs :: rest =>
    let others := extentOfSome separated rest
    if isVoid signs then others
    else Extent.beside ⟨1, (extentOf separated signs).level⟩ others

end

/-- No expression nests deeper. -/
def depthLimit : Nat := 250

/-- Whether the expression of a glob, which is a sequence between its two ends, nests too deep. -/
def isTooDeep (g : Glob) : Bool := depthLimit < 1 + (extentOf g.separated g.signs).depth

end UtilityCss.Glob
