import UtilityCss.Text.Blank
import UtilityCss.Modifier

namespace UtilityCss

/-- A class name, read. -/
structure ClassName where
  /-- The media queries, outermost first. -/
  media : List MediaQuery := []
  /-- What stands in front of the class in its selector. -/
  ancestors : String := ""
  /-- What follows the class in its selector. -/
  states : String := ""
  /-- Modifiers that no table has. -/
  unknown : List String := []
  base : String := ""
  deriving DecidableEq, Repr

namespace ClassName

/-- The class name with one more modifier in front. -/
def under (modifier : String) (c : ClassName) : ClassName :=
  match Modifier.ofName? modifier with
  | some (.pseudo p) => { c with ancestors := p.ancestor ++ c.ancestors, states := p.state ++ c.states }
  | some (.media q) => { c with media := q :: c.media }
  | none => { c with unknown := modifier :: c.unknown }

/-- Reads the modifiers and the base at the end; a modifier counts the first time only. -/
def ofSegments (used : List String) : List String → ClassName
  | [] => {}
  | [base] => { base }
  | modifier :: rest =>
    if modifier ∈ used then ofSegments used rest
    else (ofSegments (modifier :: used) rest).under modifier

def ofString (name : String) : ClassName :=
  ofSegments [] ((Text.pieces (· == ':') name.toList).map String.ofList)

/-- A backslash stands before the characters that would end the class in a selector. -/
def escapeChars : List Char → List Char
  | [] => []
  | c :: s => if c = ':' ∨ c = '/' ∨ c = '.' then '\\' :: c :: escapeChars s else c :: escapeChars s

def escape (name : String) : String := String.ofList (escapeChars name.toList)

/-- The selector for the elements that carry `name`, up to what `target` adds. -/
def selector (c : ClassName) (name target : String) : String :=
  c.ancestors ++ "." ++ escape name ++ c.states ++ target

end ClassName
end UtilityCss
