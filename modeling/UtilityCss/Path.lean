import UtilityCss.Text.Blank
import UtilityCss.Text.Cut

namespace UtilityCss.Path

inductive Component where
  | root
  | current
  | parent
  | name (n : List Char)
  deriving DecidableEq, Repr

/-- The stretches between the slashes. -/
def parts (path : String) : List (List Char) := Text.pieces (· == '/') path.toList

def isAbsolute (path : String) : Bool := path.toList.head? = some '/'

/-- Parts that say nothing: repeated slashes, and dots behind the start. -/
def isVoid (part : List Char) : Bool := part.isEmpty || part == ['.']

def ofPart (part : List Char) : Component := if part = ['.', '.'] then .parent else .name part

/-- Whether the first part is no ordinary component: the root, or the dot that a path starts with. -/
def anchor? (path : String) : Option Component :=
  if isAbsolute path then some .root
  else if (parts path).head? = some ['.'] then some .current
  else none

/-- The parts behind the anchor. -/
def body (path : String) : List (List Char) :=
  if (anchor? path).isSome then (parts path).tail else parts path

def components (path : String) : List Component :=
  (anchor? path).toList ++ ((body path).filter (!isVoid ·)).map ofPart

/-- Whether `path` is `base` or lies below it. -/
def startsWith (path base : String) : Bool := (components base).isPrefixOf (components path)

/-- Whether two paths have the same components. -/
def same (a b : String) : Bool := components a == components b

/-- Paths without those that an earlier one equals by its components. -/
def distinct : List String → List String
  | [] => []
  | path :: paths => path :: (distinct paths).filter fun other => !same path other

def trimEnd (ps : List (List Char)) : List (List Char) := (ps.reverse.dropWhile isVoid).reverse

/-- The path of an anchor and some parts. -/
def assemble (anchor : Option Component) (ps : List (List Char)) : String :=
  let text := ['/'].intercalate ps
  String.ofList (match anchor with
    | some .root => '/' :: text
    | some _ => if ps.isEmpty then ['.'] else '.' :: '/' :: text
    | none => text)

/-- The parts that are left once the components of a base have been read. -/
def behind? : List Component → List (List Char) → Option (List (List Char))
  | [], ps => some ps
  | c :: cs, ps =>
    match ps.dropWhile isVoid with
    | [] => none
    | p :: ps => if ofPart p = c then behind? cs ps else none

/-- The path relative to `base`, where it starts with it. -/
def relative? (path base : String) : Option String :=
  match anchor? base, components base with
  | none, [] => some (assemble (anchor? path) (trimEnd (body path)))
  | anchor, _ =>
    if anchor = anchor? path then
      (behind? (((body base).filter (!isVoid ·)).map ofPart) (body path)).map fun ps =>
        assemble none (trimEnd (ps.dropWhile isVoid))
    else none

/-- The path without its last component. -/
def parent? (path : String) : Option String :=
  let anchor := anchor? path
  match anchor, trimEnd (body path) with
  | none, [] | some .root, [] => none
  | some _, [] => some ""
  | anchor, ps => some (assemble anchor (trimEnd ps.dropLast))

/-- A path and all paths above it. Each is shorter than the one before, so there are at most `n` of
them above. -/
def ancestorsUpTo : (n : Nat) → String → List String
  | 0, path => [path]
  | n + 1, path => path :: ((parent? path).map (ancestorsUpTo n)).getD []

def ancestors (path : String) : List String := ancestorsUpTo path.length path

def fileName? (path : String) : Option String :=
  match (components path).getLast? with
  | some (.name n) => some (String.ofList n)
  | _ => none

/-- What follows the last point of the file name, unless the name begins with that point. -/
def extension? (path : String) : Option String :=
  match (fileName? path).bind fun n => Text.cutLast '.' n.toList with
  | some ([], _) | none => none
  | some (_, extension) => some (String.ofList extension)

/-- `path` seen from `base`. -/
def join (base path : String) : String :=
  if isAbsolute path || base.isEmpty then path
  else if base.toList.getLast? = some '/' then base ++ path
  else base ++ "/" ++ path

end UtilityCss.Path
