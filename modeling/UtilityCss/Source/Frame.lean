import UtilityCss.Text.Blank

namespace UtilityCss.Source

inductive Bracket where
  | brace | paren | square
  deriving DecidableEq, Repr

namespace Bracket

def opener : Bracket → Char
  | brace => '{'
  | paren => '('
  | square => '['

def closer : Bracket → Char
  | brace => '}'
  | paren => ')'
  | square => ']'

end Bracket

def isQuote (c : Char) : Bool := c = '"' || c = '\''

/-- Something that has been opened and not yet closed. -/
inductive Frame where
  | quote (mark : Char)
  | template
  /-- a character that a backslash takes with it -/
  | escaped
  /-- the brace behind a dollar sign in a template -/
  | hole
  | group (b : Bracket)
  deriving DecidableEq, Repr

/-- What is open behind the character `c`, inside `f` and around it `outer`. In a group, quotes and
backticks open literals and brackets of the same kind nest; other brackets are plain text. -/
def Frame.step (f : Frame) (outer : List Frame) (c : Char) (next : Option Char) : List Frame :=
  match f with
  | quote mark =>
    if c = '\\' then escaped :: f :: outer
    else if c = mark then outer
    else f :: outer
  | template =>
    if c = '\\' then escaped :: f :: outer
    else if c = '`' then outer
    else if c = '$' ∧ next = some '{' then hole :: f :: outer
    else f :: outer
  | escaped => outer
  | hole => group .brace :: outer
  | group b =>
    if isQuote c then quote c :: f :: outer
    else if c = '`' then template :: f :: outer
    else if c = b.opener then f :: f :: outer
    else if c = b.closer then outer
    else f :: outer

/-- The text up to where the outermost frame closes, and the text behind that. Text that ends before
is all inside. -/
def enclosed : List Frame → List Char → List Char × List Char
  | [], s => ([], s)
  | _ :: _, [] => ([], [])
  | f :: outer, c :: s =>
    match f.step outer c s.head? with
    | [] => ([], s)
    | g :: fs => let (inside, rest) := enclosed (g :: fs) s; (c :: inside, rest)

theorem length_enclosed (fs : List Frame) (s : List Char) :
    (enclosed fs s).2.length ≤ s.length := by
  fun_induction enclosed fs s <;> simp_all
  omega

/-- The inside of a group whose opening bracket has been read, and the text behind the group. -/
def group (b : Bracket) (s : List Char) : List Char × List Char := enclosed [.group b] s

end UtilityCss.Source
