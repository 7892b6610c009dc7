import UtilityCss.Toml.Table

namespace UtilityCss.Toml

open Reader

/-- No key has so many parts, and no value so many values around it. -/
def depthLimit : Nat := 80

def isBare (c : Char) : Bool := Text.isLetter c || Text.isDigit c || c == '_' || c == '-'

def bareKey : Reader (List Char) := do
  let name ← stretch isBare
  guard (!name.isEmpty)
  return name

def key : Reader Key := do
  let parts ← separated (spaces *> (quoted <|> bareKey) <* spaces) (token ".")
  guard (parts.length < depthLimit)
  let names := parts.map String.ofList
  return ⟨names.dropLast, names.getLast?.getD ""⟩

def pair (value : Reader Item) : Reader (Key × Item) := do
  let k ← key
  token "="
  spaces
  return (k, ← value)

def array (value : Reader Item) : Reader Item := do
  token "["
  let items ← (separated (gap *> value <* gap) (token ",") <* maybe (token ",")) <|> pure []
  gap
  token "]"
  return .array items

def inlineTable (value : Reader Item) : Reader Item := do
  token "\x7b"
  let pairs ← separated (pair value <* spaces) (token ",") <|> pure []
  spaces
  token "\x7d"
  let entries ← liftM (pairs.foldlM (fun t (k, item) => Table.assign k item t) [])
  return .table .inline entries

/-- A value, with at most `depth` levels inside. -/
def value : (depth : Nat) → Reader Item
  | 0 => .scalar <$> scalar
  | depth + 1 => (.scalar <$> scalar) <|> array (value depth) <|> inlineTable (value depth)

inductive Line where
  | blank
  | pair (key : Key) (item : Item)
  | header (key : Key)
  | row (key : Key)

/-- A line that is not empty, with its end. -/
def line : Reader Line := do
  spaces
  (comment *> (newline <|> ending) *> pure .blank) <|> (newline *> pure .blank) <|>
    (do
      let k ← token "[[" *> key <* token "]]" <* lineEnd
      return .row k) <|>
    (do
      let k ← token "[" *> key <* token "]" <* lineEnd
      return .header k) <|>
    (do
      let (k, item) ← pair (value (depthLimit - 1)) <* lineEnd
      return .pair k item)

/-- A document while it is read: its tables, and the path of the one that entries go to. -/
structure Draft where
  root : Table := []
  here : List String := []

def Draft.add (d : Draft) : Line → Option Draft
  | .blank => some d
  | .pair k item => (d.root.alter .parent (fun _ t => t.assign k item) d.here .header).map fun root =>
    { d with root }
  | .header k => (d.root.openTable k).map fun root => ⟨root, k.path ++ [k.name]⟩
  | .row k => (d.root.openRow k).map fun root => ⟨root, k.path ++ [k.name]⟩

/-- The entries of a document, if it is one. A byte order mark at its start does not count. -/
def document? (text : String) : Option Table := do
  let (lines, _) ← (many line <* spaces <* ending) (match text.toList with
    | '\ufeff' :: s => s
    | s => s)
  return (← lines.foldlM Draft.add {}).root

end UtilityCss.Toml
