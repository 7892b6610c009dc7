import UtilityCss.Text.Cut
import UtilityCss.Source.Item

namespace UtilityCss.Source

/-- The places where `word` stands, each as the character before it and the text behind it. A place
begins behind the end of the one before: of that, `taken` characters are still to come. -/
def occurrences (word : List Char) :
    (taken : Nat) → Option Char → List Char → List (Option Char × List Char)
  | _, _, [] => []
  | taken + 1, _, c :: s => occurrences word taken (some c) s
  | 0, before, c :: s =>
    match Text.after? word (c :: s) with
    | some rest => (before, rest) :: occurrences word (word.length - 1) (some c) s
    | none => occurrences word 0 (some c) s

/-- The text behind each `word` that no further character of a name touches. -/
def behindWord (isNameChar : Char → Bool) (word : String) (s : List Char) : List (List Char) :=
  (occurrences word.toList 0 none s).filterMap fun (before, rest) =>
    if before.any isNameChar || rest.head?.any isNameChar then none else some rest

def isAttributeChar (c : Char) : Bool :=
  Text.isLetter c || Text.isDigit c || c = '_' || c = '-'

/-- The texts that hold the classes of an attribute, of which `s` begins with the value: a quoted
literal, the string literals of a group in braces, or all up to white space or the end of the tag. -/
def attributeValue : List Char → List (List Char)
  | [] => []
  | c :: s =>
    if isQuote c then [(quoted c s).1]
    else if c = '{' then stringLiterals (group .brace s).1
    else [(c :: s).takeWhile fun d => !Text.isBlank d && d != '>']

/-- The values of the attributes called `name`. -/
def attributeValues (s : List Char) (name : String) : List (List Char) :=
  (behindWord isAttributeChar name s).flatMap fun rest =>
    match Text.trimStart rest with
    | '=' :: value => attributeValue (Text.trimStart value)
    | _ => []

def classAttributes (s : List Char) : List (List Char) :=
  ["class", "className"].flatMap (attributeValues s)

def isIdentifierChar (c : Char) : Bool := Text.isLetter c || Text.isDigit c || c = '_' || c = '$'

/-- Whether an item is one character with the property `p`. -/
def Item.isChar (p : Char → Bool) : Item → Bool
  | .char c => p c
  | _ => false

/-- The entries of an object's inside: what stands between its commas. -/
def entries (s : List Char) : List (List Item) :=
  Text.pieces (Item.isChar (· == ',')) (items [.brace, .paren, .square] s)

/-- The key of an entry, where it is a bare name with a value or by itself. -/
def bareKey? (entry : List Item) : Option (List Char) :=
  let entry := entry.dropWhile (Item.isChar Text.isBlank)
  let rest := (entry.dropWhile (Item.isChar isIdentifierChar)).dropWhile (Item.isChar Text.isBlank)
  let name := (entry.takeWhile (Item.isChar isIdentifierChar)).filterMap fun
    | .char c => some c
    | _ => none
  if name.isEmpty then none
  else if rest.isEmpty || rest.head?.any (Item.isChar (· == ':')) then some name
  else none

/-- The bare keys of the objects in a list of arguments. -/
def objectKeys (arguments : List Char) : List (List Char) :=
  (items [.brace] arguments).flatMap fun
    | .group _ inside => (entries inside).filterMap bareKey?
    | _ => []

/-- The functions whose arguments name classes. -/
def helpers : List String := ["clsx", "classnames", "cx"]

def helperKeys (s : List Char) : List (List Char) :=
  helpers.flatMap fun helper =>
    (behindWord isIdentifierChar helper s).flatMap fun rest =>
      match Text.trimStart rest with
      | '(' :: call => objectKeys (group .paren call).1
      | _ => []

end UtilityCss.Source

namespace UtilityCss

/-- Where in a source class names are looked for. -/
inductive SourceKind where
  | markup
  | script
  | other
  deriving DecidableEq, Repr

namespace SourceKind

/-- The kind of files with this extension, in small letters. -/
def ofExtension (extension : Option String) : SourceKind :=
  match extension with
  | none => other
  | some e =>
    if ["html", "htm", "vue", "svelte", "astro"].contains e then markup
    else if ["js", "jsx", "ts", "tsx", "mjs", "cjs"].contains e then script
    else other

/-- The texts that may hold class names: of markup the class attributes, of a script the string
literals and the keys passed to helpers, else attributes and literals. -/
def texts (kind : SourceKind) (s : List Char) : List (List Char) :=
  match kind with
  | markup => Source.classAttributes s
  | script => Source.stringLiterals s ++ Source.helperKeys s
  | other => Source.classAttributes s ++ Source.stringLiterals s

end SourceKind

/-- Class names hold a letter, and otherwise letters, digits and five marks, all of them ASCII. -/
def isClassName (name : List Char) : Bool :=
  name.any Text.isLetter &&
    name.all fun c => Text.isLetter c || Text.isDigit c || ['-', '_', ':', '/', '.'].contains c

/-- The class names in a text, each at its first place. -/
def SourceKind.classes (kind : SourceKind) (text : String) : List String :=
  (((kind.texts text.toList).flatMap Text.words).filter isClassName).eraseDups.map String.ofList

end UtilityCss
