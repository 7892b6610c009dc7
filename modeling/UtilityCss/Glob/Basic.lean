import UtilityCss.Glob.Syntax
import UtilityCss.Path

namespace UtilityCss

/-- A glob that has been read. Where it is `separated`, `?` and `*` stop at slashes. -/
structure Glob where
  signs : List Glob.Sign
  separated : Bool
  deriving Repr

namespace Glob

/-- Reads a glob of a list of patterns. -/
def ofPattern (pattern : String) : Except Fault Glob :=
  (readSigns false {} none pattern.toList).map fun signs => ⟨signs, false⟩

/-- Reads a glob of an ignore file. -/
def ofRule (rule : String) : Except Fault Glob :=
  (readSigns true {} none rule.toList).map fun signs => ⟨signs, true⟩

def Sign.char? : Sign → Option Char
  | .literal c => some c
  | _ => none

/-- The text of signs that are all literal. -/
def literals? (signs : List Sign) : Option (List Char) := signs.mapM Sign.char?

/-- What a path is compared by. -/
inductive Criterion where
  /-- its file name, which is given whole -/
  | fileName
  /-- the extension of its file name, which is given whole -/
  | extension
  /-- its text, of which the whole, the start or the end is given -/
  | text
  /-- the extension of its file name, which is given, and all the signs -/
  | extensionAndSigns
  /-- all the signs -/
  | signs
  deriving DecidableEq, Repr

/-- Whether signs give a file name, behind any directories. -/
def givesFileName : List Sign → Bool
  | .leading :: signs => (literals? signs).any fun t => !t.isEmpty && !t.contains '/'
  | _ => false

/-- Whether signs begin with any text and then give an extension. -/
def givesExtension (separated : Bool) (signs : List Sign) : Bool :=
  let isExtension := fun signs => (literals? signs).any fun t => !t.contains '.' && !t.contains '/'
  match signs with
  | .leading :: .many :: .literal '.' :: signs => isExtension signs
  | .many :: .literal '.' :: signs => !separated && isExtension signs
  | _ => false

/-- Whether signs give a start, and then any text. -/
def givesStart (separated : Bool) (signs : List Sign) : Bool :=
  match signs.reverse with
  | .many :: signs => !separated && (literals? signs).any (!·.isEmpty)
  | .beneath :: signs => (literals? signs).isSome
  | _ => false

/-- Whether signs give an end, behind any text. -/
def givesEnd (separated : Bool) (signs : List Sign) : Bool :=
  match signs with
  | .leading :: .many :: signs | .many :: signs =>
    !separated && (literals? signs).any fun t => !t.isEmpty && t != ['/']
  | .leading :: signs => (literals? signs).any (!·.isEmpty)
  | _ => false

/-- Whether the literal signs at the end hold a point behind their last slash. -/
def endsInExtension (signs : List Sign) : Bool :=
  let tail := (signs.reverse.map Sign.char?).takeWhile Option.isSome
  (tail.find? fun c => c == some '.' || c == some '/') == some (some '.')

/-- The first criterion that the signs are fit for. -/
def criterion (g : Glob) : Criterion :=
  if givesFileName g.signs then .fileName
  else if (literals? g.signs).any (!·.isEmpty) then .text
  else if givesExtension g.separated g.signs then .extension
  else if givesStart g.separated g.signs || givesEnd g.separated g.signs then .text
  else if endsInExtension g.signs then .extensionAndSigns
  else .signs

/-- Whether a path has a file name. One that ends in two dots leads to the directory above. -/
def hasFileName (path : String) : Bool := (Path.parts path).getLast? != some ['.', '.']

/-- Whether a path has what it is compared by. -/
def Criterion.fits (c : Criterion) (path : String) : Bool :=
  match c with
  | .fileName | .extension | .extensionAndSigns => hasFileName path
  | .text | .signs => true

def admits (g : Glob) (path : String) : Bool :=
  match g.signs with
  | [.leading] => true
  | signs => g.criterion.fits path && accepts g.separated signs (path.toList.flatMap bytesOf)

end Glob
end UtilityCss
