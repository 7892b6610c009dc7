import UtilityCss.Glob.Expression
import UtilityCss.Libraries

namespace UtilityCss

namespace Text

/-- A line without the return at its end, which belongs to the line break behind it. -/
def dropReturn (line : List UInt8) : List UInt8 :=
  if line.getLast? = some 0x0D then line.dropLast else line

/-- The lines of a content as bytes. What follows the last line feed is a line where it is not empty, and
keeps its return. -/
def lineBytes (content : List UInt8) : List (List UInt8) :=
  let stretches := pieces (· == 0x0A) content
  stretches.dropLast.map dropReturn ++ (stretches.getLast?.toList.filter (!·.isEmpty))

/-- The lines of a content, up to the first that is no text. -/
def lines (content : ByteArray) : List String :=
  ((lineBytes content.toList).map fun line => String.fromUTF8? ⟨line.toArray⟩).takeWhile
    Option.isSome |>.filterMap id

end Text

structure IgnoreRule where
  glob : Glob
  /-- brings back what an earlier rule took out -/
  negated : Bool
  directoriesOnly : Bool
  deriving Repr

namespace IgnoreRule

/-- A line without the white space at its end, unless a backslash holds that fast. -/
def trimLine (line : List Char) : List Char :=
  if (['\\', ' '] : List Char).isSuffixOf line then line
  else (Text.trimStart line.reverse).reverse

/-- The slash at the end of a glob says that it is for directories, and goes with a backslash before
it. -/
def splitSlash (line : List Char) : Bool × List Char :=
  match line.reverse with
  | '/' :: '\\' :: rest => (true, rest.reverse)
  | '/' :: rest => (true, rest.reverse)
  | _ => (false, line)

/-- The glob of a line. One without a slash matches at any depth, and one for all that is below a
directory does not match the directory. -/
def globText (anchored : Bool) (line : List Char) : List Char :=
  let text :=
    if anchored || line.contains '/' || line == ['*', '*'] then line
    else '*' :: '*' :: '/' :: line
  if (['/', '*', '*'] : List Char).isSuffixOf text then text ++ ['/', '*'] else text

def ofLine? (line : List Char) : Option IgnoreRule :=
  let line := trimLine line
  if line.isEmpty || line.head? == some '#' then none
  else
    let (negated, anchored, line) := match line with
      | '\\' :: '!' :: rest => (false, false, '!' :: rest)
      | '\\' :: '#' :: rest => (false, false, '#' :: rest)
      | '!' :: '/' :: rest => (true, true, rest)
      | '!' :: rest => (true, false, rest)
      | '/' :: rest => (false, true, rest)
      | _ => (false, false, line)
    let (directoriesOnly, line) := splitSlash line
    match Glob.ofRule (String.ofList (globText anchored line)) with
    | .ok glob => some ⟨glob, negated, directoriesOnly⟩
    | .error _ => none

/-- The rules of a file. A byte order mark at its start does not count, lines that are no rules are left
out, and a rule that nests too deep spoils them all. -/
def ofContent (content : ByteArray) : List IgnoreRule :=
  let rules := match Text.lines content with
    | [] => []
    | first :: lines =>
      (first.toList.dropWhile (· == '\ufeff') :: lines.map String.toList).filterMap ofLine?
  if rules.any (·.glob.isTooDeep) then [] else rules

/-- Whether the last rule for a path ignores it, where there is one. -/
def verdict (rules : List IgnoreRule) (path : String) (isDirectory : Bool) : Option Bool :=
  (rules.reverse.find? fun r =>
    (isDirectory || !r.directoriesOnly) && r.glob.admits path).map fun r => !r.negated

end IgnoreRule

namespace FileTree

/-- Whether a repository begins at a directory. -/
def holdsRepository (t : FileTree) (d : Location) : Bool :=
  [".git", ".jj"].any fun name => (t.find? (d ++ [name])).isSome

/-- Directories up to the first that holds a repository. -/
def withinRepository (t : FileTree) : List Location → List Location
  | [] => []
  | d :: ds => if t.holdsRepository d then [d] else d :: t.withinRepository ds

def fileAtPath? (t : FileTree) (path : String) : Option ByteArray :=
  match t.entry path with
  | .ok entry => content? entry
  | .error _ => none

/-- The directory that a linked work tree shares with its repository. The file `.git` names the one that
is its own, and a file in there the shared one, by a path from there if it begins with a point. -/
def sharedDirectory? (t : FileTree) (link : ByteArray) : Option String := do
  let own ← Text.after? "gitdir: ".toList (← (Text.lines link).head?).toList
  let directory := String.ofList own
  let shared ← (Text.lines (← t.fileAtPath? (Path.join directory "commondir"))).head?
  return if shared.toList.head? = some '.' then Path.join directory shared else shared

/-- The list of what is ignored besides the ignore files of a repository. -/
def exclusions? (t : FileTree) (d : Location) : Option ByteArray :=
  match t.find? (d ++ [".git"]) with
  | some (.file link) => do t.fileAtPath? (Path.join (← t.sharedDirectory? link) "info/exclude")
  | _ => t.fileAt? (d ++ [".git", "info", "exclude"])

end FileTree

namespace WalkStart

/-- The path of a location at or below the start. -/
def spell (s : WalkStart) (l : Location) : String :=
  match l.drop s.location.length with
  | [] => s.path
  | names => Path.join s.path ("/".intercalate names)

/-- A path as an ignore file in the directory sees it: its text behind that of the directory. A dot at
the start of the directory does not count, of the path two do not; so a path with more of them may not
begin with the directory, and is then seen as it is. -/
def seenFrom (directory path : String) : String :=
  let root := Text.dropStart "./" directory
  let text := Text.dropStart "./" (Text.dropStart "./" path)
  if Path.same root "." || !text.toList.contains '/' then text
  else Text.dropStart "/" (Text.dropStart root text)

/-- A location as an ignore file in a directory above it sees it. For directories above the start the
spelling of paths does not matter. -/
def seen (s : WalkStart) (directory l : Location) : String :=
  if directory.length < s.location.length then "/".intercalate (l.drop directory.length)
  else seenFrom (s.spell directory) (s.spell l)

end WalkStart

namespace FileTree

/-- The directories above a location, nearest first. -/
def above (l : Location) : List Location :=
  (List.range l.length).reverse.map fun n => l.take n

/-- Whether a location is left out of a walk. Of the files that list what to ignore the nearest decides,
and those for any program come first; those of repositories count inside a repository, as far as the rules
ask for them. -/
def isIgnored (global? : Option Location) (t : FileTree) (rules : WalkRules) (s : WalkStart)
    (isDirectory : Bool) (l : Location) : Bool :=
  let directories := above l
  let inRepository :=
    if directories.any t.holdsRepository then t.withinRepository directories else []
  let verdict := fun (content : ByteArray) (path : String) =>
    IgnoreRule.verdict (IgnoreRule.ofContent content) path isDirectory
  let nearest := fun (ds : List Location) (list : Location → Option ByteArray) =>
    ds.findSome? fun d => (list d).bind (verdict · (s.seen d l))
  let globally := if inRepository.isEmpty then none else (global?.bind t.fileAt?).bind
    (verdict · (WalkStart.seenFrom ("/" ++ "/".intercalate t.home) (s.spell l)))
  ((nearest directories fun d => t.fileAt? (d ++ [".ignore"])).or
    ((if rules.gitIgnore then nearest inRepository fun d => t.fileAt? (d ++ [".gitignore"])
      else none).or
    ((if rules.gitExclude then nearest inRepository t.exclusions? else none).or
    (if rules.gitGlobal then globally else none)))).getD
      (rules.hidden && l.getLast?.any fun name => name.toList.head? = some '.')

end FileTree

end UtilityCss
