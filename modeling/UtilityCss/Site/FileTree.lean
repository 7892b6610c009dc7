import UtilityCss.Path

namespace UtilityCss

/-- The names from the root down. -/
abbrev Location := List String

inductive FileFault where
  | notFound
  | alreadyExists
  | notDirectory
  | isDirectory
  | notText
  deriving DecidableEq, Repr

def FileFault.message : FileFault → String
  | notFound => "No such file or directory (os error 2)"
  | alreadyExists => "File exists (os error 17)"
  | notDirectory => "Not a directory (os error 20)"
  | isDirectory => "Is a directory (os error 21)"
  | notText => "stream did not contain valid UTF-8"

inductive Entry where
  | file (content : ByteArray)
  | directory

/-- Files and directories by their locations, in the order in which they were made. -/
structure FileTree where
  entries : List (Location × Entry) := []
  /-- the working directory -/
  home : Location := []

namespace FileTree

def find? (t : FileTree) (l : Location) : Option Entry :=
  if l.isEmpty then some .directory else t.entries.lookup l

def isDirectory (t : FileTree) (l : Location) : Bool :=
  match t.find? l with
  | some .directory => true
  | _ => false

def content? : Entry → Option ByteArray
  | .file content => some content
  | .directory => none

def fileAt? (t : FileTree) (l : Location) : Option ByteArray := (t.find? l).bind content?

def put (t : FileTree) (l : Location) (e : Entry) : FileTree :=
  if t.entries.any (·.1 == l) then
    { t with entries := t.entries.map fun (k, old) => if k = l then (k, e) else (k, old) }
  else { t with entries := t.entries ++ [(l, e)] }

/-- The location that the parts of a path lead to. Above the root there is only the root. -/
def follow (t : FileTree) : Location → List (List Char) → Except FileFault Location
  | l, [] => .ok l
  | l, part :: parts =>
    if !t.isDirectory l then .error .notDirectory
    else if Path.isVoid part then t.follow l parts
    else if part = ['.', '.'] then t.follow l.dropLast parts
    else
      let next := l ++ [String.ofList part]
      if (t.find? next).isSome then t.follow next parts else .error .notFound

/-- Where a path starts from. -/
def start (t : FileTree) (path : String) : Location := if Path.isAbsolute path then [] else t.home

def locate (t : FileTree) (path : String) : Except FileFault Location :=
  if path.isEmpty then .error .notFound else t.follow (t.start path) (Path.parts path)

/-- The absolute path that goes by names alone and leads where a path leads. One that leads nowhere stays
as it is. -/
def canonical (t : FileTree) (path : String) : String :=
  match t.locate path with
  | .ok l => "/" ++ "/".intercalate l
  | .error _ => path

/-- What a path leads to. -/
def entry (t : FileTree) (path : String) : Except FileFault Entry :=
  (t.locate path).map fun l => (t.find? l).getD .directory

def isFile (t : FileTree) (path : String) : Bool :=
  match t.entry path with
  | .ok (.file _) => true
  | _ => false

def readText (t : FileTree) (path : String) : Except FileFault String :=
  match t.entry path with
  | .error fault => .error fault
  | .ok .directory => .error .isDirectory
  | .ok (.file content) =>
    match String.fromUTF8? content with
    | some text => .ok text
    | none => .error .notText

/-- The files below a directory, by the names from there. -/
def below (t : FileTree) (l : Location) : List (Location × ByteArray) :=
  t.entries.filterMap fun (k, e) =>
    match e with
    | .file content => if l.isPrefixOf k && l != k then some (k.drop l.length, content) else none
    | .directory => none

def leadsToDirectory (t : FileTree) (path : String) : Bool :=
  match t.locate path with
  | .ok l => t.isDirectory l
  | .error _ => false

/-- Makes the last directory of a path, where all above it are there. Dots name what is there already. -/
def makeDirectory (t : FileTree) (path : String) : Except FileFault FileTree :=
  match (Path.parts path).reverse.dropWhile List.isEmpty with
  | [] => .error (if Path.isAbsolute path then .alreadyExists else .notFound)
  | part :: above =>
    match t.follow (t.start path) above.reverse with
    | .error fault => .error fault
    | .ok l =>
      let next := l ++ [String.ofList part]
      if !t.isDirectory l then .error .notDirectory
      else if Path.isVoid part || part == ['.', '.'] || (t.find? next).isSome then
        .error .alreadyExists
      else .ok (t.put next .directory)

/-- Makes the first of some directories, each of which lies in the next. -/
def makeFirst (t : FileTree) : List String → FileTree × Option FileFault
  | [] => (t, none)
  | path :: above =>
    let settle := fun (t : FileTree) fault =>
      if t.leadsToDirectory path then (t, none) else (t, some fault)
    match t.makeDirectory path with
    | .ok t => (t, none)
    | .error .notFound =>
      match t.makeFirst above with
      | (t, some fault) => (t, some fault)
      | (t, none) =>
        match t.makeDirectory path with
        | .ok t => (t, none)
        | .error fault => settle t fault
    | .error fault => settle t fault

/-- Makes a directory and all above it that are missing. -/
def makeDirectories (t : FileTree) (path : String) : FileTree × Option FileFault :=
  t.makeFirst ((Path.ancestors path).filter (!·.isEmpty))

/-- Writes a file into a directory. -/
def write (t : FileTree) (directory name : String) (content : ByteArray) : Except FileFault FileTree :=
  match t.locate directory with
  | .error fault => .error fault
  | .ok l =>
    if t.isDirectory (l ++ [name]) then .error .isDirectory
    else .ok (t.put (l ++ [name]) (.file content))

end FileTree
end UtilityCss
