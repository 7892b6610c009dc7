import UtilityCss.Settings
import UtilityCss.Sheet.Basic
import UtilityCss.Site.Scan

namespace UtilityCss

/-- The classes of some pages by the sheet that they go to. -/
structure Split where
  critical : List String
  external : List String
  deriving DecidableEq, Repr

namespace Split
variable {L : GlobLibrary}

/-- The pages that a set chooses. -/
def criticalPages (pages : List Page) (critical : PatternSet L) (base : String) : List Page :=
  pages.filter fun page => !critical.isEmpty && critical.selects page.path base

/-- Classes of critical pages are critical, and all others external. -/
def ofPages (pages : List Page) (critical : PatternSet L) (base : String) : Split :=
  let here := Page.allClasses (criticalPages pages critical base)
  ⟨here, (Page.allClasses pages).filter (!here.contains ·)⟩

end Split

structure Compilation where
  split : Split
  compiler : Compiler
  diagnostics : List Diagnostic
  deriving DecidableEq, Repr

/-- Compiles the classes of some pages. -/
def Compilation.ofPages {L : GlobLibrary} (pages : List Page) (critical : PatternSet L)
    (base : String) (minify : Bool) : Compilation :=
  let split := Split.ofPages pages critical base
  let (compiler, first) := ({ layout := ⟨minify⟩ } : Compiler).add .critical split.critical
  let (compiler, second) := compiler.add .external split.external
  let chosen := (Split.criticalPages pages critical base).map fun page => .criticalPage page.path
  ⟨split, compiler, chosen ++ first ++ second⟩

/-- Why a run fails. -/
inductive Fault where
  | config (fault : ConfigFault)
  | scan (fault : ScanFault)
  | write (path : String) (fault : FileFault)
  deriving DecidableEq, Repr

def Fault.message : Fault → String
  | config fault => fault.message
  | scan fault => fault.message
  | write path fault => "failed to write " ++ path ++ ": " ++ fault.message

/-- What a run leaves: the site, what it has printed and reported, and the fault that ended it. -/
structure Outcome where
  site : FileTree
  printed : List String := []
  reported : List Diagnostic := []
  fault : Option Fault := none

namespace Build

def sheetName : Partition → String
  | .critical => "critical.css"
  | .external => "external.css"

/-- Writes sheets into a directory, up to the first that cannot be written. -/
def writeSheets (directory : String) (compiler : Compiler) :
    List Partition → FileTree → FileTree × Option Fault
  | [], t => (t, none)
  | p :: ps, t =>
    match t.write directory (sheetName p) (compiler.text p).toUTF8 with
    | .error fault => (t, some (.write (Path.join directory (sheetName p)) fault))
    | .ok t => writeSheets directory compiler ps t

/-- Makes a directory and writes both sheets into it. -/
def write (directory : String) (compiler : Compiler) (t : FileTree) : FileTree × Option Fault :=
  match t.makeDirectories directory with
  | (t, some fault) => (t, some (.write directory fault))
  | (t, none) => writeSheets directory compiler [.critical, .external] t

/-- Scans the pages of a site, compiles their classes and writes the sheets. -/
def run (L : Libraries) (s : Settings) (t : FileTree) : Outcome :=
  match Scan.globs L t s.pages s.excluded s.walkOptions with
  | .error fault => { site := t, fault := some (.scan fault) }
  | .ok (pages, unread) =>
    match PatternSet.ofList L.globs s.critical with
    | .error fault => { site := t, reported := unread, fault := some (.scan (.pattern fault)) }
    | .ok critical =>
      let c := Compilation.ofPages pages critical s.base s.minify
      let reported := unread ++ c.diagnostics
      match write s.outputDirectory c.compiler t with
      | (site, some fault) => { site, reported, fault := some fault }
      | (site, none) =>
        { site
          reported := reported ++
            [.built pages.length c.split.critical.length c.split.external.length s.outputDirectory] }

end Build

/-- Prints the classes of the pages of a site, in the order of their bytes. -/
def Scan.run (L : Libraries) (s : Settings) (t : FileTree) : Outcome :=
  match globs L t s.pages s.ignore s.walkOptions with
  | .error fault => { site := t, fault := some (.scan fault) }
  | .ok (pages, unread) =>
    let classes := (Page.allClasses pages).mergeSort Text.notAfter
    { site := t, printed := classes, reported := unread ++ [.listed pages.length classes.length] }

/-- Runs a command line in a site. A watch is here for its first build. -/
def CommandLine.run (L : Libraries) (c : CommandLine) (t : FileTree) : Outcome :=
  match Settings.find L.toml t c.arguments with
  | .error fault => { site := t, fault := some (.config fault) }
  | .ok s =>
    match c.task with
    | .build | .watch => Build.run L s t
    | .scan => Scan.run L s t

namespace Watch

def isWild (c : Char) : Bool := c == '*' || c == '?' || c == '[' || c == '\x7b'

/-- The directory that all paths of a glob lie in, as far as its text tells: the whole components before
the first wild character. A glob without any is a directory, or a file if its name has an extension. -/
def globRoot (pattern : String) : String :=
  if pattern.toList.any isWild then
    match Text.cutLast '/' (pattern.toList.takeWhile (!isWild ·)) with
    | some (directory, _) => String.ofList directory
    | none => ""
  else if (Path.extension? pattern).isSome then (Path.parent? pattern).getD pattern
  else pattern

/-- The directories and files to follow for some globs, by the paths that they are known by. -/
def roots (t : FileTree) (patterns : List String) (base : String) : List String :=
  Path.distinct (patterns.map fun pattern => t.canonical (Path.join base (globRoot pattern)))

inductive ChangeKind where
  | any | access | create | modify | remove | other
  deriving DecidableEq, Repr

/-- Whether a change calls for a new build: no mere access, and not of sheets that a build wrote. -/
def isSourceChange (t : FileTree) (kind : ChangeKind) (paths : List String) (output : String) : Bool :=
  kind ≠ .access && !paths.all fun path => Path.startsWith (t.canonical path) output

end Watch
end UtilityCss
