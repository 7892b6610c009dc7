import UtilityCss.Libraries
import UtilityCss.Diagnostic
import UtilityCss.Source.Classes

namespace UtilityCss

/-- What is wrong with a list of glob patterns. The pattern is empty where the fault lies with the list. -/
structure PatternFault where
  pattern : String
  cause : String
  deriving DecidableEq, Repr

def PatternFault.message (f : PatternFault) : String :=
  "invalid glob pattern `" ++ f.pattern ++ "`: " ++ f.cause

/-- A list of glob patterns that chooses files. -/
structure PatternSet (L : GlobLibrary) where
  globs : L.GlobSet
  length : Nat

namespace PatternSet
variable (L : GlobLibrary)

def readGlob (pattern : String) : Except PatternFault L.Glob :=
  (L.read pattern).mapError (⟨pattern, ·⟩)

/-- Reads patterns, up to the first that is no glob. -/
def ofList (patterns : List String) : Except PatternFault (PatternSet L) := do
  let globs ← patterns.mapM (readGlob L)
  let set ← (L.build globs).mapError (⟨"", ·⟩)
  return ⟨set, patterns.length⟩

variable {L}

def isEmpty (set : PatternSet L) : Bool := set.length == 0

/-- Whether a pattern matches the path, as it is written or relative to `base`. -/
def selects (set : PatternSet L) (path base : String) : Bool :=
  L.isMatch set.globs ((Path.relative? path base).getD path) || L.isMatch set.globs path

end PatternSet

structure WalkOptions where
  base : String := "."
  /-- ignore files of a repository count -/
  repository : Bool := true
  includeModules : Bool := false
  deriving DecidableEq, Repr

/-- Hidden files are walked over, as pages may be among them. -/
def WalkOptions.rules (options : WalkOptions) : WalkRules :=
  ⟨false, options.repository, options.repository, options.repository⟩

namespace Walk

def lockFiles : List String :=
  ["package-lock.json", "pnpm-lock.yaml", "yarn.lock", "bun.lockb", "Cargo.lock"]

/-- Extensions of stylesheets, and of files that hold no text. -/
def skippedExtensions : List String :=
  ["css", "scss", "sass", "less",
   "png", "jpg", "jpeg", "gif", "webp", "avif", "ico", "svgz", "mp4", "webm", "mp3", "zip", "gz",
   "pdf", "woff", "woff2", "ttf", "otf"]

/-- Files that are never pages: those of installed modules, lock files, stylesheets and binaries. -/
def isSkipped (options : WalkOptions) (path : String) : Bool :=
  (!options.includeModules &&
    (Path.components path).contains (.name "node_modules".toList)) ||
  lockFiles.contains ((Path.fileName? path).getD "") ||
  ((Path.extension? path).any fun e => skippedExtensions.contains (Text.lowerAscii e))

def file? : Except String WalkEntry → Option String
  | .ok entry => if entry.isFile then some entry.path else none
  | .error _ => none

def warning? : Except String WalkEntry → Option Diagnostic
  | .ok _ => none
  | .error reason => some (.unreadable reason)

/-- The files at or below a path that are to be kept, each once and written from there on. -/
def files (w : Walker) (t : FileTree) (options : WalkOptions) (root : String)
    (keep : String → Bool) : List String × List Diagnostic :=
  let entries := w.walk t options.rules root
  (Path.distinct ((entries.filterMap file?).filter fun path => !isSkipped options path && keep path),
    entries.filterMap warning?)

end Walk

structure Page where
  path : String
  classes : List String
  deriving DecidableEq, Repr

inductive ScanFault where
  | noPatterns
  | missing (path : String)
  | pattern (fault : PatternFault)
  deriving DecidableEq, Repr

def ScanFault.message : ScanFault → String
  | noPatterns => "no page patterns given"
  | missing path => "path not found: " ++ path
  | pattern fault => fault.message

namespace Page

/-- The distinct classes of some pages, each at its first place. -/
def allClasses (pages : List Page) : List String := (pages.flatMap Page.classes).eraseDups

/-- The page at a path, unless that is no text. -/
def ofPath? (t : FileTree) (path : String) : Option Page :=
  match t.readText path with
  | .error _ => none
  | .ok text =>
    let kind := SourceKind.ofExtension ((Path.extension? path).map Text.lowerAscii)
    some ⟨path, kind.classes text⟩

end Page

namespace Scan
variable (L : Libraries) (t : FileTree)

/-- The pages at and below some paths. A path that is named itself is never skipped. -/
def paths : List String → Except ScanFault (List Page × List Diagnostic)
  | [] => .ok ([], [])
  | path :: rest =>
    match t.entry path with
    | .error _ => .error (.missing path)
    | .ok entry =>
      let (files, diagnostics) := match entry with
        | .directory => Walk.files L.walker t {} path fun _ => true
        | .file _ => ([path], [])
      (paths rest).map fun (pages, more) =>
        (files.filterMap (Page.ofPath? t) ++ pages, diagnostics ++ more)

/-- The files that some page pattern and no ignore pattern selects. -/
def select (patterns ignore : List String) (options : WalkOptions) :
    Except ScanFault (List String × List Diagnostic) := do
  if patterns.isEmpty then throw .noPatterns
  let chosen ← (PatternSet.ofList L.globs patterns).mapError .pattern
  let excluded ← (PatternSet.ofList L.globs ignore).mapError .pattern
  return Walk.files L.walker t options options.base fun path =>
    chosen.selects path options.base && !excluded.selects path options.base

def globs (patterns ignore : List String) (options : WalkOptions) :
    Except ScanFault (List Page × List Diagnostic) :=
  (select L t patterns ignore options).map fun (files, diagnostics) =>
    (files.filterMap (Page.ofPath? t), diagnostics)

end Scan
end UtilityCss
