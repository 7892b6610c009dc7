import UtilityCss.Site.Exclusion
import UtilityCss.Toml.Document

namespace UtilityCss

namespace Glob

/-- What is said of globs that nest too deep. Those that give an extension have expressions of their own,
and come first. -/
def deepFault? (globs : List Glob) : Option String :=
  let extending := globs.filter (·.criterion = .extensionAndSigns)
  let others := globs.filter (·.criterion = .signs)
  ((extending.find? (·.isTooDeep)).map fun g =>
      "error parsing glob '" ++ g.expression ++ "': error parsing pattern 0").or
    ((others.findIdx? (·.isTooDeep)).map fun n => "error parsing pattern " ++ toString n)

def readPattern (pattern : String) : Except String Glob :=
  (ofPattern pattern).mapError fun fault =>
    "error parsing glob '" ++ pattern ++ "': " ++ fault.message

/-- Globs make up a set unless one of them nests too deep. -/
def build (globs : List Glob) : Except String (List Glob) :=
  (deepFault? globs).elim (.ok globs) .error

end Glob

def GlobLibrary.standard : GlobLibrary where
  Glob := UtilityCss.Glob
  GlobSet := List UtilityCss.Glob
  read := Glob.readPattern
  admits := Glob.admits
  build := Glob.build
  isMatch globs path := globs.any (·.admits path)

namespace Walker

/-- Whether a walk reaches a file below its start: no step on the way is ignored. -/
def reaches (ignores : WalkStart → Bool → Location → Bool) (s : WalkStart) (relative : Location) :
    Bool :=
  (List.range relative.length).all fun n =>
    !ignores s (n + 1 < relative.length) (s.location ++ relative.take (n + 1))

/-- The places in a tree of a location and of the directories on the way to it, outermost first. -/
def history (t : FileTree) (l : Location) : List Nat :=
  (List.range l.length).map fun n => t.entries.findIdx fun (k, _) => k == l.take (n + 1)

/-- Locations as they come in a walk that takes the newest entry of each directory first. -/
def inOrder (t : FileTree) (ls : List Location) : List Location :=
  ((ls.map fun l => (history t l, l)).mergeSort fun a b => !decide (a.1 < b.1)).map Prod.snd

/-- Walks that give files only. -/
def standardWalk (global? : Option Location) (t : FileTree) (rules : WalkRules) (root : String) :
    List (Except String WalkEntry) :=
  if Path.same root standardInput then []
  else
    match t.locate root with
    | .error fault =>
      [.error (root ++ ": IO error for operation on " ++ root ++ ": " ++ fault.message)]
    | .ok base =>
      let start : WalkStart := ⟨root, base⟩
      let paths :=
        if t.isDirectory base then
          let found := ((t.below base).map Prod.fst).filter
            (reaches (FileTree.isIgnored global? t rules) start)
          (inOrder t (found.map (base ++ ·))).map start.spell
        else [root]
      paths.map fun path => .ok ⟨path, true⟩

/-- A walker for a user whose list for all repositories is at a location, if there is one. -/
def standard (global? : Option Location) : Walker where
  walk := standardWalk global?
  ignores := FileTree.isIgnored global?
  exclusions? := FileTree.exclusions?
  global? := global?

end Walker

def TomlLibrary.standard : TomlLibrary where
  read text := (Toml.document? text).elim (.error "TOML parse error") .ok
  misfit _ := "TOML parse error"

/-- Libraries to run with, for a user without a list of what to ignore in all repositories. -/
def Libraries.standard : Libraries := ⟨.standard, .standard none, .standard⟩

end UtilityCss
