import UtilityCss.Site.Scan
import UtilityCss.Proofs.Site.FileTree

namespace UtilityCss

namespace GlobLibrary

/-- The characters that call for others: brackets, braces and backslashes. -/
def structural : List Char := ['[', '\x7b', '\x7d', '\\']

/-- The characters that a glob does not take for themselves, wherever they stand. -/
def special : List Char := ['*', '?', '[', '\x7b', '\\']

/-- What is promised of globs, and of sets of them. -/
structure Documented (L : GlobLibrary) : Prop where
  /-- Where no character is special, a glob matches its own text alone. -/
  whole {pattern path g} : L.read pattern = .ok g → (∀ c ∈ pattern.toList, c ∉ special) →
    L.admits g path → path = pattern
  /-- Characters that are not special stand for themselves, and so does the slash behind them. -/
  starts {pattern path g} {directory rest : List Char} : L.read pattern = .ok g →
    pattern.toList = directory ++ '/' :: rest → (∀ c ∈ directory, c ∉ special) →
    L.admits g path → ∃ more, path.toList = directory ++ '/' :: more
  /-- Two stars behind a slash make up a glob. -/
  read_below {directory : String} : (∀ c ∈ directory.toList, c ∉ structural) →
    (L.read (directory ++ "/**")).isOk
  /-- It matches all entries below. -/
  admits_below {directory g} {names : List String} : (∀ c ∈ directory.toList, c ∉ structural) →
    L.read (directory ++ "/**") = .ok g → names ≠ [] → (∀ n ∈ names, Path.IsName n.toList) →
    L.admits g (directory ++ "/" ++ "/".intercalate names)
  /-- It fits into every set. -/
  build_below {directory g globs fault} : (∀ c ∈ directory.toList, c ∉ structural) →
    L.read (directory ++ "/**") = .ok g → L.build (globs ++ [g]) = .error fault →
    L.build globs = .error fault
  /-- A set matches what one of its globs matches. -/
  isMatch_iff {globs set path} : L.build globs = .ok set →
    (L.isMatch set path ↔ ∃ g ∈ globs, L.admits g path)

end GlobLibrary

namespace Walker
variable (w : Walker)

/-- The files that a walk comes upon. -/
def filesOf (t : FileTree) (rules : WalkRules) (root : String) : List String :=
  (w.walk t rules root).filterMap Walk.file?

/-- Nothing on the way by names from the start of a walk is left out. -/
def Reaches (t : FileTree) (rules : WalkRules) (s : WalkStart) (names : List String) : Prop :=
  ∀ n < names.length,
    w.ignores t rules s (n + 1 < names.length) (s.location ++ names.take (n + 1)) = false

/-- What is promised of walks over trees that can be read. -/
structure Documented : Prop where
  /-- A walk comes upon the file that it starts from, or upon those below its start that nothing leaves
  out, each by the path that joins the names to that of the start. -/
  mem_filesOf {t rules root path} : t.Sound → (path ∈ w.filesOf t rules root ↔
    Path.same root standardInput = false ∧ ∃ base, t.locate root = .ok base ∧
      (t.isDirectory base = false ∧ path = root ∨
        t.isDirectory base ∧ ∃ names, names ≠ [] ∧ path = Path.join root ("/".intercalate names) ∧
          (t.fileAt? (base ++ names)).isSome ∧ w.Reaches t rules ⟨root, base⟩ names))
  distinct {t rules root} : t.Sound →
    (w.filesOf t rules root).Pairwise fun a b => Path.same a b = false
  /-- Where there is a directory to start from, there is no message. -/
  readable {t rules root} : t.Sound → t.leadsToDirectory root →
    ∀ message, .error message ∉ w.walk t rules root
  /-- New entries do not change the order of others. -/
  order {t t' rules root} : t.Sound → t'.Sound → t.locations <+: t'.locations → t.Within t' →
    (w.filesOf t' rules root).filter (· ∈ w.filesOf t rules root) =
      (w.filesOf t rules root).filter (· ∈ w.filesOf t' rules root)
  /-- Unless a repository is linked, its own directory is the one in its place. -/
  exclusions?_eq {t d} : (∀ link, t.find? (d ++ [".git"]) ≠ some (.file link)) →
    w.exclusions? t d = t.fileAt? (d ++ [".git", "info", "exclude"])
  /-- What is left out depends on the files that list it, and on where repositories begin. -/
  ignores_eq {t t'} : t'.home = t.home →
    (∀ d, ∀ name ∈ [".ignore", ".gitignore"],
      t'.fileAt? (d ++ [name]) = t.fileAt? (d ++ [name])) →
    (∀ d, ∀ name ∈ [".git", ".jj"],
      (t'.find? (d ++ [name])).isSome = (t.find? (d ++ [name])).isSome) →
    w.exclusions? t' = w.exclusions? t → (∀ l ∈ w.global?, t'.fileAt? l = t.fileAt? l) →
    w.ignores t' = w.ignores t

end Walker
end UtilityCss
