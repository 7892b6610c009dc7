import UtilityCss.Libraries
import UtilityCss.CommandLine
import UtilityCss.Site.Scan

namespace UtilityCss

/-- What to build, as the `build` table of the config file says it. -/
structure Config where
  /-- globs of the pages whose classes are compiled -/
  pages : List String := ["**/*.html"]
  /-- globs of the pages whose classes form the critical sheet -/
  critical : List String := []
  ignore : List String := []
  outDirectory : String := "dist"
  minify : Bool := false
  deriving DecidableEq, Repr

inductive ConfigFault where
  | unreadable (path : String) (fault : FileFault)
  | malformed (path cause : String)
  deriving DecidableEq, Repr

def ConfigFault.message : ConfigFault → String
  | unreadable path fault => "failed to read config " ++ path ++ ": " ++ fault.message
  | malformed path cause => "failed to parse config " ++ path ++ ": " ++ cause

namespace Config

open Toml (Item)

def text? : Item → Option String
  | .scalar (.text s) => some s
  | _ => none

def boolean? : Item → Option Bool
  | .scalar (.boolean b) => some b
  | _ => none

def texts? : Item → Option (List String)
  | .array items => items.mapM text?
  | _ => none

/-- The names of the settings. -/
def names : List String := ["pages", "critical", "ignore", "out_dir", "minify"]

/-- Reads the settings that are there; the others keep their defaults, and what is no setting is left
alone. -/
def ofEntries? (entries : List (String × Item)) : Option Config :=
  let read := fun {α : Type} (name : String) (decode : Item → Option α) (absent : α) =>
    ((entries.lookup name).map decode).getD (some absent)
  do
    let defaults : Config := {}
    return {
      pages := ← read "pages" texts? defaults.pages
      critical := ← read "critical" texts? defaults.critical
      ignore := ← read "ignore" texts? defaults.ignore
      outDirectory := ← read "out_dir" text? defaults.outDirectory
      minify := ← read "minify" boolean? defaults.minify }

/-- The settings of a table, or of an array that gives them by position. A moment counts as a table of
its own, without any of them. -/
def ofItem? : Item → Option Config
  | .table _ entries => ofEntries? entries
  | .array items => ofEntries? (names.zip items)
  | .scalar .moment => some {}
  | .scalar _ | .rows .. => none

/-- Reads a text. One that is no document, or gives settings other kinds of values, is at fault. -/
def ofText (L : TomlLibrary) (text : String) : Except String Config := do
  match (← L.read text).lookup "build" with
  | none => return {}
  | some item => (ofItem? item).elim (.error (L.misfit text)) .ok

variable (L : TomlLibrary) (t : FileTree)

def load (path : String) : Except ConfigFault Config :=
  match t.readText path with
  | .error fault => .error (.unreadable path fault)
  | .ok text => (ofText L text).mapError (.malformed path)

/-- The file that is read where none is named. -/
def defaultPath : String := "tailor.toml"

/-- The config of the file that is named, of the default file if it is there, or the default one. -/
def find : Option String → Except ConfigFault Config
  | some path => load L t path
  | none => if t.isFile defaultPath then load L t defaultPath else .ok {}

end Config

/-- What one run works with: the config, overruled by the command line. -/
structure Settings where
  /-- the directory that globs and a relative output directory start from -/
  base : String
  pages : List String
  critical : List String
  ignore : List String
  outDirectory : String
  minify : Bool
  deriving DecidableEq, Repr

namespace Settings

/-- Lists on the command line replace those of the config unless they are empty. -/
def ofConfig (base : String) (config : Config) (arguments : Arguments) : Settings :=
  let pick := fun (given configured : List String) => if given.isEmpty then configured else given
  { base
    pages := pick arguments.pages config.pages
    critical := pick arguments.critical config.critical
    ignore := pick arguments.ignore config.ignore
    outDirectory := arguments.outDirectory.getD config.outDirectory
    minify := arguments.minify || config.minify }

/-- The globs of a config file start from its directory. -/
def baseOf (config : Option String) : String :=
  match config.bind Path.parent? with
  | none | some "" => "."
  | some directory => directory

/-- The settings of a run in a site. -/
def find (L : TomlLibrary) (t : FileTree) (arguments : Arguments) : Except ConfigFault Settings :=
  (Config.find L t arguments.config).map fun config =>
    ofConfig (baseOf arguments.config) config arguments

/-- The directory that the sheets are written to. -/
def outputDirectory (s : Settings) : String := Path.join s.base s.outDirectory

/-- The ignored globs, and all that is in a relative output directory, so that no sheet that was written
is scanned. -/
def excluded (s : Settings) : List String :=
  if Path.isAbsolute s.outDirectory then s.ignore else s.ignore ++ [s.outDirectory ++ "/**"]

def walkOptions (s : Settings) : WalkOptions := { base := s.base }

end Settings
end UtilityCss
