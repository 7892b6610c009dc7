import UtilityCss.Text.Cut

namespace UtilityCss

inductive Task where
  | build | scan | watch
  deriving DecidableEq, Repr

structure Arguments where
  pages : List String := []
  config : Option String := none
  outDirectory : Option String := none
  minify : Bool := false
  critical : List String := []
  ignore : List String := []
  deriving DecidableEq, Repr

structure CommandLine where
  verbosity : Nat
  task : Task
  arguments : Arguments
  deriving DecidableEq, Repr

/-- Why a command line runs nothing. -/
inductive UsageFault where
  | noArguments
  | noTask
  | unknownTask
  | unknownArgument
  | repeatedOption
  /-- a value is missing or empty -/
  | badValue
  | valueOfFlag
  | help
  | version
  deriving DecidableEq, Repr

def UsageFault.message : UsageFault → String
  | noArguments | help => "usage: [-v] (build | scan | watch) [OPTIONS] [PAGES]..."
  | noTask => "a task is required"
  | unknownTask => "unrecognized task"
  | unknownArgument => "unexpected argument"
  | repeatedOption => "an option is given more than once"
  | badValue => "an option needs a value"
  | valueOfFlag => "a flag takes no value"
  | version => "0.1.0"

def Task.ofName? : String → Option Task
  | "build" => some .build
  | "scan" => some .scan
  | "watch" => some .watch
  | _ => none

/-- The options that take a value. -/
inductive ValueOption where
  | config | outDirectory | critical | ignore
  deriving DecidableEq, Repr

def ValueOption.ofName? (task : Task) : String → Option ValueOption
  | "config" => some .config
  | "ignore" => some .ignore
  | "out-dir" => if task = .scan then none else some .outDirectory
  | "critical" => if task = .scan then none else some .critical
  | _ => none

namespace Arguments

/-- Puts the value of an option in. Those for a path occur once, and not empty. -/
def set (a : Arguments) (value : String) : ValueOption → Except UsageFault Arguments
  | .config =>
    if a.config.isSome then .error .repeatedOption
    else if value.isEmpty then .error .badValue
    else .ok { a with config := some value }
  | .outDirectory =>
    if a.outDirectory.isSome then .error .repeatedOption
    else if value.isEmpty then .error .badValue
    else .ok { a with outDirectory := some value }
  | .critical => .ok { a with critical := a.critical ++ [value] }
  | .ignore => .ok { a with ignore := a.ignore ++ [value] }

end Arguments

namespace CommandLine

/-- The most that the flag for verbosity counts. -/
def mostVerbose : Nat := 255

def louder (verbosity : Nat) : Nat := min mostVerbose (verbosity + 1)

/-- Reads flags of one letter that share a hyphen, and counts those for verbosity. -/
def letters (versioned : Bool) (verbosity : Nat) : List Char → Except UsageFault Nat
  | [] => .ok verbosity
  | 'v' :: s => letters versioned (louder verbosity) s
  | 'h' :: _ => .error .help
  | c :: _ => .error (if versioned ∧ c = 'V' then .version else .unknownArgument)

/-- An argument by its form. -/
inductive Form where
  | separator
  | long (name : String) (value : Option String)
  | short (letters : List Char)
  | plain

def Form.of (argument : String) : Form :=
  match argument.toList with
  | ['-', '-'] => separator
  | '-' :: '-' :: name =>
    match Text.cut '=' name with
    | some (name, value) => long (String.ofList name) (some (String.ofList value))
    | none => long (String.ofList name) none
  | ['-'] => plain
  | '-' :: letters => short letters
  | _ => plain

/-- What has been read behind a task. An option waits for its value, and is put in with the next
argument that is understood. -/
structure Draft where
  arguments : Arguments := {}
  verbosity : Nat := 0
  pending : Option (ValueOption × Option String) := none
  onlyPages : Bool := false

namespace Draft

/-- Puts the option in that waits. -/
def settle (d : Draft) : Except UsageFault Draft :=
  match d.pending with
  | none => .ok d
  | some (_, none) => .error .badValue
  | some (option, some value) =>
    (d.arguments.set value option).map fun arguments => { d with arguments, pending := none }

def addPage (d : Draft) (page : String) : Except UsageFault Draft := do
  let d ← d.settle
  return { d with arguments := { d.arguments with pages := d.arguments.pages ++ [page] } }

/-- Reads an argument with two hyphens. -/
def addLong (task : Task) (d : Draft) (name : String) (value : Option String) :
    Except UsageFault Draft := do
  if let some option := ValueOption.ofName? task name then
    let d ← d.settle
    match value with
    | none => return { d with pending := some (option, none) }
    | some value => return { d with arguments := ← d.arguments.set value option }
  else if name = "help" ∨ name = "verbose" ∨ (name = "minify" ∧ task ≠ .scan) then
    if value.isSome then throw .valueOfFlag
    let d ← d.settle
    if name = "help" then throw .help
    else if name = "verbose" then return { d with verbosity := louder d.verbosity }
    else if d.arguments.minify then throw .repeatedOption
    else return { d with arguments := { d.arguments with minify := true } }
  else throw .unknownArgument

def add (task : Task) (d : Draft) (argument : String) : Except UsageFault Draft :=
  if d.onlyPages then d.addPage argument
  else
    match Form.of argument, d.pending with
    | .separator, _ => .ok { d with onlyPages := true }
    | .long name value, _ => d.addLong task name value
    | .short s, _ =>
      if s.head? = some 'v' ∨ s.head? = some 'h' then do
        let d ← d.settle
        return { d with verbosity := ← letters false d.verbosity s }
      else .error .unknownArgument
    | .plain, some (option, none) => .ok { d with pending := some (option, some argument) }
    | .plain, _ => d.addPage argument

end Draft

/-- Reads what follows a task. Of two counts for verbosity, the one behind the task holds. -/
def ofTask (verbosity : Nat) (task : Task) (arguments : List String) :
    Except UsageFault CommandLine := do
  let d ← (← arguments.foldlM (Draft.add task) {}).settle
  return ⟨if d.verbosity = 0 then verbosity else d.verbosity, task, d.arguments⟩

/-- What is said to a call for help on a task. -/
def helpOn : List String → UsageFault
  | [] => .help
  | [name] => if (Task.ofName? name).isSome ∨ name = "help" then .help else .unknownTask
  | _ => .unknownTask

/-- Reads arguments, after a count for verbosity. -/
def ofRest (verbosity : Nat) : List String → Except UsageFault CommandLine
  | [] => .error (if verbosity = 0 then .noArguments else .noTask)
  | argument :: rest =>
    match Task.ofName? argument with
    | some task => ofTask verbosity task rest
    | none =>
      if argument = "help" then .error (helpOn rest)
      else
        match Form.of argument with
        | .separator =>
          match rest with
          | [] => .error (if verbosity = 0 then .noArguments else .noTask)
          | name :: _ =>
            .error (if (Task.ofName? name).isSome ∨ name = "help" then .unknownArgument
              else .unknownTask)
        | .long name value =>
          if name ∉ ["help", "version", "verbose"] then .error .unknownArgument
          else if value.isSome then .error .valueOfFlag
          else if name = "help" then .error .help
          else if name = "version" then .error .version
          else ofRest (louder verbosity) rest
        | .short s =>
          match letters true verbosity s with
          | .ok verbosity => ofRest verbosity rest
          | .error fault => .error fault
        | .plain => .error .unknownTask

def ofArguments (arguments : List String) : Except UsageFault CommandLine := ofRest 0 arguments

end CommandLine
end UtilityCss
