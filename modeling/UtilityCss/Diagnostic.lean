namespace UtilityCss

/-- The two sheets: the one that pages carry inline, and the one loaded after them. -/
inductive Partition where
  | critical | external
  deriving DecidableEq, Repr

def Partition.title : Partition → String
  | critical => "Critical"
  | external => "External"

inductive Severity where
  | warn | info | debug
  deriving DecidableEq, Repr

def Severity.label : Severity → String
  | warn => "WARN"
  | info => "INFO"
  | debug => "DEBUG"

inductive Diagnostic where
  | unknownModifier (modifier name : String)
  | noUtility (name : String)
  | deferredContainer (name : String)
  | added (partition : Partition) (count : Nat)
  | criticalPage (path : String)
  | unreadable (reason : String)
  | built (files critical external : Nat) (directory : String)
  | listed (files classes : Nat)
  deriving DecidableEq, Repr

namespace Diagnostic

def severity : Diagnostic → Severity
  | unknownModifier .. | noUtility .. | unreadable .. => .warn
  | built .. | listed .. => .info
  | deferredContainer .. | added .. | criticalPage .. => .debug

def message : Diagnostic → String
  | unknownModifier modifier name =>
    "unknown modifier `" ++ modifier ++ "` in class `" ++ name ++ "`"
  | noUtility name => "no utility matches class `" ++ name ++ "`"
  | deferredContainer name => "deferring container class `" ++ name ++ "`"
  | added partition count =>
    partition.title ++ " partition: " ++ toString count ++ " new class names"
  | criticalPage path => "critical page " ++ path
  | unreadable reason => "skipping unreadable entry: " ++ reason
  | built files critical external directory =>
    "scanned " ++ toString files ++ " files: " ++ toString critical ++ " critical and " ++
      toString external ++ " external classes written to " ++ directory
  | listed files classes =>
    "scanned " ++ toString files ++ " files, found " ++ toString classes ++ " classes"

def text (d : Diagnostic) : String := d.severity.label ++ " " ++ d.message

end Diagnostic
end UtilityCss
