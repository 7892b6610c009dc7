import UtilityCss.ClassName
import UtilityCss.Diagnostic
import UtilityCss.Utility.Resolve
import UtilityCss.Sheet.Rules

namespace UtilityCss

/-- A sheet under construction. Container classes stand for a width at every breakpoint, so they wait
until the text is asked for and then share one rule in each block that is there. -/
structure Sheet where
  rules : Rules := .nil
  /-- The container classes, in order of arrival. -/
  containers : List String := []
  /-- Every class added so far, in order of arrival. -/
  seen : List String := []
  deriving DecidableEq, Repr

namespace Sheet

/-- The key of the rules that container classes share. -/
def containerKey : String := "container"

/-- Adds a class the first time that it comes. Its media blocks are opened even where no rule follows. -/
def add (sheet : Sheet) (name : String) : Sheet × List Diagnostic :=
  if name ∈ sheet.seen then (sheet, [])
  else
    let parsed := ClassName.ofString name
    let warnings := parsed.unknown.map fun m => .unknownModifier m name
    let candidate := Candidate.ofBase parsed.base
    let sheet := { sheet with seen := sheet.seen ++ [name] }
    let place := fun f => { sheet with rules := Rules.atPath f parsed.media 0 sheet.rules }
    if candidate.identifier = containerKey then
      let opened := place fun _ rules => rules
      ({ opened with containers := opened.containers ++ [name] }, warnings ++ [.deferredContainer name])
    else match candidate.resolve? with
      | none => (place fun _ rules => rules, warnings ++ [.noUtility name])
      | some styling =>
        let selector := parsed.selector name styling.target.selector
        (place fun level rules => rules.insert name ⟨selector, styling.declarations, level⟩, warnings)

def addAll (sheet : Sheet) : List String → Sheet × List Diagnostic
  | [] => (sheet, [])
  | name :: names =>
    let (sheet, first) := sheet.add name
    let (sheet, rest) := sheet.addAll names
    (sheet, first ++ rest)

/-- The rule that all containers share at one level. -/
def containerRule (layout : Layout) (names : List String) (property value : String) (level : Nat) :
    StyleRule :=
  ⟨("," ++ layout.newline ++ layout.indent level).intercalate
      (names.map fun name => "." ++ ClassName.escape name), [⟨property, value⟩], level⟩

/-- The rules with those of the containers: full width, and the width of each breakpoint that has a
block. -/
def expanded (layout : Layout) (sheet : Sheet) : Rules :=
  if sheet.containers.isEmpty then sheet.rules
  else
    let rule := containerRule layout sheet.containers
    (sheet.rules.insert containerKey (rule "width" "100%" 0)).mapBreakpoints fun b level rules =>
      rules.insert containerKey (rule "max-width" b.size level)

def text (layout : Layout) (sheet : Sheet) : String := (sheet.expanded layout).cascade.text layout

end Sheet

/-- Two sheets that are filled class by class, in one layout. -/
structure Compiler where
  layout : Layout := ⟨false⟩
  critical : Sheet := {}
  external : Sheet := {}
  deriving DecidableEq, Repr

namespace Compiler

def sheet (c : Compiler) : Partition → Sheet
  | .critical => c.critical
  | .external => c.external

def withSheet (c : Compiler) (sheet : Sheet) : Partition → Compiler
  | .critical => { c with critical := sheet }
  | .external => { c with external := sheet }

/-- Adds classes to one sheet, and reports last how many were new to it. -/
def add (c : Compiler) (partition : Partition) (names : List String) : Compiler × List Diagnostic :=
  let before := c.sheet partition
  let (after, diagnostics) := before.addAll names
  (c.withSheet after partition,
    diagnostics ++ [.added partition (after.seen.length - before.seen.length)])

def text (c : Compiler) (partition : Partition) : String := (c.sheet partition).text c.layout

end Compiler

end UtilityCss
