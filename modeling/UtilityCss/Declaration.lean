import UtilityCss.Text.Cut

namespace UtilityCss

structure Declaration where
  property : String
  value : String
  deriving DecidableEq, Repr

/-- One declaration on a line of its own. -/
def Declaration.text (indent newline : String) (d : Declaration) : String :=
  indent ++ d.property ++ ": " ++ d.value ++ ";" ++ newline

/-- What a rule styles, seen from the element that carries the class. -/
inductive Target where
  | element
  | after
  | placeholder
  | siblings
  deriving DecidableEq, Repr

/-- The end of the selector that reaches the target. -/
def Target.selector : Target → String
  | element => ""
  | after => ":after"
  | placeholder => "::placeholder"
  | siblings => " > :not(template) ~ :not(template)"

structure Styling where
  target : Target
  declarations : List Declaration
  deriving DecidableEq, Repr

namespace Styling

def of (pairs : List (String × String)) (target : Target) : Styling :=
  ⟨target, pairs.map fun (property, value) => ⟨property, value⟩⟩

/-- One declaration for the element itself. -/
def set (property value : String) : Styling := of [(property, value)] .element

/-- Several properties of the element, all with one value. -/
def setAll (properties : List String) (value : String) : Styling :=
  of (properties.map fun property => (property, value)) .element

end Styling
end UtilityCss
