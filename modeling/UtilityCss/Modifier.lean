namespace UtilityCss

inductive PseudoClass where
  | hover | focus | active | visited | disabled | checked | focusWithin | focusVisible
  | first | last | odd | even | groupHover | groupFocus
  deriving DecidableEq, Repr

namespace PseudoClass

def all : List PseudoClass :=
  [hover, focus, active, visited, disabled, checked, focusWithin, focusVisible,
   first, last, odd, even, groupHover, groupFocus]

def name : PseudoClass → String
  | hover => "hover"
  | focus => "focus"
  | active => "active"
  | visited => "visited"
  | disabled => "disabled"
  | checked => "checked"
  | focusWithin => "focus-within"
  | focusVisible => "focus-visible"
  | first => "first"
  | last => "last"
  | odd => "odd"
  | even => "even"
  | groupHover => "group-hover"
  | groupFocus => "group-focus"

/-- What the selector says about an element further out. -/
def ancestor : PseudoClass → String
  | groupHover => ".group:hover "
  | groupFocus => ".group:focus "
  | _ => ""

/-- What the selector says about the element itself. -/
def state : PseudoClass → String
  | hover => ":hover"
  | focus => ":focus"
  | active => ":active"
  | visited => ":visited"
  | disabled => ":disabled"
  | checked => ":checked"
  | focusWithin => ":focus-within"
  | focusVisible => ":focus-visible"
  | first => ":first-child"
  | last => ":last-child"
  | odd => ":nth-child(odd)"
  | even => ":nth-child(even)"
  | groupHover | groupFocus => ""

def ofName? (name : String) : Option PseudoClass := all.find? (·.name == name)

end PseudoClass

/-- The viewport widths from which a responsive rule applies, smallest first. -/
inductive Breakpoint where
  | sm | md | lg | xl | xxl
  deriving DecidableEq, Repr

namespace Breakpoint

def all : List Breakpoint := [sm, md, lg, xl, xxl]

def name : Breakpoint → String
  | sm => "sm"
  | md => "md"
  | lg => "lg"
  | xl => "xl"
  | xxl => "2xl"

def size : Breakpoint → String
  | sm => "640px"
  | md => "768px"
  | lg => "1024px"
  | xl => "1280px"
  | xxl => "1536px"

end Breakpoint

/-- Media features other than the viewport's width. -/
inductive MediaFeature where
  | dark | light | motionSafe | motionReduce | print
  deriving DecidableEq, Repr

namespace MediaFeature

def all : List MediaFeature := [dark, light, motionSafe, motionReduce, print]

def name : MediaFeature → String
  | dark => "dark"
  | light => "light"
  | motionSafe => "motion-safe"
  | motionReduce => "motion-reduce"
  | print => "print"

def condition : MediaFeature → String
  | dark => "(prefers-color-scheme: dark)"
  | light => "(prefers-color-scheme: light)"
  | motionSafe => "(prefers-reduced-motion: no-preference)"
  | motionReduce => "(prefers-reduced-motion: reduce)"
  | print => "print"

end MediaFeature

inductive MediaQuery where
  | breakpoint (b : Breakpoint)
  | feature (f : MediaFeature)
  deriving DecidableEq, Repr

namespace MediaQuery

def all : List MediaQuery := Breakpoint.all.map breakpoint ++ MediaFeature.all.map feature

def name : MediaQuery → String
  | breakpoint b => b.name
  | feature f => f.name

def condition : MediaQuery → String
  | breakpoint b => "(min-width: " ++ b.size ++ ")"
  | feature f => f.condition

def size? : MediaQuery → Option String
  | breakpoint b => some b.size
  | feature _ => none

def atRule (q : MediaQuery) : String := "@media " ++ q.condition

def ofName? (name : String) : Option MediaQuery := all.find? (·.name == name)

end MediaQuery

inductive Modifier where
  | pseudo (p : PseudoClass)
  | media (q : MediaQuery)
  deriving DecidableEq, Repr

def Modifier.ofName? (name : String) : Option Modifier :=
  ((PseudoClass.ofName? name).map pseudo).or ((MediaQuery.ofName? name).map media)

end UtilityCss
