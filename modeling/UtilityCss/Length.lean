import UtilityCss.Text.Cut
import UtilityCss.Number.Magnitude

namespace UtilityCss

/-- The dimension of the viewport that `screen` means. -/
inductive Axis where
  | width | height
  deriving DecidableEq, Repr

/-- One digit or more, and nothing else. -/
def isInteger (token : String) : Bool := !token.toList.isEmpty && token.toList.all Text.isDigit

/-- The number that decimal digits denote. -/
def digitsValue (digits : List Char) : Nat :=
  digits.foldl (fun n c => 10 * n + (c.toNat - '0'.toNat)) 0

/-- An unsigned decimal such as `4` or `2.5`, with a digit on each side of a point. -/
def number? (token : String) : Option Magnitude :=
  match Text.cutAt '.' token with
  | none => if isInteger token then some (.ofDecimal (digitsValue token.toList) 0) else none
  | some (whole, part) =>
    if isInteger whole && isInteger part then
      some (.ofDecimal (digitsValue (whole.toList ++ part.toList)) part.toList.length)
    else none

/-- The percentage that `n/d` denotes: the rounded quotient, then its rounded product with 100. -/
def fraction? (token : String) : Option Magnitude :=
  match Text.cutAt '/' token with
  | none => none
  | some (numerator, denominator) =>
    if isInteger numerator && isInteger denominator then
      let n : Magnitude := .ofDecimal (digitsValue numerator.toList) 0
      let d : Magnitude := .ofDecimal (digitsValue denominator.toList) 0
      if d = .finite 0 then none else some (n / d * .ofDecimal 100 0)
    else none

/-- A quarter, the size in rem of one step of the scale. -/
def step : Magnitude := .ofDecimal 25 2

inductive Size where
  | zero
  | auto
  | pixel
  | full
  | screen
  | percent (amount : Magnitude)
  | rem (amount : Magnitude)
  deriving DecidableEq, Repr

namespace Size

def keywords : List (String × Size) :=
  [("0", zero), ("auto", auto), ("px", pixel), ("full", full), ("screen", screen)]

/-- A count of steps; every spelling of zero is `zero`. -/
def ofSteps (steps : Magnitude) : Size := if steps = .finite 0 then zero else rem (steps * step)

def ofToken? (token : String) : Option Size :=
  match keywords.lookup token with
  | some size => some size
  | none =>
    match fraction? token with
    | some amount => some (percent amount)
    | none => (number? token).map ofSteps

def text (axis : Axis) : Size → String
  | zero => "0"
  | auto => "auto"
  | pixel => "1px"
  | full => "100%"
  | screen => match axis with
    | .width => "100vw"
    | .height => "100vh"
  | percent amount => amount.text ++ "%"
  | rem amount => amount.text ++ "rem"

/-- Sizes that gaps, margins and paddings take: those of the scale, and the single pixel. -/
def isSpacing : Size → Bool
  | zero | pixel | rem _ => true
  | auto | full | screen | percent _ => false

end Size

/-- A minus sign in front of a value, unless the value is `0` or `auto`. -/
def signed (negative : Bool) (value : String) : String :=
  if negative && value != "0" && value != "auto" then "-" ++ value else value

def length? (token : String) (negative : Bool) (axis : Axis) : Option String :=
  (Size.ofToken? token).map fun size => signed negative (size.text axis)

def spacing? (token : String) (negative : Bool) : Option String :=
  ((Size.ofToken? token).filter Size.isSpacing).map fun size => signed negative (size.text .width)

end UtilityCss
