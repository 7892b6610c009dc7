namespace UtilityCss

/-- A double without its sign. A finite one is `units * 2 ^ -1074`. -/
inductive Magnitude where
  | finite (units : Nat)
  | infinite
  | undefined
  deriving DecidableEq, Repr

namespace Magnitude

def pow2 (n : Nat) : Nat := Nat.pow 2 n

def pow10 (n : Nat) : Nat := Nat.pow 10 n

/-- The units of the value one. -/
def one : Nat := pow2 1074

/-- The first value past the finite ones, in units. -/
def limit : Nat := pow2 2098

/-- The distance from `units` to the next double above, which keeps 53 significant bits. -/
def gap (units : Nat) : Nat := pow2 (units.log2 - 52)

/-- The multiple of `step` nearest to `num / den`; of two, the one with the even factor. -/
def nearestMultiple (num den step : Nat) : Nat :=
  let factor := num / (den * step)
  let remainder := num % (den * step)
  if 2 * remainder < den * step ∨ (2 * remainder = den * step ∧ factor % 2 = 0) then factor * step
  else (factor + 1) * step

/-- The double nearest to `num / den` units, ties to even. -/
def ofQuotient (num den : Nat) : Magnitude :=
  let units := nearestMultiple num den (gap (num / den))
  if units < limit then .finite units else .infinite

/-- The double nearest to `digits / 10 ^ places`. -/
def ofDecimal (digits places : Nat) : Magnitude := ofQuotient (digits * one) (pow10 places)

def mul : Magnitude → Magnitude → Magnitude
  | .finite a, .finite b => ofQuotient (a * b) one
  | .finite a, .infinite => if a = 0 then .undefined else .infinite
  | .infinite, .finite b => if b = 0 then .undefined else .infinite
  | .infinite, .infinite => .infinite
  | .undefined, _ => .undefined
  | _, .undefined => .undefined

def div : Magnitude → Magnitude → Magnitude
  | .finite a, .finite b =>
    if b = 0 then (if a = 0 then .undefined else .infinite) else ofQuotient (a * one) b
  | .finite _, .infinite => .finite 0
  | .infinite, .finite _ => .infinite
  | _, _ => .undefined

instance : Mul Magnitude := ⟨mul⟩
instance : Div Magnitude := ⟨div⟩

/-- The magnitude that the low 63 bits of an interchange word encode. -/
def ofBits (word : UInt64) : Magnitude :=
  let exponent := (word >>> 52 &&& 0x7FF).toNat
  let fraction := (word &&& 0xFFFFFFFFFFFFF).toNat
  if exponent = 0x7FF then (if fraction = 0 then .infinite else .undefined)
  else if exponent = 0 then .finite fraction
  else .finite ((pow2 52 + fraction) * pow2 (exponent - 1))

/-- Whether `digits * 10 ^ exponent` rounds to the double `units`: it lies between the midpoints to
the two neighbours, and a midpoint counts when the factor of `units` is even. Below a power of two
the lower neighbour is half as far. -/
def readsBack (units digits : Nat) (exponent : Int) : Bool :=
  let step := gap units
  let reach := if units = pow2 units.log2 ∧ 1 < step then step else 2 * step
  let point := 4 * digits * one * pow10 exponent.toNat
  let below := (4 * units - reach) * pow10 (-exponent).toNat
  let above := (4 * units + 2 * step) * pow10 (-exponent).toNat
  if units / step % 2 = 0 then below ≤ point && point ≤ above
  else below < point && point < above

/-- The multiple of `10 ^ exponent` that reads back to `units` and is nearest to it, the upper one of
two at the same distance. -/
def digitsAt (units : Nat) (exponent : Int) : Option Nat :=
  let num := units * pow10 (-exponent).toNat
  let den := one * pow10 exponent.toNat
  let low := num / den
  match readsBack units low exponent, readsBack units (low + 1) exponent with
  | true, true => some (if 2 * num < (2 * low + 1) * den then low else low + 1)
  | true, false => some low
  | false, true => some (low + 1)
  | false, false => none

/-- The decimal grids from the first that exceeds `units` to the one that holds every double. -/
def grids (units : Nat) : List Int :=
  let whole := (Nat.toDigits 10 (units / one)).length
  (List.range (whole + 1075)).map fun (i : Nat) => (whole : Int) - i

/-- Digits and exponent of the shortest decimal that reads back to `units`. -/
def shortest (units : Nat) : Nat × Int :=
  ((grids units).findSome? fun e => (digitsAt units e).map fun d => (d, e)).getD
    (units * Nat.pow 5 1074, -1074)

/-- `digits * 10 ^ exponent` without an exponent. -/
def positional (digits : Nat) (exponent : Int) : List Char :=
  let places := (-exponent).toNat
  let ds := Nat.toDigits 10 digits ++ List.replicate exponent.toNat '0'
  if places = 0 then ds
  else
    let ds := ds.leftpad (places + 1) '0'
    ds.take (ds.length - places) ++ '.' :: ds.drop (ds.length - places)

def text : Magnitude → String
  | .finite units =>
    if units = 0 then "0"
    else let (digits, exponent) := shortest units; String.ofList (positional digits exponent)
  | .infinite => "inf"
  | .undefined => "NaN"

/-- The text with a sign; zero and the undefined value have none. -/
def signedText (negative : Bool) (m : Magnitude) : String :=
  if negative ∧ m ≠ .finite 0 ∧ m ≠ .undefined then "-" ++ m.text else m.text

end Magnitude
end UtilityCss
