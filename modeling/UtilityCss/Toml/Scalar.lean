import UtilityCss.Number.Magnitude
import UtilityCss.Text.Blank
import UtilityCss.Toml.Reader

namespace UtilityCss.Toml

inductive Scalar where
  | text (s : String)
  | boolean (b : Bool)
  | integer (n : Int)
  | float
  | moment
  deriving DecidableEq, Repr

open Reader

/-- Whether a number is negative, by its sign. -/
def sign : Reader Bool :=
  (token "-" *> pure true) <|> (token "+" *> pure false) <|> pure false

/-- Digits, one at least, with single underscores between them. -/
def digits (isDigit : Char → Bool) : Reader (List Char) := do
  let all ← stretch fun c => isDigit c || c == '_'
  guard ((Text.pieces (· == '_') all).all (!·.isEmpty))
  return all.filter (· != '_')

/-- Decimal digits without a needless zero at the start. -/
def whole : Reader (List Char) := do
  let ds ← digits Text.isDigit
  guard (ds.length = 1 ∨ ds.head? ≠ some '0')
  return ds

/-- An integer of 64 bits. -/
def integer : Reader Scalar :=
  let inBase := fun (start : String) base (isDigit : Char → Bool) => (do
    token start
    return (valueIn base (← digits isDigit) : Int) : Reader Int)
  let decimal := (do
    let negative ← sign
    let n : Int := valueIn 10 (← whole)
    return if negative then -n else n : Reader Int)
  do
    let n ← inBase "0x" 16 isHexDigit <|> inBase "0o" 8 (fun c => '0' ≤ c && c ≤ '7') <|>
      inBase "0b" 2 (fun c => c == '0' || c == '1') <|> decimal
    guard (-0x8000000000000000 ≤ n ∧ n < 0x8000000000000000)
    return .integer n

/-- Whether decimal digits, as an integer scaled by `10 ^ exponent`, round to a finite double. -/
def isFinite (digits : List Char) (exponent : Int) : Bool :=
  let significant := digits.dropWhile (· == '0')
  let order := significant.length + exponent
  if significant.isEmpty || order < 300 then true
  else if 310 < order then false
  else
    Magnitude.ofDecimal (valueIn 10 significant * Magnitude.pow10 exponent.toNat)
      (-exponent).toNat != .infinite

/-- A float. It has a fraction or an exponent, or a name, and no positive one is too large. -/
def float : Reader Scalar := do
  let negative ← sign
  (token "inf" <|> token "nan") <|> do
    let start ← whole
    let fraction ← (token "." *> digits Text.isDigit) <|> pure []
    let exponent ← (do
      token "e" <|> token "E"
      let below ← sign
      let n : Int := valueIn 10 (← digits Text.isDigit)
      return some (if below then -n else n)) <|> pure none
    guard (!fraction.isEmpty ∨ exponent.isSome)
    guard (negative ∨
      isFinite (start ++ fraction) (exponent.getD 0 - fraction.length))
  return .float

/-- A number of `n` digits, from `low` to `high`. -/
def fixed (n low high : Nat) : Reader Nat := do
  let ds ← exactly n
  guard (ds.all Text.isDigit ∧ low ≤ valueIn 10 ds ∧ valueIn 10 ds ≤ high)
  return valueIn 10 ds

def isLeap (year : Nat) : Bool := year % 4 == 0 && (year % 100 != 0 || year % 400 == 0)

def daysIn (year month : Nat) : Nat :=
  if month = 2 then (if isLeap year then 29 else 28)
  else if month ∈ [4, 6, 9, 11] then 30
  else 31

def date : Reader Unit := do
  let year ← fixed 4 0 9999
  token "-"
  let month ← fixed 2 1 12
  token "-"
  let _ ← fixed 2 1 (daysIn year month)

/-- Hours, minutes and seconds; a leap second is a sixtieth. -/
def time : Reader Unit := do
  let _ ← fixed 2 0 23
  token ":"
  let _ ← fixed 2 0 59
  token ":"
  let _ ← fixed 2 0 60
  maybe do
    token "."
    let _ ← satisfying Text.isDigit
    let _ ← stretch Text.isDigit

def offset : Reader Unit :=
  (token "Z" <|> token "z") <|> do
    token "+" <|> token "-"
    let _ ← fixed 2 0 23
    token ":"
    let _ ← fixed 2 0 59

/-- A date, a time, or both, with an offset or without. -/
def moment : Reader Scalar := do
  (date *> maybe ((token "T" <|> token "t" <|> token " ") *> time *> maybe offset)) <|> time
  return .moment

def scalar : Reader Scalar :=
  ((fun s => .text (String.ofList s)) <$> (quotedLines <|> quoted)) <|>
    (token "true" *> pure (.boolean true)) <|> (token "false" *> pure (.boolean false)) <|>
    moment <|> float <|> integer

end UtilityCss.Toml
