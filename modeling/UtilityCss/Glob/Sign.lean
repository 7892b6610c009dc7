namespace UtilityCss.Glob

inductive Sign where
  /-- a character that stands for itself -/
  | literal (c : Char)
  /-- one byte -/
  | one
  /-- any bytes -/
  | many
  /-- any leading directories -/
  | leading
  /-- all that lies below a directory -/
  | beneath
  /-- a slash with any directories behind it -/
  | between
  /-- one byte of a class, or of what is outside it -/
  | oneOf (negated : Bool) (ranges : List (Char × Char))
  /-- one of several alternatives -/
  | choice (alternatives : List (List Sign))
  deriving Repr

abbrev Bytes := List UInt8

def slash : UInt8 := 0x2F

def bytesOf (c : Char) : Bytes := String.utf8EncodeChar c

/-- The places of a text, each marked or not: one before every byte, and one at the end. -/
abbrev Marks := List Bool

namespace Marks

/-- The start of a text. -/
def start (s : Bytes) : Marks := true :: s.map fun _ => false

/-- The places one byte behind marked ones, where `free` admits the byte. -/
def step (free : UInt8 → Bool) (s : Bytes) (m : Marks) : Marks :=
  false :: List.zipWith (fun b marked => free b && marked) s m

/-- The marked places and those behind them, over bytes that `free` admits. The first place counts as
marked where one before it leads there. -/
def spread (free : UInt8 → Bool) (led : Bool) : Bytes → Marks → Marks
  | b :: s, marked :: m => (led || marked) :: spread free (free b && (led || marked)) s m
  | [], m => m.map (led || ·)
  | _ :: _, [] => []

def either (m n : Marks) : Marks := List.zipWith (· || ·) m n

/-- The places behind a slash that follows a marked place. -/
def behindSlash (s : Bytes) (m : Marks) : Marks :=
  step (· == slash) s (spread (fun _ => true) false s m)

end Marks

open Marks

/-- The bytes between two characters of a class. A character of several bytes adds each of them, and
the range runs from the last byte of the one to the first of the other. -/
def inRange (b : UInt8) (range : Char × Char) : Bool :=
  let low := bytesOf range.1
  let high := bytesOf range.2
  low.contains b || high.contains b ||
    (range.1 != range.2 && low.getLast?.any (· ≤ b) && high.head?.any (b ≤ ·))

mutual

/-- Whether the signs, apart from empty choices, are none. -/
def isVoid : List Sign → Bool
  | [] => true
  | .choice alternatives :: signs => areVoid alternatives && isVoid signs
  | _ :: _ => false

def areVoid : List (List Sign) → Bool
  | [] => true
  | signs :: rest => isVoid signs && areVoid rest

end

mutual

/-- The places of a text behind what the sign stands for, from marked places on. Where `separated`, `?`
and `*` stop at slashes. -/
def Sign.reach (separated : Bool) (s : Bytes) (m : Marks) : Sign → Marks
  | .literal c => (bytesOf c).foldl (fun m a => step (· == a) s m) m
  | .one => step (fun b => !(separated && b == slash)) s m
  | .many => spread (fun b => !(separated && b == slash)) false s m
  | .leading => either m (behindSlash s m)
  | .beneath => spread (fun _ => true) false s (step (· == slash) s m)
  | .between =>
    let m := step (· == slash) s m
    either m (behindSlash s m)
  | .oneOf negated ranges => step (fun b => ranges.any (inRange b) != negated) s m
  | .choice alternatives =>
    if areVoid alternatives then m else reachSome separated s m alternatives

/-- The same for signs in sequence. -/
def reach (separated : Bool) (s : Bytes) (m : Marks) : List Sign → Marks
  | [] => m
  | sign :: signs => reach separated s (sign.reach separated s m) signs

/-- The same for alternatives, of which the empty ones do not count. -/
def reachSome (separated : Bool) (s : Bytes) (m : Marks) : List (List Sign) → Marks
  | [] => m.map fun _ => false
  | signs :: rest =>
    let others := reachSome separated s m rest
    if isVoid signs then others else either (reach separated s m signs) others

end

/-- Whether the signs stand for the whole of a text. -/
def accepts (separated : Bool) (signs : List Sign) (s : Bytes) : Bool :=
  (reach separated s (Marks.start s) signs).getLast?.getD false

end UtilityCss.Glob
