import UtilityCss.Glob.Sign

namespace UtilityCss.Glob

inductive Fault where
  | unclosedClass
  | backwardRange (low high : Char)
  | unclosedChoice
  | unopenedChoice
  | danglingBackslash
  deriving DecidableEq, Repr

def Fault.message : Fault → String
  | unclosedClass => "unclosed character class; missing ']'"
  | backwardRange low high =>
    "invalid range; '" ++ low.toString ++ "' > '" ++ high.toString ++ "'"
  | unclosedChoice => "unclosed alternate group; missing '\x7d' (maybe escape '\x7b' with '[\x7b]'?)"
  | unopenedChoice => "unopened alternate group; missing '\x7b' (maybe escape '\x7d' with '[\x7d]'?)"
  | danglingBackslash => "dangling '\\'"

/-- The ranges of a class up to its closing bracket, latest first, and what follows. `pending` tells
that a hyphen waits for the end of the latest range; a bracket at the very start and hyphens at either
end stand for themselves. -/
def classRanges (first pending : Bool) (ranges : List (Char × Char)) :
    List Char → Except Fault (List (Char × Char) × List Char)
  | [] => .error .unclosedClass
  | c :: s =>
    if c = ']' ∧ !first then .ok (if pending then ('-', '-') :: ranges else ranges, s)
    else if c = '-' ∧ !first ∧ !pending then classRanges false true ranges s
    else match pending, ranges with
      | true, (low, _) :: earlier =>
        if c < low then .error (.backwardRange low c)
        else classRanges false false ((low, c) :: earlier) s
      | _, _ => classRanges false false ((c, c) :: ranges) s

/-- A class whose opening bracket has been read. -/
def readClass : List Char → Except Fault (Sign × List Char)
  | '!' :: s | '^' :: s => (classRanges true false [] s).map fun (ranges, rest) =>
    (.oneOf true ranges.reverse, rest)
  | s => (classRanges true false [] s).map fun (ranges, rest) => (.oneOf false ranges.reverse, rest)

theorem length_classRanges {first pending : Bool} {ranges : List (Char × Char)} {s : List Char}
    {r : List (Char × Char) × List Char} (h : classRanges first pending ranges s = .ok r) :
    r.2.length ≤ s.length := by
  fun_induction classRanges first pending ranges s <;> grind

theorem length_readClass {s : List Char} {r : Sign × List Char} (h : readClass s = .ok r) :
    r.2.length ≤ s.length := by
  unfold readClass at h
  split at h
  all_goals
    simp only [Except.map] at h
    split at h
    · cases h
    · cases h
      have := length_classRanges ‹_›
      simp_all
      try omega

/-- What is open while a glob is read: the signs of the branch that is being read, latest first, and
for each choice around it the signs before it and its finished alternatives, latest first. Brackets
open classes until one has been met that none closes. -/
structure Draft where
  here : List Sign := []
  around : List (List Sign × List (List Sign)) := []
  classes : Bool := true

namespace Draft

def push (d : Draft) (sign : Sign) : Draft := { d with here := sign :: d.here }

def openChoice (d : Draft) : Draft := { d with here := [], around := (d.here, []) :: d.around }

/-- A comma ends an alternative, outside choices it stands for itself. -/
def comma (d : Draft) : Draft :=
  match d.around with
  | [] => d.push (.literal ',')
  | (outer, done) :: around =>
    { d with here := [], around := (outer, d.here.reverse :: done) :: around }

def closeChoice (d : Draft) : Option Draft :=
  match d.around with
  | [] => none
  | (outer, done) :: around =>
    some { d with here := .choice (d.here.reverse :: done).reverse :: outer, around }

/-- A bracket that none closes stands for itself, and so do those behind it. -/
def loneBracket (d : Draft) : Draft := { d.push (.literal '[') with classes := false }

/-- Puts a sign for whole directories in the place of the latest sign, unless that spans them by
itself. -/
def span (d : Draft) (sign : Sign) : Draft :=
  match d.here with
  | .leading :: _ | .beneath :: _ => d
  | _ :: earlier => { d with here := sign :: earlier }
  | [] => { d with here := [sign] }

/-- Two stars that do not span directories. -/
def stars (d : Draft) : Draft := (d.push .many).push .many

/-- Reads two stars, between the character `before` and the text `s`. They span directories where they
make up a whole component. -/
def twoStars (d : Draft) (before : Option Char) (s : List Char) : Draft × List Char :=
  if d.here.isEmpty then
    match s with
    | [] => (d.push .leading, [])
    | '/' :: s => (d.push .leading, s)
    | _ => (d.stars, s)
  else if before = some '/' ∨ (!d.around.isEmpty ∧ (before = some ',' ∨ before = some '{')) then
    match s with
    | [] => (d.span .beneath, [])
    | '/' :: s => (d.span .between, s)
    | c :: _ =>
      if !d.around.isEmpty && (c == ',' || c == '}') then (d.span .beneath, s) else (d.stars, s)
  else (d.stars, s)

theorem length_twoStars (d : Draft) (before : Option Char) (s : List Char) :
    (d.twoStars before s).2.length ≤ s.length := by
  unfold twoStars
  grind

end Draft

/-- Reads the rest of a glob, behind the character `before`. Where `lenient`, a bracket that none closes
is no fault. -/
def readSigns (lenient : Bool) (d : Draft) (before : Option Char) :
    List Char → Except Fault (List Sign)
  | [] => if d.around.isEmpty then .ok d.here.reverse else .error .unclosedChoice
  | '?' :: s => readSigns lenient (d.push .one) (some '?') s
  | '*' :: '*' :: s =>
    let next := (d.twoStars before s).2
    let spent := if next.length < s.length then '/' else '*'
    readSigns lenient (d.twoStars before s).1 (some spent) next
  | '*' :: s => readSigns lenient (d.push .many) (some '*') s
  | '[' :: s =>
    if d.classes then
      match _h : readClass s with
      | .ok (sign, rest) => readSigns lenient (d.push sign) (some ']') rest
      | .error fault =>
        if lenient ∧ fault = .unclosedClass then readSigns lenient d.loneBracket (some '[') s
        else .error fault
    else readSigns lenient (d.push (.literal '[')) (some '[') s
  | '{' :: s => readSigns lenient d.openChoice (some '{') s
  | '}' :: s =>
    match d.closeChoice with
    | some d => readSigns lenient d (some '}') s
    | none => .error .unopenedChoice
  | ',' :: s => readSigns lenient d.comma (some ',') s
  | '\\' :: c :: s => readSigns lenient (d.push (.literal c)) (some c) s
  | ['\\'] => .error .danglingBackslash
  | c :: s => readSigns lenient (d.push (.literal c)) (some c) s
termination_by s => s.length
decreasing_by
  all_goals try
    have := length_readClass _h
  all_goals try
    have := Draft.length_twoStars d before s
  all_goals simp_all
  all_goals try omega

end UtilityCss.Glob
