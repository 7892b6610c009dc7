import UtilityCss.Source.Classes
import UtilityCss.Text.Bytes

namespace UtilityCss.Source.Cursor

/-- What makes a reading break off. -/
inductive Fault where
  /-- a slice that is out of range or splits a character -/
  | slice
  /-- a cursor behind the end of the text or within a character -/
  | astray
  /-- a number below zero -/
  | underflow
  /-- more turns or calls than allowed -/
  | endless
  deriving DecidableEq, Repr

abbrev Outcome := Except Fault

/-- A computation that moves the cursor. -/
abbrev Reading := StateT Nat Outcome

section

variable (text : List Char)

/-- The slice from a byte on. -/
def behind (n : Nat) : Outcome (List Char) :=
  match Text.splitAt? text n with
  | some (_, b) => pure b
  | none => throw .slice

/-- The slice up to a byte. -/
def before (n : Nat) : Outcome (List Char) :=
  match Text.splitAt? text n with
  | some (a, _) => pure a
  | none => throw .slice

def between (m n : Nat) : Outcome (List Char) := do behind (← before text n) m

def moveTo (n : Nat) : Reading Unit :=
  match Text.splitAt? text n with
  | some _ => set n
  | none => throw .astray

/-- What `reading` gives from the byte `n` on. -/
def startingAt {α : Type} (n : Nat) (reading : Reading α) : Outcome α :=
  StateT.run' (do moveTo text n; reading) 0

def peek : Reading (Option Char) := do return (← behind text (← get)).head?

def bump : Reading (Option Char) := do
  match ← peek text with
  | none => return none
  | some c =>
    moveTo text ((← get) + c.utf8Size)
    return some c

/-- Reads on behind the character `c`, where it comes next. -/
def eat (c : Char) : Reading Bool := do
  if (← peek text) = some c then
    moveTo text ((← get) + c.utf8Size)
    return true
  else return false

def stepBack : Reading Unit := do
  match ← get with
  | 0 => throw .underflow
  | n + 1 => moveTo text n

end

/-- One turn of a loop with the state `σ`. -/
inductive Turn (σ α : Type) where
  /-- the condition of the loop did not hold -/
  | ended (result : α)
  /-- the turn was the last -/
  | left (result : α)
  | again (state : σ)

/-- Turn after turn, for as long as they go on. -/
def loop {σ α : Type} (turn : σ → Reading (Turn σ α)) : (fuel : Nat) → σ → Reading α
  | 0, _ => throw .endless
  | fuel + 1, state => do
    match ← turn state with
    | .ended result => return result
    | .left result => return result
    | .again next => loop turn fuel next

variable (text : List Char)

def blankTurn (_ : Unit) : Reading (Turn Unit Unit) := do
  if (← peek text).any Text.isBlank then
    let _ ← bump text
    return .again ()
  else return .ended ()

def skipBlank (fuel : Nat) : Reading Unit := loop (blankTurn text) fuel ()

def quotedTurn (mark : Char) (value : List Char) : Reading (Turn (List Char) (List Char)) := do
  match ← bump text with
  | none => return .ended value
  | some c =>
    if c = '\\' then return .again (value ++ (← bump text).toList)
    else if c = mark then return .left value
    else return .again (value ++ [c])

/-- The value of a quoted literal whose opening mark has been read. -/
def quoted (fuel : Nat) (mark : Char) : Reading (List Char) := loop (quotedTurn text mark) fuel []

/-- The state holds the pieces that are complete and the one that is not; `hole` reads a group. -/
def templateTurn (hole : Reading (List Char)) (state : List (List Char) × List Char) :
    Reading (Turn (List (List Char) × List Char) (List (List Char))) := do
  match ← bump text with
  | none => return .ended (state.1 ++ [state.2])
  | some c =>
    if c = '`' then return .left (state.1 ++ [state.2])
    else if c = '\\' then return .again (state.1, state.2 ++ (← bump text).toList)
    else if c = '$' then
      if ← eat text '{' then
        stepBack text
        let _ ← hole
        return .again (state.1 ++ [state.2], [])
      else return .again (state.1, state.2 ++ [c])
    else return .again (state.1, state.2 ++ [c])

/-- Reads on behind the literal that `c` begins, or behind `c`. -/
def pass (fuel : Nat) (template : Reading (List (List Char))) (c : Char) : Reading Unit := do
  let _ ← bump text
  if isQuote c then
    let _ ← quoted text fuel c
    return ()
  else if c = '`' then
    let _ ← template
    return ()
  else return ()

/-- The state is the depth; `start` is where the inside of the group begins. -/
def balancedTurn (fuel : Nat) (template : Reading (List (List Char))) (b : Bracket)
    (start depth : Nat) : Reading (Turn Nat (List Char)) := do
  match ← peek text with
  | none => return .ended (← behind text start)
  | some c =>
    if isQuote c ∨ c = '`' then
      pass text fuel template c
      return .again depth
    else if c = b.opener then
      let _ ← bump text
      return .again (depth + 1)
    else if c = b.closer then
      match depth with
      | 0 => throw .underflow
      | 1 =>
        let inside ← between text start (← get)
        let _ ← bump text
        return .left inside
      | depth + 2 =>
        let _ ← bump text
        return .again (depth + 1)
    else
      let _ ← bump text
      return .again depth

mutual

/-- The static pieces of a template literal whose backtick has been read, but for blank ones. -/
def template : (fuel : Nat) → Reading (List (List Char))
  | 0 => throw .endless
  | fuel + 1 => do
    let pieces ← loop (templateTurn text (balanced fuel .brace)) (fuel + 1) ([], [])
    return pieces.filter fun piece => !(Text.trim piece).isEmpty

/-- The inside of the group that begins here, if one does. -/
def balanced : (fuel : Nat) → Bracket → Reading (List Char)
  | 0, _ => throw .endless
  | fuel + 1, b => do
    if ← eat text b.opener then
      loop (balancedTurn text (fuel + 1) (template fuel) b (← get)) (fuel + 1) 1
    else return []

end

variable (fuel : Nat)

def literalTurn (literals : List (List Char)) :
    Reading (Turn (List (List Char)) (List (List Char))) := do
  match ← bump text with
  | none => return .ended literals
  | some c =>
    if isQuote c then
      let value ← quoted text fuel c
      return .again (if value.isEmpty then literals else literals ++ [value])
    else if c = '`' then return .again (literals ++ (← template text fuel))
    else return .again literals

def stringLiterals : Outcome (List (List Char)) :=
  startingAt text 0 (loop (literalTurn text fuel) fuel [])

/-- The state holds the segments that are complete and where the next one begins. -/
def segmentTurn (state : List (List Char) × Nat) :
    Reading (Turn (List (List Char) × Nat) (List (List Char))) := do
  match ← peek text with
  | none => return .ended (state.1 ++ [← behind text state.2])
  | some c =>
    if isQuote c ∨ c = '`' then
      pass text fuel (template text fuel) c
      return .again state
    else
      match [Bracket.brace, .paren, .square].find? (·.opener == c) with
      | some b =>
        let _ ← balanced text fuel b
        return .again state
      | none =>
        if c = ',' then
          let segment ← between text state.2 (← get)
          let _ ← bump text
          return .again (state.1 ++ [segment], ← get)
        else
          let _ ← bump text
          return .again state

/-- What stands between the commas of an object's inside. -/
def segments : Outcome (List (List Char)) :=
  startingAt text 0 (loop (segmentTurn text fuel) fuel ([], 0))

/-- The key of a segment, where it is a bare name with a value or by itself. -/
def key? (segment : List Char) : Outcome (Option (List Char)) := do
  let segment := Text.trim segment
  let n := (Text.find? (!isIdentifierChar ·) segment).getD (Text.size segment)
  if n = 0 then return none
  else
    let rest := Text.trimStart (← behind segment n)
    if rest.isEmpty || rest.head? == some ':' then return some (← before segment n)
    else return none

/-- The bare keys of an object with the inside `text`. -/
def bareKeys : Outcome (List (List Char)) := do (← segments text fuel).filterMapM key?

def keyTurn (keys : List (List Char)) :
    Reading (Turn (List (List Char)) (List (List Char))) := do
  match ← peek text with
  | none => return .ended keys
  | some c =>
    if c = '{' then
      let body ← balanced text fuel .brace
      return .again (keys ++ (← bareKeys body fuel))
    else
      pass text fuel (template text fuel) c
      return .again keys

/-- The bare keys of the objects in a list of arguments. -/
def objectKeys : Outcome (List (List Char)) := startingAt text 0 (loop (keyTurn text fuel) fuel [])

/-- The bytes where `word` stands in `s`, which begins at the byte `n`. A place begins behind the end of
the one before: of that, `taken` characters are still to come. -/
def offsets (word : List Char) : (taken n : Nat) → List Char → List Nat
  | _, _, [] => []
  | taken + 1, n, c :: s => offsets word taken (n + c.utf8Size) s
  | 0, n, c :: s =>
    match Text.after? word (c :: s) with
    | some _ => n :: offsets word (word.length - 1) (n + c.utf8Size) s
    | none => offsets word 0 (n + c.utf8Size) s

/-- Whether no character of a name touches what stands between two bytes. -/
def isApart (isNameChar : Char → Bool) (m n : Nat) : Outcome Bool := do
  let ahead ← before text m
  let rest ← behind text n
  return !ahead.getLast?.any isNameChar && !rest.head?.any isNameChar

/-- What `reading` finds behind the place between two bytes, if no character of a name touches that. -/
def behindPlace (isNameChar : Char → Bool) (reading : Reading (List (List Char))) (m n : Nat) :
    Outcome (List (List Char)) := do
  if ← isApart text isNameChar m n then startingAt text n reading else return []

def behindWord (isNameChar : Char → Bool) (reading : Reading (List (List Char))) (word : String) :
    Outcome (List (List Char)) :=
  (offsets word.toList 0 0 text).flatMapM fun n =>
    behindPlace text isNameChar reading n (n + Text.size word.toList)

/-- All up to white space or the end of the tag, where the cursor stays. -/
def bareValue : Reading (List Char) := do
  let rest ← behind text (← get)
  before rest ((Text.find? (fun c => Text.isBlank c || c == '>') rest).getD (Text.size rest))

def attributeValue : Reading (List (List Char)) := do
  match ← peek text with
  | none => return []
  | some c =>
    if isQuote c then
      let _ ← bump text
      return [← quoted text fuel c]
    else if c = '{' then stringLiterals (← balanced text fuel .brace) fuel
    else return [← bareValue text]

def attributeTexts : Reading (List (List Char)) := do
  skipBlank text fuel
  if ← eat text '=' then
    skipBlank text fuel
    attributeValue text fuel
  else return []

def classAttributes : Outcome (List (List Char)) :=
  ["class", "className"].flatMapM (behindWord text isAttributeChar (attributeTexts text fuel))

def call : Reading (List (List Char)) := do
  skipBlank text fuel
  if (← peek text) = some '(' then objectKeys (← balanced text fuel .paren) fuel
  else return []

def helperKeys : Outcome (List (List Char)) :=
  helpers.flatMapM (behindWord text isIdentifierChar (call text fuel))

/-- The texts that may hold class names. -/
def texts (kind : SourceKind) : Outcome (List (List Char)) :=
  match kind with
  | .markup => classAttributes text fuel
  | .script => return (← stringLiterals text fuel) ++ (← helperKeys text fuel)
  | .other => return (← classAttributes text fuel) ++ (← stringLiterals text fuel)

/-- The class names in a text, each at its first place. -/
def classes (kind : SourceKind) (text : String) : Outcome (List String) := do
  let found ← texts text.toList fuel kind
  return ((found.flatMap Text.words).filter isClassName).eraseDups.map String.ofList

end UtilityCss.Source.Cursor
