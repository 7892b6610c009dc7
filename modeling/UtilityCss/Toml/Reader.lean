import UtilityCss.Text.Cut

namespace UtilityCss.Toml

/-- Takes something off the front of a text, or fails. -/
abbrev Reader := StateT (List Char) Option

namespace Reader

def satisfying (p : Char → Bool) : Reader Char
  | [] => none
  | c :: s => if p c then some (c, s) else none

def stretch (p : Char → Bool) : Reader (List Char) := fun s => some (s.takeWhile p, s.dropWhile p)

/-- The first `n` characters. -/
def exactly (n : Nat) : Reader (List Char) := fun s =>
  if s.length < n then none else some (s.take n, s.drop n)

def token (t : String) : Reader Unit := fun s => (Text.after? t.toList s).map ((), ·)

def ending : Reader Unit := fun s => if s.isEmpty then some ((), []) else none

def maybe (r : Reader Unit) : Reader Unit := r <|> pure ()

/-- At most `n` items. -/
def upTo {α : Type} (r : Reader α) : Nat → Reader (List α)
  | 0 => pure []
  | n + 1 => (do return (← r) :: (← upTo r n)) <|> pure []

/-- Items for as long as they come, which none does without a character. -/
def many {α : Type} (r : Reader α) : Reader (List α) := fun s => upTo r s.length s

/-- One item or more, with separators between them. -/
def separated {α : Type} (r : Reader α) (separator : Reader Unit) : Reader (List α) := do
  return (← r) :: (← many (separator *> r))

end Reader

open Reader

def isSpace (c : Char) : Bool := c == ' ' || c == '\t'

/-- Characters that comments and strings may hold as they are: all but control characters, and tabs. -/
def isPlain (c : Char) : Bool := c == '\t' || (' ' ≤ c && c != '\x7f')

def spaces : Reader Unit := (fun _ => ()) <$> stretch isSpace

def newline : Reader Unit := token "\n" <|> token "\r\n"

def comment : Reader Unit := token "#" *> ((fun _ => ()) <$> stretch isPlain)

/-- The end of a line behind an entry or a header. -/
def lineEnd : Reader Unit := spaces *> maybe comment *> (newline <|> ending)

/-- Spaces, comments and line breaks between the items of an array. -/
def gap : Reader Unit :=
  (fun _ => ()) <$> many (((fun _ => ()) <$> satisfying isSpace) <|> newline <|> comment)

def isHexDigit (c : Char) : Bool := Text.isDigit c || ('a' ≤ c && c ≤ 'f') || ('A' ≤ c && c ≤ 'F')

def digitValue (c : Char) : Nat :=
  if Text.isDigit c then c.toNat - '0'.toNat
  else if 'a' ≤ c then c.toNat - 'a'.toNat + 10
  else c.toNat - 'A'.toNat + 10

/-- The number that digits of a base denote. -/
def valueIn (base : Nat) (digits : List Char) : Nat :=
  digits.foldl (fun n c => base * n + digitValue c) 0

/-- The letters behind a backslash, and the characters that they stand for. -/
def escapes : List (Char × Char) :=
  [('b', '\x08'), ('f', '\x0c'), ('n', '\n'), ('r', '\r'), ('t', '\t'), ('\\', '\\'), ('"', '"')]

/-- The character whose code the first `n` characters give. -/
def codePoint? (n : Nat) (s : List Char) : Option (Char × List Char) :=
  let digits := s.take n
  let code := valueIn 16 digits
  if digits.length = n ∧ digits.all isHexDigit ∧ code.isValidChar then
    some (Char.ofNat code, s.drop n)
  else none

/-- What stands behind a backslash. -/
def escape? : List Char → Option (Char × List Char)
  | [] => none
  | 'u' :: s => codePoint? 4 s
  | 'U' :: s => codePoint? 8 s
  | c :: s => (escapes.lookup c).map (·, s)

theorem length_escape? {s : List Char} {r : Char × List Char} (h : escape? s = some r) :
    r.2.length < s.length := by
  unfold escape? at h
  split at h
  · contradiction
  · grind [codePoint?]
  · grind [codePoint?]
  · obtain ⟨e, _, rfl⟩ := Option.map_eq_some_iff.1 h
    simp

/-- A text without the blank lines and spaces at its start. -/
def skipLines : List Char → List Char
  | '\n' :: s => skipLines s
  | '\r' :: '\n' :: s => skipLines s
  | c :: s => if isSpace c then skipLines s else c :: s
  | [] => []

theorem length_skipLines (s : List Char) : (skipLines s).length ≤ s.length := by
  fun_induction skipLines s <;> grind

/-- What is left behind a backslash that joins lines: it stands at the end of one, and takes the blank
start of the next. -/
def joined? (s : List Char) : Option (List Char) :=
  match s.dropWhile isSpace with
  | '\n' :: rest | '\r' :: '\n' :: rest => some (skipLines rest)
  | _ => none

theorem length_joined? {s r : List Char} (h : joined? s = some r) : r.length ≤ s.length := by
  have hs : (s.dropWhile isSpace).length ≤ s.length := (List.dropWhile_suffix _).length_le
  unfold joined? at h
  split at h <;> grind [length_skipLines]

/-- How a string is written: its quotation mark, and whether it takes escapes and line breaks. -/
structure Quoting where
  mark : Char
  escaped : Bool
  onLines : Bool
  deriving DecidableEq, Repr

/-- What a backslash stands for with the text behind it, and what follows that. -/
def Quoting.special? (q : Quoting) (s : List Char) : Option (List Char × List Char) :=
  match if q.onLines then joined? s else none with
  | some rest => some ([], rest)
  | none => (escape? s).map fun (e, rest) => ([e], rest)

theorem Quoting.length_special? {q : Quoting} {s : List Char} {r : List Char × List Char}
    (h : q.special? s = some r) : r.2.length ≤ s.length := by
  unfold special? at h
  split at h
  · next rest hj =>
    cases h
    split at hj
    · exact length_joined? hj
    · contradiction
  · obtain ⟨a, ha, rfl⟩ := Option.map_eq_some_iff.1 h
    exact Nat.le_of_lt (length_escape? ha)

/-- The characters of a string whose start has been read, and what follows. A string on several lines
ends with three marks, of which one or two more may stand before them. -/
def Quoting.inside (q : Quoting) : List Char → Option (List Char × List Char)
  | [] => none
  | c :: s =>
    if c = q.mark then
      let marks := 1 + (s.takeWhile (· == c)).length
      if !q.onLines then some ([], s)
      else if marks < 3 then (inside q s).map fun (text, rest) => (c :: text, rest)
      else
        let kept := min (marks - 3) 2
        some (List.replicate kept c, s.drop (kept + 2))
    else if c = '\\' ∧ q.escaped then
      match _h : q.special? s with
      | some (characters, rest) => (inside q rest).map fun (text, rest) => (characters ++ text, rest)
      | none => none
    else if q.onLines ∧ c = '\r' ∧ s.head? = some '\n' then inside q s
    else if isPlain c ∨ (q.onLines ∧ c = '\n') then
      (inside q s).map fun (text, rest) => (c :: text, rest)
    else none
termination_by s => s.length
decreasing_by
  all_goals try
    have := Quoting.length_special? _h
  all_goals grind

open Reader

/-- A string on one line. -/
def quoted : Reader (List Char) :=
  (token "\"" *> Quoting.inside ⟨'"', true, false⟩) <|>
    (token "'" *> Quoting.inside ⟨'\'', false, false⟩)

/-- A string on several lines; a line break at its very start does not count. -/
def quotedLines : Reader (List Char) :=
  (token "\"\"\"" *> maybe newline *> Quoting.inside ⟨'"', true, true⟩) <|>
    (token "'''" *> maybe newline *> Quoting.inside ⟨'\'', false, true⟩)

end UtilityCss.Toml
