import UtilityCss.Source.Frame

namespace UtilityCss.Source

/-- The value of a quoted literal whose opening mark has been read, and the text behind it. A backslash
stands for the character after it; a literal that is not closed runs to the end. -/
def quoted (mark : Char) : List Char → List Char × List Char
  | [] => ([], [])
  | '\\' :: c :: s => let (value, rest) := quoted mark s; (c :: value, rest)
  | c :: s =>
    if c = '\\' then ([], [])
    else if c = mark then ([], s)
    else let (value, rest) := quoted mark s; (c :: value, rest)

theorem length_quoted (mark : Char) (s : List Char) : (quoted mark s).2.length ≤ s.length := by
  fun_induction quoted mark s <;> simp_all <;> omega

/-- A character more at the front of the first piece. -/
def glue (c : Char) : List (List Char) → List (List Char)
  | [] => [[c]]
  | piece :: pieces => (c :: piece) :: pieces

/-- The static pieces of a template literal whose backtick has been read, and the text behind it. -/
def templatePieces : List Char → List (List Char) × List Char
  | [] => ([[]], [])
  | '`' :: s => ([[]], s)
  | '\\' :: c :: s => let (pieces, rest) := templatePieces s; (glue c pieces, rest)
  | ['\\'] => ([[]], [])
  | '$' :: '{' :: s =>
    let (pieces, rest) := templatePieces (group .brace s).2
    ([] :: pieces, rest)
  | c :: s => let (pieces, rest) := templatePieces s; (glue c pieces, rest)
termination_by s => s.length
decreasing_by
  all_goals simp only [List.length_cons]
  all_goals first
    | omega
    | exact Nat.lt_of_le_of_lt (length_enclosed _ _) (by omega)

theorem length_templatePieces (s : List Char) : (templatePieces s).2.length ≤ s.length := by
  fun_induction templatePieces s
  case case5 s _ _ h ih =>
    have := length_enclosed [.group .brace] s
    simp_all [group]
    omega
  all_goals simp_all
  all_goals omega

inductive Item where
  | char (c : Char)
  | quoted (value : List Char)
  | template (pieces : List (List Char))
  | group (b : Bracket) (inside : List Char)
  deriving DecidableEq, Repr

/-- The item that starts with `c`, and the text behind it. Pieces of a template that are blank
throughout do not count. -/
def item (brackets : List Bracket) (c : Char) (s : List Char) : Item × List Char :=
  if isQuote c then let (value, rest) := quoted c s; (.quoted value, rest)
  else if c = '`' then
    let (pieces, rest) := templatePieces s
    (.template (pieces.filter fun piece => !piece.all Text.isBlank), rest)
  else match brackets.find? (·.opener == c) with
    | some b => let (inside, rest) := group b s; (.group b inside, rest)
    | none => (.char c, s)

theorem length_item (brackets : List Bracket) (c : Char) (s : List Char) :
    (item brackets c s).2.length ≤ s.length := by
  unfold item
  split
  · exact length_quoted c s
  · split
    · exact length_templatePieces s
    · split
      · exact length_enclosed _ s
      · exact Nat.le_refl _

/-- The items of a text. -/
def items (brackets : List Bracket) : List Char → List Item
  | [] => []
  | c :: s => (item brackets c s).1 :: items brackets (item brackets c s).2
termination_by s => s.length
decreasing_by exact Nat.lt_succ_of_le (length_item brackets c s)

/-- The string literals of an item: the value of a quoted one, and the pieces of a template. -/
def Item.literals : Item → List (List Char)
  | .quoted value => if value.isEmpty then [] else [value]
  | .template pieces => pieces
  | .char _ | .group _ _ => []

def stringLiterals (s : List Char) : List (List Char) := (items [] s).flatMap Item.literals

end UtilityCss.Source
