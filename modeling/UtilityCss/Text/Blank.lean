namespace UtilityCss.Text

/-- Closed ranges of code points, ascending and apart. -/
def blankRanges : List (Nat × Nat) :=
  [(0x09, 0x0D), (0x20, 0x20), (0x85, 0x85), (0xA0, 0xA0), (0x1680, 0x1680), (0x2000, 0x200A),
   (0x2028, 0x2029), (0x202F, 0x202F), (0x205F, 0x205F), (0x3000, 0x3000)]

def isBlank (c : Char) : Bool := blankRanges.any fun r => r.1 ≤ c.toNat && c.toNat ≤ r.2

theorem isBlank_eq_false {c : Char} (hlo : 0x20 < c.toNat) (hhi : c.toNat < 0x7B) :
    isBlank c = false := by
  have hranges : ∀ r ∈ blankRanges, r.2 ≤ 0x20 ∨ 0x7B ≤ r.1 := by decide
  rw [isBlank, List.any_eq_false]
  intro r hr
  have hr' := hranges r hr
  simp only [Bool.and_eq_true, decide_eq_true_eq]
  omega

/-- The stretches between the items that `p` holds of, empty ones included. -/
def pieces {α : Type} (p : α → Bool) : List α → List (List α)
  | [] => [[]]
  | a :: s =>
    if p a then [] :: pieces p s
    else match pieces p s with
      | [] => [[a]]
      | w :: ws => (a :: w) :: ws

theorem pieces_ne_nil {α : Type} (p : α → Bool) (s : List α) : pieces p s ≠ [] := by
  induction s with
  | nil => simp [pieces]
  | cons a s _ =>
    unfold pieces
    split
    · simp
    · split <;> simp

/-- The maximal runs of characters that are not blank. -/
def words (s : List Char) : List (List Char) := (pieces isBlank s).filter (!·.isEmpty)

def trimStart (s : List Char) : List Char := s.dropWhile isBlank

def trim (s : List Char) : List Char := (trimStart (trimStart s).reverse).reverse

end UtilityCss.Text
