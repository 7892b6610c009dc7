import Mathlib.Data.List.Basic

namespace UtilityCss.Text

/-- The number of bytes. -/
def size : List Char → Nat
  | [] => 0
  | c :: s => c.utf8Size + size s

@[simp] theorem size_nil : size [] = 0 := rfl

@[simp] theorem size_cons (c : Char) (s : List Char) : size (c :: s) = c.utf8Size + size s := rfl

@[simp] theorem size_append (a b : List Char) : size (a ++ b) = size a + size b := by
  induction a with
  | nil => simp
  | cons c a ih => simp [ih, Nat.add_assoc]

theorem size_eq_zero_iff {s : List Char} : size s = 0 ↔ s = [] := by
  cases s with
  | nil => simp
  | cons c s => simp [Nat.ne_of_gt c.utf8Size_pos]

theorem utf8ByteSize_ofList (s : List Char) : (String.ofList s).utf8ByteSize = size s := by
  induction s with
  | nil => rfl
  | cons c s ih => simp [String.ofList_cons, ih]

/-- A byte at which a text can be cut, because it is at the start of a character or at the end. -/
def IsBoundary (s : List Char) (n : Nat) : Prop := ∃ a b : List Char, s = a ++ b ∧ size a = n

theorem isBoundary_iff_isValid {s : List Char} {n : Nat} :
    IsBoundary s n ↔ (⟨n⟩ : String.Pos.Raw).IsValid (String.ofList s) := by
  rw [String.Pos.Raw.isValid_ofList]
  constructor
  · rintro ⟨a, b, rfl, rfl⟩
    exact ⟨a.length, by rw [List.take_left, utf8ByteSize_ofList]⟩
  · rintro ⟨i, h⟩
    exact ⟨s.take i, s.drop i, (List.take_append_drop i s).symm,
      (utf8ByteSize_ofList _).symm.trans h.symm⟩

theorem IsBoundary.le_size {s : List Char} {n : Nat} (h : IsBoundary s n) : n ≤ size s := by
  obtain ⟨a, b, rfl, rfl⟩ := h
  rw [size_append]
  exact Nat.le_add_right _ _

/-- What stands before a byte and behind it, where no character is split. -/
def splitAt? : List Char → Nat → Option (List Char × List Char)
  | s, 0 => some ([], s)
  | [], _ + 1 => none
  | c :: s, n + 1 =>
    if c.utf8Size ≤ n + 1 then
      (splitAt? s (n + 1 - c.utf8Size)).map fun (a, b) => (c :: a, b)
    else none

theorem splitAt?_size (a b : List Char) : splitAt? (a ++ b) (size a) = some (a, b) := by
  induction a with
  | nil => rw [List.nil_append, size_nil, splitAt?]
  | cons c a ih =>
    obtain ⟨n, hn⟩ := Nat.exists_eq_add_one_of_ne_zero (Nat.ne_of_gt c.utf8Size_pos)
    have hsize : size (c :: a) = n + size a + 1 := by rw [size_cons, hn]; omega
    rw [hsize, List.cons_append, splitAt?, if_pos (by omega),
      show n + size a + 1 - c.utf8Size = size a by omega, ih]
    rfl

/-- The byte of the first character that `p` holds of. -/
def find? (p : Char → Bool) : List Char → Option Nat
  | [] => none
  | c :: s => if p c then some 0 else (find? p s).map (c.utf8Size + ·)

theorem getD_find? (p : Char → Bool) (s : List Char) :
    (find? p s).getD (size s) = size (s.takeWhile (!p ·)) := by
  induction s with
  | nil => rfl
  | cons c s ih =>
    cases hc : p c with
    | true => simp [find?, hc]
    | false =>
      rw [find?, hc, List.takeWhile_cons_of_pos (by rw [hc]; rfl), size_cons, size_cons, ← ih]
      cases find? p s <;> simp

end UtilityCss.Text
