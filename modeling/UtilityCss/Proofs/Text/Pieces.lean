import Mathlib.Data.List.TakeWhile
import UtilityCss.Text.Blank

namespace UtilityCss.Text

theorem pieces_eq_splitOnP {α : Type} (p : α → Bool) (s : List α) : pieces p s = s.splitOnP p := by
  induction s with
  | nil => rfl
  | cons a s ih =>
    rw [pieces, List.splitOnP_cons_eq_if_modifyHead, ih]
    cases h : s.splitOnP p with
    | nil => exact absurd h (List.splitOnP_ne_nil p s)
    | cons w ws => rfl

theorem eq_false_of_mem_pieces {α : Type} {p : α → Bool} {s w : List α} (h : w ∈ pieces p s) :
    ∀ a ∈ w, p a = false := by
  induction s generalizing w with
  | nil =>
    rw [pieces, List.mem_singleton] at h
    simp [h]
  | cons b s ih =>
    rw [pieces] at h
    split at h
    · rcases List.mem_cons.1 h with rfl | h
      · simp
      · exact ih h
    · rename_i hb
      split at h
      · rename_i hnil
        exact absurd hnil (pieces_ne_nil p s)
      · rename_i v vs hvs
        rw [hvs] at ih
        rcases List.mem_cons.1 h with rfl | h
        · intro a ha
          rcases List.mem_cons.1 ha with rfl | ha
          · simpa using hb
          · exact ih List.mem_cons_self a ha
        · exact ih (List.mem_cons_of_mem v h)

theorem pieces_append {α : Type} {p : α → Bool} {line : List α} {a : α} (rest : List α)
    (hline : ∀ b ∈ line, p b = false) (ha : p a = true) :
    pieces p (line ++ a :: rest) = line :: pieces p rest := by
  induction line with
  | nil => simp [pieces, ha]
  | cons b line ih =>
    have hb := hline b List.mem_cons_self
    have hi := ih fun b' hb' => hline b' (List.mem_cons_of_mem _ hb')
    simp [pieces, hb, hi]

theorem pieces_intercalate {α : Type} [DecidableEq α] {sep : α} {pss : List (List α)}
    (h : ∀ ps ∈ pss, sep ∉ ps) (hne : pss ≠ []) :
    pieces (· == sep) ([sep].intercalate pss) = pss := by
  rw [pieces_eq_splitOnP, ← List.splitOn_eq_splitOnP]
  exact List.splitOn_intercalate sep h hne

theorem takeWhile_append_of_ends {α : Type} {p : α → Bool} {u v : List α} (hu : ∀ a ∈ u, p a)
    (hv : ∀ a ∈ v.head?, p a = false) : (u ++ v).takeWhile p = u := by
  rw [List.takeWhile_append_of_pos hu]
  cases v with
  | nil => simp
  | cons a v => simp [List.takeWhile_cons_of_neg, hv a rfl]

theorem dropWhile_append_of_ends {α : Type} {p : α → Bool} {u v : List α} (hu : ∀ a ∈ u, p a)
    (hv : ∀ a ∈ v.head?, p a = false) : (u ++ v).dropWhile p = v := by
  rw [List.dropWhile_append_of_pos hu]
  cases v with
  | nil => rfl
  | cons a v => simp [List.dropWhile_cons_of_neg, hv a rfl]

theorem forall_head?_dropWhile {α : Type} (p : α → Bool) (s : List α) :
    ∀ a ∈ (s.dropWhile p).head?, p a = false := by
  intro a ha
  have h := List.head?_dropWhile_not p s
  rwa [Option.mem_def.1 ha] at h

theorem trimStart_eq_iff {s t : List Char} : trimStart s = t ↔
    (∃ gap : List Char, (∀ c ∈ gap, isBlank c) ∧ s = gap ++ t) ∧
      ∀ c ∈ t.head?, isBlank c = false := by
  constructor
  · rintro rfl
    exact ⟨⟨s.takeWhile isBlank, fun _ => List.mem_takeWhile_imp,
      List.takeWhile_append_dropWhile.symm⟩, forall_head?_dropWhile _ s⟩
  · rintro ⟨⟨gap, hgap, rfl⟩, ht⟩
    exact dropWhile_append_of_ends hgap ht

theorem trimStart_eq_nil_iff {s : List Char} : trimStart s = [] ↔ ∀ c ∈ s, isBlank c :=
  List.dropWhile_eq_nil_iff

theorem exists_trimStart_eq (s : List Char) :
    ∃ gap : List Char, (∀ c ∈ gap, isBlank c) ∧ trimStart s = trim s ++ gap := by
  obtain ⟨⟨gap, hgap, htext⟩, -⟩ := trimStart_eq_iff.1 (Eq.refl (trimStart (trimStart s).reverse))
  refine ⟨gap.reverse, fun c hc => hgap c (List.mem_reverse.1 hc), ?_⟩
  rw [trim, ← List.reverse_append, ← htext, List.reverse_reverse]

theorem trim_eq_nil_iff {s : List Char} : trim s = [] ↔ ∀ c ∈ s, isBlank c := by
  rw [← trimStart_eq_nil_iff]
  constructor
  · intro h
    obtain ⟨gap, hgap, hstart⟩ := exists_trimStart_eq s
    rw [h, List.nil_append] at hstart
    cases gap with
    | nil => exact hstart
    | cons c gap =>
      have hfirst := (trimStart_eq_iff.1 hstart).2 c rfl
      rw [hgap c List.mem_cons_self] at hfirst
      cases hfirst
  · intro h
    rw [trim, h]
    rfl

end UtilityCss.Text
