namespace UtilityCss.Text

/-- What stands before and after the first `sep`. -/
def cut (sep : Char) : List Char → Option (List Char × List Char)
  | [] => none
  | c :: s => if c = sep then some ([], s) else (cut sep s).map fun (a, b) => (c :: a, b)

theorem eq_of_cut {sep : Char} {s a b : List Char} (h : cut sep s = some (a, b)) :
    s = a ++ sep :: b := by
  induction s generalizing a with
  | nil => simp [cut] at h
  | cons c s ih =>
    unfold cut at h
    split at h
    · simp_all
    · obtain ⟨⟨a', b'⟩, hc, he⟩ := Option.map_eq_some_iff.1 h
      cases he
      rw [ih hc]
      rfl

theorem not_mem_of_cut {sep : Char} {s a b : List Char} (h : cut sep s = some (a, b)) :
    sep ∉ a := by
  induction s generalizing a with
  | nil => simp [cut] at h
  | cons c s ih =>
    unfold cut at h
    split at h
    · simp_all
    · obtain ⟨⟨a', b'⟩, hc, he⟩ := Option.map_eq_some_iff.1 h
      cases he
      simp only [List.mem_cons, not_or]
      exact ⟨fun e => by simp_all, ih hc⟩

theorem cut_append {sep : Char} {a : List Char} (b : List Char) (h : sep ∉ a) :
    cut sep (a ++ sep :: b) = some (a, b) := by
  induction a with
  | nil => simp [cut]
  | cons c a ih =>
    simp only [List.mem_cons, not_or] at h
    simp [cut, Ne.symm h.1, ih h.2]

/-- `cut` on strings. -/
def cutAt (sep : Char) (s : String) : Option (String × String) :=
  (cut sep s.toList).map fun (a, b) => (String.ofList a, String.ofList b)

/-- What stands before the last `sep`, and what follows it. -/
def cutLast (sep : Char) (s : List Char) : Option (List Char × List Char) :=
  (cut sep s.reverse).map fun (a, b) => (b.reverse, a.reverse)

/-- The rest of `s` behind `start`. -/
def after? : (start s : List Char) → Option (List Char)
  | [], s => some s
  | _ :: _, [] => none
  | a :: start, c :: s => if a = c then after? start s else none

theorem after?_eq_some_iff {start s rest : List Char} :
    after? start s = some rest ↔ s = start ++ rest := by
  fun_induction after? start s with
  | case1 s => simp
  | case2 => simp
  | case3 start c s ih => simp [ih]
  | case4 a start c s h => simp [Ne.symm h]

/-- `s` without `start` before it, where it starts with that. -/
def dropStart (start s : String) : String :=
  ((after? start.toList s.toList).map String.ofList).getD s

def isDigit (c : Char) : Bool := '0' ≤ c && c ≤ '9'

def isLetter (c : Char) : Bool := ('a' ≤ c && c ≤ 'z') || ('A' ≤ c && c ≤ 'Z')

/-- ASCII letters become small, all else stays. -/
def lowerAscii (s : String) : String :=
  String.ofList (s.toList.map fun c => if 'A' ≤ c && c ≤ 'Z' then Char.ofNat (c.toNat + 32) else c)

/-- A hyphen becomes a space. -/
def spaced (s : String) : String :=
  String.ofList (s.toList.map fun c => if c = '-' then ' ' else c)

/-- Whether the UTF-8 bytes of `a` come no later than those of `b`; for texts this is the order by
code points. -/
def notAfter (a b : String) : Bool := !decide (b < a)

theorem cut_eq_none_iff {sep : Char} {s : List Char} : cut sep s = none ↔ sep ∉ s := by
  induction s with
  | nil => simp [cut]
  | cons c s ih =>
    by_cases hc : c = sep
    · simp [cut, hc]
    · simp [cut, hc, ih, Ne.symm hc]

theorem cutAt_eq_none_iff {sep : Char} {s : String} : cutAt sep s = none ↔ sep ∉ s.toList := by
  rw [cutAt, Option.map_eq_none_iff, cut_eq_none_iff]

theorem cutAt_eq_some_iff {sep : Char} {s first last : String} :
    cutAt sep s = some (first, last) ↔
      sep ∉ first.toList ∧ s.toList = first.toList ++ sep :: last.toList := by
  rw [cutAt, Option.map_eq_some_iff]
  constructor
  · rintro ⟨⟨a, b⟩, hcut, he⟩
    obtain ⟨rfl, rfl⟩ := Prod.mk.injEq .. ▸ he
    rw [String.toList_ofList, String.toList_ofList]
    exact ⟨not_mem_of_cut hcut, eq_of_cut hcut⟩
  · rintro ⟨hfree, htext⟩
    refine ⟨(first.toList, last.toList), ?_, by simp⟩
    rw [htext]
    exact cut_append last.toList hfree

/-- The separator that was put in is where the text is cut. -/
theorem cutAt_append {sep : Char} {first : String} (h : sep ∉ first.toList) (last : String) :
    cutAt sep (first ++ String.ofList [sep] ++ last) = some (first, last) := by
  rw [cutAt_eq_some_iff]
  exact ⟨h, by simp⟩

end UtilityCss.Text
