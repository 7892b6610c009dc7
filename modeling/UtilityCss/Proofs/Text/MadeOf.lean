namespace UtilityCss

/-- One character or more, all with the property. -/
def madeOf (p : Char → Bool) (s : String) : Bool := !s.toList.isEmpty && s.toList.all p

section madeOf
variable {p : Char → Bool} {s t : String}

theorem madeOf_iff : madeOf p s ↔ s.toList ≠ [] ∧ ∀ c ∈ s.toList, p c := by
  simp [madeOf]

/-- A literal stands for the text of its characters, so `rfl` proves the hypothesis of one. -/
theorem madeOf_literal {l : List Char} (h : (!l.isEmpty && l.all p) = true) :
    madeOf p (String.ofList l) := by
  simpa [madeOf] using h

theorem madeOf_ofList {l : List Char} (h : l ≠ []) (hp : ∀ c ∈ l, p c) :
    madeOf p (String.ofList l) := by
  rw [madeOf_iff, String.toList_ofList]
  exact ⟨h, hp⟩

theorem madeOf_append_of_all (hs : madeOf p s) (ht : ∀ c ∈ t.toList, p c) : madeOf p (s ++ t) := by
  rw [madeOf_iff] at *
  rw [String.toList_append]
  refine ⟨by simp [hs.1], ?_⟩
  intro c hc
  rcases List.mem_append.1 hc with hc | hc
  · exact hs.2 c hc
  · exact ht c hc

theorem madeOf_append (hs : madeOf p s) (ht : madeOf p t) : madeOf p (s ++ t) :=
  madeOf_append_of_all hs (madeOf_iff.1 ht).2

theorem madeOf_mono {q : Char → Bool} (hpq : ∀ c, p c → q c) (h : madeOf p s) : madeOf q s := by
  rw [madeOf_iff] at *
  exact ⟨h.1, fun c hc => hpq c (h.2 c hc)⟩

end madeOf

/-- The bytes of a character beyond ASCII start with one beyond ASCII. -/
theorem utf8EncodeChar_of_ascii {c : Char} (h : ∀ b ∈ String.utf8EncodeChar c, b.toNat < 0x80) :
    String.utf8EncodeChar c = [UInt8.ofNat c.toNat] ∧ c.toNat < 0x80 := by
  have hc : c.toNat < 0x80 := by
    refine Decidable.byContradiction fun hge => ?_
    have hlong : ¬ c.val.toNat ≤ 0x7F := fun hle => hge (Nat.lt_succ_of_le hle)
    simp only [String.utf8EncodeChar, if_neg hlong] at h
    -- Whatever their number, the first byte has its high bit set.
    repeat' split at h
    all_goals
      have hb := h _ List.mem_cons_self
      rw [UInt8.toNat_ofNat'] at hb
      omega
  exact ⟨if_pos (Nat.le_of_lt_succ hc), hc⟩

/-- `madeOf` by the codes of an ASCII text, which are its bytes. -/
def bytesMadeOf (p : Nat → Bool) (s : String) : Bool :=
  let bytes := s.toByteArray.data.toList
  !bytes.isEmpty && bytes.all fun b => Nat.blt b.toNat 0x80 && p b.toNat

theorem madeOf_of_bytesMadeOf {p : Nat → Bool} {q : Char → Bool} (hpq : ∀ c, p c.toNat → q c)
    {s : String} (h : bytesMadeOf p s) : madeOf q s := by
  have hb : s.toByteArray.data.toList = s.toList.flatMap String.utf8EncodeChar := by
    rw [← String.utf8Encode_toList, List.utf8Encode, List.toList_data_toByteArray]
  rw [bytesMadeOf, hb] at h
  simp only [Bool.and_eq_true, Bool.not_eq_true', List.isEmpty_eq_false_iff, List.all_eq_true,
    Nat.blt_eq] at h
  rw [madeOf_iff]
  refine ⟨fun hs => h.1 (by rw [hs]; rfl), ?_⟩
  intro c hc
  have hall : ∀ b ∈ String.utf8EncodeChar c, b.toNat < 0x80 ∧ p b.toNat := by
    intro b hb
    exact h.2 b (List.mem_flatMap.2 ⟨c, hc, hb⟩)
  obtain ⟨he, hlt⟩ := utf8EncodeChar_of_ascii fun b hb => (hall b hb).1
  have hp := (hall (UInt8.ofNat c.toNat) (by simp [he])).2
  rw [UInt8.toNat_ofNat', Nat.mod_eq_of_lt (by omega)] at hp
  exact hpq c hp

end UtilityCss
