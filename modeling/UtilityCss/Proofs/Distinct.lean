import Mathlib.Data.List.Nodup
import Mathlib.Data.List.Induction

namespace UtilityCss.Distinct

variable {α β : Type} [BEq α] [LawfulBEq α] [BEq β] [LawfulBEq β]

theorem eraseDups_snoc (as : List α) (a : α) :
    (as ++ [a]).eraseDups = if a ∈ as then as.eraseDups else as.eraseDups ++ [a] := by
  rw [List.eraseDups_append]
  by_cases h : a ∈ as <;> simp [List.removeAll, List.eraseDups_cons, h]

theorem nodup_eraseDups (as : List α) : as.eraseDups.Nodup := by
  induction as using List.reverseRecOn with
  | nil => simp
  | append_singleton as a ih =>
    rw [eraseDups_snoc]
    split
    · exact ih
    · rename_i h
      exact ih.append (List.nodup_singleton a) (by simpa using h)

theorem eraseDups_of_nodup {as : List α} (h : as.Nodup) : as.eraseDups = as := by
  induction as using List.reverseRecOn with
  | nil => rfl
  | append_singleton as a ih =>
    obtain ⟨has, -, hne⟩ := List.nodup_append.1 h
    have ha : a ∉ as := fun hm => hne a hm a (by simp) rfl
    rw [eraseDups_snoc, if_neg ha, ih has]

theorem filter_eraseDups (p : α → Bool) (as : List α) :
    as.eraseDups.filter p = (as.filter p).eraseDups := by
  induction as using List.reverseRecOn with
  | nil => rfl
  | append_singleton as a ih =>
    rw [eraseDups_snoc, List.filter_append]
    by_cases hp : p a <;> by_cases ha : a ∈ as <;> simp [eraseDups_snoc, hp, ha, ih]

/-- Items come in the order of their first places. -/
theorem pairwise_idxOf_eraseDups (as : List α) :
    as.eraseDups.Pairwise fun a b => as.idxOf a < as.idxOf b := by
  induction as using List.reverseRecOn with
  | nil => simp
  | append_singleton as a ih =>
    have hkeep : ∀ b ∈ as.eraseDups, (as ++ [a]).idxOf b = as.idxOf b :=
      fun b hb => List.idxOf_append_of_mem (List.mem_eraseDups.1 hb)
    have hold : as.eraseDups.Pairwise fun b c => (as ++ [a]).idxOf b < (as ++ [a]).idxOf c := by
      refine ih.imp_of_mem fun {b c} hb hc hlt => ?_
      rwa [hkeep b hb, hkeep c hc]
    rw [eraseDups_snoc]
    split
    · exact hold
    · rename_i ha
      refine List.pairwise_append.2 ⟨hold, List.pairwise_singleton _ _, ?_⟩
      intro b hb c hc
      have hlt := List.idxOf_lt_length_iff.2 (List.mem_eraseDups.1 hb)
      rw [List.mem_singleton.1 hc, hkeep b hb, List.idxOf_append_of_notMem ha]
      omega

/-- One more item leaves the others as they are if it is there before, or comes next anyway. -/
theorem eraseDups_insert_iff {as bs : List α} {a : α} :
    (as ++ a :: bs).eraseDups = (as ++ bs).eraseDups ↔
      a ∈ as ∨ bs.find? (fun b => !as.elem b) = some a := by
  by_cases ha : a ∈ as
  · simp [List.eraseDups_append, List.removeAll, ha]
  · rw [List.eraseDups_append, List.eraseDups_append, List.append_cancel_left_eq, List.removeAll,
      List.removeAll, List.filter_cons_of_pos (by simpa using ha), ← List.head?_filter,
      or_iff_right ha]
    cases bs.filter fun b => !as.elem b with
    | nil => simp [List.eraseDups_cons]
    | cons b bs =>
      rw [List.head?_cons, Option.some_inj, List.eraseDups_cons, List.eraseDups_cons]
      constructor
      · intro h
        exact (List.cons.inj h).1.symm
      · rintro rfl
        simp

/-- What a function makes of repetitions is a repetition. -/
theorem filterMap_eraseDups (f : α → Option β) (as : List α) :
    (as.eraseDups.filterMap f).eraseDups = (as.filterMap f).eraseDups := by
  induction as using List.reverseRecOn with
  | nil => rfl
  | append_singleton as a ih =>
    rw [eraseDups_snoc, List.filterMap_append]
    cases hf : f a with
    | none => by_cases ha : a ∈ as <;> simp [hf, ha, ih]
    | some b =>
      have hb : b ∈ as.eraseDups.filterMap f ↔ b ∈ as.filterMap f := by simp
      by_cases ha : a ∈ as
      · have hm : b ∈ as.filterMap f := List.mem_filterMap.2 ⟨a, ha, hf⟩
        simp [hf, ha, ih, eraseDups_snoc, hm]
      · simp only [if_neg ha, List.filterMap_append, List.filterMap_cons, hf, List.filterMap_nil,
          eraseDups_snoc, hb, ih]

end UtilityCss.Distinct
