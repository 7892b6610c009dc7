import UtilityCss.ClassName
import Mathlib.Data.List.Nodup

namespace UtilityCss

namespace MediaQuery

theorem ofName?_name (q : MediaQuery) : ofName? q.name = some q := by
  rcases q with b | f
  · cases b <;> rfl
  · cases f <;> rfl

theorem name_of_ofName? {key : String} {q : MediaQuery} (h : ofName? key = some q) :
    q.name = key := by
  simpa using List.find?_some h

theorem name_injective : Function.Injective name := by
  intro q q' h
  have hq := ofName?_name q
  rw [h, ofName?_name] at hq
  exact (Option.some.inj hq).symm

theorem mem_all (q : MediaQuery) : q ∈ all := by
  rcases q with b | f
  · cases b <;> simp [all, Breakpoint.all]
  · cases f <;> simp [all, MediaFeature.all]

end MediaQuery

theorem Modifier.name_of_ofName? {m : String} {q : MediaQuery} (h : ofName? m = some (.media q)) :
    q.name = m := by
  unfold ofName? at h
  cases hp : PseudoClass.ofName? m with
  | some p => simp [hp] at h
  | none => exact MediaQuery.name_of_ofName? (by simpa [hp] using h)

namespace ClassName

/-- A modifier is used up once it was read, so no media query comes twice. -/
theorem media_ofSegments (used segments : List String) :
    (ofSegments used segments).media.Nodup ∧
      ∀ q ∈ (ofSegments used segments).media, q.name ∉ used := by
  fun_induction ofSegments used segments with
  | case1 => simp
  | case2 => simp
  | case3 used modifier rest _ hm ih => exact ih
  | case4 used modifier rest _ hm ih =>
    obtain ⟨hn, hu⟩ := ih
    have hused : ∀ q ∈ (ofSegments (modifier :: used) rest).media, q.name ∉ used :=
      fun q hq hmem => hu q hq (List.mem_cons_of_mem _ hmem)
    unfold under
    split
    · exact ⟨hn, hused⟩
    · rename_i q hq
      have hname : q.name = modifier := Modifier.name_of_ofName? hq
      refine ⟨List.nodup_cons.2 ⟨fun hmem => hu q hmem ?_, hn⟩, ?_⟩
      · rw [hname]
        exact List.mem_cons_self
      · rintro q' (_ | ⟨_, hq'⟩)
        · exact hname ▸ hm
        · exact hused q' hq'
    · exact ⟨hn, hused⟩

/-- What stands in front of a class in its selector comes from pseudo-classes, and begins like the class
itself. -/
theorem ancestors_ofSegments (used segments : List String) :
    ((ofSegments used segments).ancestors ++ ".").toList.head? = some '.' ∧
      ∀ c ∈ (ofSegments used segments).ancestors.toList, ∃ p : PseudoClass, c ∈ p.ancestor.toList := by
  fun_induction ofSegments used segments with
  | case1 => simp
  | case2 => simp
  | case3 used modifier rest _ hm ih => exact ih
  | case4 used modifier rest _ hm ih =>
    unfold under
    split
    · rename_i p hp
      obtain ⟨hhead, hmem⟩ := ih
      constructor
      · rw [String.append_assoc, String.toList_append, List.head?_append, hhead]
        cases p <;> rfl
      · intro c hc
        rcases List.mem_append.1 (String.toList_append ▸ hc) with hc | hc
        · exact ⟨p, hc⟩
        · exact hmem c hc
    · exact ih
    · exact ih

/-- What follows the class in its selector comes from pseudo-classes too. -/
theorem states_ofSegments (used segments : List String) :
    ∀ c ∈ (ofSegments used segments).states.toList, ∃ p : PseudoClass, c ∈ p.state.toList := by
  fun_induction ofSegments used segments with
  | case1 => simp
  | case2 => simp
  | case3 used modifier rest _ hm ih => exact ih
  | case4 used modifier rest _ hm ih =>
    unfold under
    split
    · rename_i p hp
      intro c hc
      rcases List.mem_append.1 (String.toList_append ▸ hc) with hc | hc
      · exact ⟨p, hc⟩
      · exact ih c hc
    · exact ih
    · exact ih

theorem nodup_media (name : String) : (ofString name).media.Nodup := (media_ofSegments [] _).1

/-- Escaping adds backslashes and nothing else. -/
theorem mem_escapeChars {c : Char} {s : List Char} (h : c ∈ escapeChars s) : c ∈ s ∨ c = '\\' := by
  induction s with
  | nil => simp [escapeChars] at h
  | cons a s ih =>
    unfold escapeChars at h
    split at h <;> simp only [List.mem_cons] at h ⊢ <;> grind

end ClassName
end UtilityCss
