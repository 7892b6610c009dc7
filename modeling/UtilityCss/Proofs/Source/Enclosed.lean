import Mathlib.Tactic.SplitIfs
import UtilityCss.Source.Item

namespace UtilityCss.Source

theorem Frame.step_append (f : Frame) (inner outer : List Frame) (c : Char) (next : Option Char) :
    f.step (inner ++ outer) c next = f.step inner c next ++ outer := by
  cases f with
  | escaped => rfl
  | hole => rfl
  | quote mark | template | group b =>
    simp only [Frame.step]
    split_ifs <;> rfl

theorem enclosed_cons_of_step {f g : Frame} {outer fs : List Frame} {c : Char} {s : List Char}
    (h : f.step outer c s.head? = g :: fs) :
    enclosed (f :: outer) (c :: s) = (c :: (enclosed (g :: fs) s).1, (enclosed (g :: fs) s).2) := by
  rw [enclosed, h]

theorem enclosed_cons_of_step_nil {f : Frame} {outer : List Frame} {c : Char} {s : List Char}
    (h : f.step outer c s.head? = []) : enclosed (f :: outer) (c :: s) = ([], s) := by
  rw [enclosed, h]

theorem enclosed_append {inner : List Frame} (hinner : inner ≠ []) (s : List Char) :
    ∃ u : List Char, s = u ++ (enclosed inner s).2 ∧ ∀ f outer,
      enclosed (inner ++ f :: outer) s = (u ++ (enclosed (f :: outer) (enclosed inner s).2).1,
        (enclosed (f :: outer) (enclosed inner s).2).2) := by
  fun_induction enclosed inner s with
  | case1 => exact absurd rfl hinner
  | case2 => exact ⟨[], rfl, fun f outer => rfl⟩
  | case3 g gs c s hstep =>
    refine ⟨[c], rfl, fun f outer => ?_⟩
    rw [List.cons_append, enclosed, Frame.step_append, hstep]
    rfl
  | case4 g gs c s h hs hstep inside rest henclosed ih =>
    obtain ⟨u, htext, hu⟩ := ih (List.cons_ne_nil _ _)
    rw [henclosed] at htext hu
    refine ⟨c :: u, congrArg (c :: ·) htext, fun f outer => ?_⟩
    rw [List.cons_append, enclosed, Frame.step_append, hstep]
    simp only [List.cons_append] at hu ⊢
    rw [hu f outer]

theorem suffix_enclosed (fs : List Frame) (s : List Char) : (enclosed fs s).2 <:+ s := by
  cases fs with
  | nil => simp [enclosed]
  | cons f fs =>
    obtain ⟨u, htext, -⟩ := enclosed_append (List.cons_ne_nil f fs) s
    exact ⟨u, htext.symm⟩

theorem length_inside (fs : List Frame) (s : List Char) :
    (enclosed fs s).1.length ≤ s.length := by
  fun_induction enclosed fs s <;> simp_all

theorem snd_enclosed_quote (mark : Char) (s : List Char) :
    (enclosed [.quote mark] s).2 = (quoted mark s).2 := by
  fun_induction quoted mark s with
  | case1 => rfl
  | case2 c s value rest h ih =>
    rw [h] at ih
    exact ih
  | case3 s hs =>
    cases s with
    | nil => rfl
    | cons d s => exact absurd rfl (hs d s rfl)
  | case4 s hs hmark => simp [enclosed, Frame.step, hmark]
  | case5 c s hs hslash hmark value rest h ih =>
    rw [h] at ih
    simpa [enclosed, Frame.step, hslash, hmark] using ih

theorem snd_enclosed_template (s : List Char) :
    (enclosed [.template] s).2 = (templatePieces s).2 := by
  fun_induction templatePieces s with
  | case1 => rfl
  | case2 s => rfl
  | case3 c s pieces rest h ih =>
    rw [h] at ih
    exact ih
  | case4 => rfl
  | case5 s pieces rest h ih =>
    rw [h] at ih
    obtain ⟨u, -, hu⟩ := enclosed_append (List.cons_ne_nil (.group .brace) []) s
    exact (congrArg Prod.snd (hu .template [])).trans ih
  | case6 c s hbacktick hslash hlast hhole pieces rest h ih =>
    rw [h] at ih
    have hdollar : ¬(c = '$' ∧ s.head? = some '{') := by
      rintro ⟨rfl, hs⟩
      obtain ⟨s, rfl⟩ := List.head?_eq_some_iff.1 hs
      exact hhole s rfl rfl
    have hslash : c ≠ '\\' := by
      rintro rfl
      cases s with
      | nil => exact hlast rfl rfl
      | cons d s => exact hslash d s rfl rfl
    have hstep : Frame.template.step [] c s.head? = [.template] := by
      rw [Frame.step, if_neg hslash, if_neg hbacktick, if_neg hdollar]
    rw [enclosed_cons_of_step hstep]
    exact ih

theorem suffix_quoted (mark : Char) (s : List Char) : (quoted mark s).2 <:+ s := by
  rw [← snd_enclosed_quote]
  exact suffix_enclosed _ s

theorem suffix_templatePieces (s : List Char) : (templatePieces s).2 <:+ s := by
  rw [← snd_enclosed_template]
  exact suffix_enclosed _ s

theorem suffix_item (brackets : List Bracket) (c : Char) (s : List Char) :
    (item brackets c s).2 <:+ s := by
  unfold item
  split
  · exact suffix_quoted c s
  · split
    · exact suffix_templatePieces s
    · split
      · exact suffix_enclosed _ s
      · exact List.suffix_rfl

/-- A literal in a group, whatever else is open around it. -/
theorem enclosed_literal {c : Char} (hc : isQuote c ∨ c = '`') (s : List Char) :
    ∃ u : List Char, s = u ++ (item [] c s).2 ∧ ∀ b outer,
      enclosed (.group b :: outer) (c :: s) =
        (c :: (u ++ (enclosed (.group b :: outer) (item [] c s).2).1),
          (enclosed (.group b :: outer) (item [] c s).2).2) := by
  have hopen : ∃ f, (enclosed [f] s).2 = (item [] c s).2 ∧ ∀ b outer,
      (Frame.group b).step outer c s.head? = f :: .group b :: outer := by
    by_cases hquote : isQuote c
    · exact ⟨.quote c, by rw [snd_enclosed_quote, item, if_pos hquote],
        fun b outer => if_pos hquote⟩
    · have hbacktick : c = '`' := hc.resolve_left hquote
      exact ⟨.template, by rw [snd_enclosed_template, item, if_neg hquote, if_pos hbacktick],
        fun b outer => by rw [Frame.step, if_neg hquote, if_pos hbacktick]⟩
  obtain ⟨f, hrest, hstep⟩ := hopen
  obtain ⟨u, htext, hu⟩ := enclosed_append (List.cons_ne_nil f []) s
  rw [hrest] at htext hu
  refine ⟨u, htext, fun b outer => ?_⟩
  have hu := hu (.group b) outer
  rw [List.singleton_append] at hu
  rw [enclosed_cons_of_step (hstep b outer), hu]

end UtilityCss.Source
