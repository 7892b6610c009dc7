import UtilityCss.Proofs.Sheet.Refinement
import UtilityCss.Proofs.Sheet.Shown
import UtilityCss.Proofs.Text.Joined
import UtilityCss.Proofs.Utility.Tidy

namespace UtilityCss
open Text

theorem no_feed_of_madeOf {s : String} (h : madeOf isValueChar s) : '\n' ∉ s.toList := by
  intro hm
  exact absurd ((madeOf_iff.1 h).2 '\n' hm) (by decide)

theorem Declaration.Tidy.line {d : Declaration} (h : d.Tidy) :
    Line (d.property ++ ": " ++ d.value ++ ";") := by
  have hp : Line d.property := by
    constructor
    · exact no_feed_of_madeOf (madeOf_mono (fun _ => isValueChar_of_isPropertyChar) h.1)
    · obtain ⟨hne, hall⟩ := madeOf_iff.1 h.1
      obtain ⟨c, l, hl⟩ := List.exists_cons_of_ne_nil hne
      refine ⟨c, by rw [hl]; rfl, ?_⟩
      rintro rfl
      exact absurd (hall ' ' (by rw [hl]; exact List.mem_cons_self)) (by decide)
  exact ((hp.append (notMem_literal rfl)).append (no_feed_of_madeOf h.2)).append (notMem_literal rfl)

theorem line_atRule (q : MediaQuery) : Line q.atRule := by
  have hall : ∀ q ∈ MediaQuery.all, '\n' ∉ q.atRule.toList ∧ q.atRule.toList.head? = some '@' := by
    decide +kernel
  obtain ⟨hfeed, hhead⟩ := hall q (MediaQuery.mem_all q)
  exact ⟨hfeed, '@', hhead, by decide⟩

namespace ClassName

theorem no_feed_escape {name : String} (h : '\n' ∉ name.toList) : '\n' ∉ (escape name).toList := by
  rw [escape, String.toList_ofList]
  intro hm
  rcases mem_escapeChars hm with hm | hm
  · exact h hm
  · exact absurd hm (by decide)

theorem no_feed_ancestor (p : PseudoClass) : '\n' ∉ p.ancestor.toList := by
  cases p <;> exact notMem_literal rfl

theorem no_feed_state (p : PseudoClass) : '\n' ∉ p.state.toList := by
  cases p <;> exact notMem_literal rfl

/-- What modifiers add to a selector stays within the line, and in front it begins with a point. -/
theorem line_ofSegments (used segments : List String) :
    Line ((ofSegments used segments).ancestors ++ ".") ∧
      '\n' ∉ (ofSegments used segments).states.toList := by
  obtain ⟨hhead, hancestors⟩ := ancestors_ofSegments used segments
  refine ⟨⟨?_, '.', hhead, by decide⟩, ?_⟩
  · rw [String.toList_append, List.mem_append, not_or]
    refine ⟨fun hm => ?_, notMem_literal rfl⟩
    obtain ⟨p, hp⟩ := hancestors _ hm
    exact no_feed_ancestor p hp
  · intro hm
    obtain ⟨p, hp⟩ := states_ofSegments used segments _ hm
    exact no_feed_state p hp

theorem line_selector {name : String} (h : '\n' ∉ name.toList) (target : Target) :
    Line ((ofString name).selector name target.selector) := by
  obtain ⟨hancestors, hstates⟩ :=
    line_ofSegments [] ((pieces (· == ':') name.toList).map String.ofList)
  have htarget : '\n' ∉ target.selector.toList := by
    cases target <;> exact notMem_literal rfl
  exact ((hancestors.append (no_feed_escape h)).append hstates).append htarget

end ClassName

section layout
variable {level : Nat}

theorem joins_opening {head : String} (h : Line head) :
    Joins (Layout.opening ⟨false⟩ level head) (Layout.opening ⟨true⟩ level head) := by
  have hbody : Line (head ++ " \x7b") := h.append (notMem_literal rfl)
  have hj := joins_line (2 * level) hbody
  simpa [Layout.opening, Layout.indent, Layout.newline, String.append_assoc] using hj

theorem joins_closing : Joins (Layout.closing ⟨false⟩ level) (Layout.closing ⟨true⟩ level) := by
  have hbody : Line "\x7d" := line_literal rfl rfl
  simpa [Layout.closing, Layout.indent, Layout.newline] using joins_line (2 * level) hbody

theorem joins_declarations {ds : List Declaration} (h : ∀ d ∈ ds, d.Tidy) :
    Joins
      (String.join (ds.map
        (Declaration.text (Layout.indent ⟨false⟩ level) (Layout.newline ⟨false⟩))))
      (String.join (ds.map
        (Declaration.text (Layout.indent ⟨true⟩ level) (Layout.newline ⟨true⟩)))) := by
  apply joins_join
  intro d hd
  have hj := joins_line (2 * level) (h d hd).line
  simpa [Declaration.text, Layout.indent, Layout.newline, String.append_assoc] using hj

theorem joins_text {rule : StyleRule} (hs : Line rule.selector)
    (hd : ∀ d ∈ rule.declarations, d.Tidy) : Joins (rule.text ⟨false⟩) (rule.text ⟨true⟩) :=
  ((joins_opening hs).append (joins_declarations hd)).append joins_closing

theorem joins_mediaText {q : MediaQuery} {body body' : String} (h : Joins body body') :
    Joins (Rules.mediaText ⟨false⟩ level q body) (Rules.mediaText ⟨true⟩ level q body') :=
  ((joins_opening (line_atRule q)).append h).append joins_closing

end layout

namespace Sheet

/-- The selectors that share a rule stand on a line each. -/
theorem joins_selectors {selectors : List String} (hne : selectors ≠ [])
    (h : ∀ s ∈ selectors, Line s) (level : Nat) :
    Joins (Layout.opening ⟨false⟩ level
        (("," ++ Layout.newline ⟨false⟩ ++ Layout.indent ⟨false⟩ level).intercalate selectors))
      (Layout.opening ⟨true⟩ level
        (("," ++ Layout.newline ⟨true⟩ ++ Layout.indent ⟨true⟩ level).intercalate selectors)) := by
  induction selectors with
  | nil => exact absurd rfl hne
  | cons s selectors ih =>
    cases selectors with
    | nil =>
      rw [String.intercalate_singleton, String.intercalate_singleton]
      exact joins_opening (h s (by simp))
    | cons s' selectors =>
      have hfirst : Line (s ++ ",") := (h s (by simp)).append (notMem_literal rfl)
      -- The opening of the other selectors brings the indentation of the next line.
      have hrest := ih (by simp) fun t ht => h t (List.mem_cons_of_mem _ ht)
      have hj := (joins_line (2 * level) hfirst).append hrest
      simp only [Layout.opening, Layout.indent, Layout.newline, String.intercalate_cons_cons,
        String.append_assoc, String.empty_append, String.append_empty, if_true,
        Bool.false_eq_true, if_false] at hj ⊢
      exact hj

theorem joins_containerRule {names : List String} (hne : names ≠ [])
    (hn : ∀ name ∈ names, '\n' ∉ name.toList) {property value : String}
    (hp : madeOf isPropertyChar property) (hv : madeOf isValueChar value) (level : Nat) :
    Joins ((containerRule ⟨false⟩ names property value level).text ⟨false⟩)
      ((containerRule ⟨true⟩ names property value level).text ⟨true⟩) := by
  have hpoint : Line "." := line_literal rfl rfl
  have hlines : ∀ s ∈ names.map fun name => "." ++ ClassName.escape name, Line s := by
    intro s hs
    obtain ⟨name, hm, rfl⟩ := List.mem_map.1 hs
    exact hpoint.append (ClassName.no_feed_escape (hn name hm))
  have hbody : ∀ d ∈ [(⟨property, value⟩ : Declaration)], d.Tidy := by
    intro d hd
    rw [List.mem_singleton.1 hd]
    exact ⟨hp, hv⟩
  exact ((joins_selectors (by simpa using hne) hlines level).append
    (joins_declarations hbody)).append joins_closing

theorem joins_containers {names : List String} (hn : ∀ name ∈ names, '\n' ∉ name.toList)
    (p : List MediaQuery) :
    Joins (String.join ((containerRuleAt? ⟨false⟩ (names.filter isContainer) p).toList.map
        (StyleRule.text ⟨false⟩)))
      (String.join ((containerRuleAt? ⟨true⟩ (names.filter isContainer) p).toList.map
        (StyleRule.text ⟨true⟩))) := by
  have hn' : ∀ name ∈ names.filter isContainer, '\n' ∉ name.toList :=
    fun name hm => hn name (List.mem_filter.1 hm).1
  have hsize : ∀ b : Breakpoint, madeOf isValueChar b.size := by
    intro b
    cases b <;> exact madeOf_literal rfl
  by_cases hc : names.filter isContainer = []
  · simpa [containerRuleAt?, hc] using joins_empty
  · cases p with
    | nil =>
      simpa [containerRuleAt?, hc, containerRule_eq] using
        joins_containerRule hc hn' (madeOf_literal rfl) (madeOf_literal rfl) 0
    | cons q p =>
      cases p with
      | nil =>
        cases q with
        | breakpoint b =>
          simpa [containerRuleAt?, hc, containerRule_eq] using
            joins_containerRule hc hn' (madeOf_literal rfl) (hsize b) 1
        | feature f => simpa [containerRuleAt?] using joins_empty
      | cons q' p => simpa [containerRuleAt?] using joins_empty

theorem joins_textAt {names : List String} (hn : ∀ name ∈ names, '\n' ∉ name.toList)
    (p : List MediaQuery) : Joins (textAt ⟨false⟩ names p) (textAt ⟨true⟩ names p) := by
  induction p using queries_induction names with
  | step p ih =>
    rw [textAt_eq_shown, textAt_eq_shown]
    refine (Joins.append ?_ (joins_containers hn p)).append ?_
    · apply joins_join
      intro rule hr
      simp only [stylesAt, List.mem_filterMap, List.mem_filter] at hr
      obtain ⟨name, ⟨hm, -⟩, hrule⟩ := hr
      obtain ⟨-, styling, hs, rfl⟩ := styleRule?_eq_some.1 hrule
      exact joins_text (ClassName.line_selector (hn name hm) styling.target) (tidy_of_resolve? hs).2
    · apply joins_join
      intro q hq
      exact joins_mediaText (ih q (mem_shownAt.1 hq).1)

end Sheet

namespace Compiler

/-- Joining the lines of a pretty sheet leaves the minified one, as long as no class name has a line
feed in it. -/
theorem text_minified {calls : List (Partition × List String)}
    (h : ∀ call ∈ calls, ∀ name ∈ call.2, '\n' ∉ name.toList) (p : Partition) :
    (({ layout := ⟨true⟩ } : Compiler).run calls).text p =
      joinLines ((({ layout := ⟨false⟩ } : Compiler).run calls).text p) := by
  have hn : ∀ name ∈ (classesFor p calls).eraseDups, '\n' ∉ name.toList := by
    intro name hm
    obtain ⟨call, hc, hname⟩ := List.mem_flatMap.1 (List.mem_eraseDups.1 hm)
    split at hname
    · exact h call hc name hname
    · simp at hname
  rw [text_run, text_run, Sheet.text_ofClasses, Sheet.text_ofClasses]
  exact (Sheet.joins_textAt hn []).joinLines_eq.symm

theorem text_minified_mixed :
    (∀ call ∈ [(Partition.critical, ["sm:p-4", "container", "sm:container"]),
        (.external, ["block"]), (.critical, ["group-hover:text-center"])],
      ∀ name ∈ call.2, '\n' ∉ name.toList) ∧
    (({ layout := ⟨true⟩ } : Compiler).run
        [(.critical, ["sm:p-4", "container", "sm:container"]), (.external, ["block"]),
          (.critical, ["group-hover:text-center"])]).text .critical =
      joinLines ((({ layout := ⟨false⟩ } : Compiler).run
        [(.critical, ["sm:p-4", "container", "sm:container"]), (.external, ["block"]),
          (.critical, ["group-hover:text-center"])]).text .critical) :=
  ⟨by decide +kernel, text_minified (by decide +kernel) .critical⟩

end Compiler
end UtilityCss
