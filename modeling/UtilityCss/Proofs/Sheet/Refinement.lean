import UtilityCss.Proofs.Sheet.Batch

namespace UtilityCss.Sheet
open Rules Arrival

/-- The rules that distinct classes build at a path, with that of the containers. -/
def filled (layout : Layout) (names : List String) (p : List MediaQuery) : Rules :=
  match containerRuleAt? layout (names.filter isContainer) p with
  | some rule => (builtAt names p).insert containerKey rule
  | none => builtAt names p

section filled
variable {names : List String} (hn : names.Nodup) (p : List MediaQuery) (layout : Layout)

theorem blocks_filled : (filled layout names p).blocks = (builtAt names p).blocks := by
  rw [filled]
  split <;> simp

include hn

theorem styles_filled : (filled layout names p).styles = (builtAt names p).styles ++
    (containerRuleAt? layout (names.filter isContainer) p).toList.map (containerKey, ·) := by
  rw [filled]
  cases containerRuleAt? layout (names.filter isContainer) p with
  | none => simp
  | some rule => simp [styles_insert (containerKey_notMem_builtAt hn p)]

theorem separate_filled : (filled layout names p).Separate := by
  intro s hs
  rw [styles_filled hn p, List.mem_append] at hs
  rcases hs with hs | hs
  · exact separate_builtAt hn p s hs
  · obtain ⟨rule, -, rfl⟩ := List.mem_map.1 hs
    rfl

theorem styleRules_filled : (filled layout names p).styles.map (·.2) =
    stylesAt names p ++ (containerRuleAt? layout (names.filter isContainer) p).toList := by
  -- The keys go, so only the rules themselves count.
  have hsnd : ∀ o : Option StyleRule, ∀ name : String,
      (o.map (name, ·)).map (·.2) = o := by
    intro o name
    cases o <;> rfl
  rw [styles_filled hn p, styles_builtAt hn p, List.map_append, List.map_filterMap, List.map_map,
    stylesAt]
  simp only [hsnd]
  congr 1
  exact List.map_id' _

end filled

/-- Only the outermost rules and the blocks of breakpoints have a rule of the containers. -/
theorem filled_inner {p : List MediaQuery} (layout : Layout) (names : List String) (hp : p ≠ [])
    (q : MediaQuery) :
    filled layout names (p ++ [q]) =
      builtAt names (p ++ [q]) := by
  have hnone : containerRuleAt? layout (names.filter isContainer) (p ++ [q]) = none := by
    obtain ⟨q', p', rfl⟩ := List.exists_cons_of_ne_nil hp
    cases p' <;> simp [containerRuleAt?]
  rw [filled, hnone]

/-- Rules that hold what classes leave at a path have the text of that path, if their blocks do. -/
theorem text_of_contents {layout : Layout} {names : List String} {p : List MediaQuery} {r : Rules}
    (inner : MediaQuery → Rules) (hsep : r.Separate)
    (hstyles : r.styles.map (·.2) = stylesAt names p ++
      (containerRuleAt? layout (names.filter isContainer) p).toList)
    (hblocks : r.blocks = (queriesAt names p).map fun q => ⟨p.length, q, inner q⟩)
    (hinner : ∀ q ∈ queriesAt names p,
      (inner q).cascade.text layout = textAt layout names (p ++ [q])) :
    r.cascade.text layout = textAt layout names p := by
  have hs : (r.styles.map fun s => s.2.text layout) =
      (stylesAt names p ++ (containerRuleAt? layout (names.filter isContainer) p).toList).map
        (StyleRule.text layout) := by
    rw [← hstyles, List.map_map]
    rfl
  have hb : (r.blocks.map fun b =>
      wrap layout b.level b.query (b.inner.cascade.text layout)) =
      (queriesAt names p).map fun q =>
        wrap layout p.length q (textAt layout names (p ++ [q])) := by
    rw [hblocks, List.map_map]
    apply List.map_congr_left
    intro q hq
    rw [← hinner q hq]
    rfl
  rw [text_cascade layout hsep, textAt_eq, hs, hb, List.map_append, String.join_append]

theorem text_filled {layout : Layout} {names : List String} (hn : names.Nodup)
    (p : List MediaQuery) (hp : p ≠ []) :
    (filled layout names p).cascade.text layout = textAt layout names p := by
  induction p using queries_induction names with
  | step p ih =>
    apply text_of_contents (fun q => filled layout names (p ++ [q])) (separate_filled hn p layout)
      (styleRules_filled hn p layout)
    · simp only [blocks_filled, blocks_builtAt hn, filled_inner layout names hp]
    · intro q hq
      exact ih q hq (by simp)

/-- The block of a media query with the rule of the containers, if it has one. -/
theorem filled_singleton (layout : Layout) {names : List String} (q : MediaQuery)
    (hc : names.filter isContainer ≠ []) :
    (⟨0, q, filled layout names [q]⟩ : Block) =
      Block.mapBreakpoint (fun b level rules => rules.insert containerKey
        (containerRule layout (names.filter isContainer) "max-width" b.size level))
        ⟨0, q, builtAt names [q]⟩ := by
  cases q <;> simp [filled, containerRuleAt?, hc, Block.mapBreakpoint, containerRule_eq]

theorem contents_expanded (layout : Layout) {names : List String} (hn : names.Nodup) :
    ((ofClasses names).expanded layout).styles = (filled layout names []).styles ∧
      ((ofClasses names).expanded layout).blocks =
        (queriesAt names []).map fun q => ⟨0, q, filled layout names [q]⟩ := by
  have hb := blocks_builtAt hn []
  have hr : (ofClasses names).rules = builtAt names [] := by
    rw [builtAt, past_nil, ofClasses, Distinct.eraseDups_of_nodup hn]
    rfl
  have hs : (ofClasses names).containers = names.filter isContainer := by
    rw [ofClasses, Distinct.eraseDups_of_nodup hn]
  by_cases hc : names.filter isContainer = []
  · rw [expanded, hs, hc, List.isEmpty_nil, if_pos rfl, hr]
    constructor
    · simp [filled, containerRuleAt?, hc]
    · simpa [filled, containerRuleAt?, hc] using hb
  · have he : (names.filter isContainer).isEmpty = false := by simpa using hc
    rw [expanded, hs, he, if_neg (by simp), hr]
    constructor
    · simp [filled, containerRuleAt?, hc, containerRule_eq]
    · rw [blocks_mapBreakpoints, blocks_insert, hb, List.map_map]
      apply List.map_congr_left
      intro q _
      exact (filled_singleton layout q hc).symm

/-- The rendered sheet of any classes is the text of the distinct ones, outermost. -/
theorem text_ofClasses (layout : Layout) (names : List String) :
    (ofClasses names).text layout = textAt layout names.eraseDups [] := by
  have hn := Distinct.nodup_eraseDups names
  obtain ⟨hs, hb⟩ := contents_expanded layout hn
  rw [← ofClasses_eraseDups, text]
  apply text_of_contents fun q => filled layout names.eraseDups [q]
  · intro s hm
    exact separate_filled hn [] layout s (hs ▸ hm)
  · rw [hs, styleRules_filled hn]
  · exact hb
  · intro q _
    exact text_filled hn [q] (by simp)

end UtilityCss.Sheet

namespace UtilityCss.Compiler

/-- Distinct classes that are added to a fresh compiler render to the text that is read off their
list. -/
theorem text_add_of_nodup (layout : Layout) (p : Partition) {names : List String}
    (h : names.Nodup) :
    (({ layout } : Compiler).add p names).1.text p = Sheet.textAt layout names [] := by
  rw [text_add, Sheet.text_ofClasses, Distinct.eraseDups_of_nodup h]

theorem text_add_responsive :
    ["sm:dark:p-4", "container", "md:bogus", "sm:container", "p-2"].Nodup ∧
      Sheet.textAt ⟨false⟩ ["sm:dark:p-4", "container", "md:bogus", "sm:container", "p-2"] [] =
        ".p-2 \x7b\n  padding: 0.5rem;\n\x7d\n" ++
        ".container,\n.sm\\:container \x7b\n  width: 100%;\n\x7d\n" ++
        "@media (min-width: 640px) \x7b\n" ++
        "  .container,\n  .sm\\:container \x7b\n    max-width: 640px;\n  \x7d\n" ++
        "  @media (prefers-color-scheme: dark) \x7b\n" ++
        "    .sm\\:dark\\:p-4 \x7b\n      padding: 1rem;\n    \x7d\n  \x7d\n\x7d\n" ++
        "@media (min-width: 768px) \x7b\n" ++
        "  .container,\n  .sm\\:container \x7b\n    max-width: 768px;\n  \x7d\n\x7d\n" := by
  have h : ["sm:dark:p-4", "container", "md:bogus", "sm:container", "p-2"].Nodup := by decide
  refine ⟨h, ?_⟩
  rw [← text_add_of_nodup ⟨false⟩ .external h]
  decide +kernel

end UtilityCss.Compiler
