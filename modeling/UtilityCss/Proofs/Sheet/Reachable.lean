import UtilityCss.Proofs.Sheet.Batch

namespace UtilityCss.Sheet
open Rules

theorem eq_builtAt_of_atPath? {names : List String} {p : List MediaQuery} {level : Nat}
    {rules : Rules} (h : atPath? p 0 (ofClasses names).rules = some (level, rules)) :
    level = p.length ∧ rules = builtAt names.eraseDups p := by
  rw [atPath?_ofClasses] at h
  split at h
  · cases h
    exact ⟨rfl, rfl⟩
  · cases h

theorem isSome_atPath? {names : List String} {p : List MediaQuery} :
    (atPath? p 0 (ofClasses names).rules).isSome ↔ p = [] ∨ ∃ name ∈ names, p <+: pathOf name := by
  rw [atPath?_ofClasses]
  split <;> simp_all

/-- A path that leads somewhere is the beginning of a class's, and there no media query comes twice. -/
theorem nodup_of_isSome {names : List String} {p : List MediaQuery}
    (h : (atPath? p 0 (ofClasses names).rules).isSome) : p.Nodup := by
  rcases isSome_atPath?.1 h with rfl | ⟨name, -, hp⟩
  · exact List.nodup_nil
  · have hn : (pathOf name).Nodup := by
      rw [pathOf]
      exact ClassName.nodup_media name
    exact hn.sublist hp.sublist

theorem length_le_of_nodup {p : List MediaQuery} (h : p.Nodup) : p.length ≤ MediaQuery.all.length :=
  (List.subperm_of_subset h fun q _ => MediaQuery.mem_all q).length_le

section names
variable (names : List String) {p : List MediaQuery}

theorem mem_styles_builtAt {name : String} {rule : StyleRule} :
    (name, rule) ∈ (builtAt names.eraseDups p).styles ↔
      name ∈ names ∧ pathOf name = p ∧ styleRule? name p.length = some rule := by
  rw [styles_builtAt (Distinct.nodup_eraseDups names)]
  simp [and_assoc]

theorem find?_builtAt_eq_style {name : String} {rule : StyleRule} :
    (builtAt names.eraseDups p).find? name = some (.style name rule .nil) ↔
      name ∈ names ∧ pathOf name = p ∧ styleRule? name p.length = some rule := by
  rw [find?_eq_style (nodup_keys_builtAt (Distinct.nodup_eraseDups names) p), mem_styles_builtAt]

/-- Where a key stands, it names a media query just if it is that of the query's block. -/
theorem mediaName_iff_builtAt {key : String} {q : MediaQuery}
    (hk : key ∈ (builtAt names.eraseDups p).keys) :
    MediaQuery.ofName? key = some q ↔
      ∃ inner, (builtAt names.eraseDups p).find? key = some (.media p.length q inner .nil) := by
  have hn := Distinct.nodup_eraseDups names
  simp only [find?_eq_media (nodup_keys_builtAt hn p), blocks_builtAt hn p]
  constructor
  · intro hq
    have hname := MediaQuery.name_of_ofName? hq
    rcases mem_keys.1 hk with ⟨rule, hm⟩ | ⟨b, hb, he⟩
    · exact absurd hname.symm ((separate_builtAt hn p).ne_name q _ hm)
    · -- The key is a block's, whose query is `q` since names tell queries apart.
      rw [blocks_builtAt hn p] at hb
      obtain ⟨q', hq', rfl⟩ := List.mem_map.1 hb
      have heq : q' = q := MediaQuery.name_injective (he.trans hname.symm)
      subst heq
      exact ⟨_, hname, hb⟩
  · rintro ⟨inner, rfl, -⟩
    exact MediaQuery.ofName?_name q

end names

/-- A sheet to which the classes `names` were added, in this order and with repetitions. The rules that
a path of media queries leads to are those of the blocks it names, outermost first. -/
structure Reached (names : List String) (sheet : Sheet) : Prop where
  /-- At every depth each key stands once. -/
  nodup_keys {p level rules} : atPath? p 0 sheet.rules = some (level, rules) → rules.keys.Nodup
  /-- A key is the name of a media query where it is that of the query's block, and nowhere else. -/
  mediaName_iff {p level rules key q} : atPath? p 0 sheet.rules = some (level, rules) →
    key ∈ rules.keys →
      (MediaQuery.ofName? key = some q ↔ ∃ inner, rules.find? key = some (.media level q inner .nil))
  /-- Opening a block never costs a style rule. -/
  styles_within {p level rules} (q f) : atPath? p 0 sheet.rules = some (level, rules) →
    (rules.within level q f).styles = rules.styles
  /-- The rule that containers share finds its key free. -/
  containerKey_notMem {p level rules} : atPath? p 0 sheet.rules = some (level, rules) →
    containerKey ∉ rules.keys
  level_eq {p level rules} : atPath? p 0 sheet.rules = some (level, rules) → level = p.length
  nodup_path {p} : (atPath? p 0 sheet.rules).isSome →
    p.Nodup ∧ p.length ≤ MediaQuery.all.length
  /-- The style rules at a path are those of the classes that stand there and resolve. -/
  style_iff {p name rule} :
    (∃ level rules, atPath? p 0 sheet.rules = some (level, rules) ∧
      rules.find? name = some (.style name rule .nil)) ↔
    name ∈ names ∧ pathOf name = p ∧ (candidateOf name).identifier ≠ containerKey ∧
      ∃ styling, (candidateOf name).resolve? = some styling ∧
        rule = ⟨(ClassName.ofString name).selector name styling.target.selector,
          styling.declarations, p.length⟩
  /-- Blocks stand at the beginnings of the paths of classes, whatever becomes of these. -/
  block_iff {p} : p ≠ [] →
    ((atPath? p 0 sheet.rules).isSome ↔ ∃ name ∈ names, p <+: pathOf name)
  containers_eq : sheet.containers = (names.filter isContainer).eraseDups

/-- The sheet of some classes has been reached by them. -/
theorem reached_ofClasses (names : List String) : Reached names (ofClasses names) where
  nodup_keys h := by
    obtain ⟨-, rfl⟩ := eq_builtAt_of_atPath? h
    exact nodup_keys_builtAt (Distinct.nodup_eraseDups names) _
  mediaName_iff h hk := by
    obtain ⟨rfl, rfl⟩ := eq_builtAt_of_atPath? h
    exact mediaName_iff_builtAt names hk
  styles_within q f h := by
    obtain ⟨-, rfl⟩ := eq_builtAt_of_atPath? h
    exact Rules.styles_within ((separate_builtAt (Distinct.nodup_eraseDups names) _).ne_name q)
  containerKey_notMem h := by
    obtain ⟨-, rfl⟩ := eq_builtAt_of_atPath? h
    exact containerKey_notMem_builtAt (Distinct.nodup_eraseDups names) _
  level_eq h := (eq_builtAt_of_atPath? h).1
  nodup_path h := ⟨nodup_of_isSome h, length_le_of_nodup (nodup_of_isSome h)⟩
  style_iff {p name rule} := by
    rw [← styleRule?_eq_some, ← find?_builtAt_eq_style names]
    constructor
    · rintro ⟨level, rules, h, hf⟩
      obtain ⟨-, rfl⟩ := eq_builtAt_of_atPath? h
      exact hf
    · intro hf
      obtain ⟨hm, hp, -⟩ := (find?_builtAt_eq_style names).1 hf
      refine ⟨p.length, _, ?_, hf⟩
      rw [atPath?_ofClasses, if_pos (.inr ⟨name, hm, hp ▸ List.prefix_rfl⟩)]
  block_iff hp := by
    rw [isSome_atPath?]
    simp [hp]
  containers_eq := Distinct.filter_eraseDups isContainer names

end UtilityCss.Sheet

namespace UtilityCss.Compiler

/-- Whatever calls a fresh compiler gets, each of its sheets is one that the classes added to it
reach. -/
theorem reached_run (layout : Layout) (calls : List (Partition × List String)) (p : Partition) :
    Sheet.Reached (classesFor p calls) ((({ layout } : Compiler).run calls).sheet p) := by
  rw [sheet_run]
  exact Sheet.reached_ofClasses _

end UtilityCss.Compiler
