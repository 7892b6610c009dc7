import UtilityCss.Proofs.Sheet.Shown
import Mathlib.Data.List.Perm.Basic

namespace UtilityCss

structure Leaf where
  path : List MediaQuery
  key : String
  rule : StyleRule
  deriving DecidableEq, Repr

namespace Rules

/-- The style rules at a path and further in. -/
def leaves (p : List MediaQuery) : Rules → List Leaf
  | nil => []
  | style key rule rest => ⟨p, key, rule⟩ :: rest.leaves p
  | media _ query inner rest => inner.leaves (p ++ [query]) ++ rest.leaves p

theorem leaves_perm (p : List MediaQuery) (r : Rules) :
    (r.leaves p).Perm (r.styles.map (fun s => ⟨p, s.1, s.2⟩) ++
      r.blocks.flatMap fun b => b.inner.leaves (p ++ [b.query])) := by
  induction r with
  | nil => exact .nil
  | style key rule rest ih => exact ih.cons _
  | media level query inner rest _ ih =>
    exact (ih.append_left _).trans (List.perm_append_comm_assoc _ _ _)

theorem leaves_append (p : List MediaQuery) (a b : Rules) :
    (a ++ b).leaves p = a.leaves p ++ b.leaves p := by
  change (a.append b).leaves p = _
  induction a with
  | nil => rfl
  | style key rule rest ih => simp [append, leaves, ih]
  | media level query inner rest _ ih => simp [append, leaves, ih]

/-- Putting media blocks last neither loses a style rule nor moves it to another path. -/
theorem leaves_cascade (p : List MediaQuery) (r : Rules) : (r.cascade.leaves p).Perm (r.leaves p) := by
  rw [cascade, leaves_append]
  induction r generalizing p with
  | nil => exact .nil
  | style key rule rest ih =>
    cases h : isMediaName key with
    | true =>
      simp only [plain, responsive, h, if_true, leaves]
      exact List.perm_middle.trans ((ih p).cons _)
    | false =>
      simp only [plain, responsive, h, Bool.false_eq_true, if_false, leaves, List.cons_append]
      exact (ih p).cons _
  | media level query inner rest ihinner ih =>
    simp only [plain, responsive, leaves, leaves_append]
    exact (List.perm_append_comm_assoc _ _ _).trans ((ihinner _).append (ih p))

/-- A rule that is inserted is the only one that its key can have brought. -/
theorem filter_leaves_insert (p : List MediaQuery) (key : String) (rule : StyleRule) (r : Rules) :
    ((r.insert key rule).leaves p).filter (·.key ≠ key) = (r.leaves p).filter (·.key ≠ key) := by
  induction r with
  | nil => simp [insert, leaves]
  | style k k' rest ih => by_cases h : k = key <;> simp_all [insert, leaves]
  | media level query inner rest _ ih => by_cases h : query.name = key <;> simp_all [insert, leaves]

theorem filter_leaves_mapBreakpoints {keep : Leaf → Bool} {f : Breakpoint → Nat → Rules → Rules}
    (h : ∀ b level r p, ((f b level r).leaves p).filter keep = (r.leaves p).filter keep)
    (p : List MediaQuery) (r : Rules) :
    ((r.mapBreakpoints f).leaves p).filter keep = (r.leaves p).filter keep := by
  induction r with
  | nil => rfl
  | style key rule rest ih => simp [mapBreakpoints, leaves, List.filter_cons, ih]
  | media level query inner rest _ ih => cases query <;> simp [mapBreakpoints, leaves, h, ih]

theorem mem_leaves_insert {p : List MediaQuery} {key : String} {rule : StyleRule} {r : Rules}
    {leaf : Leaf} (h : leaf ∈ (r.insert key rule).leaves p) : leaf ∈ r.leaves p ∨ leaf.rule = rule := by
  induction r with
  | nil =>
    rw [List.mem_singleton.1 h]
    exact .inr rfl
  | style k k' rest ih =>
    unfold insert at h
    split at h
    · exact .inl h
    · rcases List.mem_cons.1 h with rfl | hm
      · exact .inl List.mem_cons_self
      · exact (ih hm).imp_left (List.mem_cons_of_mem _)
  | media level query inner rest _ ih =>
    unfold insert at h
    split at h
    · exact .inl h
    · rcases List.mem_append.1 h with hm | hm
      · exact .inl (List.mem_append_left _ hm)
      · exact (ih hm).imp_left (List.mem_append_right _)

theorem mem_leaves_mapBreakpoints {new : Leaf → Prop} {f : Breakpoint → Nat → Rules → Rules}
    (hf : ∀ b level r p, ∀ leaf ∈ (f b level r).leaves p, leaf ∈ r.leaves p ∨ new leaf)
    {p : List MediaQuery} {r : Rules} {leaf : Leaf} (h : leaf ∈ (r.mapBreakpoints f).leaves p) :
    leaf ∈ r.leaves p ∨ new leaf := by
  induction r with
  | nil => cases h
  | style key rule rest ih =>
    rcases List.mem_cons.1 h with rfl | hm
    · exact .inl List.mem_cons_self
    · exact (ih hm).imp_left (List.mem_cons_of_mem _)
  | media level query inner rest _ ih =>
    cases query with
    | breakpoint b =>
      rcases List.mem_append.1 h with hm | hm
      · exact (hf _ _ _ _ _ hm).imp_left (List.mem_append_left _)
      · exact (ih hm).imp_left (List.mem_append_right _)
    | feature q =>
      rcases List.mem_append.1 h with hm | hm
      · exact .inl (List.mem_append_left _ hm)
      · exact (ih hm).imp_left (List.mem_append_right _)

end Rules

namespace Sheet
open Rules

/-- The leaf of a class that gets a rule of its own. -/
def leaf? (name : String) : Option Leaf :=
  (styleRule? name (pathOf name).length).map fun rule => ⟨pathOf name, name, rule⟩

theorem key_of_leaf? {name : String} {leaf : Leaf} (h : leaf? name = some leaf) : leaf.key = name := by
  obtain ⟨rule, -, rfl⟩ := Option.map_eq_some_iff.1 h
  rfl

theorem isSome_leaf? (name : String) : (leaf? name).isSome = isStyled name := by
  rw [leaf?, Option.isSome_map, isSome_styleRule?]

theorem isContainer_of_leaf? {name : String} {leaf : Leaf} (h : leaf? name = some leaf) :
    isContainer name = false := by
  have hstyled : isStyled name := by rw [← isSome_leaf?, h, Option.isSome_some]
  rw [isStyled, Bool.and_eq_true, Bool.not_eq_true'] at hstyled
  exact hstyled.1

section names
variable {names : List String} (hn : names.Nodup)
include hn

/-- Classes whose paths go through `p` end there or go on by one of the queries behind it. -/
theorem filter_prefix_perm (p : List MediaQuery) :
    (names.filter fun name => p <+: pathOf name).Perm
      ((names.filter fun name => pathOf name = p) ++
        (queriesAt names p).flatMap fun q => names.filter fun name => p ++ [q] <+: pathOf name) := by
  have hsplit : ((queriesAt names p).flatMap fun q =>
      names.filter fun name => p ++ [q] <+: pathOf name).Nodup := by
    refine List.nodup_flatMap.2 ⟨fun q _ => hn.filter _, ?_⟩
    apply (nodup_queriesAt names p).imp
    intro q q' hne name hq hq'
    simp only [List.mem_filter, decide_eq_true_eq] at hq hq'
    have heq := List.prefix_of_prefix_length_le hq.2 hq'.2 (by simp)
    exact hne (by simpa using heq)
  have hends : ((names.filter fun name => pathOf name = p) ++ (queriesAt names p).flatMap fun q =>
      names.filter fun name => p ++ [q] <+: pathOf name).Nodup := by
    refine (hn.filter _).append hsplit ?_
    intro name hp hq
    simp only [List.mem_filter, List.mem_flatMap, decide_eq_true_eq] at hp hq
    obtain ⟨q, -, -, hq⟩ := hq
    have hlen := hq.length_le
    rw [hp.2, List.length_append, List.length_singleton] at hlen
    omega
  -- Neither side has a name twice, so it is enough to compare what they hold.
  rw [List.perm_ext_iff_of_nodup (hn.filter _) hends]
  intro name
  simp only [List.mem_append, List.mem_filter, List.mem_flatMap, decide_eq_true_eq]
  constructor
  · rintro ⟨hm, hp⟩
    rcases prefix_iff_eq_or.1 hp with he | ⟨q, hq⟩
    · exact .inl ⟨hm, he⟩
    · exact .inr ⟨q, mem_queriesAt.2 ⟨name, hm, hq⟩, hm, hq⟩
  · rintro (⟨hm, rfl⟩ | ⟨q, -, hm, hq⟩)
    · exact ⟨hm, List.prefix_rfl⟩
    · exact ⟨hm, (List.prefix_append p [q]).trans hq⟩

theorem leaves_builtAt (p : List MediaQuery) :
    ((builtAt names p).leaves p).Perm
      ((names.filter fun name => p <+: pathOf name).filterMap leaf?) := by
  induction p using queries_induction names with
  | step p ih =>
    have hstyles : (builtAt names p).styles.map (fun s => (⟨p, s.1, s.2⟩ : Leaf)) =
        (names.filter fun name => pathOf name = p).filterMap leaf? := by
      rw [styles_builtAt hn, List.map_filterMap]
      apply List.filterMap_congr
      intro name hm
      have hp : pathOf name = p := by simpa using (List.mem_filter.1 hm).2
      rw [leaf?, hp, Option.map_map]
      rfl
    have hblocks : ((builtAt names p).blocks.flatMap fun b => b.inner.leaves (p ++ [b.query])).Perm
        (((queriesAt names p).flatMap fun q =>
          names.filter fun name => p ++ [q] <+: pathOf name).filterMap leaf?) := by
      rw [blocks_builtAt hn, List.flatMap_map, List.filterMap_flatMap]
      exact List.Perm.flatMap_left _ ih
    have hends := leaves_perm p (builtAt names p)
    rw [hstyles] at hends
    refine (hends.trans (hblocks.append_left _)).trans ?_
    rw [← List.filterMap_append]
    exact ((filter_prefix_perm hn p).filterMap leaf?).symm

end names

/-- The leaves of a sheet are those of its classes. -/
theorem leaves_ofClasses (names : List String) :
    ((ofClasses names).rules.leaves []).Perm (names.eraseDups.filterMap leaf?) := by
  have h := leaves_builtAt (Distinct.nodup_eraseDups names) []
  simpa [builtAt, ofClasses] using h

theorem mem_leaves_ofClasses {names : List String} {leaf : Leaf} :
    leaf ∈ (ofClasses names).rules.leaves [] ↔ leaf.key ∈ names ∧ leaf? leaf.key = some leaf := by
  rw [(leaves_ofClasses names).mem_iff, List.mem_filterMap]
  constructor
  · rintro ⟨name, hm, hleaf⟩
    rw [key_of_leaf? hleaf]
    exact ⟨List.mem_eraseDups.1 hm, hleaf⟩
  · rintro ⟨hm, hleaf⟩
    exact ⟨leaf.key, List.mem_eraseDups.2 hm, hleaf⟩

theorem filter_leaves_expanded (layout : Layout) (sheet : Sheet) :
    ((sheet.expanded layout).leaves []).filter (·.key ≠ containerKey) =
      (sheet.rules.leaves []).filter (·.key ≠ containerKey) := by
  rw [expanded]
  split
  · rfl
  · rw [filter_leaves_mapBreakpoints fun b level r p => filter_leaves_insert p _ _ r,
      filter_leaves_insert]

/-- The rules that some containers share: one for the full width, and one for each breakpoint. -/
def IsContainerRule (layout : Layout) (containers : List String) (rule : StyleRule) : Prop :=
  rule = containerRule layout containers "width" "100%" 0 ∨
    ∃ b level, rule = containerRule layout containers "max-width" (Breakpoint.size b) level

/-- Containers add no other rules than those that they share. -/
theorem mem_leaves_expanded {layout : Layout} {sheet : Sheet} {leaf : Leaf}
    (h : leaf ∈ (sheet.expanded layout).leaves []) : leaf ∈ sheet.rules.leaves [] ∨
      sheet.containers ≠ [] ∧ IsContainerRule layout sheet.containers leaf.rule := by
  unfold expanded at h
  split at h
  · exact .inl h
  · rename_i hne
    have hcontainers : sheet.containers ≠ [] := by simpa using hne
    have hblock : ∀ (b : Breakpoint) (level : Nat) (r : Rules) (p : List MediaQuery),
        ∀ leaf ∈ (r.insert containerKey (containerRule layout sheet.containers "max-width" b.size
          level)).leaves p, leaf ∈ r.leaves p ∨
            IsContainerRule layout sheet.containers leaf.rule := by
      intro b level r p leaf hm
      exact (mem_leaves_insert hm).imp_right fun hrule => .inr ⟨b, level, hrule⟩
    rcases mem_leaves_mapBreakpoints hblock h with hm | hrule
    · rcases mem_leaves_insert hm with hm | hrule
      · exact .inl hm
      · exact .inr ⟨hcontainers, .inl hrule⟩
    · exact .inr ⟨hcontainers, hrule⟩

theorem leaf?_containerKey : leaf? containerKey = none := by
  have hs : isStyled containerKey = false := by decide +kernel
  rw [← Option.not_isSome_iff_eq_none, isSome_leaf?, hs]
  exact Bool.false_ne_true

/-- What is rendered beside the rules of the containers are the leaves of the sheet. -/
theorem leaves_rendered (layout : Layout) (names : List String) :
    ((((ofClasses names).expanded layout).cascade.leaves []).filter (·.key ≠ containerKey)).Perm
      ((ofClasses names).rules.leaves []) := by
  have hkeys : ((ofClasses names).rules.leaves []).filter (·.key ≠ containerKey) =
      (ofClasses names).rules.leaves [] := by
    rw [List.filter_eq_self]
    intro leaf hm
    obtain ⟨name, -, hleaf⟩ := List.mem_filterMap.1 ((leaves_ofClasses names).mem_iff.1 hm)
    refine decide_eq_true fun hkey => ?_
    rw [key_of_leaf? hleaf] at hkey
    rw [hkey, leaf?_containerKey] at hleaf
    cases hleaf
  have hall := (leaves_cascade [] ((ofClasses names).expanded layout)).filter (·.key ≠ containerKey)
  rwa [filter_leaves_expanded, hkeys] at hall

/-- What is rendered is a class's own leaf, or a rule of the containers under their key. -/
theorem mem_leaves_rendered {layout : Layout} {names : List String} {leaf : Leaf}
    (h : leaf ∈ ((ofClasses names).expanded layout).cascade.leaves []) :
    leaf ∈ (ofClasses names).rules.leaves [] ∧ leaf.key ≠ containerKey ∨
      leaf.key = containerKey ∧ (ofClasses names).containers ≠ [] ∧
        IsContainerRule layout (ofClasses names).containers leaf.rule := by
  by_cases hkey : leaf.key = containerKey
  · have hown : leaf ∉ (ofClasses names).rules.leaves [] := by
      intro hm
      have hleaf := (mem_leaves_ofClasses.1 hm).2
      rw [hkey, leaf?_containerKey] at hleaf
      cases hleaf
    exact .inr ⟨hkey, (mem_leaves_expanded ((leaves_cascade [] _).mem_iff.1 h)).resolve_left hown⟩
  · refine .inl ⟨(leaves_rendered layout names).mem_iff.1 ?_, hkey⟩
    exact List.mem_filter.2 ⟨h, decide_eq_true hkey⟩

/-- Of the leaves of distinct classes each class has its own and no other. -/
theorem filter_leaf?_key {names : List String} (hn : names.Nodup) {name : String}
    (hm : name ∈ names) :
    (names.filterMap leaf?).filter (·.key = name) = (leaf? name).toList := by
  have hown : ∀ other, (leaf? other).filter (·.key = name) =
      if decide (other = name) then leaf? other else none := by
    intro other
    cases h : leaf? other with
    | none => simp
    | some leaf => by_cases he : other = name <;> simp [Option.filter, key_of_leaf? h, he]
  rw [List.filter_filterMap]
  simp only [hown]
  rw [← List.filterMap_filter, List.filter_eq, List.count_eq_one_of_mem hn hm]
  cases h : leaf? name <;> simp [h]

end Sheet
end UtilityCss
