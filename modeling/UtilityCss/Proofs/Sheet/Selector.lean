import UtilityCss.Proofs.Sheet.Outline
import UtilityCss.Proofs.Text.Identifier

namespace UtilityCss

namespace Selector
open Identifier

/-- The classes that a selector names, in order. -/
def classes : List Char → List (List Char)
  | [] => []
  | c :: s =>
    if c = '.' then (readParts s).1 :: classes (readParts s).2 else classes s
termination_by s => s.length
decreasing_by
  · exact Nat.lt_succ_of_le (length_readParts s)
  · exact Nat.lt_succ_self _

/-- The class that a selector is about. -/
def subject? (selector : String) : Option String :=
  (classes selector.toList).getLast?.map String.ofList

theorem classes_append {s : List Char} (h : '.' ∉ s) (tail : List Char) :
    classes (s ++ tail) = classes tail := by
  induction s with
  | nil => rfl
  | cons c s ih =>
    rw [List.mem_cons, not_or] at h
    rw [List.cons_append, classes, if_neg (Ne.symm h.1), ih h.2]

theorem classes_escapeChars {name : List Char} (h : ∀ c ∈ name, isPart c ∨ c ∈ marks)
    {tail : List Char} (ht : Apart tail) :
    classes ('.' :: (ClassName.escapeChars name ++ tail)) = name :: classes tail := by
  rw [classes, if_pos rfl, readParts_escapeChars h ht]

/-- What stands in front of a class names no more than classes of its own. -/
theorem classes_ancestor (p : PseudoClass) (tail : List Char) :
    ∃ front, classes (p.ancestor.toList ++ tail) = front ++ classes tail := by
  have hgroup : ∀ state : List Char, state.head? = some ':' → '.' ∉ state →
      classes ('.' :: (ClassName.escapeChars "group".toList ++ (state ++ tail))) =
        ["group".toList] ++ classes tail := by
    intro state hhead hpoint
    have hgroup : isClassName "group".toList := by decide
    have hapart : Apart (state ++ tail) := by
      intro c hc
      rw [List.head?_append, hhead] at hc
      cases hc
      decide
    rw [classes_escapeChars (fun c hc => isPart_or_mark hgroup hc) hapart, classes_append hpoint]
    rfl
  cases p with
  | groupHover => exact ⟨_, hgroup ":hover ".toList rfl (by decide)⟩
  | groupFocus => exact ⟨_, hgroup ":focus ".toList rfl (by decide)⟩
  | _ => exact ⟨[], rfl⟩

theorem classes_ancestors (used segments : List String) (tail : List Char) :
    ∃ front, classes ((ClassName.ofSegments used segments).ancestors.toList ++ tail) =
      front ++ classes tail := by
  fun_induction ClassName.ofSegments used segments with
  | case1 => exact ⟨[], rfl⟩
  | case2 => exact ⟨[], rfl⟩
  | case3 used modifier rest _ hm ih => exact ih
  | case4 used modifier rest _ hm ih =>
    unfold ClassName.under
    split
    · rename_i p hp
      obtain ⟨front, hfront⟩ := ih
      obtain ⟨first, hfirst⟩ := classes_ancestor p
        ((ClassName.ofSegments (modifier :: used) rest).ancestors.toList ++ tail)
      refine ⟨first ++ front, ?_⟩
      rw [String.toList_append, List.append_assoc, hfirst, hfront, List.append_assoc]
    · exact ih
    · exact ih

theorem apart_states (used segments : List String) {tail : List Char} (h : Apart tail) :
    Apart ((ClassName.ofSegments used segments).states.toList ++ tail) := by
  fun_induction ClassName.ofSegments used segments with
  | case1 => exact h
  | case2 => exact h
  | case3 used modifier rest _ hm ih => exact ih
  | case4 used modifier rest _ hm ih =>
    unfold ClassName.under
    split
    · rename_i p hp
      have hhead : p.state.toList = [] ∨ p.state.toList.head? = some ':' := by
        cases p <;> first | exact .inl rfl | exact .inr rfl
      rw [String.toList_append, List.append_assoc]
      rcases hhead with hnil | hcolon
      · rw [hnil]
        exact ih
      · intro c hc
        rw [List.head?_append, hcolon] at hc
        cases hc
        decide
    · exact ih
    · exact ih

theorem point_notMem_states (used segments : List String) :
    '.' ∉ (ClassName.ofSegments used segments).states.toList := by
  intro hm
  obtain ⟨p, hp⟩ := ClassName.states_ofSegments used segments _ hm
  cases p <;> exact absurd hp (by decide)

theorem apart_target (target : Target) : Apart target.selector.toList := by
  intro c hc
  cases target <;> cases hc <;> decide

theorem point_notMem_target (target : Target) : '.' ∉ target.selector.toList := by
  cases target <;> decide

theorem subject?_of_classes {selector name : String} {front : List (List Char)}
    (h : classes selector.toList = front ++ [name.toList]) : subject? selector = some name := by
  rw [subject?, h, List.getLast?_concat, Option.map_some, String.ofList_toList]

/-- The selector of a class names this class last. -/
theorem subject?_selector {name : String} (h : isClassName name.toList) (target : Target) :
    subject? ((ClassName.ofString name).selector name target.selector) = some name := by
  have hparts : ∀ c ∈ name.toList, isPart c ∨ c ∈ marks := fun c hc => isPart_or_mark h hc
  have hafter : Apart ((ClassName.ofString name).states.toList ++ target.selector.toList) :=
    apart_states [] _ (apart_target target)
  have hpoint : '.' ∉ (ClassName.ofString name).states.toList ++ target.selector.toList := by
    rw [List.mem_append, not_or]
    exact ⟨point_notMem_states [] _, point_notMem_target target⟩
  have hrest : classes ((ClassName.ofString name).states.toList ++ target.selector.toList) = [] := by
    rw [← List.append_nil (_ ++ _), classes_append hpoint, classes]
  -- What stands in front may name further classes, but none after this one.
  obtain ⟨front, hfront⟩ := classes_ancestors []
    ((Text.pieces (· == ':') name.toList).map String.ofList)
    ('.' :: (ClassName.escapeChars name.toList ++
      ((ClassName.ofString name).states.toList ++ target.selector.toList)))
  apply subject?_of_classes
  rw [classes_escapeChars hparts hafter, hrest] at hfront
  rw [← hfront]
  simp [ClassName.selector, ClassName.escape, ClassName.ofString]

/-- What stands between the classes of a list ends the class in front of it and names none. -/
theorem classes_separator (layout : Layout) (level : Nat) (tail : List Char) :
    let text := ("," ++ layout.newline ++ layout.indent level).toList ++ tail
    Apart text ∧ classes text = classes tail := by
  have hblank : ∀ s : String, Blocks.Blank s → '.' ∉ s.toList :=
    fun s h hm => absurd (h '.' hm) (by decide)
  have hhead : (("," ++ layout.newline ++ layout.indent level).toList ++ tail).head? = some ',' := by
    simp
  constructor
  · intro c hc
    rw [hhead] at hc
    cases hc
    decide
  · apply classes_append
    rw [String.toList_append, String.toList_append, List.mem_append, List.mem_append]
    rintro ((hcomma | hnewline) | hindent)
    · exact absurd hcomma (by decide)
    · exact hblank _ (blank_newline layout) hnewline
    · exact hblank _ (blank_indent layout level) hindent

/-- The selector that containers share names them all, in order. -/
theorem classes_containerRule {names : List String} (h : ∀ name ∈ names, isClassName name.toList)
    (layout : Layout) (property value : String) (level : Nat) :
    classes (Sheet.containerRule layout names property value level).selector.toList =
      names.map String.toList := by
  have hclass : ∀ name : String, isClassName name.toList → ∀ tail, Apart tail →
      classes (("." ++ ClassName.escape name).toList ++ tail) = name.toList :: classes tail := by
    intro name hname tail ht
    have hescaped := classes_escapeChars (fun c hc => isPart_or_mark hname hc) ht
    simpa [ClassName.escape] using hescaped
  unfold Sheet.containerRule
  induction names with
  | nil => simp [classes]
  | cons name names ih =>
    obtain ⟨hname, hnames⟩ := List.forall_mem_cons.1 h
    cases names with
    | nil =>
      have hlast := hclass name hname [] (by simp [Apart])
      rw [List.append_nil, classes] at hlast
      simpa using hlast
    | cons next names =>
      obtain ⟨hapart, hskip⟩ := classes_separator layout level
        (("," ++ layout.newline ++ layout.indent level).intercalate
          ((next :: names).map fun name => "." ++ ClassName.escape name)).toList
      have hrest := ih hnames
      simp only [List.map_cons] at hapart hskip hrest ⊢
      rw [String.intercalate_cons_cons, String.toList_append, String.toList_append,
        List.append_assoc, hclass name hname _ hapart, hskip, hrest]

end Selector

namespace Sheet
open Rules

/-- The selector of a leaf has its class behind a point, and then nothing that prolongs it. -/
theorem exists_selector {name : String} {leaf : Leaf} (h : leaf? name = some leaf) :
    ∃ before after, leaf.rule.selector = before ++ "." ++ ClassName.escape name ++ after ∧
      Identifier.Apart after.toList := by
  obtain ⟨rule, hrule, rfl⟩ := Option.map_eq_some_iff.1 h
  obtain ⟨-, styling, -, rfl⟩ := styleRule?_eq_some.1 hrule
  refine ⟨(ClassName.ofString name).ancestors,
    (ClassName.ofString name).states ++ styling.target.selector, ?_, ?_⟩
  · rw [ClassName.selector, String.append_assoc]
  · rw [String.toList_append]
    exact Selector.apart_states [] _ (Selector.apart_target styling.target)

theorem subject?_leaf? {name : String} (hn : isClassName name.toList) {leaf : Leaf}
    (h : leaf? name = some leaf) : Selector.subject? leaf.rule.selector = some name := by
  obtain ⟨rule, hrule, rfl⟩ := Option.map_eq_some_iff.1 h
  obtain ⟨-, styling, -, rfl⟩ := styleRule?_eq_some.1 hrule
  exact Selector.subject?_selector hn styling.target

/-- A rule that containers share is about the last of them. -/
theorem subject?_isContainerRule {names : List String} (hne : names ≠ [])
    (hn : ∀ name ∈ names, isClassName name.toList) {layout : Layout} {rule : StyleRule}
    (h : IsContainerRule layout names rule) :
    ∃ name ∈ names, Selector.subject? rule.selector = some name := by
  have hclasses : Selector.classes rule.selector.toList = names.map String.toList := by
    rcases h with rfl | ⟨b, level, rfl⟩
    · exact Selector.classes_containerRule hn layout _ _ _
    · exact Selector.classes_containerRule hn layout _ _ _
  have hlast : names.map String.toList =
      names.dropLast.map String.toList ++ [(names.getLast hne).toList] := by
    rw [← List.map_singleton, ← List.map_append, List.dropLast_append_getLast]
  exact ⟨names.getLast hne, List.getLast_mem hne,
    Selector.subject?_of_classes (hclasses.trans hlast)⟩

section rendered
variable {layout : Layout} {names names' : List String} {leaf leaf' : Leaf}

/-- A class that gets a rule of its own shares its selector with no containers. -/
theorem selector_ne_container (hn : ∀ name ∈ names, isClassName name.toList)
    (hn' : ∀ name ∈ names', isClassName name.toList)
    (h : leaf ∈ (ofClasses names).rules.leaves []) (hne : (ofClasses names').containers ≠ [])
    (hrule : IsContainerRule layout (ofClasses names').containers leaf'.rule) :
    leaf.rule.selector ≠ leaf'.rule.selector := by
  intro hselector
  obtain ⟨hm, hleaf⟩ := mem_leaves_ofClasses.1 h
  have hcontainers : ∀ name ∈ (ofClasses names').containers, name ∈ names' ∧ isContainer name :=
    fun name hc => ⟨List.mem_eraseDups.1 (List.mem_filter.1 hc).1, (List.mem_filter.1 hc).2⟩
  obtain ⟨name, hc, hsubject⟩ :=
    subject?_isContainerRule hne (fun name hc => hn' name (hcontainers name hc).1) hrule
  rw [← hselector, subject?_leaf? (hn _ hm) hleaf] at hsubject
  have hkey := (hcontainers name hc).2
  rw [← Option.some.inj hsubject, isContainer_of_leaf? hleaf] at hkey
  cases hkey

/-- Rules with one selector are for one class, and they are one rule unless it is that of containers. -/
theorem eq_of_selector (hn : ∀ name ∈ names, isClassName name.toList)
    (hn' : ∀ name ∈ names', isClassName name.toList)
    (h : leaf ∈ ((ofClasses names).expanded layout).cascade.leaves [])
    (h' : leaf' ∈ ((ofClasses names').expanded layout).cascade.leaves [])
    (hselector : leaf.rule.selector = leaf'.rule.selector) :
    leaf.key = leaf'.key ∧ (leaf.key ≠ containerKey → leaf = leaf') := by
  rcases mem_leaves_rendered h with ⟨hown, -⟩ | ⟨hkey, hne, hrule⟩ <;>
    rcases mem_leaves_rendered h' with ⟨hown', -⟩ | ⟨hkey', hne', hrule'⟩
  · obtain ⟨hm, hleaf⟩ := mem_leaves_ofClasses.1 hown
    obtain ⟨hm', hleaf'⟩ := mem_leaves_ofClasses.1 hown'
    have hsubject := subject?_leaf? (hn _ hm) hleaf
    rw [hselector, subject?_leaf? (hn' _ hm') hleaf'] at hsubject
    have hkey := Option.some.inj hsubject
    rw [← hkey, hleaf'] at hleaf
    exact ⟨hkey.symm, fun _ => (Option.some.inj hleaf).symm⟩
  · exact absurd hselector (selector_ne_container hn hn' hown hne' hrule')
  · exact absurd hselector.symm (selector_ne_container hn' hn hown' hne hrule)
  · exact ⟨hkey.trans hkey'.symm, absurd hkey⟩

end rendered

end Sheet

namespace Compiler

theorem isClassName_of_mem_classesFor {calls : List (Partition × List String)}
    (h : ∀ call ∈ calls, ∀ name ∈ call.2, isClassName name.toList) (p : Partition) :
    ∀ name ∈ classesFor p calls, isClassName name.toList := by
  intro name hm
  obtain ⟨call, hc, hname⟩ := exists_of_mem_classesFor hm
  exact h call hc name hname

/-- Each class with a rule of its own is read off the selector of this rule. So no two classes share a
selector: not at one path of media queries or at several, not in one sheet or in both. -/
theorem selectors_tell_classes {calls : List (Partition × List String)}
    (h : ∀ call ∈ calls, ∀ name ∈ call.2, isClassName name.toList) (layout : Layout) :
    let c := ({ layout } : Compiler).run calls
    (∀ p, ∀ leaf ∈ (c.sheet p).rules.leaves [],
      leaf.key ∈ classesFor p calls ∧ Selector.subject? leaf.rule.selector = some leaf.key) ∧
    ∀ p p', ∀ leaf ∈ ((c.sheet p).expanded layout).cascade.leaves [],
      ∀ leaf' ∈ ((c.sheet p').expanded layout).cascade.leaves [],
        leaf.rule.selector = leaf'.rule.selector →
          leaf.key = leaf'.key ∧ (leaf.key ≠ Sheet.containerKey → leaf = leaf') := by
  intro c
  have hn := isClassName_of_mem_classesFor h
  constructor
  · intro p leaf hleaf
    rw [sheet_run] at hleaf
    obtain ⟨hm, hown⟩ := Sheet.mem_leaves_ofClasses.1 hleaf
    exact ⟨hm, Sheet.subject?_leaf? (hn p _ hm) hown⟩
  · intro p p' leaf hleaf leaf' hleaf' hselector
    rw [sheet_run] at hleaf hleaf'
    exact Sheet.eq_of_selector (hn p) (hn p') hleaf hleaf' hselector

theorem selectors_tell_classes_mixed :
    (∀ call ∈ [(Partition.critical, ["sm:group-hover:hover:-mt-2", "container", "a.b:p-4"]),
        (.external, ["p-4", "md:container", "first:space-x-2", "w-1/2", "2xl:w-1/2"])],
      ∀ name ∈ call.2, isClassName name.toList) ∧
    let c := ({ layout := ⟨false⟩ } : Compiler).run
      [(.critical, ["sm:group-hover:hover:-mt-2", "container", "a.b:p-4"]),
        (.external, ["p-4", "md:container", "first:space-x-2", "w-1/2", "2xl:w-1/2"])]
    (∀ p, ∀ leaf ∈ (c.sheet p).rules.leaves [],
      leaf.key ∈ classesFor p
          [(.critical, ["sm:group-hover:hover:-mt-2", "container", "a.b:p-4"]),
            (.external, ["p-4", "md:container", "first:space-x-2", "w-1/2", "2xl:w-1/2"])] ∧
        Selector.subject? leaf.rule.selector = some leaf.key) ∧
    ∀ p p', ∀ leaf ∈ ((c.sheet p).expanded ⟨false⟩).cascade.leaves [],
      ∀ leaf' ∈ ((c.sheet p').expanded ⟨false⟩).cascade.leaves [],
        leaf.rule.selector = leaf'.rule.selector →
          leaf.key = leaf'.key ∧ (leaf.key ≠ Sheet.containerKey → leaf = leaf') := by
  have h : ∀ call ∈ [(Partition.critical, ["sm:group-hover:hover:-mt-2", "container", "a.b:p-4"]),
      (.external, ["p-4", "md:container", "first:space-x-2", "w-1/2", "2xl:w-1/2"])],
      ∀ name ∈ call.2, isClassName name.toList := by
    decide
  exact ⟨h, selectors_tell_classes h ⟨false⟩⟩

/-- Behind the point of its selector a class stands escaped, and unescaped that is the class. It is an
identifier, which the rest of the selector does not prolong, just if no digit leads it. -/
theorem read?_escape {calls : List (Partition × List String)} {layout : Layout} {p : Partition}
    {leaf : Leaf} (hleaf : leaf ∈ ((({ layout } : Compiler).run calls).sheet p).rules.leaves [])
    (hname : isClassName leaf.key.toList) :
    let name := leaf.key.toList
    let escaped := ClassName.escape leaf.key
    Identifier.readParts escaped.toList = (name, []) ∧
    (Identifier.read? escaped.toList =
      if Identifier.ledByDigit name then none else some (name, [])) ∧
    ∃ before after, leaf.rule.selector = before ++ "." ++ escaped ++ after ∧
      Identifier.read? (escaped ++ after).toList =
        if Identifier.ledByDigit name then none else some (name, after.toList) := by
  intro name escaped
  have hescaped : escaped.toList = ClassName.escapeChars name := String.toList_ofList
  have hend : Identifier.Apart [] := by simp [Identifier.Apart]
  rw [sheet_run] at hleaf
  obtain ⟨-, hown⟩ := Sheet.mem_leaves_ofClasses.1 hleaf
  obtain ⟨before, after, hselector, hafter⟩ := Sheet.exists_selector hown
  refine ⟨?_, ?_, before, after, hselector, ?_⟩
  · have hparts := Identifier.readParts_escapeChars
      (fun c hc => Identifier.isPart_or_mark hname hc) hend
    rwa [List.append_nil, ← hescaped] at hparts
  · have hread := Identifier.read?_escapeChars hname hend
    rwa [List.append_nil, ← hescaped] at hread
  · rw [String.toList_append, hescaped]
    exact Identifier.read?_escapeChars hname hafter

theorem read?_escape_nested :
    let leaf : Leaf := ⟨[.breakpoint .sm], "sm:group-hover:-mt-0.5",
      ⟨".group:hover .sm\\:group-hover\\:-mt-0\\.5", [⟨"margin-top", "-0.125rem"⟩], 1⟩⟩
    leaf ∈ ((({ layout := ⟨true⟩ } : Compiler).run
      [(.critical, ["p-4", "sm:group-hover:-mt-0.5"])]).sheet .critical).rules.leaves [] ∧
    isClassName leaf.key.toList ∧
    let name := leaf.key.toList
    let escaped := ClassName.escape leaf.key
    Identifier.readParts escaped.toList = (name, []) ∧
    (Identifier.read? escaped.toList =
      if Identifier.ledByDigit name then none else some (name, [])) ∧
    ∃ before after, leaf.rule.selector = before ++ "." ++ escaped ++ after ∧
      Identifier.read? (escaped ++ after).toList =
        if Identifier.ledByDigit name then none else some (name, after.toList) := by
  intro leaf
  have hleaf : leaf ∈ ((({ layout := ⟨true⟩ } : Compiler).run
      [(.critical, ["p-4", "sm:group-hover:-mt-0.5"])]).sheet .critical).rules.leaves [] := by
    decide +kernel
  have hname : isClassName leaf.key.toList := by decide
  exact ⟨hleaf, hname, read?_escape hleaf hname⟩

/-- The digit of the widest breakpoint is not escaped, so its classes are no identifiers. -/
theorem read?_escape_digit :
    isClassName "2xl:p-4".toList ∧
    (∃ leaf ∈ ((({ layout := ⟨true⟩ } : Compiler).run
      [(.external, ["2xl:p-4"])]).sheet .external).rules.leaves [],
      leaf.key = "2xl:p-4" ∧ leaf.rule.selector = ".2xl\\:p-4") ∧
    Identifier.read? (ClassName.escape "2xl:p-4").toList = none := by
  decide +kernel

end Compiler

end UtilityCss
