import UtilityCss.Build
import UtilityCss.Proofs.Sheet.Leaves

namespace UtilityCss
open Sheet

namespace Page

theorem mem_allClasses {pages : List Page} {name : String} :
    name ∈ allClasses pages ↔ ∃ page ∈ pages, name ∈ page.classes := by
  simp [allClasses]

theorem nodup_allClasses (pages : List Page) : (allClasses pages).Nodup :=
  Distinct.nodup_eraseDups _

/-- In other orders pages have the same classes, in another order. -/
theorem perm_allClasses {pages pages' : List Page} (h : pages.Perm pages') :
    (allClasses pages).Perm (allClasses pages') := by
  rw [List.perm_ext_iff_of_nodup (nodup_allClasses _) (nodup_allClasses _)]
  intro name
  simp only [mem_allClasses, h.mem_iff]

end Page

namespace Split

/-- The classes that go to a sheet. -/
def classes (split : Split) : Partition → List String
  | .critical => split.critical
  | .external => split.external

variable {L : GlobLibrary} (pages : List Page) (critical : PatternSet L) (base : String)

theorem mem_critical {name : String} : name ∈ (ofPages pages critical base).critical ↔
    critical.isEmpty = false ∧
      ∃ page ∈ pages, critical.selects page.path base ∧ name ∈ page.classes := by
  simp only [ofPages, Page.mem_allClasses, criticalPages, List.mem_filter, Bool.and_eq_true,
    Bool.not_eq_true']
  constructor
  · rintro ⟨page, ⟨hm, he, hs⟩, hn⟩
    exact ⟨he, page, hm, hs, hn⟩
  · rintro ⟨he, page, hm, hs, hn⟩
    exact ⟨page, ⟨hm, he, hs⟩, hn⟩

theorem mem_external {name : String} : name ∈ (ofPages pages critical base).external ↔
    (∃ page ∈ pages, name ∈ page.classes) ∧ name ∉ (ofPages pages critical base).critical := by
  rw [← Page.mem_allClasses]
  simp [ofPages]

theorem nodup_critical : (ofPages pages critical base).critical.Nodup := Page.nodup_allClasses _

theorem nodup_external : (ofPages pages critical base).external.Nodup :=
  (Page.nodup_allClasses pages).filter _

theorem nodup_classes (p : Partition) : ((ofPages pages critical base).classes p).Nodup := by
  cases p
  · exact nodup_critical pages critical base
  · exact nodup_external pages critical base

/-- The critical classes and the external ones together are the classes of all pages. -/
theorem perm_append : ((ofPages pages critical base).critical ++
    (ofPages pages critical base).external).Perm (Page.allClasses pages) := by
  have hboth : ((ofPages pages critical base).critical ++
      (ofPages pages critical base).external).Nodup := by
    refine (nodup_critical pages critical base).append (nodup_external pages critical base) ?_
    intro name hc he
    exact ((mem_external pages critical base).1 he).2 hc
  rw [List.perm_ext_iff_of_nodup hboth (Page.nodup_allClasses _)]
  intro name
  rw [List.mem_append, mem_external, Page.mem_allClasses]
  constructor
  · rintro (hc | he)
    · obtain ⟨-, page, hm, -, hn⟩ := (mem_critical pages critical base).1 hc
      exact ⟨page, hm, hn⟩
    · exact he.1
  · intro h
    by_cases hc : name ∈ (ofPages pages critical base).critical
    · exact .inl hc
    · exact .inr ⟨h, hc⟩

variable {pages} {pages' : List Page}

theorem perm_critical (h : pages.Perm pages') :
    (ofPages pages critical base).critical.Perm (ofPages pages' critical base).critical :=
  Page.perm_allClasses (h.filter _)

theorem perm_external (h : pages.Perm pages') :
    (ofPages pages critical base).external.Perm (ofPages pages' critical base).external := by
  have hcritical := perm_critical critical base h
  rw [List.perm_ext_iff_of_nodup (nodup_external _ _ _) (nodup_external _ _ _)]
  intro name
  simp only [mem_external, h.mem_iff, hcritical.mem_iff]

theorem perm_classes (h : pages.Perm pages') (p : Partition) :
    ((ofPages pages critical base).classes p).Perm ((ofPages pages' critical base).classes p) := by
  cases p
  · exact perm_critical critical base h
  · exact perm_external critical base h

end Split

namespace Compilation

/-- Items come in the order in which the classes of some pages name them first. -/
def InOrder (names : List String) (pages : List Page) : Prop :=
  names.Pairwise fun a b =>
    (pages.flatMap Page.classes).idxOf a < (pages.flatMap Page.classes).idxOf b

section
variable {L : GlobLibrary} (pages : List Page) (critical : PatternSet L) (base : String) (minify : Bool)

theorem sheet_ofPages (p : Partition) : (ofPages pages critical base minify).compiler.sheet p =
    Sheet.ofClasses ((Split.ofPages pages critical base).classes p) := by
  have h := Compiler.sheet_run ⟨minify⟩ p
    [(.critical, (Split.ofPages pages critical base).critical),
      (.external, (Split.ofPages pages critical base).external)]
  cases p
  · simp only [Compiler.classesFor, List.flatMap_cons, List.flatMap_nil, reduceCtorEq, if_true,
      if_false, List.append_nil] at h
    exact h
  · simp only [Compiler.classesFor, List.flatMap_cons, List.flatMap_nil, reduceCtorEq, if_true,
      if_false, List.append_nil, List.nil_append] at h
    exact h

end

/-- The style rules that classes have got in a sheet. -/
def leaves (c : Compilation) (p : Partition) : List Leaf := (c.compiler.sheet p).rules.leaves []

theorem leaves_ofPages {L : GlobLibrary} (pages : List Page) (critical : PatternSet L)
    (base : String) (minify : Bool) (p : Partition) : ((ofPages pages critical base minify).leaves p).Perm
      (((Split.ofPages pages critical base).classes p).filterMap leaf?) := by
  have h := leaves_ofClasses ((Split.ofPages pages critical base).classes p)
  rw [Distinct.eraseDups_of_nodup (Split.nodup_classes pages critical base p)] at h
  rwa [leaves, sheet_ofPages]

/-- How compiling pages divides their classes. -/
structure Divides {L : GlobLibrary} (pages : List Page) (critical : PatternSet L) (base : String)
    (c : Compilation) : Prop where
  mem_critical {name} : name ∈ c.split.critical ↔ critical.isEmpty = false ∧
    ∃ page ∈ pages, critical.selects page.path base ∧ name ∈ page.classes
  mem_external {name} : name ∈ c.split.external ↔
    (∃ page ∈ pages, name ∈ page.classes) ∧ name ∉ c.split.critical
  seen_eq (p) : (c.compiler.sheet p).seen = c.split.classes p
  length_add : c.split.critical.length + c.split.external.length = (Page.allClasses pages).length
  critical_order : InOrder c.split.critical (Split.criticalPages pages critical base)
  external_order : InOrder c.split.external pages
  /-- A class that has a rule of its own has it once, in one of the sheets. -/
  leaf_unique {name} : (∃ page ∈ pages, name ∈ page.classes) → isContainer name = false →
    (candidateOf name).resolve?.isSome → ∃ rule, styleRule? name (pathOf name).length = some rule ∧
      (c.leaves .critical ++ c.leaves .external).filter (·.key = name) = [⟨pathOf name, name, rule⟩]
  /-- Rendering adds the rules that containers share, and no others. -/
  rendered (p) : ((((c.compiler.sheet p).expanded c.compiler.layout).cascade.leaves []).filter
    (·.key ≠ containerKey)).Perm (c.leaves p)

/-- Compilations that differ in no more than the order in which classes have come. -/
structure Reordered (c c' : Compilation) : Prop where
  length_critical : c.split.critical.length = c'.split.critical.length
  length_external : c.split.external.length = c'.split.external.length
  leaves_perm (p) : (c.leaves p).Perm (c'.leaves p)
  containers_perm (p) : (c.compiler.sheet p).containers.Perm (c'.compiler.sheet p).containers

section
variable {L : GlobLibrary} (pages : List Page) (critical : PatternSet L) (base : String) (minify : Bool)

theorem seen_ofPages (p : Partition) : ((ofPages pages critical base minify).compiler.sheet p).seen =
    (Split.ofPages pages critical base).classes p := by
  rw [sheet_ofPages]
  exact Distinct.eraseDups_of_nodup (Split.nodup_classes pages critical base p)

theorem divides_ofPages : Divides pages critical base (ofPages pages critical base minify) where
  mem_critical := Split.mem_critical pages critical base
  mem_external := Split.mem_external pages critical base
  seen_eq := seen_ofPages pages critical base minify
  length_add := by
    have h := (Split.perm_append pages critical base).length_eq
    rwa [List.length_append] at h
  critical_order := Distinct.pairwise_idxOf_eraseDups _
  external_order := (Distinct.pairwise_idxOf_eraseDups _).filter _
  leaf_unique {name} hm hc hr := by
    have hleaves := (leaves_ofPages pages critical base minify .critical).append
      (leaves_ofPages pages critical base minify .external)
    rw [← List.filterMap_append] at hleaves
    have hall := hleaves.trans ((Split.perm_append pages critical base).filterMap leaf?)
    have hkey := hall.filter (·.key = name)
    rw [filter_leaf?_key (Page.nodup_allClasses pages) (Page.mem_allClasses.2 hm)] at hkey
    have hstyled : (styleRule? name (pathOf name).length).isSome := by
      simp [isSome_styleRule?, isStyled, hc, hr]
    obtain ⟨rule, hrule⟩ := Option.isSome_iff_exists.1 hstyled
    rw [leaf?, hrule] at hkey
    exact ⟨rule, hrule, List.perm_singleton.1 hkey⟩
  rendered p := by
    rw [leaves, sheet_ofPages]
    exact leaves_rendered _ _

theorem reordered_ofPages {pages'} (h : pages.Perm pages') :
    Reordered (ofPages pages critical base minify) (ofPages pages' critical base minify) := by
  have hclasses := Split.perm_classes critical base h
  constructor
  · exact (hclasses .critical).length_eq
  · exact (hclasses .external).length_eq
  · intro p
    exact ((leaves_ofPages pages critical base minify p).trans ((hclasses p).filterMap _)).trans
      (leaves_ofPages pages' critical base minify p).symm
  · intro p
    have hseen : ∀ pages, ((ofPages pages critical base minify).compiler.sheet p).containers =
        ((Split.ofPages pages critical base).classes p).filter isContainer := by
      intro pages
      have hs := seen_ofPages pages critical base minify p
      rw [sheet_ofPages] at hs ⊢
      exact congrArg (List.filter isContainer) hs
    rw [hseen, hseen]
    exact (hclasses p).filter _

/-- Compiling divides the classes of the pages between the sheets, and in another order of the pages
neither the numbers of classes nor the rules of a sheet are other ones. -/
theorem divides_and_reordered_ofPages :
    Divides pages critical base (ofPages pages critical base minify) ∧
      ∀ pages', pages.Perm pages' →
        Reordered (ofPages pages critical base minify) (ofPages pages' critical base minify) :=
  ⟨divides_ofPages pages critical base minify,
    fun _ h => reordered_ofPages pages critical base minify h⟩

end

end Compilation
end UtilityCss
