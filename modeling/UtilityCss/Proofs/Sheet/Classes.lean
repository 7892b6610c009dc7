import UtilityCss.Sheet.Basic
import UtilityCss.Proofs.Sheet.Arrivals

namespace UtilityCss

namespace Sheet
open Rules

/-- The media queries that a class stands under, outermost first. -/
@[irreducible] def pathOf (name : String) : List MediaQuery := (ClassName.ofString name).media

@[irreducible] def candidateOf (name : String) : Candidate :=
  Candidate.ofBase (ClassName.ofString name).base

def isContainer (name : String) : Bool := (candidateOf name).identifier = containerKey

/-- A class that gets a rule of its own: it is no container, and some utility has a styling for it. -/
def isStyled (name : String) : Bool := !isContainer name && (candidateOf name).resolve?.isSome

def styleRule? (name : String) (level : Nat) : Option StyleRule :=
  if isContainer name then none
  else (candidateOf name).resolve?.map fun styling =>
    ⟨(ClassName.ofString name).selector name styling.target.selector, styling.declarations, level⟩

/-- The selectors of some classes at a level, in order, each on a line of its own. -/
def selectorList (layout : Layout) (level : Nat) : List String → String
  | [] => ""
  | [name] => "." ++ ClassName.escape name
  | name :: other :: names =>
    "." ++ ClassName.escape name ++ "," ++ layout.newline ++ layout.indent level ++
      selectorList layout level (other :: names)

/-- Containers share a rule of one declaration, that has the selectors of all of them. -/
theorem containerRule_eq (layout : Layout) (names : List String) (property value : String)
    (level : Nat) : containerRule layout names property value level =
      ⟨selectorList layout level names, [⟨property, value⟩], level⟩ := by
  have hlist : ("," ++ layout.newline ++ layout.indent level).intercalate
      (names.map fun name => "." ++ ClassName.escape name) = selectorList layout level names := by
    induction names with
    | nil => rfl
    | cons name names ih =>
      cases names with
      | nil => exact String.intercalate_singleton
      | cons other names =>
        rw [selectorList, ← ih, List.map_cons, List.map_cons, String.intercalate_cons_cons]
        simp only [String.append_assoc]
  rw [containerRule, hlist]

def arrival (name : String) : Arrival := ⟨pathOf name, name, styleRule? name⟩

@[simp] theorem arrival_path (name : String) : (arrival name).path = pathOf name := by
  simp only [arrival]

@[simp] theorem arrival_key (name : String) : (arrival name).key = name := by
  simp only [arrival]

@[simp] theorem arrival_rule? (name : String) : (arrival name).rule? = styleRule? name := by
  simp only [arrival]

/-- The sheet of some classes: the rules that they build, and the containers among them. -/
def ofClasses (names : List String) : Sheet where
  rules := ofArrivals 0 (names.eraseDups.map arrival)
  containers := names.eraseDups.filter isContainer
  seen := names.eraseDups

theorem isContainer_iff {name : String} :
    isContainer name = true ↔ (candidateOf name).identifier = containerKey := by
  simp only [isContainer, decide_eq_true_eq]

theorem styleRule?_of_isContainer {name : String} (h : isContainer name) (level : Nat) :
    styleRule? name level = none := if_pos h

theorem isSome_styleRule? (name : String) (level : Nat) :
    (styleRule? name level).isSome = isStyled name := by
  cases h : isContainer name <;> simp [styleRule?, isStyled, h]

theorem styleRule?_eq_some {name : String} {level : Nat} {rule : StyleRule} :
    styleRule? name level = some rule ↔
      (candidateOf name).identifier ≠ containerKey ∧
        ∃ styling, (candidateOf name).resolve? = some styling ∧
          rule = ⟨(ClassName.ofString name).selector name styling.target.selector,
            styling.declarations, level⟩ := by
  rw [Ne, ← isContainer_iff, styleRule?]
  split
  · rename_i h
    simp [h]
  · rename_i h
    rw [Option.map_eq_some_iff]
    constructor
    · rintro ⟨styling, hr, rfl⟩
      exact ⟨h, styling, hr, rfl⟩
    · rintro ⟨-, styling, hr, rfl⟩
      exact ⟨styling, hr, rfl⟩

/-- No utility is named like a media query. -/
theorem resolve?_mediaName : ∀ q ∈ MediaQuery.all, (candidateOf q.name).resolve? = none := by
  decide +kernel

theorem styleRule?_mediaName (q : MediaQuery) (level : Nat) : styleRule? q.name level = none := by
  simp [styleRule?, resolve?_mediaName q (MediaQuery.mem_all q)]

theorem apart_arrivals {names : List String} (h : names.Nodup) :
    Arrival.Apart (names.map arrival) := by
  constructor
  · exact List.pairwise_map.2 h
  · intro a ha level hq
    obtain ⟨name, -, rfl⟩ := List.mem_map.1 ha
    obtain ⟨q, hq⟩ := Option.ne_none_iff_exists'.1 hq
    have hname : q.name = name := MediaQuery.name_of_ofName? hq
    rw [arrival_rule?, ← hname]
    exact styleRule?_mediaName q level

theorem apart_eraseDups (names : List String) :
    Arrival.Apart (names.eraseDups.map arrival) := apart_arrivals (Distinct.nodup_eraseDups names)

theorem ofClasses_eraseDups (names : List String) : ofClasses names.eraseDups = ofClasses names := by
  simp only [ofClasses, Distinct.eraseDups_of_nodup (Distinct.nodup_eraseDups names)]

theorem add_of_mem {sheet : Sheet} {name : String} (h : name ∈ sheet.seen) :
    sheet.add name = (sheet, []) := if_pos h

/-- A new class goes its way into the rules at each of the three exits. -/
theorem add_of_not_mem {sheet : Sheet} {name : String} (h : name ∉ sheet.seen) :
    (sheet.add name).1 =
      { rules := (arrival name).place 0 sheet.rules
        containers := if isContainer name then sheet.containers ++ [name] else sheet.containers
        seen := sheet.seen ++ [name] } := by
  have hplace : ∀ f : Nat → Rules → Rules, (arrival name).settle = f →
      atPath f (ClassName.ofString name).media 0 sheet.rules =
        (arrival name).place 0 sheet.rules := by
    rintro f rfl
    rw [Arrival.place, arrival_path, pathOf]
  -- `add` reads the name itself, so `pathOf` and `candidateOf` are opened in each case.
  cases hi : isContainer name with
  | true =>
    have hc := isContainer_iff.1 hi
    unfold candidateOf at hc
    simp only [add, if_neg h, if_pos hc]
    rw [hplace]
    · simp
    · funext level rules
      simp [Arrival.settle, styleRule?, hi]
  | false =>
    have hc := mt isContainer_iff.2 (Bool.eq_false_iff.1 hi)
    have hr : styleRule? name = fun level => (candidateOf name).resolve?.map fun styling =>
        ⟨(ClassName.ofString name).selector name styling.target.selector, styling.declarations,
          level⟩ := by
      funext level
      simp [styleRule?, hi]
    unfold candidateOf at hc hr
    simp only [add, if_neg h, if_neg hc]
    cases ho : (Candidate.ofBase (ClassName.ofString name).base).resolve? with
    | none =>
      simp only
      rw [hplace]
      · simp
      · funext level rules
        simp [Arrival.settle, hr, ho]
    | some styling =>
      simp only
      rw [hplace]
      · simp
      · funext level rules
        simp [Arrival.settle, hr, ho]

/-- One more class leaves the sheet of one more class. -/
theorem add_ofClasses (names : List String) (name : String) :
    ((ofClasses names).add name).1 = ofClasses (names ++ [name]) := by
  by_cases h : name ∈ names
  · rw [add_of_mem (List.mem_eraseDups.2 h)]
    simp [ofClasses, Distinct.eraseDups_snoc, h]
  · rw [add_of_not_mem (mt List.mem_eraseDups.1 h)]
    simp only [ofClasses, Distinct.eraseDups_snoc, h, if_false, List.map_append, List.map_cons,
      List.map_nil, ofArrivals_snoc, List.filter_append, List.filter_cons, List.filter_nil]
    cases isContainer name <;> simp

theorem addAll_ofClasses (names more : List String) :
    ((ofClasses names).addAll more).1 = ofClasses (names ++ more) := by
  induction more generalizing names with
  | nil => simp [addAll]
  | cons name more ih =>
    have h := ih (names ++ [name])
    rw [← add_ofClasses, List.append_assoc] at h
    exact h

end Sheet
end UtilityCss
