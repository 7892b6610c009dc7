import UtilityCss.Proofs.Compiler
import Mathlib.Algebra.Order.BigOperators.Group.List
import Mathlib.Algebra.Order.Ring.Nat

namespace UtilityCss.Sheet
open Rules Arrival

/-- The media query behind `p` in a path that begins with `p`. -/
def nextQuery? (p path : List MediaQuery) : Option MediaQuery := (path.dropPrefix? p).bind List.head?

/-- The media queries that follow a path in those of classes, in the order of the first class. -/
def queriesAt (names : List String) (p : List MediaQuery) : List MediaQuery :=
  (names.filterMap fun name => nextQuery? p (pathOf name)).eraseDups

/-- The rules of the classes that stand at a path. -/
def stylesAt (names : List String) (p : List MediaQuery) : List StyleRule :=
  (names.filter fun name => pathOf name = p).filterMap fun name => styleRule? name p.length

/-- The rule of the containers at a path, which has the selectors of all of them and one declaration: full
width outermost, and in the block of a breakpoint its size. -/
def containerRuleAt? (layout : Layout) (containers : List String) (p : List MediaQuery) :
    Option StyleRule :=
  if containers = [] then none
  else match p with
    | [] => some ⟨selectorList layout 0 containers, [⟨"width", "100%"⟩], 0⟩
    | [.breakpoint b] => some ⟨selectorList layout 1 containers, [⟨"max-width", b.size⟩], 1⟩
    | _ => none

theorem nextQuery?_eq_some {p path : List MediaQuery} {q : MediaQuery} :
    nextQuery? p path = some q ↔ p ++ [q] <+: path := by
  simp only [nextQuery?, Option.bind_eq_some_iff, List.dropPrefix?_eq_some_iff, beq_iff_eq,
    List.head?_eq_some_iff]
  constructor
  · rintro ⟨_, ⟨_, rfl, rfl⟩, rest, rfl⟩
    exact ⟨rest, by simp⟩
  · rintro ⟨rest, rfl⟩
    exact ⟨q :: rest, ⟨p, by simp, rfl⟩, rest, rfl⟩

theorem mem_queriesAt {names : List String} {p : List MediaQuery} {q : MediaQuery} :
    q ∈ queriesAt names p ↔ ∃ name ∈ names, p ++ [q] <+: pathOf name := by
  simp [queriesAt, nextQuery?_eq_some]

theorem nodup_queriesAt (names : List String) (p : List MediaQuery) : (queriesAt names p).Nodup :=
  Distinct.nodup_eraseDups _

/-- A bound on the paths of some classes. -/
def depth (names : List String) : Nat := (names.map fun name => (pathOf name).length).sum

theorem lt_depth {names : List String} {p : List MediaQuery} {q : MediaQuery}
    (h : q ∈ queriesAt names p) : p.length < depth names := by
  obtain ⟨name, hn, hp⟩ := mem_queriesAt.1 h
  have hle : (pathOf name).length ≤ depth names :=
    List.single_le_sum (by simp) _ (List.mem_map.2 ⟨name, hn, rfl⟩)
  have hlen := hp.length_le
  rw [List.length_append, List.length_singleton] at hlen
  omega

/-- The text of distinct classes at a path: first the rules of those that stand there, then that of the
containers, last a block for each media query that goes on. -/
def textAt (layout : Layout) (names : List String) (p : List MediaQuery) : String :=
  String.join ((stylesAt names p).map (StyleRule.text layout)) ++
  String.join ((containerRuleAt? layout (names.filter isContainer) p).toList.map
    (StyleRule.text layout)) ++
  String.join ((queriesAt names p).attach.map fun q =>
    wrap layout p.length q.1 (textAt layout names (p ++ [q.1])))
termination_by depth names - p.length
decreasing_by
  have h := lt_depth q.2
  rw [List.length_append, List.length_singleton]
  omega

theorem textAt_eq (layout : Layout) (names : List String) (p : List MediaQuery) :
    textAt layout names p =
      String.join ((stylesAt names p).map (StyleRule.text layout)) ++
      String.join ((containerRuleAt? layout (names.filter isContainer) p).toList.map
        (StyleRule.text layout)) ++
      String.join ((queriesAt names p).map fun q =>
        wrap layout p.length q (textAt layout names (p ++ [q]))) := by
  rw [textAt]
  congr 2
  exact List.attach_map_val (f := fun q => wrap layout p.length q (textAt layout names (p ++ [q])))

/-- Induction along the media queries that go on from a path. -/
theorem queries_induction (names : List String) {P : List MediaQuery → Prop}
    (step : ∀ p, (∀ q ∈ queriesAt names p, P (p ++ [q])) → P p) (p : List MediaQuery) : P p := by
  induction hn : depth names - p.length using Nat.strong_induction_on generalizing p with
  | _ n ih =>
    apply step
    intro q hq
    have hlt := lt_depth hq
    refine ih (depth names - (p ++ [q]).length) ?_ (p ++ [q]) rfl
    rw [List.length_append, List.length_singleton]
    omega

/-- The rules that distinct classes build at a path. -/
def builtAt (names : List String) (p : List MediaQuery) : Rules :=
  ofArrivals p.length (past p (names.map arrival))

theorem opened_past (names : List String) (p : List MediaQuery) :
    opened (past p (names.map arrival)) = queriesAt names p := by
  simp only [opened, past, queriesAt, List.filterMap_filterMap, List.filterMap_map]
  congr 2
  funext name
  simp only [Function.comp_apply, arrival_path, nextQuery?]
  cases (pathOf name).dropPrefix? p <;> rfl

theorem settled_past (names : List String) (p : List MediaQuery) :
    settled p.length (past p (names.map arrival)) =
      (names.filter fun name => pathOf name = p).filterMap fun name =>
        (styleRule? name p.length).map (name, ·) := by
  simp only [settled, past, List.filterMap_filterMap, List.filterMap_map, List.filterMap_filter]
  congr 1
  funext name
  simp only [Function.comp_apply, arrival_path, arrival_key, arrival_rule?, decide_eq_true_eq]
  -- A class stands at `p` if its path begins with `p` and nothing is left.
  cases hd : (pathOf name).dropPrefix? p with
  | none =>
    have hne : pathOf name ≠ p := by
      rintro rfl
      rw [← List.append_nil (pathOf name), List.dropPrefix?_append_of_beq] at hd <;> simp_all
    simp [hne]
  | some rest =>
    obtain ⟨_, hp, hq⟩ := List.dropPrefix?_eq_some_iff.1 hd
    rw [beq_iff_eq.1 hq] at hp
    by_cases hr : rest = [] <;> simp [hp, hr]

section builtAt
variable {names : List String} (hn : names.Nodup) (p : List MediaQuery)
include hn

theorem apart_past : Apart (past p (names.map arrival)) := (apart_arrivals hn).past p

theorem separate_builtAt : (builtAt names p).Separate :=
  separate_ofArrivals p.length (apart_past hn p)

theorem nodup_keys_builtAt : (builtAt names p).keys.Nodup :=
  nodup_keys_ofArrivals p.length (apart_past hn p)

theorem styles_builtAt : (builtAt names p).styles =
    (names.filter fun name => pathOf name = p).filterMap fun name =>
      (styleRule? name p.length).map (name, ·) := by
  rw [builtAt, (contents_ofArrivals _ (apart_past hn p)).1, settled_past]

theorem blocks_builtAt : (builtAt names p).blocks =
    (queriesAt names p).map fun q => ⟨p.length, q, builtAt names (p ++ [q])⟩ := by
  rw [builtAt, (contents_ofArrivals _ (apart_past hn p)).2, opened_past]
  simp only [builtAt, past_append, List.length_append, List.length_singleton]

/-- A container is no rule of its own, so the key of those that all of them share is free. -/
theorem containerKey_notMem_builtAt : containerKey ∉ (builtAt names p).keys := by
  rw [mem_keys]
  rintro (⟨rule, hm⟩ | ⟨b, -, hq⟩)
  · rw [styles_builtAt hn p, List.mem_filterMap] at hm
    obtain ⟨name, -, hrule⟩ := hm
    obtain ⟨rule', hrule', he⟩ := Option.map_eq_some_iff.1 hrule
    cases he
    have hc : isContainer containerKey = true := by decide +kernel
    rw [styleRule?_of_isContainer hc] at hrule'
    cases hrule'
  · have hall : ∀ q ∈ MediaQuery.all, q.name ≠ containerKey := by decide
    exact hall b.query (MediaQuery.mem_all _) hq

end builtAt

/-- What a path leads to in the sheet of some classes. -/
theorem atPath?_ofClasses (names : List String) (p : List MediaQuery) :
    atPath? p 0 (ofClasses names).rules =
      if p = [] ∨ ∃ name ∈ names, p <+: pathOf name
      then some (p.length, builtAt names.eraseDups p) else none := by
  have hiff : (p = [] ∨ ∃ a ∈ names.eraseDups.map arrival, p <+: a.path) ↔
      (p = [] ∨ ∃ name ∈ names, p <+: pathOf name) := by simp
  rw [ofClasses, atPath?_ofArrivals p 0 (apart_eraseDups names), if_congr hiff rfl rfl,
    Nat.zero_add]
  rfl

end UtilityCss.Sheet
