import UtilityCss.Sheet.Basic
import UtilityCss.Proofs.Sheet.Tree
import Mathlib.Data.List.Perm.Basic

namespace UtilityCss

namespace RuleTree
open Rules (isMediaName)

section arrange
variable (entries : List (String × Rule))

theorem arrange_perm : (arrange entries).Perm entries :=
  List.perm_append_comm.trans (List.filter_append_perm (fun e => isMediaName e.1) entries)

theorem pairwise_arrange :
    (arrange entries).Pairwise fun a b => isMediaName a.1 → isMediaName b.1 := by
  -- Only a pair of a media query and a plain key can be out of order.
  have hplain : ∀ a ∈ entries.filter (fun e => !isMediaName e.1), isMediaName a.1 = false := by
    intro a ha
    simpa using (List.mem_filter.1 ha).2
  have hmedia : ∀ b ∈ entries.filter (fun e => isMediaName e.1), isMediaName b.1 := by
    intro b hb
    exact (List.mem_filter.1 hb).2
  refine List.pairwise_append.2 ⟨?_, ?_, fun a _ b hb _ => hmedia b hb⟩
  · apply List.pairwise_of_forall_mem_list
    intro a ha b _ h
    rw [hplain a ha] at h
    cases h
  · apply List.pairwise_of_forall_mem_list
    intro a _ b hb _
    exact hmedia b hb

theorem filter_arrange (media : Bool) :
    (arrange entries).filter (fun e => isMediaName e.1 == media) =
      entries.filter fun e => isMediaName e.1 == media := by
  cases media <;> simp [arrange, List.filter_filter]

theorem arrange_arrange : arrange (arrange entries) = arrange entries := by
  have hplain := filter_arrange entries false
  have hmedia := filter_arrange entries true
  simp only [beq_false, beq_true] at hplain hmedia
  rw [arrange, hplain, hmedia, ← arrange]

theorem arrange_map (f : Rule → Rule) :
    arrange (entries.map fun e => (e.1, f e.2)) = (arrange entries).map fun e => (e.1, f e.2) := by
  simp only [arrange, List.filter_map, List.map_append]
  rfl

theorem lookup_filter (p : String → Bool) (key : String) :
    (entries.filter fun e => p e.1).lookup key = if p key then entries.lookup key else none := by
  induction entries with
  | nil => simp
  | cons e entries ih =>
    obtain ⟨k, rule⟩ := e
    by_cases hk : key = k
    · subst hk
      by_cases hp : p key <;> simp [hp, ih]
    · rw [lookup_cons_of_ne _ _ hk, ← ih]
      by_cases hp : p k <;> simp [hp, lookup_cons_of_ne _ _ hk]

theorem lookup_arrange (key : String) : (arrange entries).lookup key = entries.lookup key := by
  rw [arrange, List.lookup_append, lookup_filter entries (fun k => !isMediaName k), lookup_filter]
  cases isMediaName key <;> simp

end arrange

theorem hoistInside_eq (entries : List (String × Rule)) :
    hoistInside entries = entries.map fun e => (e.1, e.2.hoist) := by
  induction entries with
  | nil => rfl
  | cons e entries ih => rw [hoistInside, ih, List.map_cons]

theorem hoist_eq (t : RuleTree) :
    t.hoist = ⟨t.level, (arrange t.entries).map fun e => (e.1, e.2.hoist)⟩ := by
  cases t
  rw [hoist, hoistInside_eq, arrange_map]

theorem inside?_hoist (rule : Rule) : rule.hoist.inside? = rule.inside?.map hoist := by
  obtain ⟨preamble, body, postamble⟩ := rule
  cases body <;> rfl

theorem at?_hoist (path : List String) (t : RuleTree) :
    at? path t.hoist = (at? path t).map hoist := by
  induction path generalizing t with
  | nil => rfl
  | cons key path ih =>
    have hscope : t.hoist.scope? key = (t.scope? key).map hoist := by
      simp only [scope?, get?, hoist_eq t, lookup_map, lookup_arrange]
      cases t.entries.lookup key with
      | none => rfl
      | some rule => exact inside?_hoist rule
    rw [at?, at?, hscope]
    cases t.scope? key with
    | none => rfl
    | some inside => exact ih inside

/-- A second hoisting finds every tree in order. -/
theorem hoist_hoist (t : RuleTree) : t.hoist.hoist = t.hoist := by
  induction t using RuleTree.induction with
  | step t ih =>
    have hrule : ∀ e ∈ t.entries, e.2.hoist.hoist = e.2.hoist := by
      rintro ⟨key, preamble, body, postamble⟩ he
      cases body with
      | declarations text => rfl
      | scope tree => simp only [Rule.hoist, ih _ he tree rfl]
    rw [hoist_eq t, hoist_eq, arrange_map, arrange_arrange, List.map_map]
    congr 1
    apply List.map_congr_left
    intro e he
    simp only [Function.comp_apply, hrule e ((arrange_perm _).mem_iff.1 he)]

end RuleTree

theorem Rule.hollow_hoist (rule : Rule) : rule.hoist.hollow = rule.hollow := by
  obtain ⟨preamble, body, postamble⟩ := rule
  cases body with
  | declarations text => rfl
  | scope tree => simp only [hoist, hollow, RuleTree.hoist_eq tree]

namespace RuleTree
open Rules (isMediaName)

theorem hollow_hoist (t : RuleTree) : t.hoist.hollow = arrange t.hollow := by
  rw [hoist_eq, hollow, hollow, arrange_map, List.map_map]
  apply List.map_congr_left
  intro e _
  simp only [Function.comp_apply, Rule.hollow_hoist]

/-- A tree and what a reordering makes of it. The same paths of keys lead to trees in both, and the two at
the end of a path have the same rules, plain keys before the names of media queries. -/
structure Reordered (t t' : RuleTree) : Prop where
  level_at? (path) : (at? path t').map level = (at? path t).map level
  perm {path s s'} : at? path t = some s → at? path t' = some s' → s'.hollow.Perm s.hollow
  media_last {path s s'} : at? path t = some s → at? path t' = some s' →
    s'.hollow.Pairwise fun a b => isMediaName a.1 → isMediaName b.1
  /-- Neither among the plain keys nor among the names of media queries do two change places. -/
  stable {path s s'} (media : Bool) : at? path t = some s → at? path t' = some s' →
    s'.hollow.filter (fun e => isMediaName e.1 == media) =
      s.hollow.filter fun e => isMediaName e.1 == media

theorem hollow_of_at?_hoist {path : List String} {t s s' : RuleTree} (h : at? path t = some s)
    (h' : at? path t.hoist = some s') : s'.hollow = arrange s.hollow := by
  rw [at?_hoist, h] at h'
  cases h'
  exact hollow_hoist s

theorem reordered_hoist (t : RuleTree) : Reordered t t.hoist where
  level_at? path := by
    rw [at?_hoist, Option.map_map]
    congr 1
    funext s
    simp only [Function.comp_apply, hoist_eq]
  perm h h' := by
    rw [hollow_of_at?_hoist h h']
    exact arrange_perm _
  media_last h h' := by
    rw [hollow_of_at?_hoist h h']
    exact pairwise_arrange _
  stable media h h' := by
    rw [hollow_of_at?_hoist h h']
    exact filter_arrange _ media

end RuleTree

namespace Rules
variable (layout : Layout)

theorem isMediaName_name (q : MediaQuery) : isMediaName q.name := by
  simp [isMediaName, MediaQuery.ofName?_name]

theorem hoist_leaf (rule : StyleRule) : (Rule.leaf layout rule).hoist = .leaf layout rule := rfl

theorem entries_plain (r : Rules) : r.plain.entries layout =
    (RuleTree.hoistInside (r.entries layout)).filter fun e => !isMediaName e.1 := by
  induction r with
  | nil => rfl
  | style key rule rest ih =>
    cases hk : isMediaName key <;>
      simp [plain, entries, RuleTree.hoistInside, hoist_leaf, hk, ih]
  | media l q inner rest _ ih => simp [plain, entries, RuleTree.hoistInside, isMediaName_name, ih]

theorem entries_responsive (r : Rules) : r.responsive.entries layout =
    (RuleTree.hoistInside (r.entries layout)).filter fun e => isMediaName e.1 := by
  induction r with
  | nil => rfl
  | style key rule rest ih =>
    cases hk : isMediaName key <;>
      simp [responsive, entries, RuleTree.hoistInside, hoist_leaf, hk, ih]
  | media l q inner rest ihinner ih =>
    have hblock : (Rule.block layout l q ⟨l + 1, inner.entries layout⟩).hoist =
        .block layout l q ⟨l + 1, (inner.plain ++ inner.responsive).entries layout⟩ := by
      rw [entries_append, entries_plain, ihinner]
      rfl
    simp [responsive, entries, RuleTree.hoistInside, isMediaName_name, hblock, ih]

/-- The cascade is what hoisting leaves. -/
theorem hoist_tree (level : Nat) (r : Rules) :
    (r.tree layout level).hoist = r.cascade.tree layout level := by
  rw [tree, RuleTree.hoist, RuleTree.arrange, ← entries_plain, ← entries_responsive,
    ← entries_append]
  rfl

end Rules

/-- Hoisting is a stable reordering of any tree at every depth, and a second one changes nothing. The text
of a sheet is that of its hoisted tree. -/
theorem RuleTree.hoist_reorders :
    (∀ t : RuleTree, Reordered t t.hoist ∧ t.hoist.hoist = t.hoist) ∧
      ∀ (layout : Layout) (sheet : Sheet),
        sheet.text layout = ((sheet.expanded layout).tree layout 0).hoist.text := by
  refine ⟨fun t => ⟨reordered_hoist t, hoist_hoist t⟩, fun layout sheet => ?_⟩
  rw [Rules.hoist_tree, Rules.text_tree, Sheet.text]

example (sm a : Rule) : (RuleTree.hoist ⟨0, [("sm", sm), ("a", a)]⟩).keys = ["a", "sm"] := rfl

end UtilityCss
