import UtilityCss.Proofs.Compiler
import Mathlib.Algebra.GroupWithZero.Nat

namespace UtilityCss

/-- The class that a diagnostic is about. -/
def Diagnostic.class? : Diagnostic → Option String
  | unknownModifier _ name | noUtility name | deferredContainer name => some name
  | _ => none

/-- The count that a diagnostic gives of the classes new to a sheet. -/
def Diagnostic.added? (p : Partition) : Diagnostic → Option Nat
  | added q count => if q = p then some count else none
  | _ => none

/-- The classes among `names` that are not among those before, each at its first place. -/
def newcomers (before names : List String) : List String :=
  (names.filter fun name => name ∉ before).eraseDups

theorem mem_newcomers {before names : List String} {name : String} :
    name ∈ newcomers before names ↔ name ∈ names ∧ name ∉ before := by
  simp [newcomers]

theorem newcomers_congr {before before' : List String} (h : ∀ name, name ∈ before ↔ name ∈ before')
    (names : List String) : newcomers before names = newcomers before' names := by
  simp only [newcomers, h]

theorem eraseDups_append_newcomers (before names : List String) :
    (before ++ names).eraseDups = before.eraseDups ++ newcomers before names := by
  simp [List.eraseDups_append, List.removeAll, newcomers]

theorem newcomers_cons (before : List String) (name : String) (names : List String) :
    newcomers before (name :: names) =
      (if name ∈ before then [] else [name]) ++ newcomers (before ++ [name]) names := by
  by_cases h : name ∈ before
  · have hsame : ∀ other, other ∉ before ++ [name] ↔ other ∉ before := by
      intro other
      by_cases ho : other = name <;> simp [ho, h]
    simp only [newcomers, hsame, List.filter_cons, h]
    simp
  · have hboth : ∀ other, decide (other ∉ before ++ [name]) =
        (!other == name && decide (other ∉ before)) := by
      intro other
      by_cases ho : other = name <;> simp [ho]
    simp only [newcomers, hboth, List.filter_cons_of_pos, h, not_false_eq_true, decide_true,
      List.eraseDups_cons, List.filter_filter, if_false]
    rfl

namespace Sheet

/-- What is reported of a class: its unknown modifiers, and then how it went where it got no rule of its
own. -/
def diagnosticsOf (name : String) : List Diagnostic :=
  (ClassName.ofString name).unknown.map (fun modifier => .unknownModifier modifier name) ++
    if isContainer name then [.deferredContainer name]
    else if (candidateOf name).resolve?.isSome then [] else [.noUtility name]

theorem class?_of_mem_diagnosticsOf {name : String} {d : Diagnostic} (h : d ∈ diagnosticsOf name) :
    d.class? = some name := by
  rcases List.mem_append.1 h with hm | hm
  · obtain ⟨modifier, -, rfl⟩ := List.mem_map.1 hm
    rfl
  · split at hm
    · rw [List.mem_singleton.1 hm]
      rfl
    · split at hm
      · simp at hm
      · rw [List.mem_singleton.1 hm]
        rfl

/-- A class that has come before is passed over at once. -/
theorem diagnostics_add (sheet : Sheet) (name : String) :
    (sheet.add name).2 = if name ∈ sheet.seen then [] else diagnosticsOf name := by
  split
  · rename_i h
    rw [add_of_mem h]
  · rename_i h
    cases hi : isContainer name with
    | true =>
      have hc := isContainer_iff.1 hi
      unfold candidateOf at hc
      simp only [add, if_neg h, if_pos hc, diagnosticsOf, hi, if_true]
    | false =>
      have hc := mt isContainer_iff.2 (Bool.eq_false_iff.1 hi)
      simp only [diagnosticsOf, hi, Bool.false_eq_true, if_false]
      unfold candidateOf at hc ⊢
      simp only [add, if_neg h, if_neg hc]
      cases (Candidate.ofBase (ClassName.ofString name).base).resolve? <;> simp

theorem diagnostics_addAll_ofClasses (before names : List String) :
    ((ofClasses before).addAll names).2 = (newcomers before names).flatMap diagnosticsOf := by
  induction names generalizing before with
  | nil => rfl
  | cons name names ih =>
    have hadd : ((ofClasses before).add name).2 =
        (if name ∈ before then [] else [name]).flatMap diagnosticsOf := by
      rw [diagnostics_add]
      simp only [ofClasses, List.mem_eraseDups]
      split <;> simp
    have hrest := ih (before ++ [name])
    rw [← add_ofClasses] at hrest
    rw [newcomers_cons, List.flatMap_append, ← hadd, ← hrest]
    rfl

/-- Among what is reported of newcomers, each has its own diagnostics and no others. -/
theorem filter_class?_flatMap {names : List String} (h : names.Nodup) (name : String) :
    (names.flatMap diagnosticsOf).filter (fun d => d.class? = some name) =
      if name ∈ names then diagnosticsOf name else [] := by
  have hown : ∀ other, (diagnosticsOf other).filter (fun d => d.class? = some name) =
      if other = name then diagnosticsOf other else [] := by
    intro other
    split
    · rename_i he
      exact List.filter_eq_self.2 fun d hd => by simp [class?_of_mem_diagnosticsOf hd, he]
    · rename_i he
      exact List.filter_eq_nil_iff.2 fun d hd => by simp [class?_of_mem_diagnosticsOf hd, he]
  induction names with
  | nil => rfl
  | cons other names ih =>
    obtain ⟨hother, hnames⟩ := List.nodup_cons.1 h
    rw [List.flatMap_cons, List.filter_append, hown, ih hnames]
    by_cases he : other = name
    · subst he
      simp [hother]
    · simp [he, Ne.symm he]

end Sheet

namespace Compiler
open Sheet

/-- What each of some calls reports. -/
def reports (c : Compiler) : List (Partition × List String) → List (List Diagnostic)
  | [] => []
  | call :: calls => (c.add call.1 call.2).2 :: (c.add call.1 call.2).1.reports calls

theorem reports_append (c : Compiler) (earlier later : List (Partition × List String)) :
    c.reports (earlier ++ later) = c.reports earlier ++ (c.run earlier).reports later := by
  induction earlier generalizing c with
  | nil => rfl
  | cons call earlier ih =>
    simp only [List.cons_append, reports, ih]
    rfl

theorem length_reports (c : Compiler) (calls : List (Partition × List String)) :
    (c.reports calls).length = calls.length := by
  induction calls generalizing c with
  | nil => rfl
  | cons call calls ih => simp [reports, ih]

/-- A call reports of its newcomers one after the other, and then how many they are. -/
theorem diagnostics_add_run (layout : Layout) (earlier : List (Partition × List String))
    (p : Partition) (names : List String) :
    ((({ layout } : Compiler).run earlier).add p names).2 =
      (newcomers (classesFor p earlier) names).flatMap diagnosticsOf ++
        [.added p (newcomers (classesFor p earlier) names).length] := by
  have hcount : (ofClasses (classesFor p earlier ++ names)).seen.length -
      (ofClasses (classesFor p earlier)).seen.length =
        (newcomers (classesFor p earlier) names).length := by
    simp only [ofClasses, eraseDups_append_newcomers, List.length_append]
    omega
  simp only [add, sheet_run, diagnostics_addAll_ofClasses, addAll_ofClasses, hcount]

theorem reports_getElem? {layout : Layout} {calls earlier later : List (Partition × List String)}
    {p : Partition} {names : List String} (h : calls = earlier ++ (p, names) :: later) :
    (({ layout } : Compiler).reports calls)[earlier.length]? =
      some ((newcomers (classesFor p earlier) names).flatMap diagnosticsOf ++
        [.added p (newcomers (classesFor p earlier) names).length]) := by
  rw [h, reports_append, List.getElem?_append_right (Nat.le_of_eq (length_reports _ _)), length_reports,
    Nat.sub_self, reports, diagnostics_add_run]
  rfl

theorem filterMap_added? (p q : Partition) (names : List String) (count : Nat) :
    (names.flatMap diagnosticsOf ++ [Diagnostic.added q count]).filterMap (Diagnostic.added? p) =
      if q = p then [count] else [] := by
  have hnone : ∀ d ∈ names.flatMap diagnosticsOf, d.added? p = none := by
    intro d hd
    obtain ⟨name, -, hm⟩ := List.mem_flatMap.1 hd
    have hclass := class?_of_mem_diagnosticsOf hm
    cases d <;> first | rfl | cases hclass
  rw [List.filterMap_append, List.filterMap_eq_nil_iff.2 hnone]
  by_cases h : q = p <;> simp [Diagnostic.added?, h]

theorem sum_added (layout : Layout) (calls : List (Partition × List String)) (p : Partition) :
    ((({ layout } : Compiler).reports calls).flatten.filterMap (Diagnostic.added? p)).sum =
      (classesFor p calls).eraseDups.length := by
  induction calls using List.reverseRecOn with
  | nil => rfl
  | append_singleton calls call ih =>
    obtain ⟨q, names⟩ := call
    have hclasses : classesFor p (calls ++ [(q, names)]) =
        classesFor p calls ++ if q = p then names else [] := by
      simp [classesFor]
    rw [reports_append, reports, reports, diagnostics_add_run, List.flatten_append,
      List.filterMap_append, List.sum_append, ih, List.flatten_singleton, filterMap_added?, hclasses,
      eraseDups_append_newcomers, List.length_append]
    by_cases h : q = p
    · simp [h]
    · simp [h, newcomers]

/-- Calls as one sheet sees them: it becomes what one call with its own distinct classes makes of it,
and each of these is reported on by the call that it comes with first. -/
structure Batched (layout : Layout) (calls : List (Partition × List String)) (p : Partition) :
    Prop where
  sheet_eq : (({ layout } : Compiler).run calls).sheet p =
    (({ layout } : Compiler).add p (classesFor p calls).eraseDups).1.sheet p
  text_eq : (({ layout } : Compiler).run calls).text p =
    (({ layout } : Compiler).add p (classesFor p calls).eraseDups).1.text p
  sheet_other (c : Compiler) {q : Partition} (names : List String) : q ≠ p →
    (c.add q names).1.sheet p = c.sheet p
  report_eq {earlier later names} : calls = earlier ++ (p, names) :: later →
    (({ layout } : Compiler).reports calls)[earlier.length]? =
      some ((newcomers (classesFor p earlier) names).flatMap diagnosticsOf ++
        [.added p (newcomers (classesFor p earlier) names).length])
  report_of_class {earlier later names report} (name : String) :
    calls = earlier ++ (p, names) :: later →
    (({ layout } : Compiler).reports calls)[earlier.length]? = some report →
    report.filter (fun d => d.class? = some name) =
      if name ∈ names ∧ name ∉ classesFor p earlier then diagnosticsOf name else []
  sum_added : ((({ layout } : Compiler).reports calls).flatten.filterMap
    (Diagnostic.added? p)).sum = (classesFor p calls).eraseDups.length

theorem batched_run (layout : Layout) (calls : List (Partition × List String)) (p : Partition) :
    Batched layout calls p where
  sheet_eq := by rw [sheet_run, sheet_add_fresh, ofClasses_eraseDups]
  text_eq := by rw [text_run, text_add, ofClasses_eraseDups]
  sheet_other c q names h := by rw [sheet_add, if_neg h]
  report_eq := reports_getElem?
  report_of_class := by
    intro earlier later names report name h hreport
    rw [reports_getElem? h, Option.some_inj] at hreport
    have hnodup : (newcomers (classesFor p earlier) names).Nodup := Distinct.nodup_eraseDups _
    rw [← hreport, List.filter_append, filter_class?_flatMap hnodup]
    simp [Diagnostic.class?, mem_newcomers]
  sum_added := sum_added layout calls p

end Compiler
end UtilityCss
