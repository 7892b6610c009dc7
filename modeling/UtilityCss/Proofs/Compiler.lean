import UtilityCss.Proofs.Sheet.Classes

namespace UtilityCss.Compiler

/-- The compiler after some calls. -/
def run (c : Compiler) (calls : List (Partition × List String)) : Compiler :=
  calls.foldl (fun c call => (c.add call.1 call.2).1) c

/-- All classes that calls add to one sheet, in order and with repetitions. -/
def classesFor (p : Partition) (calls : List (Partition × List String)) : List String :=
  calls.flatMap fun call => if call.1 = p then call.2 else []

theorem exists_of_mem_classesFor {p : Partition} {calls : List (Partition × List String)}
    {name : String} (h : name ∈ classesFor p calls) : ∃ call ∈ calls, name ∈ call.2 := by
  obtain ⟨call, hc, hname⟩ := List.mem_flatMap.1 h
  split at hname
  · exact ⟨call, hc, hname⟩
  · simp at hname

theorem sheet_add (c : Compiler) (p p' : Partition) (names : List String) :
    (c.add p names).1.sheet p' = if p = p' then ((c.sheet p').addAll names).1 else c.sheet p' := by
  cases p <;> cases p' <;> rfl

theorem layout_add (c : Compiler) (p : Partition) (names : List String) :
    (c.add p names).1.layout = c.layout := by
  cases p <;> rfl

theorem layout_run (c : Compiler) (calls : List (Partition × List String)) :
    (c.run calls).layout = c.layout := by
  induction calls generalizing c with
  | nil => rfl
  | cons call calls ih => exact (ih _).trans (layout_add c call.1 call.2)

/-- Calls on the other sheet pass a sheet by, and those on it add up. -/
theorem sheet_run_of_sheet {c : Compiler} {p : Partition} {names : List String}
    (h : c.sheet p = Sheet.ofClasses names) (calls : List (Partition × List String)) :
    (c.run calls).sheet p = Sheet.ofClasses (names ++ classesFor p calls) := by
  -- The invariant of the run is `h`, for all compilers and all classes so far.
  induction calls generalizing c names with
  | nil => simpa [run, classesFor] using h
  | cons call calls ih =>
    have hstep : (c.add call.1 call.2).1.sheet p =
        Sheet.ofClasses (names ++ if call.1 = p then call.2 else []) := by
      rw [sheet_add]
      split
      · rw [h, Sheet.addAll_ofClasses]
      · rw [h, List.append_nil]
    have hrun := ih hstep
    rw [List.append_assoc] at hrun
    exact hrun

theorem sheet_run (layout : Layout) (p : Partition) (calls : List (Partition × List String)) :
    (({ layout } : Compiler).run calls).sheet p = Sheet.ofClasses (classesFor p calls) := by
  have h : ({ layout } : Compiler).sheet p = Sheet.ofClasses [] := by cases p <;> rfl
  exact sheet_run_of_sheet h calls

theorem text_run (layout : Layout) (p : Partition) (calls : List (Partition × List String)) :
    (({ layout } : Compiler).run calls).text p =
      (Sheet.ofClasses (classesFor p calls)).text layout := by
  rw [text, sheet_run, layout_run]

theorem sheet_add_fresh (layout : Layout) (p : Partition) (names : List String) :
    (({ layout } : Compiler).add p names).1.sheet p = Sheet.ofClasses names := by
  have h := sheet_run layout p [(p, names)]
  rwa [classesFor, List.flatMap_singleton, if_pos rfl] at h

theorem text_add (layout : Layout) (p : Partition) (names : List String) :
    (({ layout } : Compiler).add p names).1.text p = (Sheet.ofClasses names).text layout := by
  rw [text, sheet_add_fresh, layout_add]

end UtilityCss.Compiler
