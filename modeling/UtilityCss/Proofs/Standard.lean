import UtilityCss.Standard
import UtilityCss.Proofs.Glob.Spelling
import UtilityCss.Proofs.Libraries
import Mathlib.Data.List.Basic

namespace UtilityCss

namespace Glob

theorem hasFileName_of_names {directory : String} {names : List String} (hne : names ≠ [])
    (hn : ∀ n ∈ names, Path.IsName n.toList) :
    hasFileName (directory ++ "/" ++ "/".intercalate names) := by
  have hparts : Path.parts (directory ++ "/" ++ "/".intercalate names) =
      Path.parts directory ++ names.map String.toList := by
    rw [← Path.parts_names hn hne]
    have h := Path.parts_slash directory.toList ("/".intercalate names).toList
    rw [String.ofList_toList, String.ofList_toList] at h
    rw [← h]
    congr 1
    exact String.toList_inj.1 (by simp)
  have hlast := List.getLast?_eq_some_getLast (l := names.map String.toList) (by simpa using hne)
  rw [hasFileName, hparts, List.getLast?_append_of_ne_nil _ (by simpa using hne), hlast]
  obtain ⟨n, hm, hlast⟩ := List.mem_map.1 (List.getLast_mem (l := names.map String.toList)
    (by simpa using hne))
  rw [← hlast]
  simpa using (hn n hm).ne_parent

theorem deepFault?_concat (globs : List Glob) {g : Glob} (hg : g.isTooDeep = false) :
    deepFault? (globs ++ [g]) = deepFault? globs := by
  have hextending : ([g].filter (·.criterion = .extensionAndSigns)).find? (·.isTooDeep) = none := by
    rw [List.find?_eq_none]
    intro g' hg'
    rw [List.mem_singleton.1 (List.mem_filter.1 hg').1, hg]
    decide
  have hothers : ([g].filter (·.criterion = .signs)).findIdx? (·.isTooDeep) = none := by
    rw [List.findIdx?_eq_none_iff]
    intro g' hg'
    rw [List.mem_singleton.1 (List.mem_filter.1 hg').1, hg]
  simp only [deepFault?, List.filter_append, List.find?_append, List.findIdx?_append, hextending,
    hothers, Option.or_none, Option.map_none]

theorem readPattern_iff {pattern : String} {g : Glob} :
    readPattern pattern = .ok g ↔ ofPattern pattern = .ok g := by
  rw [readPattern]
  cases ofPattern pattern <;> simp [Except.mapError]

theorem build_of_concat {globs : List Glob} {g : Glob} (hg : g.isTooDeep = false) {fault : String}
    (h : build (globs ++ [g]) = .error fault) : build globs = .error fault := by
  rw [build, deepFault?_concat globs hg] at h
  rw [build]
  cases hdeep : deepFault? globs with
  | none => rw [hdeep] at h; cases h
  | some fault => rwa [hdeep] at h

theorem eq_of_build {globs set : List Glob} (h : build globs = .ok set) : set = globs := by
  rw [build] at h
  cases hdeep : deepFault? globs with
  | none => rw [hdeep] at h; exact (Except.ok.inj h).symm
  | some fault => rw [hdeep] at h; cases h

end Glob

open Glob in
theorem GlobLibrary.documented_standard : GlobLibrary.standard.Documented where
  whole hg hplain h := eq_of_admits (readPattern_iff.1 hg) h hplain
  starts hg hpattern hplain h := starts_of_admits (readPattern_iff.1 hg) h hpattern hplain
  read_below hplain := by
    obtain ⟨g, hg, -⟩ := ofPattern_directory hplain
    show (readPattern _).isOk
    rw [readPattern_iff.2 hg]
    rfl
  admits_below {directory g names} hplain hg hne hn := by
    obtain ⟨g', hg', -, hadmits⟩ := ofPattern_directory hplain
    obtain rfl : g = g' := Except.ok.inj ((readPattern_iff.1 hg).symm.trans hg')
    exact hadmits _ ("/".intercalate names).toList (by simp) (hasFileName_of_names hne hn)
  build_below {directory g globs fault} hplain hg h := by
    obtain ⟨g', hg', hdeep, -⟩ := ofPattern_directory hplain
    obtain rfl : g = g' := Except.ok.inj ((readPattern_iff.1 hg).symm.trans hg')
    exact build_of_concat hdeep h
  isMatch_iff {globs set path} h := by
    obtain rfl := eq_of_build h
    exact List.any_eq_true

namespace FileTree

/-- The locations of the files below a directory. -/
def filesBelow (t : FileTree) (l : Location) : List Location :=
  t.locations.filter fun k => (t.fileAt? k).isSome && (l.isPrefixOf k && l != k)

/-- The files below a directory come in the order of all locations. -/
theorem map_below {t : FileTree} (h : t.Sound) (l : Location) :
    ((t.below l).map Prod.fst).map (l ++ ·) = t.filesBelow l := by
  rw [below, List.map_filterMap, List.map_filterMap, filesBelow, locations,
    ← List.filterMap_eq_filter, List.filterMap_map]
  apply List.filterMap_congr
  rintro ⟨k, e⟩ hm
  have hk := h.find?_of_mem hm
  cases e with
  | directory => simp [fileAt?, hk, content?, Option.guard]
  | file content =>
    by_cases hp : l <+: k
    · obtain ⟨names, rfl⟩ := hp
      by_cases hne : names = [] <;> simp [fileAt?, hk, content?, Option.guard, hne]
    · simp [fileAt?, hk, content?, Option.guard, hp]

theorem mem_filesBelow {t : FileTree} {l k : Location} : k ∈ t.filesBelow l ↔
    (t.fileAt? k).isSome ∧ l <+: k ∧ l ≠ k := by
  rw [filesBelow, List.mem_filter, Bool.and_eq_true, Bool.and_eq_true, List.isPrefixOf_iff_prefix,
    bne_iff_ne, and_iff_right_iff_imp]
  rintro ⟨hfile, -⟩
  have hne : k ≠ [] := by
    rintro rfl
    cases hfile
  exact (mem_locations_iff t hne).2 (Option.isSome_of_isSome_bind hfile)

end FileTree

namespace Walker
open FileTree

theorem history_eq (t : FileTree) (l : Location) :
    history t l = (List.range l.length).map fun n => t.locations.idxOf (l.take (n + 1)) := by
  simp only [history, locations, List.idxOf, List.findIdx_map]
  rfl

/-- New entries come behind, and change no history. -/
theorem history_of_order {t t' : FileTree} (h : t.Sound) (horder : t.locations <+: t'.locations)
    {l : Location} (hl : l ∈ t.locations) : history t' l = history t l := by
  obtain ⟨more, hmore⟩ := horder
  rw [history_eq, history_eq, ← hmore]
  apply List.map_congr_left
  intro n hn
  refine List.idxOf_append_of_mem (h.mem_of_prefix hl (List.take_prefix _ _) ?_)
  have hlength := List.mem_range.1 hn
  cases l with
  | nil => cases hlength
  | cons _ _ => simp

/-- Histories tell locations apart. -/
theorem eq_of_history_eq {t : FileTree} {l k : Location} (hl : l ∈ t.locations)
    (h : history t l = history t k) : l = k := by
  rw [history_eq, history_eq] at h
  have hlength : l.length = k.length := by simpa using congrArg List.length h
  cases hn : l.length with
  | zero =>
    rw [List.length_eq_zero_iff.1 hn, List.length_eq_zero_iff.1 (hlength.symm.trans hn)]
  | succ n =>
    have hn' := hlength.symm.trans hn
    rw [hn, hn', List.range_succ, List.map_append, List.map_append] at h
    have hlast := (List.append_inj' h rfl).2
    simp only [List.map_cons, List.map_nil, List.cons.injEq, and_true] at hlast
    rw [List.take_of_length_le (by omega), List.take_of_length_le (by omega)] at hlast
    exact (List.idxOf_inj hl).1 hlast

theorem perm_inOrder (t : FileTree) (ls : List Location) : (inOrder t ls).Perm ls := by
  have hsorted := (List.mergeSort_perm (ls.map fun l => (history t l, l))
    fun a b => !decide (a.1 < b.1)).map Prod.snd
  rwa [List.map_map, show Prod.snd ∘ (fun l => (history t l, l)) = id from rfl, List.map_id] at hsorted

/-- The newest history comes first. -/
theorem pairwise_inOrder (t : FileTree) (ls : List Location) :
    (inOrder t ls).Pairwise fun l k => ¬ history t l < history t k := by
  have htrans : ∀ a b c : List Nat × Location, (!decide (a.1 < b.1)) = true →
      (!decide (b.1 < c.1)) = true → (!decide (a.1 < c.1)) = true := by
    simp only [Bool.not_eq_true', decide_eq_false_iff_not, List.not_lt]
    exact fun a b c hba hcb => List.le_trans hcb hba
  have htotal : ∀ a b : List Nat × Location,
      ((!decide (a.1 < b.1)) || !decide (b.1 < a.1)) = true := by
    simp only [Bool.or_eq_true, Bool.not_eq_true', decide_eq_false_iff_not, List.not_lt]
    exact fun a b => List.le_total b.1 a.1
  have hsorted := List.pairwise_mergeSort htrans htotal (ls.map fun l => (history t l, l))
  rw [inOrder, List.pairwise_map]
  refine hsorted.imp_of_mem fun {a b} ha hb hab => ?_
  obtain ⟨l, -, rfl⟩ := List.mem_map.1 ((List.mergeSort_perm _ _).mem_iff.1 ha)
  obtain ⟨k, -, rfl⟩ := List.mem_map.1 ((List.mergeSort_perm _ _).mem_iff.1 hb)
  simpa using hab

/-- What two walks share comes in one order, if the entries of the second tree are those of the first and
then others. -/
theorem filter_inOrder {t t' : FileTree} (ht : t.Sound) (horder : t.locations <+: t'.locations)
    {ls ls' : List Location} (hls : ∀ l ∈ ls, l ∈ t.locations) (hnodup : ls.Nodup)
    (hnodup' : ls'.Nodup) :
    (inOrder t' ls').filter (· ∈ inOrder t ls) = (inOrder t ls).filter (· ∈ inOrder t' ls') := by
  have hin : ∀ l ∈ inOrder t ls, l ∈ t.locations :=
    fun l hl => hls l ((perm_inOrder t ls).mem_iff.1 hl)
  have hperm : ((inOrder t' ls').filter (· ∈ inOrder t ls)).Perm
      ((inOrder t ls).filter (· ∈ inOrder t' ls')) := by
    rw [List.perm_ext_iff_of_nodup (((perm_inOrder t' ls').nodup_iff.2 hnodup').filter _)
      (((perm_inOrder t ls).nodup_iff.2 hnodup).filter _)]
    simp [and_comm]
  have hsorted : ((inOrder t' ls').filter (· ∈ inOrder t ls)).Pairwise
      fun l k => ¬ history t l < history t k := by
    refine ((pairwise_inOrder t' ls').filter _).imp_of_mem fun {l k} hl hk hlk => ?_
    have hl := hin l (by simpa using (List.mem_filter.1 hl).2)
    have hk := hin k (by simpa using (List.mem_filter.1 hk).2)
    rwa [history_of_order ht horder hl, history_of_order ht horder hk] at hlk
  -- Both hold the same locations in descending order of histories, which tell them apart.
  refine hperm.eq_of_pairwise ?_ hsorted ((pairwise_inOrder t ls).filter _)
  intro l k _ hk hlk hkl
  have hk := hin k (List.mem_filter.1 hk).1
  exact (eq_of_history_eq hk (List.le_antisymm (List.not_lt.1 hlk) (List.not_lt.1 hkl))).symm

/-- A location below the start of a walk is spelled by the names from there. -/
theorem spell_append (s : WalkStart) {names : List String} (hne : names ≠ []) :
    s.spell (s.location ++ names) = Path.join s.path ("/".intercalate names) := by
  rw [WalkStart.spell, List.drop_left]
  cases names with
  | nil => exact absurd rfl hne
  | cons _ _ => rfl

theorem components_spell (s : WalkStart) {names : List String} (hne : names ≠ [])
    (hn : ∀ n ∈ names, Path.IsName n.toList) : Path.components (s.spell (s.location ++ names)) =
      Path.components s.path ++ names.map fun n => .name n.toList := by
  rw [spell_append s hne, Path.components_join_names hn]

section files
variable (global? : Option Location) {t : FileTree} (rules : WalkRules) (root : String)

/-- The locations of the files that a walk from a directory comes upon. -/
def reached (t : FileTree) (base : Location) : List Location :=
  (t.filesBelow base).filter fun k =>
    reaches (isIgnored global? t rules) ⟨root, base⟩ (k.drop base.length)

theorem filesOf_standard_of_directory (ht : t.Sound) {base : Location}
    (hroot : Path.same root standardInput = false) (hl : t.locate root = .ok base)
    (hd : t.isDirectory base) : (standard global?).filesOf t rules root =
      (inOrder t (reached global? rules root t base)).map (WalkStart.spell ⟨root, base⟩) := by
  have hfound : ((((t.below base).map Prod.fst).filter
      (reaches (isIgnored global? t rules) ⟨root, base⟩)).map (base ++ ·)) =
      reached global? rules root t base := by
    have hdrop (p : Location → Bool) : (fun k => p (k.drop base.length)) ∘ (base ++ ·) = p := by
      funext names
      rw [Function.comp_apply, List.drop_left]
    rw [reached, ← map_below ht, List.filter_map (f := (base ++ ·)), hdrop]
  simp only [filesOf, standard, standardWalk, hroot, hl, hd, Bool.false_eq_true, if_false, if_true,
    hfound, List.filterMap_map]
  exact (congrFun (List.filterMap_eq_map (f := WalkStart.spell ⟨root, base⟩)) _)

theorem filesOf_standard_of_file {base : Location} (hroot : Path.same root standardInput = false)
    (hl : t.locate root = .ok base) (hd : t.isDirectory base = false) :
    (standard global?).filesOf t rules root = [root] := by
  simp only [filesOf, standard, standardWalk, hroot, hl, hd, Bool.false_eq_true, if_false]
  rfl

theorem filesOf_standard_of_nothing
    (h : Path.same root standardInput ∨ ∃ fault, t.locate root = .error fault) :
    (standard global?).filesOf t rules root = [] := by
  cases hroot : Path.same root standardInput with
  | true => simp [filesOf, standard, standardWalk, hroot]
  | false =>
    obtain ⟨fault, hl⟩ := h.resolve_left (by simp [hroot])
    simp [filesOf, standard, standardWalk, hroot, hl, Walk.file?]

theorem mem_reached {base : Location} {names : List String} :
    base ++ names ∈ reached global? rules root t base ↔ names ≠ [] ∧
      (t.fileAt? (base ++ names)).isSome ∧ (standard global?).Reaches t rules ⟨root, base⟩ names := by
  rw [reached, List.mem_filter, mem_filesBelow, List.drop_left]
  simp [reaches, Reaches, standard]
  tauto

/-- What a walk comes upon is named from its start on. -/
theorem exists_names_of_mem_reached (ht : t.Sound) {base k : Location}
    (h : k ∈ reached global? rules root t base) :
    ∃ names, k = base ++ names ∧ names ≠ [] ∧ ∀ n ∈ names, Path.IsName n.toList := by
  obtain ⟨hfile, ⟨names, rfl⟩, hne⟩ := mem_filesBelow.1 (List.mem_filter.1 h).1
  refine ⟨names, rfl, by simpa using hne, fun n hn => ?_⟩
  exact ht.named_of_isSome (Option.isSome_of_isSome_bind hfile) n (List.mem_append_right _ hn)

theorem nodup_reached (ht : t.Sound) (base : Location) :
    (reached global? rules root t base).Nodup :=
  (ht.nodup.filter _).filter _

theorem mem_locations_of_mem_reached {base k : Location}
    (h : k ∈ reached global? rules root t base) : k ∈ t.locations :=
  (List.mem_filter.1 (List.mem_filter.1 h).1).1

/-- No two locations that walks come upon are spelled by the same components. -/
theorem eq_of_components_spell {t' : FileTree} (ht : t.Sound) (ht' : t'.Sound) {base l k : Location}
    (hl : l ∈ reached global? rules root t base) (hk : k ∈ reached global? rules root t' base)
    (h : Path.components (WalkStart.spell ⟨root, base⟩ l) =
      Path.components (WalkStart.spell ⟨root, base⟩ k)) : l = k := by
  obtain ⟨names, rfl, hne, hn⟩ := exists_names_of_mem_reached global? rules root ht hl
  obtain ⟨names', rfl, hne', hn'⟩ := exists_names_of_mem_reached global? rules root ht' hk
  rw [components_spell ⟨root, base⟩ hne hn, components_spell ⟨root, base⟩ hne' hn'] at h
  have hname : Function.Injective fun n : String => Path.Component.name n.toList :=
    fun a b hab => String.toList_inj.1 (Path.Component.name.inj hab)
  rw [hname.list_map (List.append_cancel_left h)]

end files

/-- A walk over a sound tree starts nowhere, at a file or at a directory. -/
theorem start_cases (t : FileTree) (root : String) :
    (Path.same root standardInput ∨ ∃ fault, t.locate root = .error fault) ∨
      Path.same root standardInput = false ∧ ∃ base, t.locate root = .ok base ∧
        (t.isDirectory base = false ∨ t.isDirectory base) := by
  cases hroot : Path.same root standardInput with
  | true => exact .inl (.inl rfl)
  | false =>
    cases hl : t.locate root with
    | error fault => exact .inl (.inr ⟨fault, rfl⟩)
    | ok base => exact .inr ⟨rfl, base, rfl, by simp⟩

section documented
variable (global? : Option Location)

theorem mem_filesOf_standard {t : FileTree} {rules : WalkRules} {root path : String} (ht : t.Sound) :
    path ∈ (standard global?).filesOf t rules root ↔
      Path.same root standardInput = false ∧ ∃ base, t.locate root = .ok base ∧
        (t.isDirectory base = false ∧ path = root ∨
          t.isDirectory base ∧ ∃ names, names ≠ [] ∧ path = Path.join root ("/".intercalate names) ∧
            (t.fileAt? (base ++ names)).isSome ∧
            (standard global?).Reaches t rules ⟨root, base⟩ names) := by
  obtain hnone | ⟨hroot, base, hl, hd | hd⟩ := start_cases t root
  · rw [filesOf_standard_of_nothing global? rules root hnone]
    refine iff_of_false (List.not_mem_nil) ?_
    rintro ⟨hroot, base, hl, -⟩
    obtain hroot' | ⟨fault, hl'⟩ := hnone
    · rw [hroot] at hroot'; cases hroot'
    · rw [hl] at hl'; cases hl'
  · rw [filesOf_standard_of_file global? rules root hroot hl hd, List.mem_singleton]
    simp [hroot, hl, hd]
  · rw [filesOf_standard_of_directory global? rules root ht hroot hl hd, List.mem_map]
    simp only [(perm_inOrder t _).mem_iff, hroot, hl, true_and, Except.ok.injEq, exists_eq_left',
      hd, Bool.true_eq_false, false_and, false_or]
    constructor
    · rintro ⟨k, hk, rfl⟩
      obtain ⟨names, rfl, hne, -⟩ := exists_names_of_mem_reached global? rules root ht hk
      obtain ⟨-, hfile, hreaches⟩ := (mem_reached global? rules root).1 hk
      exact ⟨names, hne, spell_append ⟨root, base⟩ hne, hfile, hreaches⟩
    · rintro ⟨names, hne, rfl, hfile, hreaches⟩
      exact ⟨base ++ names, (mem_reached global? rules root).2 ⟨hne, hfile, hreaches⟩,
        spell_append ⟨root, base⟩ hne⟩

theorem distinct_filesOf_standard {t : FileTree} {rules : WalkRules} {root : String} (ht : t.Sound) :
    ((standard global?).filesOf t rules root).Pairwise fun a b => Path.same a b = false := by
  obtain hnone | ⟨hroot, base, hl, hd | hd⟩ := start_cases t root
  · rw [filesOf_standard_of_nothing global? rules root hnone]
    exact List.Pairwise.nil
  · rw [filesOf_standard_of_file global? rules root hroot hl hd]
    exact List.pairwise_singleton _ _
  · rw [filesOf_standard_of_directory global? rules root ht hroot hl hd, List.pairwise_map]
    have hnodup := (perm_inOrder t _).nodup_iff.2 (nodup_reached global? rules root ht base)
    refine hnodup.imp_of_mem fun {l k} hl hk hne => ?_
    rw [← Bool.not_eq_true, Path.same, beq_iff_eq]
    exact fun h => hne (eq_of_components_spell global? rules root ht ht
      ((perm_inOrder t _).mem_iff.1 hl) ((perm_inOrder t _).mem_iff.1 hk) h)

theorem nodup_filesOf_standard {t : FileTree} {rules : WalkRules} {root : String} (ht : t.Sound) :
    ((standard global?).filesOf t rules root).Nodup :=
  (distinct_filesOf_standard global? ht).imp fun {a b} h => by
    rintro rfl
    simp [Path.same] at h

theorem filter_filesOf_standard {t t' : FileTree} {rules : WalkRules} {root : String} (ht : t.Sound)
    (ht' : t'.Sound) (horder : t.locations <+: t'.locations) (hwithin : t.Within t') :
    ((standard global?).filesOf t' rules root).filter
        (· ∈ (standard global?).filesOf t rules root) =
      ((standard global?).filesOf t rules root).filter
        (· ∈ (standard global?).filesOf t' rules root) := by
  obtain hnone | ⟨hroot, base, hl, hd | hd⟩ := start_cases t root
  · simp [filesOf_standard_of_nothing global? rules root hnone]
  · have hperm : (((standard global?).filesOf t' rules root).filter (· ∈ [root])).Perm
        ([root].filter (· ∈ (standard global?).filesOf t' rules root)) := by
      rw [List.perm_ext_iff_of_nodup ((nodup_filesOf_standard global? ht').filter _)
        ((List.nodup_singleton root).filter _)]
      simp [and_comm]
    rw [filesOf_standard_of_file global? rules root hroot hl hd]
    rw [List.filter_singleton] at hperm ⊢
    cases hmem : decide (root ∈ (standard global?).filesOf t' rules root) with
    | true => rw [hmem] at hperm; exact List.perm_singleton.1 hperm
    | false => rw [hmem] at hperm; exact hperm.eq_nil
  -- No two of the locations are spelled alike, so the filter of paths is one of locations.
  · have hspell (A A' : List Location)
        (h : ∀ l ∈ A', ∀ k ∈ A, WalkStart.spell ⟨root, base⟩ l = WalkStart.spell ⟨root, base⟩ k →
          l = k) :
        (A'.map (WalkStart.spell ⟨root, base⟩)).filter (· ∈ A.map (WalkStart.spell ⟨root, base⟩)) =
          (A'.filter (· ∈ A)).map (WalkStart.spell ⟨root, base⟩) := by
      rw [List.filter_map]
      congr 1
      apply List.filter_congr
      intro l hl
      rw [Function.comp_apply, decide_eq_decide, List.mem_map]
      exact ⟨fun ⟨k, hk, hkl⟩ => h l hl k hk hkl.symm ▸ hk, fun hl => ⟨l, hl, rfl⟩⟩
    rw [filesOf_standard_of_directory global? rules root ht hroot hl hd,
      filesOf_standard_of_directory global? rules root ht' hroot (hwithin.locate hl)
        (hwithin.directory hd), hspell, hspell, filter_inOrder ht horder
        (fun l => mem_locations_of_mem_reached global? rules root)
        (nodup_reached global? rules root ht base) (nodup_reached global? rules root ht' base)]
    · intro l hl k hk h
      exact eq_of_components_spell global? rules root ht ht' ((perm_inOrder t _).mem_iff.1 hl)
        ((perm_inOrder t' _).mem_iff.1 hk) (congrArg _ h)
    · intro l hl k hk h
      exact eq_of_components_spell global? rules root ht' ht ((perm_inOrder t' _).mem_iff.1 hl)
        ((perm_inOrder t _).mem_iff.1 hk) (congrArg _ h)

theorem isIgnored_of_lists {t t' : FileTree} (hhome : t'.home = t.home)
    (hlists : ∀ d, ∀ name ∈ [".ignore", ".gitignore"],
      t'.fileAt? (d ++ [name]) = t.fileAt? (d ++ [name]))
    (hbegun : ∀ d, ∀ name ∈ [".git", ".jj"],
      (t'.find? (d ++ [name])).isSome = (t.find? (d ++ [name])).isSome)
    (hexclusions : t'.exclusions? = t.exclusions?)
    (hglobal : ∀ l ∈ global?, t'.fileAt? l = t.fileAt? l) :
    isIgnored global? t' = isIgnored global? t := by
  -- What is ignored reads these files and looks for these names, and nothing else of a tree.
  have hholds : t'.holdsRepository = t.holdsRepository := by
    funext d
    simp only [holdsRepository, List.any_cons, List.any_nil, hbegun d ".git" (by simp),
      hbegun d ".jj" (by simp)]
  have hwithin : t'.withinRepository = t.withinRepository := by
    funext ds
    induction ds with
    | nil => rfl
    | cons d ds ih => rw [withinRepository, withinRepository, ih, hholds]
  have hglobally : global?.bind t'.fileAt? = global?.bind t.fileAt? := by
    cases global? with
    | none => rfl
    | some l => exact hglobal l rfl
  have hignore (d : Location) := hlists d ".ignore" (by simp)
  have hgitIgnore (d : Location) := hlists d ".gitignore" (by simp)
  funext rules s isDirectory l
  simp only [isIgnored, hholds, hwithin, hglobally, hexclusions, hhome, hignore, hgitIgnore]

theorem documented_standard : (standard global?).Documented where
  mem_filesOf := mem_filesOf_standard global?
  distinct := distinct_filesOf_standard global?
  readable {t rules root} ht hd message h := by
    obtain ⟨l, hl, hd⟩ := leadsToDirectory_iff.1 hd
    simp only [standard, standardWalk, hl] at h
    split at h
    · cases h
    · simp at h
  order := filter_filesOf_standard global?
  exclusions?_eq {t d} h := by
    show FileTree.exclusions? t d = _
    rw [FileTree.exclusions?]
    split
    · exact absurd ‹_› (h _)
    · rfl
  ignores_eq hhome hlists hbegun hexclusions hglobal :=
    isIgnored_of_lists global? hhome hlists hbegun hexclusions hglobal

end documented

end Walker
end UtilityCss
