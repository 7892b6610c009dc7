import UtilityCss.Proofs.Libraries
import UtilityCss.Proofs.Outcome
import Mathlib.Data.List.Basic

namespace UtilityCss

namespace Build

/-- A location of a sheet. -/
def IsSheet (l : Location) : Prop := ∃ d p, l = sheetAt d p

theorem not_isSheet {d : Location} {name : String}
    (h : name ∉ [sheetName .critical, sheetName .external]) : ¬ IsSheet (d ++ [name]) := by
  rintro ⟨d', p, he⟩
  have hname : name = sheetName p := by simpa [sheetAt] using congrArg List.getLast? he
  refine h ?_
  rw [hname]
  cases p <;> simp

end Build

namespace Walker
open FileTree Build

/-- Nothing that has been made begins a repository, or leads a linked work tree to another list of what
is ignored, or is the user's list for all repositories. -/
structure SameRepositories (w : Walker) (t t' : FileTree) : Prop where
  begun {d name} : name ∈ [".git", ".jj"] → t'.isDirectory (d ++ [name]) → t.isDirectory (d ++ [name])
  linked {d link} : t.find? (d ++ [".git"]) = some (.file link) →
    w.exclusions? t' d = w.exclusions? t d
  global {l} : l ∈ w.global? → t'.fileAt? l = t.fileAt? l

/-- Without links and lists for all repositories it is enough to look at the locations of a tree. -/
theorem SameRepositories.of_locations {w : Walker} {t t' : FileTree}
    (hbegun : ∀ l ∈ t'.locations, l.getLast? ∈ [some ".git", some ".jj"] → t.isDirectory l)
    (hlinked : ∀ l ∈ t.locations, l.getLast? = some ".git" → t.isDirectory l)
    (hglobal : w.global? = none) : w.SameRepositories t t' where
  begun {d name} hname hd :=
    hbegun _ (mem_locations_of_isDirectory (by simp) hd) (by simpa using hname)
  linked {d link} hlink := by
    have hmem : d ++ [".git"] ∈ t.locations := by
      rw [mem_locations_iff t (by simp), hlink]
      rfl
    have hd := isDirectory_iff.1 (hlinked _ hmem (by simp))
    rw [hlink] at hd
    cases hd
  global hl := by
    rw [hglobal] at hl
    cases hl

section ignored
variable {w : Walker} (hw : w.Documented) {t t' : FileTree} {files : List Location}
  (h : Changed t t' files) (hsheets : ∀ l ∈ files, IsSheet l)

include h hsheets in
theorem find?_of_name {name : String} (hn : name ∉ [sheetName .critical, sheetName .external])
    {d : Location} : t'.find? (d ++ [name]) = t.find? (d ++ [name]) ∨
      t.find? (d ++ [name]) = none ∧ t'.find? (d ++ [name]) = some .directory := by
  have hl : d ++ [name] ∉ files := fun hm => not_isSheet hn (hsheets _ hm)
  cases hs : t.find? (d ++ [name]) with
  | some e => exact .inl (h.kept hl hs)
  | none =>
    cases hs' : t'.find? (d ++ [name]) with
    | none => exact .inl rfl
    | some e => exact .inr ⟨rfl, by rw [h.added hl hs hs']⟩

include h hsheets in
theorem fileAt?_of_name {name : String} (hn : name ∉ [sheetName .critical, sheetName .external])
    (d : Location) : t'.fileAt? (d ++ [name]) = t.fileAt? (d ++ [name]) :=
  h.fileAt?_eq fun hm => not_isSheet hn (hsheets _ hm)

include hw h hsheets

theorem exclusions?_eq (hr : w.SameRepositories t t') : w.exclusions? t' = w.exclusions? t := by
  funext d
  by_cases hlink : ∃ link, t.find? (d ++ [".git"]) = some (.file link)
  · obtain ⟨link, hlink⟩ := hlink
    exact hr.linked hlink
  · rw [not_exists] at hlink
    have hlink' : ∀ link, t'.find? (d ++ [".git"]) ≠ some (.file link) := by
      intro link hs
      have hgit : ".git" ∉ [sheetName .critical, sheetName .external] := by decide
      rcases find?_of_name h hsheets hgit (d := d) with he | ⟨-, hd⟩
      · exact hlink link (he ▸ hs)
      · rw [hs] at hd
        cases hd
    have hexclude : "exclude" ∉ [sheetName .critical, sheetName .external] := by decide
    have hinfo := fileAt?_of_name h hsheets hexclude (d ++ [".git", "info"])
    rw [hw.exclusions?_eq hlink, hw.exclusions?_eq hlink']
    simpa using hinfo

/-- Sheets are no files that list what to ignore, and begin no repositories. -/
theorem ignores_of_changed (hr : w.SameRepositories t t') : w.ignores t' = w.ignores t := by
  refine hw.ignores_eq h.home (fun d name hname => ?_) (fun d name hname => ?_)
    (exclusions?_eq hw h hsheets hr) fun _ => hr.global
  · refine fileAt?_of_name h hsheets ?_ d
    revert name
    decide
  · have hn : name ∉ [sheetName .critical, sheetName .external] := by
      revert name
      decide
    rcases find?_of_name h hsheets hn (d := d) with he | ⟨hs, hd⟩
    · rw [he]
    · have hbegun := isDirectory_iff.1 (hr.begun hname (isDirectory_iff.2 hd))
      rw [hs] at hbegun
      cases hbegun

end ignored

end Walker

namespace Walk
open FileTree

theorem mem_files {w : Walker} {t : FileTree} {options : WalkOptions} {root path : String}
    {keep : String → Bool} (h : path ∈ (files w t options root keep).1) :
    path ∈ w.filesOf t options.rules root ∧ isSkipped options path = false ∧ keep path := by
  obtain ⟨hmem, hkept⟩ := List.mem_filter.1 (Path.mem_of_mem_distinct h)
  exact ⟨hmem, by simpa using hkept⟩

/-- Each file comes once in a walk, so none is taken out as seen before. -/
theorem files_eq {w : Walker} (hw : w.Documented) {t : FileTree} (ht : t.Sound)
    (options : WalkOptions) (root : String) (keep : String → Bool) :
    (files w t options root keep).1 = (w.filesOf t options.rules root).filter fun path =>
      !isSkipped options path && keep path :=
  Path.distinct_eq ((hw.distinct ht).filter _)

theorem isSkipped_sheet (options : WalkOptions) (base : String) {names : List String}
    (hn : ∀ n ∈ names, Path.IsName n.toList) {p : Partition}
    (hlast : names.getLast? = some (Build.sheetName p)) :
    isSkipped options (Path.join base ("/".intercalate names)) := by
  have hne : names ≠ [] := by
    rintro rfl
    cases hlast
  have hextension : Path.extension? (Path.join base ("/".intercalate names)) = some "css" := by
    rw [Path.extension?, Path.fileName?_join_names hn base hne, hlast]
    cases p <;> decide
  rw [isSkipped, hextension]
  simp only [Option.any_some, Bool.or_eq_true]
  exact .inr (by decide)

section changed
variable {w : Walker} (hw : w.Documented) {t t' : FileTree} {written : List Location}
  (h : Changed t t' written) (ht : t.Sound) (ht' : t'.Sound)
  (hsheets : ∀ l ∈ written, Build.IsSheet l) (hr : w.SameRepositories t t') (options : WalkOptions)
  {root : String} {base : Location} (hl : t.locate root = .ok base) (hd : t.isDirectory base)
include hw h ht ht' hsheets hr hl hd

/-- Files that are not skipped have not been written, so a walk comes upon them just if it did before. -/
theorem mem_filesOf_of_changed {path : String} (hpath : isSkipped options path = false) :
    path ∈ w.filesOf t' options.rules root ↔ path ∈ w.filesOf t options.rules root := by
  have hreaches : w.Reaches t' options.rules ⟨root, base⟩ = w.Reaches t options.rules ⟨root, base⟩ := by
    funext names
    rw [Walker.Reaches, Walker.Reaches, Walker.ignores_of_changed hw h hsheets hr]
  have hfile : ∀ names, names ≠ [] → path = Path.join root ("/".intercalate names) →
      (t'.fileAt? (base ++ names)).isSome = (t.fileAt? (base ++ names)).isSome := by
    intro names hne he
    by_cases hm : base ++ names ∈ written
    · obtain ⟨-, content, hc⟩ := h.written hm
      have hn := ht'.named_of_isSome (l := base ++ names) (by rw [hc]; rfl)
      obtain ⟨d, p, hs⟩ := hsheets _ hm
      have hlast := congrArg List.getLast? hs
      rw [List.getLast?_append_of_ne_nil _ hne, Build.sheetAt, List.getLast?_concat] at hlast
      rw [he, isSkipped_sheet options root (fun n hm => hn n (List.mem_append_right _ hm)) hlast]
        at hpath
      cases hpath
    · rw [h.fileAt?_eq hm]
  have hwithin := h.within
  have hl' := hwithin.locate hl
  have hd' := hwithin.directory hd
  simp only [hw.mem_filesOf ht, hw.mem_filesOf ht', hl, hl', Except.ok.injEq, exists_eq_left', hd, hd',
    hreaches, Bool.true_eq_false, false_and, false_or, true_and]
  refine and_congr_right fun _ => exists_congr fun names => and_congr_right fun hne =>
    and_congr_right fun he => ?_
  rw [hfile names hne he]

/-- A walk from a directory that was there comes upon the same files. -/
theorem files_of_changed (keep : String → Bool) :
    files w t' options root keep = files w t options root keep := by
  have hmem : ∀ path, isSkipped options path = false →
      (path ∈ w.filesOf t' options.rules root ↔ path ∈ w.filesOf t options.rules root) :=
    fun _ => mem_filesOf_of_changed hw h ht ht' hsheets hr options hl hd
  have hnone : ∀ {t : FileTree}, t.Sound → t.leadsToDirectory root →
      (w.walk t options.rules root).filterMap warning? = [] := by
    intro t ht hroot
    rw [List.filterMap_eq_nil_iff]
    rintro (message | entry) hentry
    · exact absurd hentry (hw.readable ht hroot message)
    · rfl
  have hwithin := h.within
  refine Prod.ext ?_ ?_
  · rw [files_eq hw ht', files_eq hw ht]
    have hwalks : (w.filesOf t' options.rules root).filter
        (· ∈ w.filesOf t options.rules root) = _ := hw.order ht ht' h.order hwithin
    have horder := congrArg (List.filter fun path => !isSkipped options path && keep path) hwalks
    rw [List.filter_filter, List.filter_filter] at horder
    -- Only sheets are in one walk alone, and these are skipped.
    refine Eq.trans (List.filter_congr fun path hp => ?_)
      (horder.trans (List.filter_congr fun path hp => ?_))
    · cases hskipped : isSkipped options path with
      | true => rfl
      | false => simp [(hmem path hskipped).1 hp]
    · cases hskipped : isSkipped options path with
      | true => rfl
      | false => simp [(hmem path hskipped).2 hp]
  · have hthere := leadsToDirectory_iff.2 ⟨base, hl, hd⟩
    have hthere' := leadsToDirectory_iff.2 ⟨base, hwithin.locate hl, hwithin.directory hd⟩
    exact (hnone ht' hthere').trans (hnone ht hthere).symm

end changed

/-- A file that a walk comes upon is where the path leads that the walk gives it. -/
theorem locate_of_mem_files {w : Walker} (hw : w.Documented) {t : FileTree} (ht : t.Sound)
    {options : WalkOptions} {root path : String} {base : Location} (hl : t.locate root = .ok base)
    (hd : t.isDirectory base) {keep : String → Bool}
    (hp : path ∈ (files w t options root keep).1) : ∃ names, names ≠ [] ∧
      (∀ n ∈ names, Path.IsName n.toList) ∧ path = Path.join root ("/".intercalate names) ∧
      t.locate path = .ok (base ++ names) ∧ (t.fileAt? (base ++ names)).isSome := by
  obtain ⟨-, base', hl', ⟨hd', -⟩ | ⟨-, names, hne, rfl, hfile, -⟩⟩ :=
    (hw.mem_filesOf ht).1 (mem_files hp).1
  · rw [hl, Except.ok.injEq] at hl'
    rw [← hl', hd] at hd'
    cases hd'
  · rw [hl, Except.ok.injEq] at hl'
    subst hl'
    have hsome := Option.isSome_of_isSome_bind hfile
    have hn : ∀ n ∈ names, Path.IsName n.toList :=
      fun n hm => ht.named_of_isSome hsome n (List.mem_append_right _ hm)
    exact ⟨names, hne, hn, rfl, (locate_join hn hne hl).trans (ht.follow_names hsome), hfile⟩

end Walk
end UtilityCss
