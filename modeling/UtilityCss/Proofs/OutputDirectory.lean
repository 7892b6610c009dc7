import UtilityCss.Proofs.PatternSet
import UtilityCss.Proofs.Rebuild
import UtilityCss.Proofs.Standard

namespace UtilityCss

namespace Build
open FileTree

theorem write_refused (directory : String) (compiler : Compiler) (t : FileTree) (fault : ScanFault) :
    (write directory compiler t).2 ≠ some (.scan fault) := by
  have hsheets : ∀ ps t, (writeSheets directory compiler ps t).2 ≠ some (.scan fault) := by
    intro ps
    induction ps with
    | nil => simp [writeSheets]
    | cons p ps ih =>
      intro t
      rw [writeSheets]
      split
      · simp
      · exact ih _
  rw [write]
  split
  · simp
  · exact hsheets _ _

end Build

theorem Scan.select_eq_error {L : Libraries} {t : FileTree} {patterns ignore : List String}
    {options : WalkOptions} {f : PatternFault}
    (h : select L t patterns ignore options = .error (.pattern f)) :
    PatternSet.ofList L.globs patterns = .error f ∨ PatternSet.ofList L.globs ignore = .error f := by
  rw [select] at h
  split at h
  · cases h
  · cases hc : PatternSet.ofList L.globs patterns with
    | error fault =>
      rw [hc] at h
      cases h
      exact .inl rfl
    | ok chosen =>
      cases he : PatternSet.ofList L.globs ignore with
      | error fault =>
        rw [hc, he] at h
        cases h
        exact .inr rfl
      | ok excluded =>
        rw [hc, he] at h
        cases h

namespace Build
open FileTree

/-- A pattern at fault is a page pattern, one of what is excluded, or a critical one. -/
theorem patterns_of_fault {L : Libraries} {s : Settings} {t : FileTree} {f : PatternFault}
    (h : (run L s t).fault = some (.scan (.pattern f))) :
    PatternSet.ofList L.globs s.pages = .error f ∨ PatternSet.ofList L.globs s.excluded = .error f ∨
      PatternSet.ofList L.globs s.critical = .error f := by
  cases hc : compiled L s t with
  | ok compiler =>
    rw [(run_of_ok hc).2] at h
    exact absurd h (write_refused _ _ _ _)
  | error fault =>
    rw [(run_of_error hc).2] at h
    cases h
    rw [compiled, Scan.globs] at hc
    cases hs : Scan.select L t s.pages s.excluded s.walkOptions with
    | error fault =>
      rw [hs] at hc
      cases hc
      exact (Scan.select_eq_error hs).imp_right .inl
    | ok r =>
      rw [hs] at hc
      simp only [Except.map] at hc
      cases hcritical : PatternSet.ofList L.globs s.critical with
      | ok critical => rw [hcritical] at hc; cases hc
      | error fault =>
        rw [hcritical] at hc
        cases hc
        exact .inr (.inr rfl)

end Build

theorem Page.path_of_ofPath? {t : FileTree} {path : String} {page : Page}
    (h : ofPath? t path = some page) : page.path = path := by
  rw [ofPath?] at h
  split at h
  · cases h
  · cases h
    rfl

/-- What is scanned has been selected. -/
theorem Scan.selected_of_globs {L : Libraries} {t : FileTree} {patterns ignore : List String}
    {options : WalkOptions} {pages : List Page} {unread : List Diagnostic}
    (h : globs L t patterns ignore options = .ok (pages, unread)) {page : Page}
    (hpage : page ∈ pages) :
    ∃ files, select L t patterns ignore options = .ok (files, unread) ∧ page.path ∈ files := by
  rw [globs] at h
  cases hs : select L t patterns ignore options with
  | error fault => rw [hs] at h; cases h
  | ok r =>
    rw [hs] at h
    cases h
    obtain ⟨path, hpath, hof⟩ := List.mem_filterMap.1 hpage
    exact ⟨r.1, rfl, Page.path_of_ofPath? hof ▸ hpath⟩

theorem FileTree.eq_of_follow_names {t : FileTree} {l k : Location} {names : List String}
    (hn : ∀ n ∈ names, Path.IsName n.toList) (h : t.follow l (names.map String.toList) = .ok k) :
    k = l ++ names := by
  induction names generalizing l with
  | nil =>
    rw [List.append_nil]
    exact (Except.ok.inj h).symm
  | cons n names ih =>
    rw [List.forall_mem_cons] at hn
    obtain ⟨-, ⟨hv, -⟩ | ⟨hp, -⟩ | ⟨-, -, -, hf⟩⟩ := follow_cons_iff.1 h
    · rw [hn.1.not_void] at hv
      cases hv
    · exact absurd hp hn.1.ne_parent
    · rw [String.ofList_toList] at hf
      rw [ih hn.2 hf, List.append_assoc]
      rfl

namespace Settings

/-- The output directory is spelled by the names that lead there from the base, or so seen from a point
where the base is one, and the characters of its spelling call for no others in a glob. -/
structure NamesOutput (s : Settings) (names : List String) : Prop where
  ne_nil : names ≠ []
  named : ∀ n ∈ names, Path.IsName n.toList
  spelled : s.outDirectory = "/".intercalate names ∨
    s.base = "." ∧ s.outDirectory = Path.join "." ("/".intercalate names)
  plain : ∀ c ∈ s.outDirectory.toList, c ∉ GlobLibrary.structural

namespace NamesOutput
open FileTree

variable {s : Settings} {names : List String} (h : s.NamesOutput names)
include h

theorem isAbsolute_outDirectory : Path.isAbsolute s.outDirectory = false := by
  have habs := Path.isAbsolute_names h.named
  rcases h.spelled with hout | ⟨-, hout⟩
  · rw [hout, habs]
  · rw [hout, Path.isAbsolute_join (by decide) habs]
    rfl

theorem excluded_eq : s.excluded = s.ignore ++ [s.outDirectory ++ "/**"] := by
  rw [excluded, h.isAbsolute_outDirectory]
  rfl

/-- The names lead from the base to where the sheets go. -/
theorem location_eq {t : FileTree} {base output : Location} (hbase : t.locate s.base = .ok base)
    (hout : t.locate s.outputDirectory = .ok output) : output = base ++ names := by
  rcases h.spelled with hspelled | ⟨hpoint, hspelled⟩
  · rw [outputDirectory, hspelled, locate_join h.named h.ne_nil hbase] at hout
    exact eq_of_follow_names h.named hout
  · -- From a point a path that begins with one leads where the names behind that do.
    have hstem : Path.stem "." = [['.']] := by decide
    have habs := h.isAbsolute_outDirectory
    obtain ⟨-, hf⟩ := locate_iff.1 hout
    have hstart := t.start_congr (Path.isAbsolute_join (show "." ≠ "" by decide) habs)
    rw [hpoint] at hbase
    have hbase' := follow_stem hbase
    rw [outputDirectory, hpoint, hstart, Path.parts_join habs, hspelled,
      Path.parts_join (Path.isAbsolute_names h.named), Path.parts_names h.named h.ne_nil,
      follow_append, hbase'] at hf
    have hd : t.isDirectory base := directory_of_follow (by simp [hstem]) hf
    rw [Except.bind, follow_append, hstem, follow_voids (by decide) hd] at hf
    exact eq_of_follow_names h.named hf

/-- What is below the directory, by the names from the base, is chosen by the glob for that. -/
theorem chooses_below {L : GlobLibrary} (hL : L.Documented) {below : List String} (hne : below ≠ [])
    (hn : ∀ n ∈ below, Path.IsName n.toList) :
    L.chooses (Path.join s.base ("/".intercalate (names ++ below))) s.base
      (s.outDirectory ++ "/**") := by
  have hall : ∀ n ∈ names ++ below, Path.IsName n.toList :=
    fun n hm => (List.mem_append.1 hm).elim (h.named n) (hn n)
  have htext : "/".intercalate (names ++ below) =
      "/".intercalate names ++ "/" ++ "/".intercalate below :=
    String.intercalate_append_of_ne_nil h.ne_nil hne
  cases hread : L.read (s.outDirectory ++ "/**") with
  | error message =>
    have hok := hL.read_below h.plain
    rw [hread] at hok
    cases hok
  | ok g =>
    have hadmits := hL.admits_below h.plain hread hne hn
    refine GlobLibrary.chooses_iff.2 ⟨g, hread, ?_⟩
    -- Names alone match relative to the base; behind `./` the path matches as it is written.
    rcases h.spelled with hspelled | ⟨hpoint, hspelled⟩
    · left
      rw [Path.relative?_join_names hall s.base (by simp [hne]), Option.getD_some, htext,
        ← hspelled]
      exact hadmits
    · right
      have hjoin : ∀ names : List String, (∀ n ∈ names, Path.IsName n.toList) →
          Path.join "." ("/".intercalate names) = "./" ++ "/".intercalate names := by
        intro names hn
        rw [Path.join, Path.isAbsolute_names hn]
        rfl
      rw [hpoint, hjoin _ hall, htext, ← String.append_assoc, ← String.append_assoc,
        ← hjoin _ h.named, ← hspelled]
      exact hadmits

theorem ignore_of_excluded {L : GlobLibrary} (hL : L.Documented) {f : PatternFault}
    (hf : PatternSet.ofList L s.excluded = .error f) : PatternSet.ofList L s.ignore = .error f :=
  PatternSet.ofList_of_concat hL h.plain (h.excluded_eq ▸ hf)

/-- A file that a walk from the base comes upon, and that is not excluded, does not lie below the
directory. -/
theorem not_below_of_mem_files {L : Libraries} (hL : L.globs.Documented) (hw : L.walker.Documented)
    {t : FileTree} (ht : t.Sound) {set : PatternSet L.globs}
    (hset : PatternSet.ofList L.globs s.excluded = .ok set) {path : String} {keep : String → Bool}
    (hwalk : path ∈ (Walk.files L.walker t s.walkOptions s.base keep).1)
    (hselects : set.selects path s.base = false) {output l : Location}
    (hout : t.locate s.outputDirectory = .ok output) (hl : t.locate path = .ok l)
    (hbelow : output <+: l) : l = output := by
  obtain ⟨-, base, hbase, ⟨-, rfl⟩ | ⟨hd, -⟩⟩ := (hw.mem_filesOf ht).1 (Walk.mem_files hwalk).1
  · have hlocation := h.location_eq hbase hout
    have hsame : l = base := Except.ok.inj (hl.symm.trans hbase)
    rw [hsame, hlocation] at hbelow
    have hlength := hbelow.length_le
    have hpos := List.length_pos_iff.2 h.ne_nil
    rw [List.length_append] at hlength
    omega
  · have hlocation := h.location_eq hbase hout
    obtain ⟨below, -, hn, hpath, hlocate, -⟩ := Walk.locate_of_mem_files hw ht hbase hd hwalk
    have hsame : l = base ++ below := Except.ok.inj (hl.symm.trans hlocate)
    rw [hsame, hlocation, List.prefix_append_right_inj] at hbelow
    obtain ⟨rest, rfl⟩ := hbelow
    rw [hsame, hlocation]
    by_cases hrest : rest = []
    · rw [hrest, List.append_nil]
    · have hchosen := h.chooses_below hL hrest fun n hm => hn n (List.mem_append_right _ hm)
      rw [PatternSet.selects_eq hL hset, h.excluded_eq, List.any_append, Bool.or_eq_false_iff,
        hpath] at hselects
      simp [hchosen] at hselects

end NamesOutput

end Settings

namespace Build
open FileTree

/-- No fault of a build comes of the glob for its output directory, and no page that it scans lies below
that directory. -/
theorem unscanned_output {L : Libraries} (hL : L.globs.Documented) (hw : L.walker.Documented)
    {s : Settings} {t : FileTree} (ht : t.Sound) {names : List String} (h : s.NamesOutput names) :
    (∀ f, (run L s t).fault = some (.scan (.pattern f)) →
      ∃ patterns ∈ [s.pages, s.ignore, s.critical],
        PatternSet.ofList L.globs patterns = .error f) ∧
    ∀ pages unread, Scan.globs L t s.pages s.excluded s.walkOptions = .ok (pages, unread) →
      ∀ page ∈ pages, ∀ output l, t.locate s.outputDirectory = .ok output →
        t.locate page.path = .ok l → output <+: l → l = output := by
  constructor
  · intro f hf
    rcases patterns_of_fault hf with hpages | hexcluded | hcritical
    · exact ⟨s.pages, by simp, hpages⟩
    · exact ⟨s.ignore, by simp, h.ignore_of_excluded hL hexcluded⟩
    · exact ⟨s.critical, by simp, hcritical⟩
  · intro pages unread hglobs page hpage output l hout hl hbelow
    obtain ⟨files, hselect, hpath⟩ := Scan.selected_of_globs hglobs hpage
    obtain ⟨chosen, excluded, -, hset, hfiles⟩ := Scan.select_eq_ok hselect
    obtain rfl : files = _ := congrArg Prod.fst hfiles
    have hkept := (Walk.mem_files hpath).2.2
    rw [Bool.and_eq_true, Bool.not_eq_true'] at hkept
    exact h.not_below_of_mem_files hL hw ht hset hpath hkept.2 hout hl hbelow

theorem unscanned_output_nested :
    let s : Settings := ⟨"/srv/site", ["**"], [], [], "a,b/dist", false⟩
    let t : FileTree := ⟨[(["home"], .directory), (["srv"], .directory), (["srv", "site"], .directory),
      (["srv", "site", "a,b"], .directory), (["srv", "site", "a,b", "dist"], .directory),
      (["srv", "site", "a,b", "dist", "x"], .file ByteArray.empty)], ["home"]⟩
    t.Sound ∧ s.NamesOutput ["a,b", "dist"] ∧
      ∀ pages unread, Scan.globs .standard t s.pages s.excluded s.walkOptions = .ok (pages, unread) →
        ∀ page ∈ pages, page.path ≠ "/srv/site/a,b/dist/x" := by
  intro s t
  have ht : t.Sound := by decide
  have h : s.NamesOutput ["a,b", "dist"] :=
    ⟨by decide, by decide, .inl (by decide), by simp [s, GlobLibrary.structural]⟩
  refine ⟨ht, h, fun pages unread hglobs page hpage hpath => ?_⟩
  have hbelow := (unscanned_output (L := .standard) GlobLibrary.documented_standard
    (Walker.documented_standard none) ht h).2 pages unread hglobs page hpage
    ["srv", "site", "a,b", "dist"] ["srv", "site", "a,b", "dist", "x"] (by decide +kernel)
    (by rw [hpath]; decide +kernel) ⟨["x"], rfl⟩
  exact absurd hbelow (by decide)

/-- A slash at the end, or a bracket, keeps the spelling from being a glob for what the directory
holds. -/
theorem scanned_output :
    (∃ (s : Settings) (t : FileTree) (pages : List Page) (unread : List Diagnostic),
      t.Sound ∧ Path.isAbsolute s.outDirectory = false ∧
      Scan.globs .standard t s.pages s.excluded s.walkOptions = .ok (pages, unread) ∧
      ∃ page ∈ pages, ∃ output l, t.locate s.outputDirectory = .ok output ∧
        t.locate page.path = .ok l ∧ output <+: l ∧ l ≠ output) ∧
    ∃ (s : Settings) (t : FileTree) (f : PatternFault),
      t.Sound ∧ Path.isAbsolute s.outDirectory = false ∧
      (run .standard s t).fault = some (.scan (.pattern f)) ∧
      ∀ patterns ∈ [s.pages, s.ignore, s.critical], (PatternSet.ofList .standard patterns).isOk := by
  constructor
  · refine ⟨⟨".", ["**"], [], [], "dist/", false⟩,
      ⟨[(["dist"], .directory), (["dist", "x"], .file ByteArray.empty)], []⟩, [⟨"./dist/x", []⟩], [],
      by decide, by decide, by decide +kernel, _, List.mem_cons_self, ["dist"], ["dist", "x"],
      by decide +kernel, by decide +kernel, ⟨["x"], rfl⟩, by decide⟩
  · exact ⟨⟨".", ["a"], [], [], "[x", false⟩, {},
      ⟨"[x/**", "error parsing glob '[x/**': unclosed character class; missing ']'"⟩, by decide,
      by decide, by decide +kernel, by decide +kernel⟩

end Build
end UtilityCss
