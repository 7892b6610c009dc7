import UtilityCss.Proofs.Build
import UtilityCss.Proofs.OutputDirectory

namespace UtilityCss

namespace Scan
variable {L : Libraries} {t : FileTree} {patterns ignore more : List String} {options : WalkOptions}

/-- To ignore more patterns takes away the files that they choose. -/
theorem select_append (hL : L.globs.Documented) (hw : L.walker.Documented) (ht : t.Sound)
    {files kept : List String} {unread unread' : List Diagnostic}
    (h : select L t patterns ignore options = .ok (files, unread))
    (h' : select L t patterns (ignore ++ more) options = .ok (kept, unread')) :
    unread' = unread ∧
      kept = files.filter fun path => !more.any (L.globs.chooses path options.base) := by
  obtain ⟨chosen, excluded, hchosen, hexcluded, hfiles⟩ := select_eq_ok h
  obtain ⟨chosen', excluded', hchosen', hexcluded', hkept⟩ := select_eq_ok h'
  rw [hchosen, Except.ok.injEq] at hchosen'
  subst hchosen'
  refine ⟨(congrArg Prod.snd hkept).trans (congrArg Prod.snd hfiles).symm, ?_⟩
  obtain rfl : kept = _ := congrArg Prod.fst hkept
  obtain rfl : files = _ := congrArg Prod.fst hfiles
  rw [Walk.files_eq hw ht, Walk.files_eq hw ht, List.filter_filter]
  apply List.filter_congr
  intro path _
  rw [PatternSet.selects_eq hL hexcluded, PatternSet.selects_eq hL hexcluded', List.any_append]
  cases Walk.isSkipped options path <;> cases chosen.selects path options.base <;>
    cases ignore.any (L.globs.chooses path options.base) <;> simp

theorem filterMap_ofPath? (t : FileTree) (keep : String → Bool) (paths : List String) :
    (paths.filter keep).filterMap (Page.ofPath? t) =
      (paths.filterMap (Page.ofPath? t)).filter fun page => keep page.path := by
  rw [List.filterMap_filter, List.filter_filterMap]
  apply List.filterMap_congr
  intro path _
  cases hpage : Page.ofPath? t path with
  | none => simp
  | some page => simp [Option.filter, Page.path_of_ofPath? hpage]

theorem globs_eq_ok {pages : List Page} {unread : List Diagnostic} :
    globs L t patterns ignore options = .ok (pages, unread) ↔ ∃ files,
      select L t patterns ignore options = .ok (files, unread) ∧
        pages = files.filterMap (Page.ofPath? t) := by
  rw [globs]
  cases select L t patterns ignore options with
  | error fault => simp [Except.map]
  | ok r =>
    obtain ⟨files, diagnostics⟩ := r
    simp only [Except.map, Except.ok.injEq, Prod.mk.injEq]
    constructor
    · rintro ⟨rfl, rfl⟩
      exact ⟨files, ⟨rfl, rfl⟩, rfl⟩
    · rintro ⟨_, ⟨rfl, rfl⟩, rfl⟩
      exact ⟨rfl, rfl⟩

theorem globs_append (hL : L.globs.Documented) (hw : L.walker.Documented) (ht : t.Sound)
    {pages kept : List Page} {unread unread' : List Diagnostic}
    (h : globs L t patterns ignore options = .ok (pages, unread))
    (h' : globs L t patterns (ignore ++ more) options = .ok (kept, unread')) :
    unread' = unread ∧
      kept = pages.filter fun page => !more.any (L.globs.chooses page.path options.base) := by
  obtain ⟨files, hselect, rfl⟩ := globs_eq_ok.1 h
  obtain ⟨files', hselect', rfl⟩ := globs_eq_ok.1 h'
  obtain ⟨hunread, rfl⟩ := select_append hL hw ht hselect hselect'
  exact ⟨hunread, filterMap_ofPath? t _ files⟩

end Scan

namespace Settings

/-- The glob for what is in the output directory, if that is relative. -/
def outputGlobs (s : Settings) : List String :=
  if Path.isAbsolute s.outDirectory then [] else [s.outDirectory ++ "/**"]

theorem excluded_eq_append (s : Settings) : s.excluded = s.ignore ++ s.outputGlobs := by
  rw [excluded, outputGlobs]
  split <;> simp

/-- Whether a page is left out of a build as one in its output directory. -/
def leavesOut (L : GlobLibrary) (s : Settings) (page : Page) : Bool :=
  s.outputGlobs.any (L.chooses page.path s.base)

/-- The pages that are not left out. -/
def kept (L : GlobLibrary) (s : Settings) (pages : List Page) : List Page :=
  pages.filter fun page => !s.leavesOut L page

variable {L : GlobLibrary}

theorem mem_kept {s : Settings} {pages : List Page} {page : Page} :
    page ∈ s.kept L pages ↔ page ∈ pages ∧ s.leavesOut L page = false := by
  rw [kept, List.mem_filter, Bool.not_eq_true']

theorem length_kept {s : Settings} {pages : List Page} :
    (s.kept L pages).length = pages.length ↔ ∀ page ∈ pages, s.leavesOut L page = false := by
  simp [kept, List.length_filter_eq_length_iff]

/-- The pages that are kept have all the classes just if those left out bring none of their own. -/
theorem allClasses_kept {s : Settings} {pages : List Page} :
    (Page.allClasses pages).Perm (Page.allClasses (s.kept L pages)) ↔
      ∀ page ∈ pages, s.leavesOut L page → ∀ name ∈ page.classes,
        ∃ other ∈ s.kept L pages, name ∈ other.classes := by
  rw [List.perm_ext_iff_of_nodup (Page.nodup_allClasses _) (Page.nodup_allClasses _)]
  simp only [Page.mem_allClasses]
  constructor
  · intro h page hm _ name hname
    exact (h name).1 ⟨page, hm, hname⟩
  · intro h name
    constructor
    · rintro ⟨page, hm, hname⟩
      cases hleft : s.leavesOut L page with
      | true => exact h page hm hleft name hname
      | false => exact ⟨page, mem_kept.2 ⟨hm, hleft⟩, hname⟩
    · rintro ⟨page, hm, hname⟩
      exact ⟨page, (mem_kept.1 hm).1, hname⟩

/-- Settings found for other arguments, with the same pages, config and ignored patterns. -/
theorem exists_find {L : TomlLibrary} {t : FileTree} {a b : Arguments} (hpages : a.pages = b.pages)
    (hconfig : a.config = b.config) (hignore : a.ignore = b.ignore) {s : Settings}
    (h : find L t b = .ok s) : ∃ s', find L t a = .ok s' ∧ s'.pages = s.pages ∧ s'.ignore = s.ignore ∧
      s'.walkOptions = s.walkOptions := by
  obtain ⟨config, hfind, rfl⟩ := find_eq_ok h
  refine ⟨ofConfig (baseOf a.config) config a, ?_, ?_, ?_, ?_⟩
  · rw [find, hconfig, hfind]
    rfl
  · rw [ofConfig, hpages]
    rfl
  · rw [ofConfig, hignore]
    rfl
  · rw [walkOptions, hconfig]
    rfl

end Settings

namespace Scan

theorem run_of_globs {L : Libraries} {s : Settings} {t : FileTree} {pages : List Page}
    {unread : List Diagnostic} (h : globs L t s.pages s.ignore s.walkOptions = .ok (pages, unread)) :
    (run L s t).printed.Perm (Page.allClasses pages) ∧
      (run L s t).reported = unread ++ [.listed pages.length (run L s t).printed.length] := by
  rw [run, h]
  exact ⟨List.mergeSort_perm _ _, rfl⟩

theorem exists_globs {L : Libraries} {s : Settings} {t : FileTree} (h : (run L s t).fault = none) :
    ∃ pages unread, globs L t s.pages s.ignore s.walkOptions = .ok (pages, unread) := by
  rw [run] at h
  cases hglobs : globs L t s.pages s.ignore s.walkOptions with
  | error fault => rw [hglobs] at h; cases h
  | ok r => exact ⟨r.1, r.2, rfl⟩

end Scan

namespace Build
variable {L : Libraries}

theorem run_of_fault_none {s : Settings} {t : FileTree} (h : (run L s t).fault = none) :
    ∃ pages unread, ∃ critical : PatternSet L.globs,
      Scan.globs L t s.pages s.excluded s.walkOptions = .ok (pages, unread) ∧
      let c := Compilation.ofPages pages critical s.base s.minify
      compiled L s t = .ok c.compiler ∧ (run L s t).reported = unread ++ c.diagnostics ++
        [.built pages.length c.split.critical.length c.split.external.length s.outputDirectory] := by
  rw [run] at h ⊢
  rw [compiled]
  cases hglobs : Scan.globs L t s.pages s.excluded s.walkOptions with
  | error fault => rw [hglobs] at h; cases h
  | ok r =>
    rw [hglobs] at h
    cases hset : PatternSet.ofList L.globs s.critical with
    | error fault => rw [hset] at h; cases h
    | ok critical =>
      rw [hset] at h
      refine ⟨r.1, r.2, critical, rfl, rfl, ?_⟩
      revert h
      simp only
      cases write s.outputDirectory
        (Compilation.ofPages r.1 critical s.base s.minify).compiler t with
      | mk site fault =>
        cases fault with
        | none => intro _; rfl
        | some fault => intro h; cases h

/-- The classes that have come to the sheets of a compiler. -/
def classes (c : Compiler) : List String := (c.sheet .critical).seen ++ (c.sheet .external).seen

/-- A build that succeeds has compiled the classes of the pages that it has kept. -/
theorem exists_kept (hL : L.globs.Documented) (hw : L.walker.Documented) {s : Settings} {t : FileTree}
    (ht : t.Sound) (h : (run L s t).fault = none) {pages : List Page} {unread : List Diagnostic}
    (hglobs : Scan.globs L t s.pages s.ignore s.walkOptions = .ok (pages, unread)) :
    ∃ compiler, compiled L s t = .ok compiler ∧
      Scan.globs L t s.pages s.excluded s.walkOptions = .ok (s.kept L.globs pages, unread) ∧
      (classes compiler).Perm (Page.allClasses (s.kept L.globs pages)) ∧
      (run L s t).reported.getLast? = some (.built (s.kept L.globs pages).length
        (compiler.sheet .critical).seen.length (compiler.sheet .external).seen.length
        s.outputDirectory) := by
  obtain ⟨kept, unread', critical, hkept, hcompiled, hreported⟩ := run_of_fault_none h
  have hboth := hkept
  rw [Settings.excluded_eq_append] at hboth
  obtain ⟨rfl, hleaves⟩ := Scan.globs_append hL hw ht hglobs hboth
  obtain rfl : kept = s.kept L.globs pages := hleaves
  have hseen := Compilation.seen_ofPages (s.kept L.globs pages) critical s.base s.minify
  refine ⟨_, hcompiled, hkept, ?_, ?_⟩
  · rw [classes, hseen, hseen]
    exact Split.perm_append (s.kept L.globs pages) critical s.base
  · rw [hreported, List.getLast?_concat, hseen, hseen]
    rfl

end Build

namespace CommandLine
variable {L : Libraries}

/-- What a scan lists of its pages, beside what a build with the settings `s` compiles of them. -/
structure Agrees (L : GlobLibrary) (scan build : Outcome) (s : Settings) (compiler : Compiler)
    (pages : List Page) : Prop where
  printed : scan.printed.Perm (Page.allClasses pages)
  listed : scan.reported.getLast? = some (.listed pages.length scan.printed.length)
  compiled : (Build.classes compiler).Perm (Page.allClasses (s.kept L pages))
  built : build.reported.getLast? = some (.built (s.kept L pages).length
    (compiler.sheet .critical).seen.length (compiler.sheet .external).seen.length s.outputDirectory)
  /-- The classes are the same just if those of the pages left out are on others too. -/
  same_classes : scan.printed.Perm (Build.classes compiler) ↔
    ∀ page ∈ pages, s.leavesOut L page → ∀ name ∈ page.classes,
      ∃ other ∈ s.kept L pages, name ∈ other.classes
  same_files : (s.kept L pages).length = pages.length ↔
    ∀ page ∈ pages, s.leavesOut L page = false

/-- Where a scan and a build succeed with the same pages, config and ignored patterns, they take the same
pages, in one order, but for those that the build leaves out as lying in its output directory. -/
theorem agrees_run (hL : L.globs.Documented) (hw : L.walker.Documented) {scan build : CommandLine}
    {t : FileTree} (ht : t.Sound) (hscan : scan.task = .scan) (hbuild : build.task ≠ .scan)
    (hpages : scan.arguments.pages = build.arguments.pages)
    (hconfig : scan.arguments.config = build.arguments.config)
    (hignore : scan.arguments.ignore = build.arguments.ignore)
    (hlisted : (scan.run L t).fault = none) (hbuilt : (build.run L t).fault = none) :
    ∃ s compiler pages unread, Settings.find L.toml t build.arguments = .ok s ∧
      Build.compiled L s t = .ok compiler ∧
      Scan.globs L t s.pages s.ignore s.walkOptions = .ok (pages, unread) ∧
      Scan.globs L t s.pages s.excluded s.walkOptions = .ok (s.kept L.globs pages, unread) ∧
      Agrees L.globs (scan.run L t) (build.run L t) s compiler pages := by
  cases hs : Settings.find L.toml t build.arguments with
  | error fault =>
    rw [run, hs] at hbuilt
    cases hbuilt
  | ok s =>
    obtain ⟨s', hs', hpages', hignore', hwalk⟩ := Settings.exists_find hpages hconfig hignore hs
    rw [run_of_settings hs, if_neg hbuild] at hbuilt ⊢
    rw [run_of_settings hs', if_pos hscan] at hlisted ⊢
    obtain ⟨pages, unread, hscanned⟩ := Scan.exists_globs hlisted
    obtain ⟨hprinted, hreported⟩ := Scan.run_of_globs hscanned
    rw [hpages', hignore', hwalk] at hscanned
    -- From here on both have the same pages, of which the build keeps some.
    obtain ⟨compiler, hcompiled, hkept, hclasses, hlast⟩ := Build.exists_kept hL hw ht hbuilt hscanned
    refine ⟨s, compiler, pages, unread, rfl, hcompiled, hscanned, hkept, hprinted, ?_, hclasses,
      hlast, ?_, Settings.length_kept⟩
    · rw [hreported, List.getLast?_concat]
    · rw [← Settings.allClasses_kept, hprinted.congr_left, hclasses.congr_right]

/-- A site with a page in the directory that sheets are written to. -/
def builtSite : FileTree := ⟨[
  (["a.html"], .file "<p class=\"p-4\">".toUTF8), (["b.html"], .file "<p class=\"flex\">".toUTF8),
  (["dist"], .directory), (["dist", "x.html"], .file "<p class=\"m-2\">".toUTF8)], []⟩

theorem agrees_run_builtSite :
    let scan : CommandLine := ⟨0, .scan, { ignore := ["b.*"] }⟩
    let build : CommandLine := ⟨0, .watch,
      { ignore := ["b.*"], critical := ["dist/*"], outDirectory := some "/out" }⟩
    (scan.run .standard builtSite).fault = none ∧ (build.run .standard builtSite).fault = none ∧
    ∃ s compiler pages unread, Settings.find .standard builtSite build.arguments = .ok s ∧
      Build.compiled .standard s builtSite = .ok compiler ∧
      Scan.globs .standard builtSite s.pages s.ignore s.walkOptions = .ok (pages, unread) ∧
      Scan.globs .standard builtSite s.pages s.excluded s.walkOptions =
        .ok (s.kept .standard pages, unread) ∧
      Agrees .standard (scan.run .standard builtSite) (build.run .standard builtSite) s compiler
        pages := by
  intro scan build
  have hlisted : (scan.run .standard builtSite).fault = none := by decide +kernel
  have hbuilt : (build.run .standard builtSite).fault = none := by decide +kernel
  exact ⟨hlisted, hbuilt, agrees_run (L := .standard) GlobLibrary.documented_standard
    (Walker.documented_standard none) (by decide) rfl (by decide) rfl rfl rfl hlisted hbuilt⟩

/-- A page in the output directory is listed, but not compiled. -/
theorem disagrees_run :
    let scan : CommandLine := ⟨0, .scan, {}⟩
    let build : CommandLine := ⟨0, .build, { minify := true }⟩
    let s : Settings := ⟨".", ["**/*.html"], [], [], "dist", true⟩
    let t : FileTree := ⟨[(["dist"], .directory),
      (["dist", "x.html"], .file "<p class=\"m-2\">".toUTF8)], []⟩
    (scan.run .standard t).fault = none ∧ (build.run .standard t).fault = none ∧
    Settings.find .standard t build.arguments = .ok s ∧
    (scan.run .standard t).printed = ["m-2"] ∧
    (Build.compiled .standard s t).map Build.classes = .ok [] ∧
    (scan.run .standard t).reported.getLast? = some (.listed 1 1) ∧
    (build.run .standard t).reported.getLast? = some (.built 0 0 0 "./dist") := by
  decide +kernel

end CommandLine

end UtilityCss
