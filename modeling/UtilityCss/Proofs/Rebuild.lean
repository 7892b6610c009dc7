import UtilityCss.Proofs.Site.Walk
import UtilityCss.Proofs.Standard

namespace UtilityCss

namespace FileTree

theorem Changed.readText_eq {t t' : FileTree} {files : List Location} (h : Changed t t' files)
    {path : String} {l : Location} (hl : t.locate path = .ok l) (hfiles : l ∉ files) :
    t'.readText path = t.readText path := by
  have hfound : (t'.find? l).getD .directory = (t.find? l).getD .directory := by
    cases hs : t.find? l with
    | some e => rw [h.kept hfiles hs]
    | none =>
      cases hs' : t'.find? l with
      | none => rfl
      | some e => rw [h.added hfiles hs hs']; rfl
  have hentry : t'.entry path = t.entry path := by
    rw [entry, entry, h.within.locate hl, hl, Except.map, Except.map, hfound]
  rw [readText, readText, hentry]

/-- Only what there is can be read. -/
theorem locate_of_readText {t : FileTree} {path text : String} (h : t.readText path = .ok text) :
    ∃ l, t.locate path = .ok l := by
  rw [readText, entry] at h
  cases hl : t.locate path with
  | ok l => exact ⟨l, rfl⟩
  | error fault =>
    rw [hl] at h
    cases h

theorem Sound.put_self {t : FileTree} (h : t.Sound) {l : Location} {e : Entry} (hne : l ≠ [])
    (hl : t.find? l = some e) : t.put l e = t := by
  have hm : l ∈ t.locations := (mem_locations_iff t hne).2 (by rw [hl]; rfl)
  rw [put_of_mem t e hm]
  refine congrArg (FileTree.mk · t.home) ((List.map_congr_left fun p hp => ?_).trans (List.map_id _))
  obtain ⟨k, old⟩ := p
  have hk := h.find?_of_mem hp
  by_cases hkl : k = l
  · subst hkl
    rw [hl, Option.some_inj] at hk
    simp [hk]
  · simp [hkl]

end FileTree

namespace Scan
open FileTree

theorem select_eq_ok {L : Libraries} {t : FileTree} {patterns ignore : List String}
    {options : WalkOptions} {r : List String × List Diagnostic}
    (h : select L t patterns ignore options = .ok r) :
    ∃ chosen excluded, PatternSet.ofList L.globs patterns = .ok chosen ∧
      PatternSet.ofList L.globs ignore = .ok excluded ∧
      r = Walk.files L.walker t options options.base fun path =>
        chosen.selects path options.base && !excluded.selects path options.base := by
  rw [select] at h
  split at h
  · cases h
  · cases hc : PatternSet.ofList L.globs patterns with
    | error fault => rw [hc] at h; cases h
    | ok chosen =>
      cases he : PatternSet.ofList L.globs ignore with
      | error fault => rw [hc, he] at h; cases h
      | ok excluded =>
        rw [hc, he] at h
        exact ⟨chosen, excluded, rfl, rfl, (Except.ok.inj h).symm⟩

section changed
variable {L : Libraries} (hw : L.walker.Documented) {t t' : FileTree} {written : List Location}
  (h : Changed t t' written) (ht : t.Sound) (ht' : t'.Sound)
  (hsheets : ∀ l ∈ written, Build.IsSheet l) (hr : L.walker.SameRepositories t t')
  (patterns ignore : List String) {options : WalkOptions} (hbase : t.leadsToDirectory options.base)
include hw h ht ht' hsheets hr hbase

theorem select_of_changed :
    select L t' patterns ignore options = select L t patterns ignore options := by
  obtain ⟨base, hl, hd⟩ := leadsToDirectory_iff.1 hbase
  have hfiles := Walk.files_of_changed hw h ht ht' hsheets hr options hl hd
  simp only [select, hfiles]

omit hr ht' in
/-- What is on the files of a walk has not been written. -/
theorem page_of_changed {path : String} {keep : String → Bool}
    (hp : path ∈ (Walk.files L.walker t options options.base keep).1) :
    Page.ofPath? t' path = Page.ofPath? t path := by
  obtain ⟨base, hl, hd⟩ := leadsToDirectory_iff.1 hbase
  obtain ⟨names, hne, hn, hpath, hlocate, -⟩ := Walk.locate_of_mem_files hw ht hl hd hp
  have hskipped := (Walk.mem_files hp).2.1
  have hfiles : base ++ names ∉ written := by
    intro hm
    obtain ⟨d, p, hs⟩ := hsheets _ hm
    have hlast := congrArg List.getLast? hs
    rw [List.getLast?_append_of_ne_nil _ hne, Build.sheetAt, List.getLast?_concat] at hlast
    rw [hpath, Walk.isSkipped_sheet options options.base hn hlast] at hskipped
    cases hskipped
  rw [Page.ofPath?, Page.ofPath?, h.readText_eq hlocate hfiles]

theorem globs_of_changed :
    globs L t' patterns ignore options = globs L t patterns ignore options := by
  rw [globs, globs, select_of_changed hw h ht ht' hsheets hr patterns ignore hbase]
  cases hs : select L t patterns ignore options with
  | error fault => rfl
  | ok r =>
    obtain ⟨files, diagnostics⟩ := r
    have hpages : files.filterMap (Page.ofPath? t') = files.filterMap (Page.ofPath? t) := by
      obtain ⟨chosen, excluded, -, -, he⟩ := select_eq_ok hs
      obtain rfl : files = _ := congrArg Prod.fst he
      exact List.filterMap_congr fun path hp => page_of_changed hw h ht hsheets hbase hp
    simp only [Except.map, hpages]

end changed

end Scan

namespace Build
open FileTree

/-- Sheets that are there already are written once more without a change. -/
theorem writeSheets_again {directory : String} {l : Location} {compiler : Compiler}
    {t : FileTree} (ht : t.Sound) (hl : t.locate directory = .ok l) {ps : List Partition}
    (hps : ∀ p ∈ ps, t.find? (sheetAt l p) = some (.file (compiler.text p).toUTF8)) :
    writeSheets directory compiler ps t = (t, none) := by
  induction ps with
  | nil => rfl
  | cons p ps ih =>
    have hp := hps p List.mem_cons_self
    have hput := ht.put_self (by simp [sheetAt]) hp
    have hwrite : t.write directory (sheetName p) (compiler.text p).toUTF8 = .ok t := by
      refine write_eq_ok.2 ⟨l, hl, ?_, hput.symm⟩
      rw [Bool.eq_false_iff, ne_eq, isDirectory_iff]
      intro hd
      rw [sheetAt, hd] at hp
      cases hp
    rw [writeSheets, hwrite]
    exact ih fun q hq => hps q (List.mem_cons_of_mem _ hq)

theorem write_again {directory : String} {compiler : Compiler} {t : FileTree} (ht : t.Sound)
    (hne : directory ≠ "") (h : (write directory compiler t).2 = none) :
    write directory compiler (write directory compiler t).1 =
      ((write directory compiler t).1, none) := by
  obtain ⟨l, done, hdone, hmade⟩ := written_write compiler t hne
  have hall := hdone.complete.1 h
  obtain ⟨hl, hd⟩ := hmade (by simp [hall])
  generalize (write directory compiler t).1 = t' at *
  rw [write, makeDirectories_of_leadsToDirectory (leadsToDirectory_iff.2 ⟨l, hl, hd⟩)]
  refine writeSheets_again (hdone.edited.sound ht) hl fun p _ => hdone.content ?_
  rw [hall]
  cases p <;> simp

end Build

namespace FileTree

/-- Where a file is, there is its directory. -/
theorem leadsToDirectory_parent {t : FileTree} {path directory : String} {l : Location}
    (h : t.locate path = .ok l) (hp : Path.parent? path = some directory) (hne : directory ≠ "") :
    t.leadsToDirectory directory := by
  obtain ⟨a, rest, htext, hcuts⟩ := Path.text_parent? hp hne
  rcases hcuts with rfl | ⟨-, rfl⟩
  · obtain ⟨more, hmore, hparts⟩ := Path.parts_of_text htext
    have hbegins := Path.begins_of_parts hne ⟨more, hparts.symm⟩
    obtain ⟨-, hf⟩ := locate_iff.1 h
    rw [hparts] at hf
    obtain ⟨m, hm, hbelow⟩ := follow_of_append hf
    rw [← t.start_congr hbegins.absolute] at hm
    exact leadsToDirectory_iff.2 ⟨m, locate_iff.2 ⟨hne, hm⟩, directory_of_follow hmore hbelow⟩
  · rfl

end FileTree

namespace Config
open FileTree

variable {L : TomlLibrary}

theorem locate_of_load {t : FileTree} {path : String} {config : Config}
    (h : load L t path = .ok config) : ∃ l, t.locate path = .ok l := by
  rw [load] at h
  cases hr : t.readText path with
  | ok text => exact locate_of_readText hr
  | error fault =>
    rw [hr] at h
    cases h

theorem locate_defaultPath_eq {t : FileTree} (ht : t.Sound) : t.locate defaultPath =
    if (t.find? (t.home ++ [defaultPath])).isSome then .ok (t.home ++ [defaultPath])
    else .error .notFound := by
  have hname : Path.parts defaultPath = [defaultPath.toList] := by decide
  have hvoid : Path.isVoid defaultPath.toList = false := by decide
  have hparent : defaultPath.toList ≠ ['.', '.'] := by decide
  have hstart : t.start defaultPath = t.home := if_neg (by decide)
  rw [locate, if_neg (by decide), hname, hstart, follow]
  simp only [ht.home, hvoid, hparent, Bool.not_true, Bool.false_eq_true, if_false,
    String.ofList_toList]
  rfl

section changed
variable {t t' : FileTree} {files : List Location} (h : Changed t t' files)
include h

theorem load_of_changed {path : String} {l : Location} (hl : t.locate path = .ok l)
    (hfiles : l ∉ files) : load L t' path = load L t path := by
  rw [load, load, h.readText_eq hl hfiles]

/-- The default file is no sheet, so writing sheets does not bring it about or change it. -/
theorem find_none_of_changed (ht : t.Sound) (ht' : t'.Sound)
    (hsheets : ∀ l ∈ files, Build.IsSheet l) : find L t' none = find L t none := by
  have hfiles : t.home ++ [defaultPath] ∉ files :=
    fun hm => Build.not_isSheet (by decide) (hsheets _ hm)
  have hfile : ∀ {t : FileTree}, t.Sound →
      t.isFile defaultPath = (t.fileAt? (t.home ++ [defaultPath])).isSome := by
    intro t ht
    rw [isFile, entry, locate_defaultPath_eq ht, fileAt?]
    cases hs : t.find? (t.home ++ [defaultPath]) with
    | none => rfl
    | some e => cases e <;> simp [Except.map, hs, content?]
  have hsame := h.fileAt?_eq hfiles
  rw [find, find, hfile ht', hfile ht, h.home, hsame]
  split
  · rename_i hthere
    refine load_of_changed h ?_ hfiles
    rw [locate_defaultPath_eq ht, if_pos (Option.isSome_of_isSome_bind hthere)]
  · rfl

theorem find_of_changed (ht : t.Sound) (ht' : t'.Sound) (hsheets : ∀ l ∈ files, Build.IsSheet l)
    {path? : Option String} {config : Config} (hf : find L t path? = .ok config)
    (hpath : ∀ path ∈ path?, ∀ l ∈ files, t.locate path ≠ .ok l) : find L t' path? = .ok config := by
  cases path? with
  | none => rw [find_none_of_changed h ht ht' hsheets, hf]
  | some path =>
    obtain ⟨l, hl⟩ := locate_of_load hf
    rw [find, load_of_changed h hl fun hm => hpath path rfl l hm hl]
    exact hf

end changed

end Config

namespace Settings
open FileTree

/-- Globs start from a directory that is there. -/
theorem leadsToDirectory_base {L : TomlLibrary} {t : FileTree} (ht : t.Sound) {arguments : Arguments}
    {s : Settings} (h : find L t arguments = .ok s) : t.leadsToDirectory s.base := by
  obtain ⟨config, hc, rfl⟩ := find_eq_ok h
  have hhere : t.leadsToDirectory "." := leadsToDirectory_iff.2
    ⟨t.home, locate_iff.2 ⟨by decide, follow_cons_iff.2 ⟨ht.home, .inl ⟨rfl, rfl⟩⟩⟩, ht.home⟩
  show t.leadsToDirectory (baseOf arguments.config)
  rw [baseOf]
  cases hp : arguments.config.bind Path.parent? with
  | none => exact hhere
  | some directory =>
    obtain ⟨path, hpath, hparent⟩ := Option.bind_eq_some_iff.1 hp
    rw [hpath] at hc
    obtain ⟨l, hl⟩ := Config.locate_of_load hc
    by_cases hd : directory = ""
    · subst hd
      exact hhere
    · simpa [hd] using leadsToDirectory_parent hl hparent hd

end Settings

namespace Build
open FileTree

section run
variable {L : Libraries} {s : Settings} {t : FileTree} (hbase : s.base ≠ "") (hok : (run L s t).fault = none)
include hbase hok

theorem edited_run : ∃ l, Edited t ([.critical, .external].map (sheetAt l)) (run L s t).site ∧
    ∀ p, (run L s t).site.locate (s.sheetPath p) = .ok (sheetAt l p) := by
  cases hc : compiled L s t with
  | error fault =>
    rw [(run_of_error hc).2] at hok
    cases hok
  | ok compiler =>
    obtain ⟨hsite, hfault⟩ := run_of_ok hc
    rw [hfault] at hok
    obtain ⟨l, done, hdone, hmade⟩ :=
      written_write compiler t (Settings.outputDirectory_ne_empty hbase)
    have hall := hdone.complete.1 hok
    obtain ⟨hl, hd⟩ := hmade (by simp [hall])
    rw [hsite, ← hall]
    exact ⟨l, hdone.edited, fun p => hdone.locate_sheet hl hd (by rw [hall]; cases p <;> simp)⟩

/-- A build comes to the same end wherever its scan does. -/
theorem run_again (ht : t.Sound)
    (hglobs : Scan.globs L (run L s t).site s.pages s.excluded s.walkOptions =
      Scan.globs L t s.pages s.excluded s.walkOptions) : run L s (run L s t).site = run L s t := by
  have hne := Settings.outputDirectory_ne_empty hbase
  rw [run, hglobs]
  generalize hrun : run L s t = o at hok hglobs ⊢
  rw [run] at hrun
  cases hs : Scan.globs L t s.pages s.excluded s.walkOptions with
  | error fault => rw [hs] at hrun; subst hrun; cases hok
  | ok r =>
    obtain ⟨pages, unread⟩ := r
    rw [hs] at hrun
    simp only at hrun ⊢
    cases hcritical : PatternSet.ofList L.globs s.critical with
    | error fault => rw [hcritical] at hrun; subst hrun; cases hok
    | ok critical =>
      rw [hcritical] at hrun
      simp only at hrun ⊢
      generalize Compilation.ofPages pages critical s.base s.minify = compilation at hrun ⊢
      have hagain : _ → write s.outputDirectory compilation.compiler _ = _ := write_again ht hne
      generalize hwrite : write s.outputDirectory compilation.compiler t = w at hrun hagain
      obtain ⟨site, _ | fault⟩ := w
      · subst hrun
        rw [hagain rfl]
      · subst hrun
        cases hok

end run

end Build

namespace CommandLine
open FileTree

/-- What a build leaves is, to scans from directories that were there, what was there before, and to the
same build too, unless it reads a sheet as its config. -/
theorem undisturbed_run {L : Libraries} (hw : L.walker.Documented) {c : CommandLine} {t : FileTree}
    {s : Settings} (ht : t.Sound) (hbuild : c.task ≠ .scan)
    (hs : Settings.find L.toml t c.arguments = .ok s) (hok : (c.run L t).fault = none)
    (hconfig : ∀ path ∈ c.arguments.config, ∀ p,
      (c.run L t).site.locate (s.sheetPath p) ≠ t.locate path)
    (hrepositories : L.walker.SameRepositories t (c.run L t).site) :
    (∀ patterns ignore options, t.leadsToDirectory options.base →
      Scan.select L (c.run L t).site patterns ignore options =
        Scan.select L t patterns ignore options ∧
      Scan.globs L (c.run L t).site patterns ignore options =
        Scan.globs L t patterns ignore options) ∧
    c.run L (c.run L t).site = c.run L t := by
  have hrun : ∀ t, Settings.find L.toml t c.arguments = .ok s → c.run L t = Build.run L s t :=
    fun t hs => by rw [run_of_settings hs, if_neg hbuild]
  rw [hrun t hs] at hok hconfig hrepositories ⊢
  have hbase := Settings.base_ne_empty hs
  obtain ⟨l, hedited, hsheet⟩ := Build.edited_run hbase hok
  have hchanged := hedited.changed
  have hsound := hedited.sound ht
  have hsheets : ∀ k ∈ [.critical, .external].map (Build.sheetAt l), Build.IsSheet k := by
    intro k hk
    obtain ⟨p, -, rfl⟩ := List.mem_map.1 hk
    exact ⟨l, p, rfl⟩
  have hglobs : ∀ patterns ignore options, t.leadsToDirectory options.base →
      Scan.globs L (Build.run L s t).site patterns ignore options =
        Scan.globs L t patterns ignore options :=
    fun patterns ignore options =>
      Scan.globs_of_changed hw hchanged ht hsound hsheets hrepositories patterns ignore
  refine ⟨fun patterns ignore options hd => ⟨Scan.select_of_changed hw hchanged ht hsound hsheets
    hrepositories patterns ignore hd, hglobs patterns ignore options hd⟩, ?_⟩
  -- The config is read again as before, since no sheet was written over it.
  have hagain : Settings.find L.toml (Build.run L s t).site c.arguments = .ok s := by
    obtain ⟨config, hfind, rfl⟩ := Settings.find_eq_ok hs
    rw [Settings.find, Config.find_of_changed hchanged ht hsound hsheets hfind]
    · rfl
    · intro path hpath k hk hl
      obtain ⟨p, -, rfl⟩ := List.mem_map.1 hk
      exact hconfig path hpath p ((hsheet p).trans hl.symm)
  rw [hrun _ hagain]
  exact Build.run_again hbase hok ht (hglobs _ _ _ (Settings.leadsToDirectory_base ht hs))

/-- A site in a repository, with a draft that is not to be built. -/
def draftedSite : FileTree := ⟨[
  (["home"], .directory), (["srv"], .directory), (["srv", ".git"], .directory),
  (["srv", ".gitignore"], .file "drafts\n".toUTF8), (["srv", "site"], .directory),
  (["srv", "site", "tailor.toml"], .file "[build]\nminify = true".toUTF8),
  (["srv", "site", "drafts"], .directory),
  (["srv", "site", "drafts", "b.html"], .file "<p class=\"m-2\">".toUTF8),
  (["srv", "site", "a.html"], .file "<p class=\"p-4\">".toUTF8)], ["home"]⟩

theorem undisturbed_run_draftedSite :
    let c : CommandLine :=
      ⟨0, .build, { config := some "/srv/site/tailor.toml", outDirectory := some "../../out" }⟩
    (c.run .standard draftedSite).fault = none ∧
      (Walker.standard none).SameRepositories draftedSite (c.run .standard draftedSite).site ∧
      c.run .standard (c.run .standard draftedSite).site = c.run .standard draftedSite := by
  intro c
  have hfault : (c.run .standard draftedSite).fault = none := by decide +kernel
  have hs : Settings.find .standard draftedSite c.arguments =
      .ok ⟨"/srv/site", ["**/*.html"], [], [], "../../out", true⟩ := by decide +kernel
  have hsame : (Walker.standard none).SameRepositories draftedSite (c.run .standard draftedSite).site :=
    .of_locations (by decide +kernel) (by decide) rfl
  refine ⟨hfault, hsame, (undisturbed_run (L := .standard) (Walker.documented_standard none)
    (by decide) (by decide) hs hfault ?_ hsame).2⟩
  intro path hpath p
  cases hpath
  cases p <;> decide +kernel

/-- A site whose file is ignored once there is a repository. -/
def looseSite : FileTree := ⟨[
  ([".gitignore"], .file "a".toUTF8), (["site"], .directory),
  (["site", "a"], .file ByteArray.empty)], []⟩

/-- A work tree whose link leads through a directory that is missing, to a list with the file. -/
def linkedSite : FileTree := ⟨[
  ([".git"], .file "gitdir: g".toUTF8), (["g"], .directory),
  (["g", "commondir"], .file "new/../c".toUTF8), (["c"], .directory), (["c", "info"], .directory),
  (["c", "info", "exclude"], .file "a".toUTF8), (["site"], .directory),
  (["site", "a"], .file ByteArray.empty)], []⟩

/-- A site with a file that the user's list for all repositories holds, where a sheet is to go. -/
def listedSite : FileTree := ⟨[
  ([".git"], .directory), (["dist"], .directory), (["dist", "critical.css"], .file "a".toUTF8),
  (["dist", "external.css"], .file ByteArray.empty), (["site"], .directory),
  (["site", "a"], .file ByteArray.empty)], ["site"]⟩

/-- Directories that are made disturb later scans where they begin a repository, which those of the name
`.jj` do too, or where the link of a work tree leads through them. Sheets do where one is the user's list
for all repositories. -/
theorem disturbed_run :
    (∃ (c : CommandLine) (t : FileTree), t.Sound ∧ c.task ≠ .scan ∧
      (c.run .standard t).fault = none ∧ c.arguments.config = none ∧
      (∀ d, (c.run .standard t).site.isDirectory (d ++ [".git"]) → t.isDirectory (d ++ [".git"])) ∧
      ∃ patterns ignore options, t.leadsToDirectory options.base ∧
        Scan.select .standard (c.run .standard t).site patterns ignore options ≠
          Scan.select .standard t patterns ignore options) ∧
    (∃ (c : CommandLine) (t : FileTree), t.Sound ∧ c.task ≠ .scan ∧
      (c.run .standard t).fault = none ∧ c.arguments.config = none ∧
      (∀ d, ∀ name ∈ [".git", ".jj"],
        (c.run .standard t).site.isDirectory (d ++ [name]) → t.isDirectory (d ++ [name])) ∧
      ∃ patterns ignore options, t.leadsToDirectory options.base ∧
        Scan.select .standard (c.run .standard t).site patterns ignore options ≠
          Scan.select .standard t patterns ignore options) ∧
    ∃ (L : Libraries) (c : CommandLine) (t : FileTree), L.walker.Documented ∧ t.Sound ∧
      c.task ≠ .scan ∧ (c.run L t).fault = none ∧ c.arguments.config = none ∧
      (c.run L t).site.locations = t.locations ∧
      ∃ patterns ignore options, t.leadsToDirectory options.base ∧
        Scan.select L (c.run L t).site patterns ignore options ≠
          Scan.select L t patterns ignore options := by
  have hnew : ∀ {t : FileTree} {name : String},
      (∀ l ∈ t.locations, l.getLast? = some name → t.isDirectory l = false) →
      ∀ d, t.isDirectory (d ++ [name]) = false := by
    intro t name h d
    rw [Bool.eq_false_iff]
    intro hd
    rw [h _ (mem_locations_of_isDirectory (by simp) hd) (by simp)] at hd
    cases hd
  refine ⟨?_, ?_, ?_⟩
  · refine ⟨⟨0, .build, { pages := ["a"], outDirectory := some ".jj" }⟩, looseSite, by decide,
      by decide, by decide +kernel, rfl, ?_, ["a"], [], { base := "site" }, by decide,
      by decide +kernel⟩
    intro d hd
    rw [hnew (by decide +kernel) d] at hd
    cases hd
  · refine ⟨⟨0, .build, { pages := ["a"], outDirectory := some "new" }⟩, linkedSite, by decide,
      by decide, by decide +kernel, rfl, ?_, ["a"], [], { base := "site" }, by decide,
      by decide +kernel⟩
    intro d name hname hd
    simp only [List.mem_cons, List.not_mem_nil, or_false] at hname
    rcases hname with rfl | rfl <;> rw [hnew (by decide +kernel) d] at hd <;> cases hd
  · exact ⟨⟨.standard, .standard (some ["dist", "critical.css"]), .standard⟩,
      ⟨0, .build, { pages := ["b"], outDirectory := some "/dist" }⟩, listedSite,
      Walker.documented_standard _, by decide, by decide, by decide +kernel, rfl, by decide +kernel,
      ["a"], [], {}, by decide, by decide +kernel⟩

end CommandLine
end UtilityCss
