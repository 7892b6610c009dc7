import UtilityCss.Build
import UtilityCss.Proofs.Site.FileTree

namespace UtilityCss

theorem fromUTF8?_toUTF8 (s : String) : String.fromUTF8? s.toUTF8 = some s := by
  rw [String.toUTF8_eq_toByteArray, String.fromUTF8?, dif_pos s.isValidUTF8]
  rfl

namespace Build
open FileTree

/-- The location of a sheet in a directory. -/
def sheetAt (l : Location) (p : Partition) : Location := l ++ [sheetName p]

theorem isName_sheetName (p : Partition) : Path.IsName (sheetName p).toList := by
  cases p <;> decide

theorem sheetAt_injective (l : Location) {p q : Partition} (h : sheetAt l p = sheetAt l q) :
    p = q := by
  have hname : sheetName p = sheetName q := by simpa [sheetAt] using h
  cases p <;> cases q <;> first | rfl | exact absurd hname (by decide)

/-- How far sheets have been written into a directory: some first ones of them, and all just if there has
been no fault. -/
structure Written (directory : String) (l : Location) (compiler : Compiler)
    (ps done : List Partition) (t t' : FileTree) (fault : Option Fault) : Prop where
  start : done <+: ps
  edited : Edited t (done.map (sheetAt l)) t'
  content {p} : p ∈ done → t'.find? (sheetAt l p) = some (.file (compiler.text p).toUTF8)
  complete : fault = none ↔ done = ps
  refused {f} : fault = some f → ∃ path e, f = .write path e

theorem written_writeSheets {directory : String} {l : Location} (compiler : Compiler)
    (ps : List Partition) {t : FileTree} (hl : t.locate directory = .ok l)
    (hdir : t.isDirectory l) :
    ∃ done, Written directory l compiler ps done t (writeSheets directory compiler ps t).1
      (writeSheets directory compiler ps t).2 := by
  induction ps generalizing t with
  | nil =>
    refine ⟨[], List.prefix_rfl, .same, ?_, by simp [writeSheets], ?_⟩
    · intro p hp
      cases hp
    · intro f hf
      cases hf
  | cons p ps ih =>
    rw [writeSheets]
    split
    · refine ⟨[], List.nil_prefix, .same, ?_, by simp, ?_⟩
      · intro p hp
        cases hp
      · intro f hf
        exact ⟨_, _, (Option.some_inj.1 hf).symm⟩
    · rename_i t' hw
      obtain ⟨m, hm, hd, rfl⟩ := write_eq_ok.1 hw
      rw [hl] at hm
      cases hm
      have hne : sheetAt l p ≠ [] := by simp [sheetAt]
      have hput := Edited.same.file (compiler.text p).toUTF8 hdir (isName_sheetName p) hd
      obtain ⟨done, hdone⟩ := ih (hput.changed.within.locate hl) (hput.changed.within.directory hdir)
      refine ⟨p :: done, List.prefix_cons_inj p |>.2 hdone.start, hput.trans hdone.edited, ?_,
        by rw [List.cons.injEq, eq_self, true_and]; exact hdone.complete, hdone.refused⟩
      intro q hq
      by_cases hm : q ∈ done
      · exact hdone.content hm
      · -- What has just been written stays, as the sheets that follow are others.
        have hqp := (List.mem_cons.1 hq).resolve_right hm
        subst hqp
        refine hdone.edited.changed.kept ?_ ((find?_put _ _ hne _).trans (if_pos rfl))
        intro hmem
        obtain ⟨r, hr, he⟩ := List.mem_map.1 hmem
        rw [sheetAt_injective l he] at hr
        exact hm hr

/-- Making the directory comes before the sheets. Where it fails nothing is written. -/
theorem written_write {directory : String} (compiler : Compiler) (t : FileTree)
    (hne : directory ≠ "") :
    ∃ l done, Written directory l compiler [.critical, .external] done t
        (write directory compiler t).1 (write directory compiler t).2 ∧
      (done ≠ [] → (write directory compiler t).1.locate directory = .ok l ∧
        (write directory compiler t).1.isDirectory l) := by
  have hedited := edited_makeDirectories t directory
  rw [write]
  split
  · rename_i t' fault hmade
    rw [hmade] at hedited
    refine ⟨[], [], ⟨List.nil_prefix, hedited, ?_, by simp, ?_⟩, fun h => absurd rfl h⟩
    · intro p hp
      cases hp
    · intro f hf
      exact ⟨_, _, (Option.some_inj.1 hf).symm⟩
  · rename_i t' hmade
    have hleads := leadsToDirectory_makeDirectories hne (by rw [hmade])
    rw [hmade] at hedited hleads
    obtain ⟨l, hl, hd⟩ := leadsToDirectory_iff.1 hleads
    obtain ⟨done, hdone⟩ := written_writeSheets compiler [.critical, .external] hl hd
    have hwithin := hdone.edited.changed.within
    refine ⟨l, done, { hdone with edited := hedited.trans hdone.edited }, fun _ => ?_⟩
    exact ⟨hwithin.locate hl, hwithin.directory hd⟩

section written
variable {directory : String} {l : Location} {compiler : Compiler} {ps done : List Partition}
  {t t' : FileTree} {fault : Option Fault}

/-- A sheet that has been written is found where it is. -/
theorem Written.locate_sheet (h : Written directory l compiler ps done t t' fault)
    (hl : t'.locate directory = .ok l) (hd : t'.isDirectory l) {p : Partition} (hp : p ∈ done) :
    t'.locate (Path.join directory (sheetName p)) = .ok (sheetAt l p) :=
  locate_join_name (isName_sheetName p) hl hd (Option.isSome_iff_exists.2 ⟨_, h.content hp⟩)

theorem Written.readText_sheet (h : Written directory l compiler ps done t t' fault) {p : Partition}
    (hp : p ∈ done) (hlocate : t'.locate (Path.join directory (sheetName p)) = .ok (sheetAt l p)) :
    t'.readText (Path.join directory (sheetName p)) = .ok (compiler.text p) := by
  have hentry : t'.entry (Path.join directory (sheetName p)) =
      .ok (.file (compiler.text p).toUTF8) := by
    rw [entry, hlocate, Except.map, h.content hp]
    rfl
  simp only [readText, hentry, fromUTF8?_toUTF8]

/-- No file has changed but the sheets that have been written. -/
theorem Written.eq_sheetAt (h : Written directory l compiler ps done t t' fault) {k : Location}
    (hk : t'.fileAt? k ≠ t.fileAt? k) : ∃ p ∈ done, k = sheetAt l p := by
  refine Decidable.byContradiction fun hno => hk (h.edited.changed.fileAt?_eq fun hm => ?_)
  obtain ⟨p, hp, he⟩ := List.mem_map.1 hm
  exact hno ⟨p, hp, he.symm⟩

/-- The external sheet comes last, so where there has been a fault it has not been written. -/
theorem Written.external_notMem {f : Fault}
    (h : Written directory l compiler [.critical, .external] done t t' (some f)) :
    .external ∉ done := by
  intro hm
  have hall : done = [.critical, .external] := by
    obtain ⟨rest, hrest⟩ := h.start
    rcases done with _ | ⟨p, _ | ⟨q, _ | ⟨r, done⟩⟩⟩ <;> simp_all
  cases h.complete.2 hall

end written

variable (L : Libraries)

/-- The compiler that renders the sheets of a build, or the fault that ends it before it writes. -/
def compiled (s : Settings) (t : FileTree) : Except ScanFault Compiler :=
  match Scan.globs L t s.pages s.excluded s.walkOptions with
  | .error fault => .error fault
  | .ok (pages, _) =>
    match PatternSet.ofList L.globs s.critical with
    | .error fault => .error (.pattern fault)
    | .ok critical => .ok (Compilation.ofPages pages critical s.base s.minify).compiler

variable {L}

theorem run_of_error {s : Settings} {t : FileTree} {fault : ScanFault}
    (h : compiled L s t = .error fault) :
    (run L s t).site = t ∧ (run L s t).fault = some (.scan fault) := by
  rw [compiled] at h
  rw [run]
  cases hglobs : Scan.globs L t s.pages s.excluded s.walkOptions with
  | error fault =>
    rw [hglobs] at h
    cases h
    exact ⟨rfl, rfl⟩
  | ok r =>
    rw [hglobs] at h
    cases hset : PatternSet.ofList L.globs s.critical with
    | ok critical => rw [hset] at h; cases h
    | error fault =>
      rw [hset] at h
      cases h
      exact ⟨rfl, rfl⟩

theorem run_of_ok {s : Settings} {t : FileTree} {compiler : Compiler}
    (h : compiled L s t = .ok compiler) :
    (run L s t).site = (write s.outputDirectory compiler t).1 ∧
      (run L s t).fault = (write s.outputDirectory compiler t).2 := by
  rw [compiled] at h
  rw [run]
  cases hglobs : Scan.globs L t s.pages s.excluded s.walkOptions with
  | error fault => rw [hglobs] at h; cases h
  | ok r =>
    rw [hglobs] at h
    cases hset : PatternSet.ofList L.globs s.critical with
    | error fault => rw [hset] at h; cases h
    | ok critical =>
      rw [hset] at h
      cases h
      simp only
      generalize write s.outputDirectory _ t = w
      obtain ⟨site, _ | fault⟩ := w <;> exact ⟨rfl, rfl⟩

end Build

namespace Settings
open FileTree

theorem outputDirectory_ne_empty {s : Settings} (h : s.base ≠ "") : s.outputDirectory ≠ "" := by
  rw [outputDirectory]
  cases ha : Path.isAbsolute s.outDirectory with
  | true =>
    rw [Path.join, if_pos (by simp [ha])]
    rintro he
    rw [he] at ha
    cases ha
  | false => exact Path.join_ne_empty h ha

theorem baseOf_ne_empty (config : Option String) : baseOf config ≠ "" := by
  rw [baseOf]
  cases config.bind Path.parent? with
  | none => decide
  | some directory =>
    by_cases hd : directory = ""
    · subst hd
      decide
    · split <;> simp_all

theorem find_eq_ok {L : TomlLibrary} {t : FileTree} {arguments : Arguments} {s : Settings}
    (h : find L t arguments = .ok s) : ∃ config, Config.find L t arguments.config = .ok config ∧
      s = ofConfig (baseOf arguments.config) config arguments := by
  rw [find] at h
  cases hc : Config.find L t arguments.config with
  | error fault =>
    rw [hc] at h
    cases h
  | ok config =>
    rw [hc] at h
    cases h
    exact ⟨config, rfl, rfl⟩

theorem base_ne_empty {L : TomlLibrary} {t : FileTree} {arguments : Arguments} {s : Settings}
    (h : find L t arguments = .ok s) : s.base ≠ "" := by
  obtain ⟨config, -, rfl⟩ := find_eq_ok h
  exact baseOf_ne_empty arguments.config

/-- The path of a sheet. -/
def sheetPath (s : Settings) (p : Partition) : String :=
  Path.join s.outputDirectory (Build.sheetName p)

end Settings

namespace CommandLine
open FileTree

variable (L : Libraries)

/-- What a run of a command line leaves in a site. -/
structure Effect (c : CommandLine) (t : FileTree) (o : Outcome) : Prop where
  scan : c.task = .scan → o.site = t
  misconfigured {fault} : o.fault = some (.config fault) → o.site = t
  unscanned {fault} : o.fault = some (.scan fault) → o.site = t
  /-- Where a sheet cannot be written, the external one has not been, and the critical one is the new one
  if it has changed. -/
  unwritten {path fault} : o.fault = some (.write path fault) → ∃ s compiler,
    Settings.find L.toml t c.arguments = .ok s ∧ Build.compiled L s t = .ok compiler ∧
    (∀ l, t.isDirectory l → o.site.isDirectory l) ∧
    (∀ l, o.site.fileAt? l ≠ t.fileAt? l → o.site.locate (s.sheetPath .critical) = .ok l ∧
      o.site.fileAt? l = some (compiler.text .critical).toUTF8) ∧
    ∀ l, o.site.locate (s.sheetPath .external) = .ok l → o.site.fileAt? l = t.fileAt? l
  written : c.task ≠ .scan → o.fault = none → ∃ s compiler,
    Settings.find L.toml t c.arguments = .ok s ∧ Build.compiled L s t = .ok compiler ∧
    (∀ l, t.isDirectory l → o.site.isDirectory l) ∧
    (∀ p, o.site.readText (s.sheetPath p) = .ok (compiler.text p)) ∧
    ∀ l, o.site.fileAt? l ≠ t.fileAt? l → ∃ p, o.site.locate (s.sheetPath p) = .ok l

variable {L}

theorem run_of_settings {c : CommandLine} {t : FileTree} {s : Settings}
    (h : Settings.find L.toml t c.arguments = .ok s) :
    c.run L t = if c.task = .scan then Scan.run L s t else Build.run L s t := by
  rw [run, h]
  cases c.task <;> rfl

theorem scan_run (L : Libraries) (s : Settings) (t : FileTree) :
    (Scan.run L s t).site = t ∧ ∀ path e, (Scan.run L s t).fault ≠ some (.write path e) := by
  rw [Scan.run]
  split <;> simp

theorem effect_of_refused {c : CommandLine} {s : Settings} {t : FileTree} {fault : ScanFault}
    (htask : c.task ≠ .scan) (hc : Build.compiled L s t = .error fault) :
    Effect L c t (Build.run L s t) := by
  obtain ⟨hsite, hfault⟩ := Build.run_of_error hc
  constructor <;> simp [hsite, hfault, htask]

theorem effect_of_compiled {c : CommandLine} {s : Settings} {t : FileTree} {compiler : Compiler}
    (htask : c.task ≠ .scan) (hs : Settings.find L.toml t c.arguments = .ok s)
    (hc : Build.compiled L s t = .ok compiler) : Effect L c t (Build.run L s t) := by
  obtain ⟨hsite, hfault⟩ := Build.run_of_ok hc
  have hne := Settings.outputDirectory_ne_empty (Settings.base_ne_empty hs)
  obtain ⟨l, done, hdone, hmade⟩ := Build.written_write compiler t hne
  rw [← hsite] at hmade
  rw [← hsite, ← hfault] at hdone
  have hdirectory : ∀ l, t.isDirectory l → (Build.run L s t).site.isDirectory l :=
    fun l => hdone.edited.changed.within.directory
  have hlocate : ∀ p ∈ done, (Build.run L s t).site.locate (s.sheetPath p) =
      .ok (Build.sheetAt l p) := by
    intro p hp
    obtain ⟨hl, hd⟩ := hmade (List.ne_nil_of_mem hp)
    exact hdone.locate_sheet hl hd hp
  constructor
  · exact fun h => absurd h htask
  · intro fault h
    obtain ⟨path, e, he⟩ := hdone.refused h
    cases he
  · intro fault h
    obtain ⟨path, e, he⟩ := hdone.refused h
    cases he
  -- What was done before the refusal is nothing or the first sheet alone.
  · intro path e h
    rw [h] at hdone
    have hexternal := hdone.external_notMem
    refine ⟨s, compiler, hs, hc, hdirectory, fun k hk => ?_, fun k hk => ?_⟩
    · obtain ⟨p, hp, rfl⟩ := hdone.eq_sheetAt hk
      cases p with
      | external => exact absurd hp hexternal
      | critical => exact ⟨hlocate _ hp, by rw [fileAt?, hdone.content hp]; rfl⟩
    -- What has changed is a sheet that was done, so the first one, and the second has another name.
    · refine Decidable.byContradiction fun hne => ?_
      obtain ⟨p, hp, rfl⟩ := hdone.eq_sheetAt hne
      cases p with
      | external => exact hexternal hp
      | critical =>
        obtain ⟨hl, -⟩ := hmade (List.ne_nil_of_mem hp)
        have he := eq_of_locate_join_name (Build.isName_sheetName .external) hl hk
        cases Build.sheetAt_injective l he
  · intro _ h
    have hmem : ∀ p, p ∈ done := by
      intro p
      rw [hdone.complete.1 h]
      cases p <;> simp
    refine ⟨s, compiler, hs, hc, hdirectory, fun p => ?_, fun k hk => ?_⟩
    · exact hdone.readText_sheet (hmem p) (hlocate p (hmem p))
    · obtain ⟨p, -, rfl⟩ := hdone.eq_sheetAt hk
      exact ⟨p, hlocate p (hmem p)⟩

/-- A run changes nothing but the sheets that it is to write. -/
theorem effect_run (L : Libraries) (c : CommandLine) (t : FileTree) : Effect L c t (c.run L t) := by
  cases hs : Settings.find L.toml t c.arguments with
  | error fault =>
    have hrun : c.run L t = { site := t, fault := some (.config fault) } := by rw [run, hs]
    rw [hrun]
    constructor <;> simp
  | ok s =>
    rw [run_of_settings hs]
    by_cases htask : c.task = .scan
    · rw [if_pos htask]
      obtain ⟨hsite, hfault⟩ := scan_run L s t
      constructor
      · exact fun _ => hsite
      · exact fun _ => hsite
      · exact fun _ => hsite
      · exact fun h => absurd h (hfault _ _)
      · exact fun h => absurd htask h
    · rw [if_neg htask]
      cases hc : Build.compiled L s t with
      | error fault => exact effect_of_refused htask hc
      | ok compiler => exact effect_of_compiled htask hs hc

end CommandLine
end UtilityCss
