import UtilityCss.Build
import UtilityCss.Proofs.PatternSet
import UtilityCss.Proofs.Standard

namespace UtilityCss

namespace Watch

theorem eq_of_cutLast {sep : Char} {s a b : List Char} (h : Text.cutLast sep s = some (a, b)) :
    s = a ++ sep :: b := by
  rw [Text.cutLast, Option.map_eq_some_iff] at h
  obtain ⟨⟨c, d⟩, hcut, he⟩ := h
  cases he
  rw [← List.reverse_reverse s, Text.eq_of_cut hcut]
  simp

theorem isWild_of_special {c : Char} (h : c ∈ GlobLibrary.special) : isWild c = true ∨ c = '\\' := by
  simp only [GlobLibrary.special, List.mem_cons, List.not_mem_nil, or_false] at h
  rcases h with rfl | rfl | rfl | rfl | rfl <;> simp [isWild]

/-- The root of a glob, if any, is all of it, or all before a slash, and ends before the first wild
character. -/
theorem globRoot_cases {pattern : String} (hne : globRoot pattern ≠ "") :
    (globRoot pattern = pattern ∧ ∀ c ∈ pattern.toList, isWild c = false) ∨
      ∃ a rest, pattern.toList = a ++ '/' :: rest ∧ Path.Cuts (globRoot pattern) a ∧
        ∀ c ∈ a, isWild c = false := by
  rw [globRoot] at hne ⊢
  cases hwild : pattern.toList.any isWild with
  | true =>
    rw [hwild, if_pos rfl] at hne
    rw [if_pos rfl]
    cases hcut : Text.cutLast '/' (pattern.toList.takeWhile (!isWild ·)) with
    | none =>
      rw [hcut] at hne
      exact absurd rfl hne
    | some r =>
      obtain ⟨directory, tail⟩ := r
      have hdirectory := eq_of_cutLast hcut
      refine .inr ⟨directory, tail ++ pattern.toList.dropWhile (!isWild ·), ?_, .inl rfl, ?_⟩
      · rw [← List.cons_append, ← List.append_assoc, ← hdirectory, List.takeWhile_append_dropWhile]
      · intro c hc
        have hmem : c ∈ pattern.toList.takeWhile (!isWild ·) := by
          rw [hdirectory]
          exact List.mem_append_left _ hc
        simpa using List.mem_takeWhile_imp hmem
  | false =>
    rw [hwild, if_neg (by simp)] at hne
    rw [if_neg (by simp)]
    have hnone : ∀ c ∈ pattern.toList, isWild c = false := by simpa using hwild
    -- Without wild characters the root is the directory of a file, or all of the pattern.
    by_cases hfile : (Path.extension? pattern).isSome
    · rw [if_pos hfile] at hne ⊢
      cases hparent : Path.parent? pattern with
      | none => exact .inl ⟨rfl, hnone⟩
      | some directory =>
        rw [hparent, Option.getD_some] at hne
        obtain ⟨a, rest, htext, hcuts⟩ := Path.text_parent? hparent hne
        exact .inr ⟨a, rest, htext, hcuts, fun c hc =>
          hnone c (by rw [htext]; exact List.mem_append_left _ hc)⟩
    · rw [if_neg hfile]
      exact .inl ⟨rfl, hnone⟩

/-- The root of a glob begins what the glob matches, unless a backslash stands in it. -/
theorem globRoot_begins {L : GlobLibrary} (hL : L.Documented) {pattern path : String} {g : L.Glob}
    (hg : L.read pattern = .ok g) (h : L.admits g path) (hplain : '\\' ∉ (globRoot pattern).toList)
    (hne : globRoot pattern ≠ "") : Path.Begins (globRoot pattern) path := by
  have hspecial : ∀ c ∈ (globRoot pattern).toList, isWild c = false → c ∉ GlobLibrary.special := by
    intro c hc hwild hspecial
    rcases isWild_of_special hspecial with hw | rfl
    · rw [hw] at hwild
      cases hwild
    · exact hplain hc
  rcases globRoot_cases hne with ⟨hall, hwild⟩ | ⟨a, rest, htext, hcuts, hwild⟩
  · rw [hall] at hspecial ⊢
    obtain rfl := hL.whole hg (fun c hc => hspecial c hc (hwild c hc)) h
    exact Path.begins_refl path
  · have ha : ∀ c ∈ a, c ∈ (globRoot pattern).toList := by
      rcases hcuts with hroot | ⟨rfl, -⟩
      · simp [hroot]
      · simp
    obtain ⟨more, hmore⟩ := hL.starts hg htext (fun c hc => hspecial c (ha c hc) (hwild c hc)) h
    exact Path.begins_of_text hcuts hne hmore

end Watch

namespace FileTree

/-- Without a step back, following a path leads down. -/
theorem prefix_of_follow {t : FileTree} {l k : Location} {ps : List (List Char)}
    (hps : ∀ p ∈ ps, p ≠ ['.', '.']) (h : t.follow l ps = .ok k) : l <+: k := by
  induction ps generalizing l with
  | nil => exact Except.ok.inj h ▸ List.prefix_rfl
  | cons p ps ih =>
    rw [List.forall_mem_cons] at hps
    obtain ⟨-, ⟨-, hf⟩ | ⟨hp, -⟩ | ⟨-, -, -, hf⟩⟩ := follow_cons_iff.1 h
    · exact ih hps.2 hf
    · exact absurd hp hps.1
    · exact (List.prefix_append _ _).trans (ih hps.2 hf)

/-- What a path leads to goes by names. -/
theorem named_of_follow {t : FileTree} {l k : Location} {ps : List (List Char)}
    (hps : ∀ p ∈ ps, '/' ∉ p) (hl : ∀ n ∈ l, Path.IsName n.toList) (h : t.follow l ps = .ok k) :
    ∀ n ∈ k, Path.IsName n.toList := by
  induction ps generalizing l with
  | nil => rwa [← Except.ok.inj h]
  | cons p ps ih =>
    rw [List.forall_mem_cons] at hps
    obtain ⟨-, ⟨-, hf⟩ | ⟨-, hf⟩ | ⟨hv, hp, -, hf⟩⟩ := follow_cons_iff.1 h
    · exact ih hps.2 hl hf
    · exact ih hps.2 (fun n hn => hl n (List.dropLast_subset l hn)) hf
    · refine ih hps.2 (fun n hn => ?_) hf
      rcases List.mem_append.1 hn with hn | hn
      · exact hl n hn
      · rw [List.mem_singleton.1 hn, String.toList_ofList]
        simp only [Path.isVoid, Bool.or_eq_false_iff, List.isEmpty_eq_false_iff, ne_eq,
          beq_eq_false_iff_ne] at hv
        exact ⟨hv.1, hps.1, hv.2, hp⟩

section sound
variable {t : FileTree} (ht : t.Sound)
include ht

theorem Sound.named_start (path : String) : ∀ n ∈ t.start path, Path.IsName n.toList := by
  rw [start]
  split
  · simp
  · exact ht.named_of_isSome (by rw [isDirectory_iff.1 ht.home]; rfl)

theorem Sound.named_of_locate {path : String} {l : Location} (h : t.locate path = .ok l) :
    ∀ n ∈ l, Path.IsName n.toList :=
  named_of_follow (fun p hp hm => by simpa using Text.eq_false_of_mem_pieces hp _ hm)
    (ht.named_start path) (locate_iff.1 h).2

theorem Sound.components_canonical {path : String} {l : Location} (h : t.locate path = .ok l) :
    Path.components (t.canonical path) = .root :: l.map fun n => .name n.toList := by
  have hjoin : ∀ names : String, "/" ++ names = Path.join "/" names ∨ Path.isAbsolute names := by
    intro names
    by_cases ha : Path.isAbsolute names
    · exact .inr ha
    · exact .inl (by simp [Path.join, ha])
  have hnamed := ht.named_of_locate h
  rw [canonical, h]
  rcases hjoin ("/".intercalate l) with he | ha
  · simp only [he]
    exact Path.components_join_names hnamed "/"
  · rw [Path.isAbsolute_names hnamed] at ha
    cases ha

/-- What lies below something is known by a path below it. -/
theorem Sound.startsWith_canonical {path root : String} {l k : Location}
    (hl : t.locate path = .ok l) (hk : t.locate root = .ok k) (h : k <+: l) :
    Path.startsWith (t.canonical path) (t.canonical root) := by
  rw [Path.startsWith, List.isPrefixOf_iff_prefix, ht.components_canonical hl,
    ht.components_canonical hk, List.prefix_cons_inj]
  exact h.map _

end sound

/-- Where a path leads somewhere, so do those that begin it. -/
theorem locate_of_parts {t : FileTree} {path root : String} {l : Location} {rest : List (List Char)}
    (hl : t.locate path = .ok l) (hne : root ≠ "")
    (hparts : Path.parts path = Path.parts root ++ rest) (hrest : ∀ p ∈ rest, p ≠ ['.', '.']) :
    ∃ k, t.locate root = .ok k ∧ k <+: l := by
  obtain ⟨-, hf⟩ := locate_iff.1 hl
  rw [hparts] at hf
  obtain ⟨k, hk, hbelow⟩ := follow_of_append hf
  have hbegins := (Path.begins_of_parts hne ⟨rest, hparts.symm⟩).absolute
  rw [← t.start_congr hbegins] at hk
  exact ⟨k, locate_iff.2 ⟨hne, hk⟩, prefix_of_follow hrest hbelow⟩

end FileTree

namespace Watch
open FileTree

/-- A file that is there, by its names below a base. -/
structure IsFile (t : FileTree) (base : String) (names : List String) : Prop where
  ne_nil : names ≠ []
  named : ∀ n ∈ names, Path.IsName n.toList
  there : ∃ l, t.locate (Path.join base ("/".intercalate names)) = .ok l

/-- What a root is known by begins what the file is known by. -/
def Covers (t : FileTree) (base : String) (names : List String) (root : String) : Prop :=
  Path.startsWith (t.canonical (Path.join base ("/".intercalate names)))
    (t.canonical (Path.join base root))

section covers
variable {t : FileTree} {base : String} {names : List String} (h : IsFile t base names)
include h

theorem IsFile.parts_eq : Path.parts (Path.join base ("/".intercalate names)) =
    Path.stem base ++ names.map String.toList := by
  rw [Path.parts_join (Path.isAbsolute_names h.named), Path.parts_names h.named h.ne_nil]

theorem IsFile.forall_ne_parent : ∀ p ∈ names.map String.toList, p ≠ ['.', '.'] := by
  intro p hp
  obtain ⟨n, hm, rfl⟩ := List.mem_map.1 hp
  exact (h.named n hm).ne_parent

variable (ht : t.Sound)
include ht

theorem covers_base : Covers t base names "" := by
  by_cases hb : base = ""
  · subst hb
    rfl
  · obtain ⟨l, hl⟩ := h.there
    obtain ⟨-, hf⟩ := locate_iff.1 hl
    rw [h.parts_eq] at hf
    obtain ⟨k, hk, hbelow⟩ := follow_of_append hf
    have hd := directory_of_follow (by simpa using h.ne_nil) hbelow
    rw [t.start_congr (Path.isAbsolute_join hb (Path.isAbsolute_names h.named))] at hk
    have hbase : t.locate (Path.join base "") = .ok k := by
      refine locate_iff.2 ⟨Path.join_ne_empty hb rfl, ?_⟩
      rw [t.start_congr (Path.isAbsolute_join hb rfl), Path.parts_join rfl, follow_append, hk]
      exact follow_cons_iff.2 ⟨hd, .inl ⟨rfl, rfl⟩⟩
    exact ht.startsWith_canonical hl hbase (prefix_of_follow h.forall_ne_parent hbelow)

/-- A root that begins the names covers the file. -/
theorem covers_names {root : String} (hne : root ≠ "") (ha : Path.isAbsolute root = false)
    (hroot : Path.parts root <+: names.map String.toList) : Covers t base names root := by
  obtain ⟨rest, hrest⟩ := hroot
  have hparts : Path.parts (Path.join base ("/".intercalate names)) =
      Path.parts (Path.join base root) ++ rest := by
    rw [h.parts_eq, Path.parts_join ha, List.append_assoc, hrest]
  have hjoin : Path.join base root ≠ "" := by
    by_cases hb : base = ""
    · subst hb
      simpa [Path.join] using hne
    · exact Path.join_ne_empty hb ha
  obtain ⟨l, hl⟩ := h.there
  obtain ⟨k, hk, hbelow⟩ := locate_of_parts hl hjoin hparts fun p hp =>
    h.forall_ne_parent p (hrest ▸ List.mem_append_right _ hp)
  exact ht.startsWith_canonical hl hk hbelow

/-- From an absolute base without steps back, a root that begins the path covers it. -/
theorem covers_absolute {root : String} (hne : root ≠ "") (hb : Path.isAbsolute base)
    (hback : ∀ p ∈ Path.parts base, p ≠ ['.', '.'])
    (hroot : Path.Begins root (Path.join base ("/".intercalate names))) :
    Covers t base names root := by
  have hbase : base ≠ "" := by
    rintro rfl
    cases hb
  have hstem : ∀ p ∈ Path.stem base, p ≠ ['.', '.'] := by
    rcases Path.parts_eq_stem hbase with he | he
    · rwa [he] at hback
    · exact fun p hp => hback p (by rw [he]; exact List.mem_append_left _ hp)
  have habs := (Path.isAbsolute_join hbase (Path.isAbsolute_names h.named)).trans hb
  have hjoin : Path.join base root = root := by
    rw [Path.join, if_pos (by simp [hroot.absolute.trans habs])]
  obtain ⟨l, hl⟩ := h.there
  rw [Covers, hjoin]
  rcases hroot.parts with rfl | ⟨rest, hrest⟩
  · exact ht.startsWith_canonical hl (k := []) rfl List.nil_prefix
  · obtain ⟨k, hk, hbelow⟩ := locate_of_parts hl hne hrest.symm fun p hp => by
      have hmem : p ∈ Path.stem base ++ names.map String.toList := by
        rw [← h.parts_eq, ← hrest]
        exact List.mem_append_right _ hp
      exact (List.mem_append.1 hmem).elim (hstem p) (h.forall_ne_parent p)
    exact ht.startsWith_canonical hl hk hbelow

/-- From a base of dots, a root that begins the path covers it too. -/
theorem covers_dots {root : String} (hne : root ≠ "") (hb : ∀ p ∈ Path.parts base, Path.isVoid p)
    (ha : Path.isAbsolute base = false)
    (hroot : Path.Begins root (Path.join base ("/".intercalate names))) :
    Covers t base names root := by
  have hnames := Path.isAbsolute_names h.named
  by_cases hbase : base = ""
  · subst hbase
    have hrelative : Path.isAbsolute root = false :=
      hroot.absolute.trans (by simpa [Path.join] using hnames)
    rcases hroot.parts with rfl | hparts
    · cases hrelative
    · rw [h.parts_eq] at hparts
      exact covers_names h ht hne hrelative hparts
  -- The parts of the root begin with the dots of the base and end in names, so that it leads from the working
  -- directory to where it leads from the base.
  · have hpath := (Path.isAbsolute_join hbase hnames).trans ha
    have hrelative := hroot.absolute.trans hpath
    have hstem : ∀ p ∈ Path.stem base, Path.isVoid p := by
      rcases Path.parts_eq_stem hbase with he | he
      · rwa [he] at hb
      · exact fun p hp => hb p (by rw [he]; exact List.mem_append_left _ hp)
    obtain ⟨rest, hrest⟩ := hroot.parts.resolve_left (by rintro rfl; cases hrelative)
    obtain ⟨l, hl⟩ := h.there
    obtain ⟨k, hk, hbelow⟩ := locate_of_parts hl hne hrest.symm fun p hp => by
      have hmem : p ∈ Path.stem base ++ names.map String.toList := by
        rw [← h.parts_eq, ← hrest]
        exact List.mem_append_right _ hp
      rcases List.mem_append.1 hmem with hmem | hmem
      · rintro rfl
        exact absurd (hstem _ hmem) (by decide)
      · exact h.forall_ne_parent p hmem
    have habs := Path.isAbsolute_join hbase hrelative
    refine ht.startsWith_canonical hl
      (locate_iff.2 ⟨Path.join_ne_empty hbase hrelative, ?_⟩) hbelow
    rw [t.start_congr ((habs.trans ha).trans hrelative.symm), Path.parts_join hrelative, follow_append]
    obtain ⟨-, hf⟩ := locate_iff.1 hk
    have hhome : t.isDirectory (t.start root) := by
      rw [start, hrelative]
      exact ht.home
    rw [follow_voids hstem hhome]
    exact hf

variable {L : GlobLibrary} (hL : L.Documented)
include hL

/-- The root of a pattern whose match leaves out the base covers the file. -/
theorem covers_of_relative {pattern : String} {g : L.Glob} (hg : L.read pattern = .ok g)
    (hplain : '\\' ∉ (globRoot pattern).toList) (hadmits : L.admits g ("/".intercalate names)) :
    Covers t base names (globRoot pattern) := by
  have hnames := Path.isAbsolute_names h.named
  by_cases hempty : globRoot pattern = ""
  · rw [hempty]
    exact covers_base h ht
  · have hbegins := globRoot_begins hL hg hadmits hplain hempty
    have hrelative := hbegins.absolute.trans hnames
    have hparts := hbegins.parts.resolve_left (by intro he; rw [he] at hrelative; cases hrelative)
    rw [Path.parts_names h.named h.ne_nil] at hparts
    exact covers_names h ht hempty hrelative hparts

/-- So does that of a pattern that matches the path as it is given, if the base is absolute without steps
back, or nothing but dots. -/
theorem covers_of_given {pattern : String} {g : L.Glob} (hg : L.read pattern = .ok g)
    (hplain : '\\' ∉ (globRoot pattern).toList)
    (hadmits : L.admits g (Path.join base ("/".intercalate names)))
    (hbase : (Path.isAbsolute base ∧ ∀ p ∈ Path.parts base, p ≠ ['.', '.']) ∨
      ∀ p ∈ Path.parts base, Path.isVoid p) :
    Covers t base names (globRoot pattern) := by
  by_cases hempty : globRoot pattern = ""
  · rw [hempty]
    exact covers_base h ht
  · have hbegins := globRoot_begins hL hg hadmits hplain hempty
    cases ha : Path.isAbsolute base with
    | true =>
      refine covers_absolute h ht hempty ha (hbase.elim (·.2) fun hb p hp => ?_) hbegins
      rintro rfl
      exact absurd (hb _ hp) (by decide)
    | false => exact covers_dots h ht hempty (hbase.resolve_left (by simp [ha])) ha hbegins

end covers

/-- A file that patterns select lies under what a watch of them follows, if no backslash stands in a root
of theirs, and the base is absolute without steps back, or nothing but dots, or left out of the match, or
followed itself. -/
theorem covered_of_selects {L : GlobLibrary} (hL : L.Documented) {t : FileTree} (ht : t.Sound)
    {base : String} {names patterns : List String} {set : PatternSet L} (h : IsFile t base names)
    (hset : PatternSet.ofList L patterns = .ok set)
    (hplain : ∀ p ∈ patterns, '\\' ∉ (globRoot p).toList)
    (hselects : set.selects (Path.join base ("/".intercalate names)) base)
    (hform : ((Path.isAbsolute base ∧ ∀ p ∈ Path.parts base, p ≠ ['.', '.']) ∨
        ∀ p ∈ Path.parts base, Path.isVoid p) ∨
      (∃ p ∈ patterns, ∃ g, L.read p = .ok g ∧ L.admits g ("/".intercalate names)) ∨
      ∃ p ∈ patterns, globRoot p = "") :
    ∃ root ∈ roots t patterns base,
      Path.startsWith (t.canonical (Path.join base ("/".intercalate names))) root := by
  have hcovers : ∃ p ∈ patterns, Covers t base names (globRoot p) := by
    rcases hform with hbase | ⟨p, hp, g, hread, hadmits⟩ | ⟨p, hp, hempty⟩
    · rw [PatternSet.selects_eq hL hset, List.any_eq_true] at hselects
      obtain ⟨p, hp, hchosen⟩ := hselects
      obtain ⟨g, hread, hadmits⟩ := GlobLibrary.chooses_iff.1 hchosen
      rw [Path.relative?_join_names h.named base h.ne_nil, Option.getD_some] at hadmits
      rcases hadmits with hadmits | hadmits
      · exact ⟨p, hp, covers_of_relative h ht hL hread (hplain p hp) hadmits⟩
      · exact ⟨p, hp, covers_of_given h ht hL hread (hplain p hp) hadmits hbase⟩
    · exact ⟨p, hp, covers_of_relative h ht hL hread (hplain p hp) hadmits⟩
    · exact ⟨p, hp, hempty ▸ covers_base h ht⟩
  obtain ⟨p, hp, hcovers⟩ := hcovers
  have hmem : t.canonical (Path.join base (globRoot p)) ∈
      patterns.map fun pattern => t.canonical (Path.join base (globRoot pattern)) :=
    List.mem_map.2 ⟨p, hp, rfl⟩
  obtain ⟨root, hroot, hsame⟩ := Path.exists_distinct hmem
  rw [roots]
  refine ⟨root, hroot, ?_⟩
  have hstart : Path.startsWith _ _ := hcovers
  rw [Path.startsWith] at hstart ⊢
  rwa [hsame]

theorem covered_of_selects_blog :
    let t : FileTree := ⟨[(["srv"], .directory), (["srv", "site"], .directory),
      (["srv", "site", "blog"], .directory),
      (["srv", "site", "blog", "a.html"], .file ByteArray.empty)], ["srv"]⟩
    let patterns := ["*.md", "blog/**/\\*.html", "blog/**/*.html"]
    (PatternSet.ofList GlobLibrary.standard patterns).toOption.any
        (·.selects "site/blog/a.html" "site") ∧
      ∃ root ∈ roots t patterns "site", Path.startsWith (t.canonical "site/blog/a.html") root := by
  intro t patterns
  have ht : t.Sound := by decide
  have hselects : (PatternSet.ofList GlobLibrary.standard patterns).toOption.any
      (·.selects "site/blog/a.html" "site") := by decide +kernel
  have hrelative : (GlobLibrary.standard.read "blog/**/*.html").toOption.any
      (GlobLibrary.standard.admits · "blog/a.html") := by decide +kernel
  have hnames : "/".intercalate ["blog", "a.html"] = "blog/a.html" := by decide +kernel
  have hjoin : "site/blog/a.html" = Path.join "site" ("/".intercalate ["blog", "a.html"]) := by
    decide +kernel
  have h : IsFile t "site" ["blog", "a.html"] :=
    ⟨by decide, by decide, ["srv", "site", "blog", "a.html"], by decide +kernel⟩
  refine ⟨hselects, ?_⟩
  obtain ⟨g, hread, hadmits⟩ := any_toOption_iff.1 hrelative
  obtain ⟨set, hset, hselects⟩ := any_toOption_iff.1 hselects
  rw [hjoin] at hselects ⊢
  exact covered_of_selects GlobLibrary.documented_standard ht h hset (by decide) hselects
    (.inr (.inl ⟨"blog/**/*.html", by decide, g, hread, hnames ▸ hadmits⟩))

/-- There is a file that a pattern selects, but that no root of the pattern covers. -/
def Misses (pattern base : String) : Prop :=
  ∃ (t : FileTree) (names : List String), t.Sound ∧ IsFile t base names ∧
    (PatternSet.ofList GlobLibrary.standard [pattern]).toOption.any
      (·.selects (Path.join base ("/".intercalate names)) base) ∧
    ∀ root ∈ roots t [pattern] base,
      Path.startsWith (t.canonical (Path.join base ("/".intercalate names))) root = false

/-- A backslash in a root leads to another directory, and so does a match that begins with a base of names
or goes back from there. -/
theorem misses_escaped_and_given :
    Misses "s\\ite/*.html" "." ∧ Misses "site/*.html" "site" ∧ Misses "/drafts/*" "/drafts/../site" := by
  let t : FileTree := ⟨[(["drafts"], .directory), (["site"], .directory),
    (["site", "a.html"], .file ByteArray.empty)], []⟩
  refine ⟨⟨t, ["site", "a.html"], by decide, ⟨by decide, by decide, ["site", "a.html"], ?_⟩, ?_, ?_⟩,
    ⟨t, ["a.html"], by decide, ⟨by decide, by decide, ["site", "a.html"], ?_⟩, ?_, ?_⟩,
    ⟨t, ["a.html"], by decide, ⟨by decide, by decide, ["site", "a.html"], ?_⟩, ?_, ?_⟩⟩ <;>
    decide +kernel

end Watch

end UtilityCss
