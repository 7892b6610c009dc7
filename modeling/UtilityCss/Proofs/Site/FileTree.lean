import UtilityCss.Site.FileTree
import UtilityCss.Proofs.Path
import Mathlib.Data.List.Induction
import Mathlib.Data.List.TakeWhile

namespace UtilityCss.FileTree

/-- All locations of a tree, in the order in which they were made. -/
def locations (t : FileTree) : List Location := t.entries.map Prod.fst

theorem isDirectory_iff {t : FileTree} {l : Location} :
    t.isDirectory l ↔ t.find? l = some .directory := by
  unfold isDirectory
  split <;> simp_all

@[simp] theorem find?_nil (t : FileTree) : t.find? [] = some .directory := rfl

theorem find?_of_ne_nil (t : FileTree) {l : Location} (h : l ≠ []) :
    t.find? l = t.entries.lookup l := by
  simp [find?, h]

theorem lookup_map_snd (f : Location → Entry → Entry) (entries : List (Location × Entry))
    (k : Location) :
    (entries.map fun (k, e) => (k, f k e)).lookup k = (entries.lookup k).map (f k) := by
  induction entries with
  | nil => rfl
  | cons entry entries ih =>
    rw [List.map_cons, List.lookup_cons, List.lookup_cons, ih]
    by_cases hk : k = entry.1
    · simp [hk]
    · simp [beq_eq_false_iff_ne.2 hk]

section put
variable (t : FileTree) {l : Location} (e : Entry)

theorem put_of_mem (h : l ∈ t.locations) :
    t.put l e = { t with entries := t.entries.map fun (k, old) => (k, if k = l then e else old) } := by
  rw [put, if_pos (by simpa [locations] using h)]
  congr 2
  funext ⟨k, old⟩
  by_cases hk : k = l <;> simp [hk]

theorem put_of_notMem (h : l ∉ t.locations) :
    t.put l e = { t with entries := t.entries ++ [(l, e)] } :=
  if_neg (by simpa [locations] using h)

@[simp] theorem home_put : (t.put l e).home = t.home := by
  rw [put]
  split <;> rfl

theorem mem_locations : l ∈ t.locations ↔ (t.entries.lookup l).isSome := by
  simp [locations, List.lookup_isSome_iff]

theorem find?_put (hl : l ≠ []) (k : Location) :
    (t.put l e).find? k = if k = l then some e else t.find? k := by
  by_cases hk : k = []
  · subst hk
    simp [hl.symm]
  · rw [find?_of_ne_nil _ hk, find?_of_ne_nil _ hk]
    by_cases h : l ∈ t.locations
    · rw [put_of_mem t e h, lookup_map_snd fun k old => if k = l then e else old]
      split
      · rename_i he
        subst he
        obtain ⟨old, hold⟩ := Option.isSome_iff_exists.1 ((mem_locations t).1 h)
        simp [hold]
      · simp
    · rw [put_of_notMem t e h, List.lookup_append]
      by_cases he : k = l
      · subst he
        have hnone := Option.not_isSome_iff_eq_none.1 (h ∘ (mem_locations t).2)
        simp [hnone]
      · simp [he, List.lookup_cons, beq_eq_false_iff_ne.2 he]

theorem locations_put :
    (t.put l e).locations = if l ∈ t.locations then t.locations else t.locations ++ [l] := by
  split
  · rename_i h
    rw [put_of_mem t e h]
    simp [locations, Function.comp_def]
  · rename_i h
    rw [put_of_notMem t e h]
    simp [locations]

end put

theorem follow_append (t : FileTree) (l : Location) (ps qs : List (List Char)) :
    t.follow l (ps ++ qs) = (t.follow l ps).bind fun k => t.follow k qs := by
  induction ps generalizing l with
  | nil => rfl
  | cons p ps ih =>
    simp only [List.cons_append, follow]
    repeat' split
    all_goals first
      | exact ih _
      | rfl

/-- What the first part of a path can do: say nothing, lead back, or lead on to an entry. -/
theorem follow_cons_iff {t : FileTree} {l k : Location} {p : List Char} {ps : List (List Char)} :
    t.follow l (p :: ps) = .ok k ↔ t.isDirectory l ∧
      (Path.isVoid p ∧ t.follow l ps = .ok k ∨
        p = ['.', '.'] ∧ t.follow l.dropLast ps = .ok k ∨
        Path.isVoid p = false ∧ p ≠ ['.', '.'] ∧ (t.find? (l ++ [String.ofList p])).isSome ∧
          t.follow (l ++ [String.ofList p]) ps = .ok k) := by
  rw [follow]
  by_cases hd : t.isDirectory l
  · by_cases hv : Path.isVoid p
    · have hp : p ≠ ['.', '.'] := by
        rintro rfl
        exact absurd hv (by decide)
      simp [hd, hv, hp]
    · by_cases hp : p = ['.', '.']
      · have hdots : Path.isVoid ['.', '.'] = false := rfl
        simp [hd, hp, hdots]
      · by_cases hn : (t.find? (l ++ [String.ofList p])).isSome <;> simp [hd, hv, hp, hn]
  · simp [hd]

theorem directory_of_follow {t : FileTree} {l k : Location} {ps : List (List Char)} (hne : ps ≠ [])
    (h : t.follow l ps = .ok k) : t.isDirectory l := by
  obtain ⟨p, ps, rfl⟩ := List.exists_cons_of_ne_nil hne
  exact (follow_cons_iff.1 h).1

theorem locate_iff {t : FileTree} {path : String} {l : Location} :
    t.locate path = .ok l ↔ path ≠ "" ∧ t.follow (t.start path) (Path.parts path) = .ok l := by
  rw [locate]
  by_cases hp : path = "" <;> simp [hp]

/-- Two paths start from the same place if both are absolute or neither is. -/
theorem start_congr (t : FileTree) {path path' : String}
    (h : Path.isAbsolute path = Path.isAbsolute path') : t.start path = t.start path' := by
  rw [start, start, h]

/-- What there is in one tree is in another, and directories are directories there. -/
structure Within (t t' : FileTree) : Prop where
  home : t'.home = t.home
  present {l} : (t.find? l).isSome → (t'.find? l).isSome
  directory {l} : t.isDirectory l → t'.isDirectory l

theorem Within.follow {t t' : FileTree} (h : Within t t') {l k : Location} {ps : List (List Char)}
    (hf : t.follow l ps = .ok k) : t'.follow l ps = .ok k := by
  induction ps generalizing l with
  | nil => exact hf
  | cons p ps ih =>
    obtain ⟨hd, hcase⟩ := follow_cons_iff.1 hf
    refine follow_cons_iff.2 ⟨h.directory hd, ?_⟩
    rcases hcase with ⟨hv, hf⟩ | ⟨hp, hf⟩ | ⟨hv, hp, hn, hf⟩
    · exact .inl ⟨hv, ih hf⟩
    · exact .inr (.inl ⟨hp, ih hf⟩)
    · exact .inr (.inr ⟨hv, hp, h.present hn, ih hf⟩)

theorem Within.locate {t t' : FileTree} (h : Within t t') {path : String} {l : Location}
    (hl : t.locate path = .ok l) : t'.locate path = .ok l := by
  obtain ⟨hne, hf⟩ := locate_iff.1 hl
  refine locate_iff.2 ⟨hne, ?_⟩
  rw [start, h.home]
  exact h.follow hf

/-- How writing files at some locations changes a tree, with the directories that are made on the way. -/
structure Changed (t t' : FileTree) (files : List Location) : Prop where
  home : t'.home = t.home
  /-- What is new comes last. -/
  order : t.locations <+: t'.locations
  kept {l e} : l ∉ files → t.find? l = some e → t'.find? l = some e
  added {l e} : l ∉ files → t.find? l = none → t'.find? l = some e → e = .directory
  written {l} : l ∈ files → t.isDirectory l = false ∧ ∃ content, t'.find? l = some (.file content)

theorem Changed.refl (t : FileTree) : Changed t t [] where
  home := rfl
  order := List.prefix_rfl
  kept _ h := h
  added _ hn hs := by rw [hn] at hs; cases hs
  written h := by cases h

theorem Changed.trans {t t' t'' : FileTree} {files files' : List Location}
    (h : Changed t t' files) (h' : Changed t' t'' files') : Changed t t'' (files ++ files') where
  home := h'.home.trans h.home
  order := h.order.trans h'.order
  kept hl hs := by
    rw [List.mem_append, not_or] at hl
    exact h'.kept hl.2 (h.kept hl.1 hs)
  added {l e} hl hn hs := by
    rw [List.mem_append, not_or] at hl
    cases hm : t'.find? l with
    | none => exact h'.added hl.2 hm hs
    | some old =>
      have he := h'.kept hl.2 hm
      rw [hs, Option.some_inj] at he
      rw [he]
      exact h.added hl.1 hn hm
  written {l} hl := by
    by_cases hm : l ∈ files'
    · refine ⟨?_, (h'.written hm).2⟩
      by_cases hm' : l ∈ files
      · exact (h.written hm').1
      · rw [Bool.eq_false_iff, ne_eq, isDirectory_iff]
        intro hd
        have hno := (h'.written hm).1
        rw [isDirectory_iff.2 (h.kept hm' hd)] at hno
        cases hno
    · have hm' := (List.mem_append.1 hl).resolve_right hm
      obtain ⟨hd, content, hc⟩ := h.written hm'
      exact ⟨hd, content, h'.kept hm hc⟩

theorem Changed.within {t t' : FileTree} {files : List Location} (h : Changed t t' files) :
    Within t t' where
  home := h.home
  present {l} hs := by
    obtain ⟨e, he⟩ := Option.isSome_iff_exists.1 hs
    by_cases hm : l ∈ files
    · obtain ⟨-, content, hc⟩ := h.written hm
      simp [hc]
    · simp [h.kept hm he]
  directory {l} hd := by
    have hm : l ∉ files := by
      intro hm
      have hno := (h.written hm).1
      rw [hd] at hno
      cases hno
    exact isDirectory_iff.2 (h.kept hm (isDirectory_iff.1 hd))

theorem changed_put_directory {t : FileTree} {l : Location} (hl : l ≠ []) (hn : t.find? l = none) :
    Changed t (t.put l .directory) [] where
  home := t.home_put .directory
  order := by
    rw [locations_put]
    split
    · exact List.prefix_rfl
    · exact List.prefix_append _ _
  kept {k e} _ hs := by
    have hk : k ≠ l := by
      rintro rfl
      rw [hn] at hs
      cases hs
    rw [find?_put t _ hl, if_neg hk, hs]
  added {k e} _ hk hs := by
    rw [find?_put t _ hl] at hs
    split at hs
    · exact (Option.some_inj.1 hs).symm
    · rw [hk] at hs
      cases hs
  written h := by cases h

theorem changed_put_file {t : FileTree} {l : Location} (content : ByteArray) (hl : l ≠ [])
    (hd : t.isDirectory l = false) : Changed t (t.put l (.file content)) [l] where
  home := t.home_put (.file content)
  order := by
    rw [locations_put]
    split
    · exact List.prefix_rfl
    · exact List.prefix_append _ _
  kept {k e} hk hs := by rw [find?_put t _ hl, if_neg (by simpa using hk), hs]
  added {k e} hk hn hs := by
    rw [find?_put t _ hl, if_neg (by simpa using hk), hn] at hs
    cases hs
  written {k} hk := by
    rw [List.mem_singleton] at hk
    subst hk
    exact ⟨hd, content, by rw [find?_put t _ hl, if_pos rfl]⟩

/-- The trees that come of a tree by making directories and by writing files at some locations, one at a
time, into directories that are there. -/
inductive Edited (t : FileTree) : List Location → FileTree → Prop
  | same : Edited t [] t
  | directory {files t' l name} : Edited t files t' → t'.isDirectory l → Path.IsName name.toList →
      t'.find? (l ++ [name]) = none → Edited t files (t'.put (l ++ [name]) .directory)
  | file {files t' l name} (content) : Edited t files t' → t'.isDirectory l →
      Path.IsName name.toList → t'.isDirectory (l ++ [name]) = false →
      Edited t (files ++ [l ++ [name]]) (t'.put (l ++ [name]) (.file content))

theorem Edited.trans {t t' t'' : FileTree} {files files' : List Location}
    (h : Edited t files t') (h' : Edited t' files' t'') : Edited t (files ++ files') t'' := by
  induction h' with
  | same => rwa [List.append_nil]
  | directory _ hd hn hnew ih => exact ih.directory hd hn hnew
  | file content _ hd hn hnew ih =>
    rw [← List.append_assoc]
    exact ih.file content hd hn hnew

theorem Edited.changed {t t' : FileTree} {files : List Location} (h : Edited t files t') :
    Changed t t' files := by
  induction h with
  | same => exact Changed.refl t
  | directory _ _ _ hnew ih =>
    have hput := ih.trans (changed_put_directory (by simp) hnew)
    rwa [List.append_nil] at hput
  | file content _ _ _ hnew ih => exact ih.trans (changed_put_file content (by simp) hnew)

/-- Entries have names that paths can give, lie in directories, and are there once. The working directory
is one. -/
structure Sound (t : FileTree) : Prop where
  home : t.isDirectory t.home
  named {l} : l ∈ t.locations → ∀ name ∈ l, Path.IsName name.toList
  ne_nil : [] ∉ t.locations
  parent {l} : l ∈ t.locations → t.isDirectory l.dropLast
  nodup : t.locations.Nodup

instance (t : FileTree) : Decidable t.Sound :=
  decidable_of_iff (t.isDirectory t.home ∧
      (∀ l ∈ t.locations, ∀ name ∈ l, Path.IsName name.toList) ∧ [] ∉ t.locations ∧
      (∀ l ∈ t.locations, t.isDirectory l.dropLast) ∧ t.locations.Nodup)
    ⟨fun ⟨hh, hn, hne, hp, hd⟩ => ⟨hh, @hn, hne, @hp, hd⟩,
      fun h => ⟨h.home, fun _ => h.named, h.ne_nil, fun _ => h.parent, h.nodup⟩⟩

theorem mem_locations_iff (t : FileTree) {l : Location} (hl : l ≠ []) :
    l ∈ t.locations ↔ (t.find? l).isSome := by
  rw [mem_locations, find?_of_ne_nil t hl]

theorem mem_locations_of_isDirectory {t : FileTree} {l : Location} (hl : l ≠ [])
    (h : t.isDirectory l) : l ∈ t.locations := by
  rw [mem_locations_iff t hl, isDirectory_iff.1 h]
  rfl

theorem Sound.named_of_isSome {t : FileTree} (h : t.Sound) {l : Location} (hl : (t.find? l).isSome) :
    ∀ name ∈ l, Path.IsName name.toList := by
  by_cases hnil : l = []
  · simp [hnil]
  · exact h.named ((mem_locations_iff t hnil).2 hl)

theorem Sound.put {t : FileTree} (h : t.Sound) {l : Location} {name : String} {e : Entry}
    (hd : t.isDirectory l) (hn : Path.IsName name.toList)
    (he : e = .directory ∨ t.isDirectory (l ++ [name]) = false) : (t.put (l ++ [name]) e).Sound := by
  have hne : l ++ [name] ≠ [] := by simp
  have hmem : ∀ k, k ∈ (t.put (l ++ [name]) e).locations → k = l ++ [name] ∨ k ∈ t.locations := by
    intro k hk
    rw [locations_put] at hk
    split at hk
    · exact .inr hk
    · rcases List.mem_append.1 hk with hk | hk
      · exact .inr hk
      · exact .inl (List.mem_singleton.1 hk)
  -- A directory is still one, as no file takes its place.
  have hkeep : ∀ k, t.isDirectory k → (t.put (l ++ [name]) e).isDirectory k := by
    intro k hk
    rw [isDirectory_iff, find?_put t e hne]
    split
    · rename_i hkl
      rcases he with rfl | he
      · rfl
      · rw [← hkl, hk] at he
        cases he
    · exact isDirectory_iff.1 hk
  constructor
  · rw [home_put]
    exact hkeep _ h.home
  · intro k hk m hm
    rcases hmem k hk with rfl | hk
    · rcases List.mem_append.1 hm with hm | hm
      · exact h.named_of_isSome (by rw [isDirectory_iff.1 hd]; rfl) m hm
      · rwa [List.mem_singleton.1 hm]
    · exact h.named hk m hm
  · intro hnil
    rcases hmem [] hnil with hnil | hnil
    · exact hne hnil.symm
    · exact h.ne_nil hnil
  · intro k hk
    rcases hmem k hk with rfl | hk
    · rw [List.dropLast_concat]
      exact hkeep l hd
    · exact hkeep _ (h.parent hk)
  · rw [locations_put]
    split
    · exact h.nodup
    · rename_i hnew
      rw [List.nodup_append]
      refine ⟨h.nodup, by simp, ?_⟩
      intro a ha b hb hab
      rw [hab, List.mem_singleton.1 hb] at ha
      exact hnew ha

theorem Edited.sound {t t' : FileTree} {files : List Location} (h : Edited t files t')
    (ht : t.Sound) : t'.Sound := by
  induction h with
  | same => exact ht
  | directory _ hd hn _ ih => exact ih.put hd hn (.inl rfl)
  | file content _ hd hn hnew ih => exact ih.put hd hn (.inr hnew)

theorem ancestors_eq_cons {path : String} (h : path ≠ "") :
    ∃ above, (Path.ancestors path).filter (!·.isEmpty) = path :: above := by
  rw [Path.ancestors]
  cases path.length with
  | zero => exact ⟨[], by simp [Path.ancestorsUpTo, h]⟩
  | succ n => exact ⟨_, List.filter_cons_of_pos (by simpa using h)⟩

theorem leadsToDirectory_iff {t : FileTree} {path : String} :
    t.leadsToDirectory path ↔ ∃ l, t.locate path = .ok l ∧ t.isDirectory l := by
  rw [leadsToDirectory]
  cases t.locate path <;> simp

theorem follow_voids {t : FileTree} {l : Location} {voids : List (List Char)}
    (hv : ∀ p ∈ voids, Path.isVoid p) (hd : t.isDirectory l) : t.follow l voids = .ok l := by
  induction voids with
  | nil => rfl
  | cons p voids ih =>
    rw [List.forall_mem_cons] at hv
    exact follow_cons_iff.2 ⟨hd, .inl ⟨hv.1, ih hv.2⟩⟩

/-- The parts of a path up to its last that is not empty, and the empty ones behind it. -/
theorem parts_eq_of_reverse {path : String} {part : List Char} {above : List (List Char)}
    (h : (Path.parts path).reverse.dropWhile List.isEmpty = part :: above) :
    ∃ voids, (∀ p ∈ voids, p = []) ∧ Path.parts path = above.reverse ++ part :: voids := by
  have hparts := List.takeWhile_append_dropWhile (p := List.isEmpty) (l := (Path.parts path).reverse)
  have hall := List.all_takeWhile (p := List.isEmpty) (l := (Path.parts path).reverse)
  rw [h] at hparts
  generalize (Path.parts path).reverse.takeWhile List.isEmpty = voids at hparts hall
  refine ⟨voids.reverse, by simpa using hall, ?_⟩
  rw [← List.reverse_reverse (Path.parts path), ← hparts]
  simp

/-- A directory that is made is one that was missing, and its path leads there afterwards. -/
theorem makeDirectory_eq_ok {t t' : FileTree} {path : String} (h : t.makeDirectory path = .ok t') :
    Edited t [] t' ∧ t'.leadsToDirectory path := by
  rw [makeDirectory] at h
  split at h
  · cases h
  rename_i part above hreverse
  have hpath : path ≠ "" := by
    rintro rfl
    cases hreverse
  obtain ⟨voids, hvoids, hparts⟩ := parts_eq_of_reverse hreverse
  split at h
  · cases h
  rename_i l hl
  simp only at h
  split at h
  · cases h
  rename_i hd
  split at h
  · cases h
  rename_i hnew
  simp only [Bool.or_eq_true, not_or, beq_iff_eq, Bool.not_eq_true, Option.isSome_eq_false_iff,
    Option.isNone_iff_eq_none, Bool.not_eq_true', Bool.not_eq_false] at hnew hd
  obtain ⟨⟨hvoid, hparent⟩, hnone⟩ := hnew
  have hname : Path.IsName (String.ofList part).toList := by
    rw [String.toList_ofList]
    exact Path.isName_of_mem_parts (by rw [hparts]; simp) hvoid hparent
  -- Only here something is made: the directory above is there, and nothing has the new name.
  cases h
  have hedited := Edited.same.directory hd hname hnone
  have hwithin := hedited.changed.within
  have hmade : (t.put (l ++ [String.ofList part]) .directory).isDirectory
      (l ++ [String.ofList part]) := by
    rw [isDirectory_iff, find?_put t _ (by simp), if_pos rfl]
  refine ⟨hedited, leadsToDirectory_iff.2 ⟨_, locate_iff.2 ⟨hpath, ?_⟩, hmade⟩⟩
  rw [start, home_put, ← start, hparts, follow_append, hwithin.follow hl]
  refine follow_cons_iff.2 ⟨hwithin.directory hd, .inr (.inr
    ⟨hvoid, hparent, ?_, follow_voids (fun p hp => by rw [hvoids p hp]; rfl) hmade⟩)⟩
  rw [isDirectory_iff.1 hmade]
  rfl

/-- Only the empty path and the root have no part that is not empty. -/
theorem isAbsolute_of_reverse {path : String} (hne : path ≠ "")
    (h : (Path.parts path).reverse.dropWhile List.isEmpty = []) : Path.isAbsolute path := by
  obtain ⟨first, rest, hparts⟩ := List.exists_cons_of_ne_nil (Path.parts_ne_nil path)
  have hempty : first = [] := by
    have hall := List.dropWhile_eq_nil_iff.1 h first (by simp [hparts])
    simpa using hall
  exact (Path.isAbsolute_iff path).2 ⟨hne, by rw [hparts, hempty]; rfl⟩

theorem follow_of_append {t : FileTree} {l k : Location} {ps qs : List (List Char)}
    (h : t.follow l (ps ++ qs) = .ok k) : ∃ m, t.follow l ps = .ok m ∧ t.follow m qs = .ok k := by
  rw [follow_append] at h
  cases hm : t.follow l ps with
  | error fault => rw [hm] at h; cases h
  | ok m => rw [hm] at h; exact ⟨m, rfl, h⟩

/-- What a path leads to is not made. -/
theorem makeDirectory_of_locate {t : FileTree} {path : String} {l : Location}
    (h : t.locate path = .ok l) : t.makeDirectory path = .error .alreadyExists := by
  obtain ⟨hne, hf⟩ := locate_iff.1 h
  rw [makeDirectory]
  cases hreverse : (Path.parts path).reverse.dropWhile List.isEmpty with
  | nil => rw [if_pos (isAbsolute_of_reverse hne hreverse)]
  | cons part above =>
    obtain ⟨voids, -, hparts⟩ := parts_eq_of_reverse hreverse
    rw [hparts] at hf
    obtain ⟨m, hm, hpart⟩ := follow_of_append hf
    obtain ⟨hd, hcase⟩ := follow_cons_iff.1 hpart
    have hthere : (Path.isVoid part || part == ['.', '.'] ||
        (t.find? (m ++ [String.ofList part])).isSome) = true := by
      rcases hcase with ⟨hv, -⟩ | ⟨hp, -⟩ | ⟨-, -, hs, -⟩
      · simp [hv]
      · simp [hp]
      · simp [hs]
    simp only [hm, hd, Bool.not_true, Bool.false_eq_true, if_false]
    rw [if_pos hthere]

theorem makeFirst_of_leadsToDirectory {t : FileTree} {path : String} (above : List String)
    (h : t.leadsToDirectory path) : t.makeFirst (path :: above) = (t, none) := by
  obtain ⟨l, hl, -⟩ := leadsToDirectory_iff.1 h
  rw [makeFirst, makeDirectory_of_locate hl]
  simp [h]

/-- Making directories changes nothing but that, and if it comes to an end without a fault, the path leads
to one. -/
theorem edited_makeFirst (t : FileTree) (paths : List String) :
    Edited t [] (t.makeFirst paths).1 ∧ ((t.makeFirst paths).2 = none →
      ∀ path ∈ paths.head?, (t.makeFirst paths).1.leadsToDirectory path) := by
  induction paths generalizing t with
  | nil => exact ⟨.same, by simp⟩
  | cons path above ih =>
    -- What is left as it was is fine if the path leads to a directory in it.
    have hsettled : ∀ (t' : FileTree) (fault : FileFault), Edited t [] t' →
        let made := if t'.leadsToDirectory path then (t', none) else (t', some fault)
        Edited t [] made.1 ∧ (made.2 = none → made.1.leadsToDirectory path) := by
      intro t' fault ht
      split <;> simp_all
    simp only [List.head?_cons, Option.mem_some_iff, forall_eq']
    rw [makeFirst]
    simp only
    split
    · rename_i t' hmade
      exact ⟨(makeDirectory_eq_ok hmade).1, fun _ => (makeDirectory_eq_ok hmade).2⟩
    · obtain ⟨hedited, -⟩ := ih t
      split
      · rename_i t' fault habove
        rw [habove] at hedited
        exact ⟨hedited, by simp⟩
      · rename_i t' habove
        rw [habove] at hedited
        split
        · rename_i t'' hmade
          obtain ⟨hedited', hleads⟩ := makeDirectory_eq_ok hmade
          exact ⟨hedited.trans hedited', fun _ => hleads⟩
        · exact hsettled _ _ hedited
    · exact hsettled _ _ .same

theorem makeDirectories_of_leadsToDirectory {t : FileTree} {path : String}
    (h : t.leadsToDirectory path) : t.makeDirectories path = (t, none) := by
  obtain ⟨l, hl, -⟩ := leadsToDirectory_iff.1 h
  obtain ⟨above, habove⟩ := ancestors_eq_cons (locate_iff.1 hl).1
  rw [makeDirectories, habove]
  exact makeFirst_of_leadsToDirectory above h

theorem edited_makeDirectories (t : FileTree) (path : String) :
    Edited t [] (t.makeDirectories path).1 :=
  (edited_makeFirst t _).1

theorem leadsToDirectory_makeDirectories {t : FileTree} {path : String} (hne : path ≠ "")
    (h : (t.makeDirectories path).2 = none) :
    (t.makeDirectories path).1.leadsToDirectory path := by
  obtain ⟨above, habove⟩ := ancestors_eq_cons hne
  rw [makeDirectories, habove] at h ⊢
  exact (edited_makeFirst t _).2 h path rfl

theorem write_eq_ok {t t' : FileTree} {directory name : String} {content : ByteArray} :
    t.write directory name content = .ok t' ↔ ∃ l, t.locate directory = .ok l ∧
      t.isDirectory (l ++ [name]) = false ∧ t' = t.put (l ++ [name]) (.file content) := by
  rw [write]
  cases t.locate directory with
  | error fault => simp
  | ok l =>
    cases hd : t.isDirectory (l ++ [name]) with
    | true => simp [hd]
    | false =>
      simp only [hd, Bool.false_eq_true, if_false, Except.ok.injEq, exists_eq_left', true_and]
      exact eq_comm

/-- The stem of a path leads where the path does, as a slash at the end says nothing. -/
theorem follow_stem {t : FileTree} {base : String} {l : Location} (hl : t.locate base = .ok l) :
    t.follow (t.start base) (Path.stem base) = .ok l := by
  obtain ⟨hb, hf⟩ := locate_iff.1 hl
  rcases Path.parts_eq_stem hb with he | he
  · rwa [he] at hf
  · rw [he] at hf
    obtain ⟨m, hm, hvoid⟩ := follow_of_append hf
    obtain ⟨-, ⟨-, hf⟩ | ⟨hp, -⟩ | ⟨hv, -⟩⟩ := follow_cons_iff.1 hvoid
    · cases hf
      exact hm
    · cases hp
    · cases hv

/-- Names behind a directory are followed from there. -/
theorem locate_join {t : FileTree} {base : String} {l : Location} {names : List String}
    (hn : ∀ n ∈ names, Path.IsName n.toList) (hne : names ≠ []) (hl : t.locate base = .ok l) :
    t.locate (Path.join base ("/".intercalate names)) = t.follow l (names.map String.toList) := by
  have hb := (locate_iff.1 hl).1
  have habs := Path.isAbsolute_names hn
  rw [locate, if_neg (by simp [Path.join_ne_empty hb habs]),
    t.start_congr (Path.isAbsolute_join hb habs), Path.parts_join habs, follow_append,
    follow_stem hl, Path.parts_names hn hne]
  rfl

theorem follow_join_name {t : FileTree} {base name : String} {l : Location}
    (hn : Path.IsName name.toList) (hl : t.locate base = .ok l) :
    t.locate (Path.join base name) = t.follow l [name.toList] := by
  have hnames : ∀ n ∈ [name], Path.IsName n.toList := by simpa using hn
  have hjoin := locate_join hnames (by simp) hl
  rwa [show "/".intercalate [name] = name from rfl] at hjoin

/-- A name in a directory leads to the entry there. -/
theorem locate_join_name {t : FileTree} {base name : String} {l : Location}
    (hn : Path.IsName name.toList) (hl : t.locate base = .ok l) (hd : t.isDirectory l)
    (hs : (t.find? (l ++ [name])).isSome) : t.locate (Path.join base name) = .ok (l ++ [name]) := by
  rw [follow_join_name hn hl]
  refine follow_cons_iff.2 ⟨hd, .inr (.inr ⟨hn.not_void, hn.ne_parent, ?_, ?_⟩)⟩
  · rwa [String.ofList_toList]
  · rw [String.ofList_toList]
    rfl

theorem eq_of_locate_join_name {t : FileTree} {base name : String} {l k : Location}
    (hn : Path.IsName name.toList) (hl : t.locate base = .ok l)
    (h : t.locate (Path.join base name) = .ok k) : k = l ++ [name] := by
  rw [follow_join_name hn hl] at h
  obtain ⟨-, ⟨hv, -⟩ | ⟨hp, -⟩ | ⟨-, -, -, hk⟩⟩ := follow_cons_iff.1 h
  · rw [hn.not_void] at hv
    cases hv
  · exact absurd hp hn.ne_parent
  · rw [String.ofList_toList] at hk
    cases hk
    rfl

/-- Files are the same wherever none has been written. -/
theorem Changed.fileAt?_eq {t t' : FileTree} {files : List Location} (h : Changed t t' files)
    {l : Location} (hl : l ∉ files) : t'.fileAt? l = t.fileAt? l := by
  rw [fileAt?, fileAt?]
  cases hs : t.find? l with
  | some e => rw [h.kept hl hs]
  | none =>
    cases hs' : t'.find? l with
    | none => rfl
    | some e =>
      rw [h.added hl hs hs']
      rfl

theorem Sound.find?_of_mem {t : FileTree} (h : t.Sound) {k : Location} {e : Entry}
    (hm : (k, e) ∈ t.entries) : t.find? k = some e := by
  have hk : k ∈ t.locations := List.mem_map.2 ⟨_, hm, rfl⟩
  obtain ⟨before, after, hentries⟩ := List.append_of_mem hm
  have hnodup := h.nodup
  rw [locations, hentries, List.map_append, List.map_cons, List.nodup_append] at hnodup
  rw [find?_of_ne_nil t fun hnil => h.ne_nil (hnil ▸ hk), List.lookup_eq_some_iff]
  refine ⟨before, after, hentries, fun p hp => ?_⟩
  simpa using (hnodup.2.2 p.1 (List.mem_map_of_mem hp) k List.mem_cons_self).symm

/-- Locations above an entry are there. -/
theorem Sound.mem_of_prefix {t : FileTree} (h : t.Sound) {l k : Location} (hk : k ∈ t.locations)
    (hl : l <+: k) (hne : l ≠ []) : l ∈ t.locations := by
  obtain ⟨names, rfl⟩ := hl
  induction names using List.reverseRecOn with
  | nil => simpa using hk
  | append_singleton names name ih =>
    have hd := h.parent hk
    rw [← List.append_assoc, List.dropLast_concat, isDirectory_iff] at hd
    refine ih ?_
    rw [mem_locations_iff t (by simp [hne]), hd]
    rfl

/-- The names of an entry below a directory lead to it. -/
theorem Sound.follow_names {t : FileTree} (h : t.Sound) {base names : List String}
    (hs : (t.find? (base ++ names)).isSome) :
    t.follow base (names.map String.toList) = .ok (base ++ names) := by
  induction names using List.reverseRecOn with
  | nil =>
    rw [List.append_nil]
    rfl
  | append_singleton names name ih =>
    have hmem : base ++ (names ++ [name]) ∈ t.locations := (mem_locations_iff t (by simp)).2 hs
    have hn := h.named hmem name (by simp)
    have hparent := h.parent hmem
    rw [← List.append_assoc] at hs ⊢
    rw [← List.append_assoc, List.dropLast_concat] at hparent
    rw [List.map_append, follow_append, ih (by rw [isDirectory_iff.1 hparent]; rfl)]
    refine follow_cons_iff.2 ⟨hparent, .inr (.inr ⟨hn.not_void, hn.ne_parent, ?_, ?_⟩)⟩
    · rwa [String.ofList_toList]
    · rw [String.ofList_toList]
      rfl

end UtilityCss.FileTree
