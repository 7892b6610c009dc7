import UtilityCss.Path
import UtilityCss.Proofs.Text.Pieces

namespace UtilityCss.Path

theorem parts_eq (path : String) : parts path = path.toList.splitOn '/' := by
  rw [parts, Text.pieces_eq_splitOnP, List.splitOn_eq_splitOnP]

theorem parts_ne_nil (path : String) : parts path ≠ [] := Text.pieces_ne_nil _ _

theorem parts_empty : parts "" = [[]] := rfl

theorem parts_slash (a b : List Char) : parts (String.ofList (a ++ '/' :: b)) =
    parts (String.ofList a) ++ parts (String.ofList b) := by
  simp only [parts_eq, String.toList_ofList]
  exact List.splitOn_append_cons_self ..

/-- The text of a path is its parts with slashes between them. -/
theorem intercalate_parts (path : String) : ['/'].intercalate (parts path) = path.toList := by
  rw [parts_eq]
  exact List.intercalate_splitOn '/'

theorem intercalate_append {ps rest : List (List Char)} (hps : ps ≠ []) (hrest : rest ≠ []) :
    ['/'].intercalate (ps ++ rest) = ['/'].intercalate ps ++ '/' :: ['/'].intercalate rest := by
  induction ps with
  | nil => exact absurd rfl hps
  | cons p ps ih =>
    cases ps with
    | nil =>
      rw [List.singleton_append, List.intercalate_cons_of_ne_nil hrest, List.intercalate_singleton]
      simp
    | cons q ps =>
      have happend := ih (by simp)
      simp only [List.cons_append, List.intercalate_cons_cons] at happend ⊢
      rw [happend]
      simp

theorem parts_intercalate {ps : List (List Char)} (hne : ps ≠ []) (h : ∀ p ∈ ps, '/' ∉ p) :
    parts (String.ofList (['/'].intercalate ps)) = ps := by
  rw [parts_eq, String.toList_ofList]
  exact List.splitOn_intercalate '/' h hne

/-- A path is absolute if its first part is empty and not all of it. -/
theorem isAbsolute_iff (path : String) :
    isAbsolute path ↔ path ≠ "" ∧ (parts path).head? = some [] := by
  rw [← String.ofList_toList (s := path)]
  cases path.toList with
  | nil => simp [isAbsolute]
  | cons c s =>
    by_cases hc : c = '/'
    · subst hc
      have h := parts_slash [] s
      rw [List.nil_append] at h
      rw [h]
      simp [isAbsolute, parts_empty]
    · simp [isAbsolute, parts_eq, List.splitOn_eq_splitOnP, List.splitOnP_cons_eq_if_modifyHead, hc]

/-- A part that names an entry of a directory. -/
structure IsName (n : List Char) : Prop where
  ne_nil : n ≠ []
  no_slash : '/' ∉ n
  ne_current : n ≠ ['.']
  ne_parent : n ≠ ['.', '.']

instance (n : List Char) : Decidable (IsName n) :=
  decidable_of_iff (n ≠ [] ∧ '/' ∉ n ∧ n ≠ ['.'] ∧ n ≠ ['.', '.'])
    ⟨fun ⟨hne, hslash, hcurrent, hparent⟩ => ⟨hne, hslash, hcurrent, hparent⟩,
      fun h => ⟨h.ne_nil, h.no_slash, h.ne_current, h.ne_parent⟩⟩

theorem IsName.not_void {n : List Char} (h : IsName n) : isVoid n = false := by
  simp [isVoid, h.ne_nil, h.ne_current]

theorem isName_of_mem_parts {path : String} {n : List Char} (h : n ∈ parts path)
    (hv : isVoid n = false) (hp : n ≠ ['.', '.']) : IsName n where
  ne_nil := by
    rintro rfl
    cases hv
  no_slash hm := by simpa using Text.eq_false_of_mem_pieces h _ hm
  ne_current := by
    rintro rfl
    cases hv
  ne_parent := hp

theorem IsName.ofPart_eq {n : List Char} (h : IsName n) : ofPart n = .name n := if_neg h.ne_parent

/-- The parts of a directory that stand before those of a path joined to it. -/
def stem (base : String) : List (List Char) :=
  if base.isEmpty then []
  else if base.toList.getLast? = some '/' then (parts base).dropLast else parts base

theorem parts_of_getLast? {base : String} (h : base.toList.getLast? = some '/') :
    ∃ a : List Char, base = String.ofList (a ++ ['/']) ∧
      parts base = parts (String.ofList a) ++ [[]] := by
  obtain ⟨a, ha⟩ := List.getLast?_eq_some_iff.1 h
  have hbase : base = String.ofList (a ++ ['/']) := by rw [← ha, String.ofList_toList]
  refine ⟨a, hbase, ?_⟩
  rw [hbase, parts_slash a []]
  rfl

theorem parts_join {base path : String} (h : isAbsolute path = false) :
    parts (join base path) = stem base ++ parts path := by
  unfold join stem
  simp only [h, Bool.false_or]
  split
  · rfl
  · split
    · rename_i hlast
      obtain ⟨a, hbase, hparts⟩ := parts_of_getLast? hlast
      have htext : base ++ path = String.ofList (a ++ '/' :: path.toList) := by
        rw [hbase, ← String.toList_inj]
        simp
      rw [htext, parts_slash, hparts, List.dropLast_concat, String.ofList_toList]
    · have htext : base ++ "/" ++ path = String.ofList (base.toList ++ '/' :: path.toList) := by
        rw [← String.toList_inj]
        simp
      rw [htext, parts_slash, String.ofList_toList, String.ofList_toList]

theorem parts_eq_stem {base : String} (h : base ≠ "") :
    parts base = stem base ∨ parts base = stem base ++ [[]] := by
  have hempty : base.isEmpty = false := by simpa using h
  simp only [stem, hempty, Bool.false_eq_true, if_false]
  split
  · rename_i hlast
    obtain ⟨a, -, hparts⟩ := parts_of_getLast? hlast
    right
    rw [hparts, List.dropLast_concat]
  · exact .inl rfl

theorem stem_ne_nil {base : String} (h : base ≠ "") : stem base ≠ [] := by
  have hempty : base.isEmpty = false := by simpa using h
  simp only [stem, hempty, Bool.false_eq_true, if_false]
  split
  · rename_i hlast
    obtain ⟨a, -, hparts⟩ := parts_of_getLast? hlast
    rw [hparts, List.dropLast_concat]
    exact parts_ne_nil _
  · exact parts_ne_nil _

theorem head?_stem {base : String} (h : base ≠ "") : (stem base).head? = (parts base).head? := by
  rcases parts_eq_stem h with he | he
  · rw [he]
  · rw [he, List.head?_append, Option.or_of_isSome (by simpa using stem_ne_nil h)]

section join
variable {base path : String} (hb : base ≠ "") (h : isAbsolute path = false)
include hb h

theorem join_ne_empty : join base path ≠ "" := by
  intro he
  have hparts : parts (join base path) = stem base ++ parts path := parts_join h
  rw [he, parts_empty] at hparts
  have hlength := congrArg List.length hparts
  have hs := List.length_pos_iff.2 (stem_ne_nil hb)
  have hp := List.length_pos_iff.2 (parts_ne_nil path)
  rw [List.length_append, List.length_singleton] at hlength
  omega

theorem head?_parts_join : (parts (join base path)).head? = (parts base).head? := by
  rw [parts_join h, List.head?_append, Option.or_of_isSome (by simpa using stem_ne_nil hb),
    head?_stem hb]

theorem isAbsolute_join : isAbsolute (join base path) = isAbsolute base := by
  rw [Bool.eq_iff_iff, isAbsolute_iff, isAbsolute_iff, head?_parts_join hb h]
  simp [hb, join_ne_empty hb h]

theorem anchor?_join : anchor? (join base path) = anchor? base := by
  rw [anchor?, anchor?, isAbsolute_join hb h, head?_parts_join hb h]

/-- The parts behind the anchor of a directory come before those of a path joined to it. -/
theorem body_join : ∃ ps, body (join base path) = ps ++ parts path ∧
    (body base = ps ∨ body base = ps ++ [[]]) := by
  rw [body, body, anchor?_join hb h, parts_join h]
  split
  · refine ⟨(stem base).tail, List.tail_append_of_ne_nil (stem_ne_nil hb), ?_⟩
    rcases parts_eq_stem hb with he | he
    · exact .inl (by rw [← he])
    · exact .inr (by rw [he, List.tail_append_of_ne_nil (stem_ne_nil hb)])
  · exact ⟨stem base, rfl, parts_eq_stem hb⟩

theorem components_join : components (join base path) =
    components base ++ ((parts path).filter (!isVoid ·)).map ofPart := by
  obtain ⟨ps, hbody, hbase⟩ := body_join hb h
  rw [components, components, anchor?_join hb h, hbody, List.filter_append, List.map_append,
    ← List.append_assoc]
  rcases hbase with hbase | hbase <;> simp [hbase, isVoid]

end join

theorem behind?_append (ps rest : List (List Char)) : ∃ voids, (∀ p ∈ voids, isVoid p) ∧
    behind? ((ps.filter (!isVoid ·)).map ofPart) (ps ++ rest) = some (voids ++ rest) := by
  induction ps with
  | nil => exact ⟨[], by simp, rfl⟩
  | cons p ps ih =>
    obtain ⟨voids, hvoids, ih⟩ := ih
    cases hp : isVoid p with
    | false =>
      refine ⟨voids, hvoids, ?_⟩
      rw [List.filter_cons_of_pos (by simp [hp]), List.map_cons, List.cons_append, behind?,
        List.dropWhile_cons_of_neg (by simp [hp])]
      simp [ih]
    | true =>
      rw [List.filter_cons_of_neg (by simp [hp]), List.cons_append]
      cases hcs : (ps.filter (!isVoid ·)).map ofPart with
      | nil =>
        refine ⟨p :: ps, ?_, rfl⟩
        have hall : ps.filter (!isVoid ·) = [] := List.map_eq_nil_iff.1 hcs
        simpa [hp] using List.filter_eq_nil_iff.1 hall
      | cons c cs =>
        refine ⟨voids, hvoids, ?_⟩
        rw [hcs] at ih
        rw [behind?, List.dropWhile_cons_of_pos hp, ← ih, behind?]

theorem dropWhile_isVoid {ps : List (List Char)} (h : ∀ p ∈ ps, isVoid p = false) :
    ps.dropWhile isVoid = ps := by
  cases ps with
  | nil => rfl
  | cons p ps => exact List.dropWhile_cons_of_neg (by simp [h p])

theorem trimEnd_of_forall {ps : List (List Char)} (h : ∀ p ∈ ps, isVoid p = false) :
    trimEnd ps = ps := by
  rw [trimEnd, dropWhile_isVoid fun p hp => h p (List.mem_reverse.1 hp), List.reverse_reverse]

theorem eq_empty_of_components {path : String} (ha : anchor? path = none)
    (hc : components path = []) : path = "" := by
  rw [components, ha, Option.toList_none, List.nil_append, List.map_eq_nil_iff] at hc
  have hbody : body path = parts path := by simp [body, ha]
  have hvoid := List.filter_eq_nil_iff.1 hc
  rw [hbody] at hvoid
  obtain ⟨p, ps, hps⟩ := List.exists_cons_of_ne_nil (parts_ne_nil path)
  rw [anchor?] at ha
  split at ha
  · cases ha
  · rename_i habs
    split at ha
    · cases ha
    · rename_i hdot
      have hp : isVoid p := by simpa using hvoid p (by simp [hps])
      rw [hps, List.head?_cons, Option.some_inj] at hdot
      have hnil : p = [] := by simpa [isVoid, hdot] using hp
      refine Decidable.byContradiction fun hne => habs ?_
      rw [isAbsolute_iff, hps, hnil]
      exact ⟨hne, rfl⟩

section names
variable {names : List String} (hn : ∀ n ∈ names, IsName n.toList)
include hn

theorem parts_names (hne : names ≠ []) : parts ("/".intercalate names) = names.map String.toList := by
  have hps : names.map String.toList ≠ [] := by simpa using hne
  rw [← String.ofList_toList (s := "/".intercalate names), String.toList_intercalate]
  refine parts_intercalate hps ?_
  intro p hp
  obtain ⟨n, hm, rfl⟩ := List.mem_map.1 hp
  exact (hn n hm).no_slash

theorem not_void_names : ∀ p ∈ names.map String.toList, isVoid p = false := by
  intro p hp
  obtain ⟨n, hm, rfl⟩ := List.mem_map.1 hp
  exact (hn n hm).not_void

theorem filter_names : (names.map String.toList).filter (!isVoid ·) = names.map String.toList := by
  rw [List.filter_eq_self]
  intro p hp
  simp [not_void_names hn p hp]

theorem isAbsolute_names : isAbsolute ("/".intercalate names) = false := by
  rw [Bool.eq_false_iff, ne_eq, isAbsolute_iff]
  rintro ⟨hne, hhead⟩
  cases names with
  | nil => exact hne rfl
  | cons n names =>
    rw [parts_names hn (by simp)] at hhead
    exact (hn n List.mem_cons_self).ne_nil (Option.some_inj.1 hhead)

theorem anchor?_names : anchor? ("/".intercalate names) = none := by
  rw [anchor?, isAbsolute_names hn]
  cases names with
  | nil => rfl
  | cons n names =>
    rw [parts_names hn (by simp)]
    simpa using (hn n List.mem_cons_self).ne_current

theorem components_names : components ("/".intercalate names) =
    names.map fun n => .name n.toList := by
  cases hnames : names with
  | nil => rfl
  | cons n ns =>
    rw [← hnames, components, anchor?_names hn, body, anchor?_names hn, Option.toList_none,
      List.nil_append]
    simp only [Option.isSome_none, Bool.false_eq_true, if_false]
    rw [parts_names hn (by simp [hnames]), filter_names hn, List.map_map]
    exact List.map_congr_left fun m hm => (hn m hm).ofPart_eq

/-- Behind a directory come the components of the names. -/
theorem components_join_names (base : String) : components (join base ("/".intercalate names)) =
    components base ++ names.map fun n => .name n.toList := by
  have habs := isAbsolute_names hn
  by_cases hb : base = ""
  · subst hb
    rw [show join "" ("/".intercalate names) = "/".intercalate names by simp [join],
      components_names hn]
    rfl
  · rw [components_join hb habs]
    congr 1
    cases hnames : names with
    | nil => rfl
    | cons n ns =>
      rw [← hnames, parts_names hn (by simp [hnames]), filter_names hn, List.map_map]
      exact List.map_congr_left fun m hm => (hn m hm).ofPart_eq

theorem fileName?_join_names (base : String) (hne : names ≠ []) :
    fileName? (join base ("/".intercalate names)) = names.getLast? := by
  obtain ⟨ns, n, rfl⟩ : ∃ ns n, names = ns ++ [n] :=
    ⟨_, _, (List.dropLast_concat_getLast hne).symm⟩
  rw [fileName?, components_join_names hn, List.map_append, ← List.append_assoc]
  simp

/-- Names are what is left of their path behind a directory. -/
theorem relative?_join_names (base : String) (hne : names ≠ []) :
    relative? (join base ("/".intercalate names)) base = some ("/".intercalate names) := by
  have habs := isAbsolute_names hn
  have hbelow : assemble none (names.map String.toList) = "/".intercalate names := by
    rw [assemble, ← String.toList_inj, String.toList_ofList, String.toList_intercalate]
    rfl
  by_cases hb : base = ""
  · subst hb
    rw [show join "" ("/".intercalate names) = "/".intercalate names by simp [join]]
    have hbody : body ("/".intercalate names) = names.map String.toList := by
      rw [body, anchor?_names hn, parts_names hn hne]
      rfl
    rw [show relative? ("/".intercalate names) "" = some (assemble
      (anchor? ("/".intercalate names)) (trimEnd (body ("/".intercalate names)))) from rfl,
      anchor?_names hn, hbody, trimEnd_of_forall (not_void_names hn), hbelow]
  · obtain ⟨ps, hbody, hbase⟩ := body_join hb habs
    have hfilter : (body base).filter (!isVoid ·) = ps.filter (!isVoid ·) := by
      rcases hbase with hbase | hbase <;> simp [hbase, isVoid]
    obtain ⟨voids, hvoids, hbehind⟩ := behind?_append ps (parts ("/".intercalate names))
    unfold relative?
    split
    · rename_i ha hc
      exact absurd (eq_empty_of_components ha hc) hb
    · rw [if_pos (anchor?_join hb habs).symm, hfilter, hbody, hbehind, Option.map_some,
        parts_names hn hne, List.dropWhile_append_of_pos hvoids,
        dropWhile_isVoid (not_void_names hn), trimEnd_of_forall (not_void_names hn), hbelow]

end names

theorem trimEnd_prefix (ps : List (List Char)) : trimEnd ps <+: ps := by
  rw [← List.reverse_suffix, trimEnd, List.reverse_reverse]
  exact List.dropWhile_suffix _

/-- What is left of some parts without the last that says something is a proper start of them. -/
theorem trimEnd_dropLast_append {ps : List (List Char)} (h : trimEnd ps ≠ []) :
    ∃ rest, rest ≠ [] ∧ ps = trimEnd (trimEnd ps).dropLast ++ rest := by
  obtain ⟨more, hmore⟩ := trimEnd_prefix (trimEnd ps).dropLast
  obtain ⟨voids, hvoids⟩ := trimEnd_prefix ps
  refine ⟨more ++ (trimEnd ps).getLast h :: voids, by simp, ?_⟩
  calc ps = trimEnd ps ++ voids := hvoids.symm
    _ = (trimEnd ps).dropLast ++ [(trimEnd ps).getLast h] ++ voids := by
      rw [List.dropLast_concat_getLast h]
    _ = _ := by
      rw [← List.append_assoc, hmore, List.append_assoc]
      rfl

theorem eq_assemble_of_parent? {path directory : String} (h : parent? path = some directory)
    (hne : directory ≠ "") : trimEnd (body path) ≠ [] ∧
      directory = assemble (anchor? path) (trimEnd (trimEnd (body path)).dropLast) := by
  rw [parent?] at h
  cases hps : trimEnd (body path) with
  | nil =>
    rw [hps] at h
    cases hanchor : anchor? path with
    | none => simp [hanchor] at h
    | some c =>
      simp only [hanchor] at h
      cases c <;> cases h <;> exact absurd rfl hne
  | cons p ps =>
    rw [hps] at h
    refine ⟨by simp, ?_⟩
    cases hanchor : anchor? path with
    | none =>
      simp only [hanchor] at h
      exact (Option.some.inj h).symm
    | some c =>
      simp only [hanchor] at h
      cases c <;> exact (Option.some.inj h).symm

theorem parts_assemble_none {ps : List (List Char)} (hne : ps ≠ []) (h : ∀ p ∈ ps, '/' ∉ p) :
    parts (assemble none ps) = ps :=
  parts_intercalate hne h

theorem parts_assemble_current {ps : List (List Char)} (h : ∀ p ∈ ps, '/' ∉ p) :
    parts (assemble (some .current) ps) = ['.'] :: ps := by
  have htext : assemble (some .current) ps = String.ofList (['/'].intercalate (['.'] :: ps)) := by
    cases ps with
    | nil => rfl
    | cons p ps =>
      rw [List.intercalate_cons_cons]
      rfl
  rw [htext]
  exact parts_intercalate (by simp) (by simpa using h)

theorem slash_notMem_of_mem_body {path : String} {p : List Char} (h : p ∈ body path) : '/' ∉ p := by
  intro hm
  have hmem : p ∈ parts path := by
    rw [body] at h
    split at h
    · exact List.mem_of_mem_tail h
    · exact h
  simpa using Text.eq_false_of_mem_pieces hmem _ hm

/-- The parts of a directory come before those of what is in it. -/
theorem parts_parent? {path directory : String} (ha : isAbsolute path = false)
    (h : parent? path = some directory) (hne : directory ≠ "") :
    ∃ rest, rest ≠ [] ∧ parts path = parts directory ++ rest := by
  obtain ⟨hbody, hdirectory⟩ := eq_assemble_of_parent? h hne
  obtain ⟨rest, hrest, hparts⟩ := trimEnd_dropLast_append hbody
  refine ⟨rest, hrest, ?_⟩
  generalize trimEnd (trimEnd (body path)).dropLast = ps at hdirectory hparts
  have hslash : ∀ p ∈ ps, '/' ∉ p :=
    fun p hp => slash_notMem_of_mem_body (hparts ▸ List.mem_append_left _ hp)
  by_cases hhead : (parts path).head? = some ['.']
  · have hanchor : anchor? path = some .current := by simp [anchor?, ha, hhead]
    obtain ⟨tail, htail⟩ := List.head?_eq_some_iff.1 hhead
    have htail' : body path = tail := by simp [body, hanchor, htail]
    rw [hdirectory, hanchor, parts_assemble_current hslash, htail, ← htail', hparts]
    rfl
  · have hanchor : anchor? path = none := by simp [anchor?, ha, hhead]
    have hps : ps ≠ [] := by
      rintro rfl
      exact hne (by rw [hdirectory, hanchor]; rfl)
    have hall : body path = parts path := by simp [body, hanchor]
    rw [hdirectory, hanchor, parts_assemble_none hps hslash, ← hall, hparts]

theorem exists_distinct {paths : List String} {path : String} (h : path ∈ paths) :
    ∃ other ∈ distinct paths, components other = components path := by
  induction paths with
  | nil => cases h
  | cons first paths ih =>
    rw [distinct]
    rcases List.mem_cons.1 h with rfl | h
    · exact ⟨path, List.mem_cons_self, rfl⟩
    · obtain ⟨other, hother, hsame⟩ := ih h
      cases hfirst : same first other with
      | true =>
        rw [same, beq_iff_eq] at hfirst
        exact ⟨first, List.mem_cons_self, hfirst.trans hsame⟩
      | false =>
        exact ⟨other, List.mem_cons_of_mem _ (List.mem_filter.2 ⟨hother, by simp [hfirst]⟩), hsame⟩

theorem mem_of_mem_distinct {paths : List String} {path : String} (h : path ∈ distinct paths) :
    path ∈ paths := by
  induction paths with
  | nil => cases h
  | cons first paths ih =>
    rw [distinct] at h
    rcases List.mem_cons.1 h with rfl | h
    · exact List.mem_cons_self
    · exact List.mem_cons_of_mem _ (ih (List.mem_filter.1 h).1)

/-- Paths that differ by their components are all kept. -/
theorem distinct_eq {paths : List String} (h : paths.Pairwise fun a b => same a b = false) :
    distinct paths = paths := by
  induction paths with
  | nil => rfl
  | cons first paths ih =>
    rw [List.pairwise_cons] at h
    rw [distinct, ih h.2, List.filter_eq_self.2 fun path hp => by simp [h.1 path hp]]

/-- A path begins another by its components, and by its parts too unless it is the root. -/
structure Begins (a path : String) : Prop where
  absolute : isAbsolute a = isAbsolute path
  components : components a <+: components path
  parts : a = "/" ∨ parts a <+: parts path

theorem begins_refl (path : String) : Begins path path where
  absolute := rfl
  components := List.prefix_rfl
  parts := .inr List.prefix_rfl

theorem ne_empty_of_parts {a path : String} (ha : a ≠ "") (h : parts a <+: parts path) :
    path ≠ "" := by
  rintro rfl
  have hparts : parts a = [[]] := by
    have hlength := h.length_le
    have hpos := List.length_pos_iff.2 (parts_ne_nil a)
    rw [parts_empty] at h hlength
    exact h.eq_of_length_le hpos
  have htext := intercalate_parts a
  rw [hparts, List.intercalate_singleton] at htext
  exact ha (String.toList_inj.1 htext.symm)

theorem begins_of_parts {a path : String} (ha : a ≠ "") (h : parts a <+: parts path) :
    Begins a path := by
  have hpath := ne_empty_of_parts ha h
  have hhead : (parts a).head? = (parts path).head? := by
    obtain ⟨rest, hrest⟩ := h
    rw [← hrest, List.head?_append, Option.or_of_isSome (by simpa using parts_ne_nil a)]
  have habs : isAbsolute a = isAbsolute path := by
    rw [Bool.eq_iff_iff, isAbsolute_iff, isAbsolute_iff, hhead]
    simp [ha, hpath]
  have hanchor : anchor? a = anchor? path := by rw [anchor?, anchor?, habs, hhead]
  refine ⟨habs, ?_, .inr h⟩
  have hbody : body a <+: body path := by
    rw [body, body, hanchor]
    split
    · obtain ⟨rest, hrest⟩ := h
      exact ⟨rest, by rw [← hrest, List.tail_append_of_ne_nil (parts_ne_nil a)]⟩
    · exact h
  rw [components, components, hanchor, List.prefix_append_right_inj]
  exact (hbody.filter _).map _

/-- What a directory is in the text of a path: all before a slash, or that slash itself. -/
def Cuts (directory : String) (a : List Char) : Prop :=
  directory = String.ofList a ∨ a = [] ∧ directory = "/"

/-- The text of a path is that of its directory up to a slash. -/
theorem text_parent? {path directory : String} (h : parent? path = some directory)
    (hne : directory ≠ "") : ∃ a rest, path.toList = a ++ '/' :: rest ∧ Cuts directory a := by
  by_cases ha : isAbsolute path
  · obtain ⟨hbody, hdirectory⟩ := eq_assemble_of_parent? h hne
    obtain ⟨rest, hrest, hparts⟩ := trimEnd_dropLast_append hbody
    have hanchor : anchor? path = some .root := if_pos ha
    have htext : path.toList = '/' :: ['/'].intercalate (body path) := by
      obtain ⟨tail, htail⟩ := List.head?_eq_some_iff.1 ((isAbsolute_iff path).1 ha).2
      have htail' : body path = tail := by simp [body, hanchor, htail]
      have hne' : tail ≠ [] := by
        rintro rfl
        rw [htail'] at hbody
        exact hbody rfl
      rw [← intercalate_parts, htail, htail', List.intercalate_cons_of_ne_nil hne']
      rfl
    rw [hanchor] at hdirectory
    generalize trimEnd (trimEnd (body path)).dropLast = ps at hdirectory hparts
    rw [hparts] at htext
    by_cases hps : ps = []
    · subst hps
      exact ⟨[], _, htext, .inr ⟨rfl, hdirectory⟩⟩
    · rw [intercalate_append hps hrest] at htext
      exact ⟨'/' :: ['/'].intercalate ps, _, htext, .inl hdirectory⟩
  · obtain ⟨rest, hrest, hparts⟩ := parts_parent? (by simpa using ha) h hne
    refine ⟨directory.toList, ['/'].intercalate rest, ?_, .inl String.ofList_toList.symm⟩
    rw [← intercalate_parts, hparts, intercalate_append (parts_ne_nil _) hrest, intercalate_parts]

theorem parts_of_text {path : String} {a rest : List Char} (h : path.toList = a ++ '/' :: rest) :
    ∃ more, more ≠ [] ∧ parts path = parts (String.ofList a) ++ more := by
  refine ⟨parts (String.ofList rest), parts_ne_nil _, ?_⟩
  rw [← parts_slash, ← h, String.ofList_toList]

/-- A directory begins each path whose text it is up to a slash. -/
theorem begins_of_text {directory path : String} {a rest : List Char} (hcuts : Cuts directory a)
    (hne : directory ≠ "") (htext : path.toList = a ++ '/' :: rest) : Begins directory path := by
  rcases hcuts with rfl | ⟨rfl, rfl⟩
  · obtain ⟨more, -, hparts⟩ := parts_of_text htext
    exact begins_of_parts hne ⟨more, hparts.symm⟩
  · have ha : isAbsolute path := by
      rw [isAbsolute, htext]
      rfl
    have hanchor : anchor? path = some .root := if_pos ha
    refine ⟨ha.symm, ?_, .inl rfl⟩
    rw [components, components, hanchor]
    exact ⟨_, rfl⟩

end UtilityCss.Path
