import UtilityCss.Glob.Basic
import UtilityCss.Proofs.Glob.Language
import UtilityCss.Proofs.Libraries

namespace UtilityCss.Glob
open GlobLibrary (structural special)

theorem toByteArray_bytesOf (c : Char) (s : Bytes) :
    (bytesOf c ++ s).toByteArray = [c].utf8Encode ++ s.toByteArray := by
  rw [List.toByteArray_append, List.utf8Encode_singleton]
  rfl

/-- Bytes tell where a character ends. -/
theorem bytesOf_append_inj {c d : Char} {s t : Bytes} (h : bytesOf c ++ s = bytesOf d ++ t) :
    c = d ∧ s = t := by
  have hdecoded := congrArg (fun s : Bytes => s.toByteArray.utf8DecodeChar? 0) h
  simp only [toByteArray_bytesOf, List.utf8DecodeChar?_utf8Encode_singleton_append] at hdecoded
  obtain rfl := Option.some.inj hdecoded
  exact ⟨rfl, List.append_cancel_left h⟩

theorem bytesOf_ne_nil (c : Char) : bytesOf c ≠ [] := by
  intro h
  have hlength := congrArg List.length h
  rw [bytesOf, String.length_utf8EncodeChar] at hlength
  exact absurd hlength (Nat.ne_of_gt c.utf8Size_pos)

/-- A text whose bytes begin with those of another begins with it. -/
theorem eq_append_of_bytes {a b : List Char} {rest : Bytes}
    (h : b.flatMap bytesOf = a.flatMap bytesOf ++ rest) :
    ∃ more, b = a ++ more ∧ more.flatMap bytesOf = rest := by
  induction a generalizing b with
  | nil => exact ⟨b, rfl, h⟩
  | cons c a ih =>
    cases b with
    | nil =>
      rw [List.flatMap_nil, List.flatMap_cons, List.append_assoc, List.nil_eq_append_iff] at h
      exact absurd h.1 (bytesOf_ne_nil c)
    | cons d b =>
      rw [List.flatMap_cons, List.flatMap_cons, List.append_assoc] at h
      obtain ⟨rfl, hrest⟩ := bytesOf_append_inj h
      obtain ⟨more, rfl, hmore⟩ := ih hrest
      exact ⟨more, rfl, hmore⟩

theorem bytes_injective {a b : List Char} (h : b.flatMap bytesOf = a.flatMap bytesOf) : b = a := by
  obtain ⟨more, rfl, hmore⟩ := eq_append_of_bytes (h.trans (List.append_nil _).symm)
  cases more with
  | nil => rw [List.append_nil]
  | cons c more => exact absurd (List.append_eq_nil_iff.1 hmore).1 (bytesOf_ne_nil c)

section steps
variable (lenient : Bool) (d : Draft) (before : Option Char)

theorem readSigns_one (s : List Char) : readSigns lenient d before ('?' :: s) =
    readSigns lenient (d.push .one) (some '?') s := by
  rw [readSigns]

theorem readSigns_star {s : List Char} (h : s.head? ≠ some '*') :
    readSigns lenient d before ('*' :: s) = readSigns lenient (d.push .many) (some '*') s := by
  rw [readSigns]
  rintro s rfl
  exact h rfl

/-- A character without a meaning stands for itself, and so does a comma outside choices. -/
theorem readSigns_char (hd : d.around = []) {c : Char} (hc : c ∉ structural) (hone : c ≠ '?')
    (hstar : c ≠ '*') (s : List Char) : readSigns lenient d before (c :: s) =
      readSigns lenient (d.push (.literal c)) (some c) s := by
  simp only [structural, List.mem_cons, List.not_mem_nil, or_false, not_or] at hc
  by_cases hcomma : c = ','
  · subst hcomma
    rw [readSigns, Draft.comma, hd]
  · rw [readSigns] <;> simp_all

end steps

namespace Draft

/-- The signs outside all choices, latest first. -/
def outermost (d : Draft) : List Sign := (d.around.getLast?.map Prod.fst).getD d.here

/-- Some characters have been read, and then a sign for a slash, and what else there is. -/
def Begins (lead : List Char) (d : Draft) : Prop :=
  ∃ more sign, sign.IsSlashLed ∧ d.outermost = more ++ sign :: (lead.map .literal).reverse

theorem Begins.of_append {lead : List Char} {d d' : Draft} (h : d.Begins lead)
    (hd : ∃ more, d'.outermost = more ++ d.outermost) : d'.Begins lead := by
  obtain ⟨more, sign, hsign, hhere⟩ := h
  obtain ⟨more', hd⟩ := hd
  exact ⟨more' ++ more, sign, hsign, by rw [hd, hhere, List.append_assoc]⟩

section outermost
variable (d : Draft)

theorem outermost_push (sign : Sign) : ∃ more, (d.push sign).outermost = more ++ d.outermost := by
  cases ha : d.around.getLast? with
  | none => exact ⟨[sign], by simp [outermost, push, ha]⟩
  | some a => exact ⟨[], by simp [outermost, push, ha]⟩

theorem outermost_stars : ∃ more, d.stars.outermost = more ++ d.outermost := by
  obtain ⟨more, hmore⟩ := d.outermost_push .many
  obtain ⟨more', hmore'⟩ := (d.push .many).outermost_push .many
  exact ⟨more' ++ more, by rw [stars, hmore', hmore, List.append_assoc]⟩

theorem outermost_loneBracket : ∃ more, d.loneBracket.outermost = more ++ d.outermost :=
  d.outermost_push (.literal '[')

theorem outermost_openChoice : d.openChoice.outermost = d.outermost := by
  rw [outermost, openChoice, outermost, List.getLast?_cons]
  cases d.around.getLast? <;> rfl

theorem outermost_comma : ∃ more, d.comma.outermost = more ++ d.outermost := by
  rw [comma]
  split
  · exact d.outermost_push _
  · rename_i outer done around ha
    refine ⟨[], ?_⟩
    rw [outermost, outermost, ha, List.getLast?_cons, List.getLast?_cons]
    cases around.getLast? <;> rfl

theorem outermost_closeChoice {d' : Draft} (h : d.closeChoice = some d') :
    ∃ more, d'.outermost = more ++ d.outermost := by
  rw [closeChoice] at h
  split at h
  · cases h
  · rename_i outer done around ha
    cases h
    rw [outermost, outermost, ha, List.getLast?_cons]
    cases around.getLast? with
    | none => exact ⟨[.choice (d.here.reverse :: done).reverse], rfl⟩
    | some a => exact ⟨[], rfl⟩

end outermost

theorem Begins.span {lead : List Char} {d : Draft} (h : d.Begins lead) {sign : Sign}
    (hsign : sign.IsSlashLed) : (d.span sign).Begins lead := by
  have hspan : d.span sign = d ∨ d.span sign = { d with here := sign :: d.here.tail } := by
    rw [Draft.span]
    split <;> simp_all
  rcases hspan with hspan | hspan
  · rwa [hspan]
  · obtain ⟨more, old, hold, hhere⟩ := h
    rw [hspan, Begins, outermost]
    rw [outermost] at hhere
    cases ha : d.around.getLast? with
    | some a =>
      rw [ha] at hhere
      exact ⟨more, old, hold, hhere⟩
    | none =>
      rw [ha] at hhere
      simp only [Option.map_none, Option.getD_none] at hhere ⊢
      rw [hhere]
      cases more with
      | nil => exact ⟨[], sign, hsign, rfl⟩
      | cons latest more => exact ⟨sign :: more, old, hold, rfl⟩

theorem Begins.twoStars {lead : List Char} {d : Draft} (h : d.Begins lead) (before : Option Char)
    (s : List Char) : (d.twoStars before s).1.Begins lead := by
  unfold Draft.twoStars
  repeat' split
  all_goals first
    | exact h.span trivial
    | exact h.of_append (d.outermost_push _)
    | exact h.of_append d.outermost_stars

end Draft

/-- Reading goes on from where a directory has been read, and keeps it. -/
theorem begins_readSigns {lead : List Char} {lenient : Bool} {d : Draft} {before : Option Char}
    {s : List Char} {signs : List Sign} (h : d.Begins lead)
    (hread : readSigns lenient d before s = .ok signs) :
    ∃ sign more, sign.IsSlashLed ∧ signs = lead.map .literal ++ sign :: more := by
  fun_induction readSigns lenient d before s
  case case1 d _ ha =>
    obtain ⟨more, sign, hsign, hhere⟩ := h
    have hnil : d.around = [] := by simpa using ha
    rw [Draft.outermost, hnil] at hhere
    refine ⟨sign, more.reverse, hsign, ?_⟩
    rw [← Except.ok.inj hread, show d.here = more ++ sign :: (lead.map .literal).reverse from hhere]
    simp
  case case2 => cases hread
  case case4 ih => exact ih (h.twoStars _ _) hread
  case case7 ih => exact ih (h.of_append (Draft.outermost_loneBracket _)) hread
  case case10 ih => exact ih (h.of_append ⟨[], Draft.outermost_openChoice _⟩) hread
  case case11 hclose ih => exact ih (h.of_append (Draft.outermost_closeChoice _ hclose)) hread
  case case13 ih => exact ih (h.of_append (Draft.outermost_comma _)) hread
  all_goals first
    | cases hread
    | rename_i ih
      exact ih (h.of_append (Draft.outermost_push _ _)) hread

/-- Up to the first character that means more, a glob is read as it stands. -/
theorem readSigns_literals {lenient : Bool} {d : Draft} {before : Option Char} {lead s : List Char}
    {signs : List Sign} (ha : d.around = [])
    (hlead : ∀ c ∈ lead, c ∉ special)
    (hread : readSigns lenient d before (lead ++ s) = .ok signs) :
    ∃ before, readSigns lenient { d with here := (lead.map .literal).reverse ++ d.here } before s =
      .ok signs := by
  induction lead generalizing d before with
  | nil => exact ⟨before, hread⟩
  | cons c lead ih =>
    rw [List.forall_mem_cons] at hlead
    obtain ⟨hc, hlead⟩ := hlead
    rw [List.cons_append] at hread
    by_cases hclose : c = '\x7d'
    · subst hclose
      rw [readSigns, Draft.closeChoice, ha] at hread
      cases hread
    · simp only [special, List.mem_cons, List.not_mem_nil, or_false, not_or] at hc
      have hstruct : c ∉ structural := by simp [structural, hc, hclose]
      rw [readSigns_char _ _ _ ha hstruct hc.2.1 hc.1] at hread
      obtain ⟨before, hread⟩ := ih (d := d.push (.literal c)) ha hlead hread
      refine ⟨before, ?_⟩
      rw [← hread]
      simp [Draft.push]

theorem mem_of_admits {g : Glob} {path : String} (h : g.admits path) :
    g.signs = [.leading] ∨ path.toList.flatMap bytesOf ∈ languageOf g.separated g.signs := by
  rw [admits] at h
  split at h
  · rename_i hsigns
    exact .inl hsigns
  · rw [Bool.and_eq_true, accepts_iff] at h
    exact .inr h.2

theorem readSigns_of_ofPattern {pattern : String} {g : Glob} (h : ofPattern pattern = .ok g) :
    readSigns false {} none pattern.toList = .ok g.signs := by
  rw [ofPattern] at h
  cases hread : readSigns false {} none pattern.toList with
  | error fault => rw [hread] at h; cases h
  | ok signs =>
    rw [hread] at h
    cases h
    rfl

section pattern
variable {pattern path : String} {g : Glob} (hg : ofPattern pattern = .ok g) (h : g.admits path)
include hg h

/-- A pattern without characters that mean more matches itself alone. -/
theorem eq_of_admits (hplain : ∀ c ∈ pattern.toList, c ∉ special) :
    path = pattern := by
  have hread := readSigns_of_ofPattern hg
  rw [← List.append_nil pattern.toList] at hread
  obtain ⟨before, hread⟩ := readSigns_literals rfl hplain hread
  rw [readSigns] at hread
  have hsigns : g.signs = pattern.toList.map .literal := by
    simpa using (Except.ok.inj hread).symm
  rcases mem_of_admits h with hleading | hmem
  · rw [hsigns] at hleading
    obtain ⟨c, -, hc⟩ := List.map_eq_singleton_iff.1 hleading
    cases hc
  · rw [hsigns, languageOf_literals] at hmem
    exact String.toList_inj.1 (bytes_injective hmem)

/-- What a pattern matches begins with the directory before a slash that stands for itself. -/
theorem starts_of_admits {directory rest : List Char}
    (hpattern : pattern.toList = directory ++ '/' :: rest)
    (hplain : ∀ c ∈ directory, c ∉ special) :
    ∃ more, path.toList = directory ++ '/' :: more := by
  have hread := readSigns_of_ofPattern hg
  rw [hpattern, List.append_cons] at hread
  have hlead : ∀ c ∈ directory ++ ['/'], c ∉ special := by
    intro c hc
    rcases List.mem_append.1 hc with hc | hc
    · exact hplain c hc
    · rw [List.mem_singleton.1 hc]
      decide
  obtain ⟨before, hread⟩ := readSigns_literals rfl hlead hread
  have hbegins : Draft.Begins directory
      { here := ((directory ++ ['/']).map .literal).reverse ++ ({} : Draft).here } :=
    ⟨[], .literal '/', rfl, by simp [Draft.outermost]⟩
  obtain ⟨sign, more, hsign, hsigns⟩ := begins_readSigns hbegins hread
  rcases mem_of_admits h with hleading | hmem
  · rw [hsigns] at hleading
    cases directory with
    | nil =>
      cases hleading
      exact hsign.elim
    | cons c directory => cases hleading
  · rw [hsigns, languageOf_append, languageOf_literals, languageOf] at hmem
    obtain ⟨_, rfl, t, ht, htext⟩ := Language.mem_mul.1 hmem
    obtain ⟨front, hfront, back, -, rfl⟩ := Language.mem_mul.1 ht
    obtain ⟨last, rfl⟩ := hsign.eq_cons hfront
    obtain ⟨more, hmore, hbytes⟩ := eq_append_of_bytes htext.symm
    obtain ⟨more, rfl, -⟩ := eq_append_of_bytes (a := ['/']) hbytes
    exact ⟨more, hmore⟩

end pattern

end UtilityCss.Glob
