import UtilityCss.Glob.Expression
import UtilityCss.Proofs.Glob.Reading

namespace UtilityCss.Glob
open GlobLibrary (structural)

/-- How deep the expressions of signs nest that are no choices and no classes. -/
def flatDepth : Nat := 4

/-- What has been read of a text without brackets, braces and backslashes: signs that stand for it. A
slash at its end is one of its own, or that of directories. -/
structure Draft.Spells (d : Draft) (before : Option Char) (text : List Char) : Prop where
  around : d.around = []
  mem : text.flatMap bytesOf ∈ languageOf false d.here.reverse
  flat : ∀ sign ∈ d.here, (sign.extent false).depth ≤ flatDepth
  ended : before = some '/' → ∃ sign earlier, d.here = sign :: earlier ∧
    (sign = .leading ∧ earlier = [] ∨ sign = .literal '/' ∨ sign = .between)

namespace Draft

theorem spells_start : ({} : Draft).Spells none [] where
  around := rfl
  mem := rfl
  flat := by simp
  ended h := by cases h

section spells
variable {d : Draft} {before : Option Char} {text : List Char}

theorem Spells.push (h : d.Spells before text) {sign : Sign} {c : Char} {t : List Char}
    (ht : t.flatMap bytesOf ∈ sign.language false) (hflat : (sign.extent false).depth ≤ flatDepth)
    (hc : c = '/' → sign = .literal '/') : (d.push sign).Spells (some c) (text ++ t) where
  around := h.around
  mem := by
    rw [List.flatMap_append, Draft.push, List.reverse_cons, languageOf_concat]
    exact Language.append_mem_mul h.mem ht
  flat := List.forall_mem_cons.2 ⟨hflat, h.flat⟩
  ended hslash := ⟨sign, d.here, rfl, .inr (.inl (hc (Option.some.inj hslash)))⟩

theorem Spells.stars (h : d.Spells before text) : d.stars.Spells (some '*') (text ++ ['*', '*']) := by
  have hmany : ∀ {d : Draft} {before : Option Char} {text : List Char}, d.Spells before text →
      (d.push .many).Spells (some '*') (text ++ ['*']) :=
    fun h => h.push (mem_bytes_true _) (by decide) (by simp)
  rw [List.append_cons]
  exact hmany (hmany h)

/-- Behind a slash stand any leading directories, or a sign for it is put in the place of the last. -/
theorem Spells.span_eq (h : d.Spells (some '/') text) (sign : Sign) :
    d.here = [.leading] ∧ d.span sign = d ∨
      ∃ earlier front rest, d.span sign = { d with here := sign :: earlier } ∧
        (∀ sign ∈ earlier, (sign.extent false).depth ≤ flatDepth) ∧
        front ∈ languageOf false earlier.reverse ∧ text.flatMap bytesOf = front ++ slash :: rest := by
  obtain ⟨last, earlier, hhere, hlast⟩ := h.ended rfl
  rcases hlast with ⟨rfl, rfl⟩ | hlast
  · exact .inl ⟨hhere, by rw [Draft.span, hhere]⟩
  · have hmem := h.mem
    rw [hhere, List.reverse_cons, languageOf_concat] at hmem
    obtain ⟨front, hfront, t, ht, htext⟩ := Language.mem_mul.1 hmem
    have hled : last.IsSlashLed := by rcases hlast with rfl | rfl <;> trivial
    obtain ⟨rest, rfl⟩ := hled.eq_cons ht
    have hflat := h.flat
    rw [hhere] at hflat
    refine .inr ⟨earlier, front, rest, ?_, (List.forall_mem_cons.1 hflat).2, hfront, htext.symm⟩
    rw [Draft.span, hhere]
    rcases hlast with rfl | rfl <;> rfl

theorem Spells.span_between (h : d.Spells (some '/') text) :
    (d.span .between).Spells (some '/') (text ++ ['*', '*', '/']) := by
  have hstars : (text ++ ['*', '*', '/']).flatMap bytesOf =
      text.flatMap bytesOf ++ ['*', '*'].flatMap bytesOf ++ [slash] := by
    rw [List.flatMap_append, List.append_assoc]
    rfl
  rcases h.span_eq .between with ⟨hhere, hspan⟩ | ⟨earlier, front, rest, hspan, hflat, hfront, htext⟩
  · rw [hspan]
    refine ⟨h.around, ?_, h.flat, h.ended⟩
    rw [hhere, hstars]
    exact (languageOf_singleton false .leading).symm ▸ concat_slash_mem_directories _
  · rw [hspan]
    refine ⟨h.around, ?_, List.forall_mem_cons.2 ⟨by decide, hflat⟩,
      fun _ => ⟨_, earlier, rfl, .inr (.inr rfl)⟩⟩
    rw [hstars, htext, List.reverse_cons, languageOf_concat, List.append_assoc, List.append_assoc]
    refine Language.append_mem_mul hfront (slash_cons_mem_between false ?_)
    show rest ++ (_ ++ [slash]) ∈ directories
    rw [← List.append_assoc]
    exact concat_slash_mem_directories _

/-- Two stars at the end stand for all that may follow there. Where they are all that there is, they are
taken for any path. -/
theorem Spells.span_beneath (h : d.Spells (some '/') text) :
    (d.span .beneath).here = [.leading] ∨
      ∀ more, text.flatMap bytesOf ++ more ∈ languageOf false (d.span .beneath).here.reverse := by
  rcases h.span_eq .beneath with ⟨hhere, hspan⟩ | ⟨earlier, front, rest, hspan, -, hfront, htext⟩
  · exact .inl (by rw [hspan, hhere])
  · right
    intro more
    rw [hspan, htext, List.reverse_cons, languageOf_concat, List.append_assoc]
    exact Language.append_mem_mul hfront (slash_cons_mem_beneath false _)

/-- Two stars before something make up directories with the slash that follows, or are any text. -/
theorem Spells.twoStars (h : d.Spells before text) (c : Char) (s : List Char) :
    (c = '/' ∧ ∃ d' : Draft, d.twoStars before (c :: s) = (d', s) ∧
        d'.Spells (some '/') (text ++ ['*', '*', '/'])) ∨
      d.twoStars before (c :: s) = (d.stars, c :: s) := by
  unfold Draft.twoStars
  -- Two stars are of a kind of their own at the start of the text or behind a slash, if a slash comes next.
  by_cases hhere : d.here = []
  · rw [if_pos (by rw [hhere]; rfl)]
    split
    · rename_i hnil
      cases hnil
    · rename_i hcons
      cases hcons
      have htext : text = [] := by
        have hmem := h.mem
        rw [hhere] at hmem
        exact bytes_injective (a := []) hmem
      refine .inl ⟨rfl, _, rfl, h.around, ?_, List.forall_mem_cons.2 ⟨by decide, h.flat⟩,
        fun _ => ⟨_, d.here, rfl, .inl ⟨rfl, hhere⟩⟩⟩
      rw [Draft.push, hhere, htext]
      exact (languageOf_singleton false .leading).symm ▸ concat_slash_mem_directories [0x2A, 0x2A]
    · exact .inr rfl
  · rw [if_neg (by simpa using hhere)]
    by_cases hbefore : before = some '/'
    · subst hbefore
      rw [if_pos (.inl rfl)]
      split
      · rename_i hnil
        cases hnil
      · rename_i hcons
        cases hcons
        exact .inl ⟨rfl, _, rfl, h.span_between⟩
      · rename_i hcons
        cases hcons
        exact .inr (if_neg (by simp [h.around]))
    · exact .inr (if_neg (by simp [hbefore, h.around]))

end spells

end Draft

theorem readSigns_twoStars (lenient : Bool) (d : Draft) (before : Option Char) (s : List Char) :
    readSigns lenient d before ('*' :: '*' :: s) =
      readSigns lenient (d.twoStars before s).1
        (some (if (d.twoStars before s).2.length < s.length then '/' else '*'))
        (d.twoStars before s).2 := by
  rw [readSigns]

open Draft

theorem getLast?_cons_or {α : Type} (a : α) (s : List α) (before : Option α) :
    (a :: s).getLast?.or before = s.getLast?.or (some a) := by
  rw [List.getLast?_cons]
  cases s.getLast? <;> rfl

theorem Draft.Spells.readSigns_end {d : Draft} {text : List Char} (h : d.Spells (some '/') text) :
    readSigns false d (some '/') ['*', '*'] = .ok (d.span .beneath).here.reverse := by
  obtain ⟨sign, earlier, hhere, -⟩ := h.ended rfl
  have hstars : d.twoStars (some '/') [] = (d.span .beneath, []) := by
    unfold Draft.twoStars
    rw [if_neg (by simp [hhere]), if_pos (.inl rfl)]
  have haround : (d.span .beneath).around = [] := by
    rcases h.span_eq .beneath with ⟨-, hspan⟩ | ⟨_, _, _, hspan, -⟩ <;> rw [hspan] <;> exact h.around
  rw [readSigns_twoStars, hstars, readSigns, haround]
  rfl

theorem Draft.Spells.flat_span_beneath {d : Draft} {text : List Char} (h : d.Spells (some '/') text) :
    ∀ sign ∈ (d.span .beneath).here, (sign.extent false).depth ≤ flatDepth := by
  rcases h.span_eq .beneath with ⟨-, hspan⟩ | ⟨_, _, _, hspan, hflat, -⟩
  · rw [hspan]
    exact h.flat
  · rw [hspan]
    exact List.forall_mem_cons.2 ⟨by decide, hflat⟩

/-- Signs for what lies below a directory, whose text is given with its slash. -/
structure IsBelow (text : List Char) (signs : List Sign) : Prop where
  flat : ∀ sign ∈ signs, (sign.extent false).depth ≤ flatDepth
  stands : signs = [.leading] ∨ ∀ more, text.flatMap bytesOf ++ more ∈ languageOf false signs

/-- A text that ends in a slash, with two stars behind it, is a glob for what lies below. -/
theorem readSigns_directory {d : Draft} {before : Option Char} {text s : List Char}
    (h : d.Spells before text) (hs : ∀ c ∈ s, c ∉ structural)
    (hend : s.getLast?.or before = some '/') :
    ∃ signs, readSigns false d before (s ++ ['*', '*']) = .ok signs ∧ IsBelow (text ++ s) signs := by
  induction hlength : s.length using Nat.strong_induction_on generalizing d before text s with
  | _ n ih =>
  have hshorter : ∀ {d' : Draft} {read : List Char} {c : Char} {rest : List Char},
      d'.Spells (some c) (text ++ read) → s = read ++ rest → read ≠ [] →
      rest.getLast?.or (some c) = some '/' →
      ∃ signs, readSigns false d' (some c) (rest ++ ['*', '*']) = .ok signs ∧
        IsBelow (text ++ s) signs := by
    rintro d' read c rest h rfl hread hend
    rw [← List.append_assoc]
    refine ih rest.length ?_ h (fun c hc => hs c (List.mem_append_right _ hc)) hend rfl
    have hpos := List.length_pos_iff.2 hread
    rw [← hlength, List.length_append]
    omega
  cases s with
  | nil =>
    obtain rfl : before = some '/' := hend
    refine ⟨_, h.readSigns_end, fun sign hsign => h.flat_span_beneath sign (by simpa using hsign), ?_⟩
    rw [List.append_nil]
    exact h.span_beneath.imp (fun hhere => by rw [hhere]; rfl) id
  | cons c s =>
    rw [getLast?_cons_or] at hend
    -- A character that is pushed goes over to the text that has been read.
    have hpush : ∀ {sign : Sign}, [c].flatMap bytesOf ∈ sign.language false →
        (sign.extent false).depth ≤ flatDepth → (c = '/' → sign = .literal '/') →
        ∃ signs, readSigns false (d.push sign) (some c) (s ++ ['*', '*']) = .ok signs ∧
          IsBelow (text ++ c :: s) signs :=
      fun hmem hflat hc => hshorter (h.push hmem hflat hc) rfl (by simp) hend
    by_cases hone : c = '?'
    · subst hone
      rw [List.cons_append, readSigns_one]
      exact hpush (singleton_mem_byte rfl) (by decide) (by simp)
    by_cases hstar : c ≠ '*'
    · rw [List.cons_append, readSigns_char _ _ _ h.around (hs c List.mem_cons_self) hone hstar]
      exact hpush (by simp [Sign.language]; rfl) (Nat.zero_le _) (fun hc => by rw [hc])
    obtain rfl := not_not.1 hstar
    by_cases hstars : s.head? ≠ some '*'
    · rw [List.cons_append, readSigns_star]
      · exact hpush (mem_bytes_true _) (by decide) (by simp)
      · cases s with
        | nil => cases hend
        | cons c s => exact hstars
    obtain ⟨s, rfl⟩ := List.head?_eq_some_iff.1 (not_not.1 hstars)
    rw [getLast?_cons_or] at hend
    cases s with
    | nil => cases hend
    | cons c s =>
      rw [List.cons_append, List.cons_append, readSigns_twoStars]
      rcases h.twoStars c (s ++ ['*', '*']) with ⟨rfl, d', hd', hspells⟩ | hd'
      · rw [List.cons_append, hd', if_pos (by simp)]
        rw [getLast?_cons_or] at hend
        exact hshorter hspells rfl (by simp) hend
      · rw [List.cons_append, hd', if_neg (by simp)]
        exact hshorter h.stars rfl (by simp) hend

theorem depth_extentOf_le {separated : Bool} {n : Nat} {signs : List Sign}
    (h : ∀ sign ∈ signs, (sign.extent separated).depth ≤ n) : (extentOf separated signs).depth ≤ n := by
  induction signs with
  | nil => exact Nat.zero_le n
  | cons sign signs ih =>
    rw [List.forall_mem_cons] at h
    exact max_le h.1 (ih h.2)

/-- The glob of a directory for what lies below it is read, nests no deeper than is allowed, and matches
the paths that begin with the directory. -/
theorem ofPattern_directory {directory : String} (h : ∀ c ∈ directory.toList, c ∉ structural) :
    ∃ g, ofPattern (directory ++ "/**") = .ok g ∧ g.isTooDeep = false ∧
      ∀ (path : String) (more : List Char), path.toList = directory.toList ++ '/' :: more →
        hasFileName path → g.admits path := by
  have hslash : ∀ c ∈ directory.toList ++ ['/'], c ∉ structural := by
    intro c hc
    rcases List.mem_append.1 hc with hc | hc
    · exact h c hc
    · rw [List.mem_singleton.1 hc]
      decide
  obtain ⟨signs, hsigns, hbelow⟩ := readSigns_directory Draft.spells_start hslash (by simp)
  have htext : (directory ++ "/**").toList = directory.toList ++ ['/'] ++ ['*', '*'] := by simp
  refine ⟨⟨signs, false⟩, by rw [ofPattern, htext, hsigns]; rfl, ?_, ?_⟩
  · have hdepth := depth_extentOf_le hbelow.flat
    refine decide_eq_false ?_
    simp only [depthLimit, flatDepth] at hdepth ⊢
    omega
  · intro path more hpath hname
    have hfits : ∀ c : Criterion, c.fits path := by
      intro c
      cases c <;> first | exact hname | rfl
    rw [admits]
    split
    · rfl
    · rename_i hne
      have hmem := hbelow.stands.resolve_left hne (more.flatMap bytesOf)
      rw [hfits, Bool.true_and, accepts_iff, hpath]
      simpa using hmem

end UtilityCss.Glob
