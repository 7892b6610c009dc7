import UtilityCss.Proofs.Sheet.Shown
import UtilityCss.Proofs.Sheet.Refinement

namespace UtilityCss.Sheet
open Rules

/-- Two lists of classes with the same styled ones and the same containers, in the same order. -/
structure SameRules (as bs : List String) : Prop where
  styled : as.filter isStyled = bs.filter isStyled
  containers : as.filter isContainer = bs.filter isContainer

theorem stylesAt_filter_isStyled (names : List String) (p : List MediaQuery) :
    stylesAt (names.filter isStyled) p = stylesAt names p := by
  simp only [stylesAt, List.filterMap_filter]
  congr 1
  funext name
  cases h : isStyled name with
  | true => simp
  | false =>
    have hnone : styleRule? name p.length = none := by
      rw [← Option.not_isSome_iff_eq_none, isSome_styleRule?, h]
      exact Bool.false_ne_true
    simp [hnone]

theorem SameRules.stylesAt_eq {as bs : List String} (h : SameRules as bs) (p : List MediaQuery) :
    stylesAt as p = stylesAt bs p := by
  rw [← stylesAt_filter_isStyled, h.styled, stylesAt_filter_isStyled]

theorem SameRules.eraseDups {as bs : List String} (h : SameRules as bs) :
    SameRules as.eraseDups bs.eraseDups := by
  constructor
  · rw [Distinct.filter_eraseDups, h.styled, Distinct.filter_eraseDups]
  · rw [Distinct.filter_eraseDups, h.containers, Distinct.filter_eraseDups]

theorem occupied_congr {as bs : List String} (h : SameRules as bs) (p : List MediaQuery) :
    Occupied as p ↔ Occupied bs p := by
  have hs : ∀ name, name ∈ as ∧ isStyled name ↔ name ∈ bs ∧ isStyled name := by
    intro name
    rw [← List.mem_filter, h.styled, List.mem_filter]
  have hc : ∀ name, name ∈ as ∧ isContainer name ↔ name ∈ bs ∧ isContainer name := by
    intro name
    rw [← List.mem_filter, h.containers, List.mem_filter]
  simp only [Occupied, ← and_assoc, hs, hc]

/-- Classes with the same rules have the same text where they show the same blocks. -/
theorem textAt_congr {as bs : List String} (layout : Layout) (h : SameRules as bs)
    (p : List MediaQuery) (hs : ∀ p', p <+: p' → shownAt as p' = shownAt bs p') :
    textAt layout as p = textAt layout bs p := by
  induction p using queries_induction as with
  | step p ih =>
    rw [textAt_eq_shown, textAt_eq_shown, ← hs p List.prefix_rfl, h.containers, h.stylesAt_eq]
    congr 2
    apply List.map_congr_left
    intro q hq
    rw [ih q (mem_shownAt.1 hq).1 fun p' hp => hs p' ((List.prefix_append p [q]).trans hp)]

theorem atRule_prefix_free : ∀ q ∈ MediaQuery.all, ∀ q' ∈ MediaQuery.all,
    q.atRule.toList <+: q'.atRule.toList → q = q' := by
  decide +kernel

theorem query_eq_of_mediaText {layout : Layout} {level : Nat} {q q' : MediaQuery}
    {body body' rest rest' : String}
    (h : mediaText layout level q body ++ rest = mediaText layout level q' body' ++ rest') :
    q = q' := by
  simp only [mediaText, Layout.opening, String.append_assoc, String.append_right_inj] at h
  have hl := congrArg String.toList h
  simp only [String.toList_append] at hl
  have hq := MediaQuery.mem_all q
  have hq' := MediaQuery.mem_all q'
  -- Both at-rules begin the same text, so one of them begins the other.
  rcases List.append_eq_append_iff.1 hl with ⟨u, hu, -⟩ | ⟨u, hu, -⟩
  · exact atRule_prefix_free q hq q' hq' ⟨u, hu.symm⟩
  · exact (atRule_prefix_free q' hq' q hq ⟨u, hu.symm⟩).symm

theorem filter_ne_of_notMem {qs : List MediaQuery} {c : MediaQuery} (h : c ∉ qs) :
    qs.filter (· ≠ c) = qs := by
  rw [List.filter_eq_self]
  intro q hq
  exact decide_eq_true fun e : q = c => h (e ▸ hq)

/-- Two sequences of blocks that differ in at most one of them are the same if their texts are. -/
theorem eq_of_join_mediaText {layout : Layout} {level : Nat} {f g : MediaQuery → String}
    {c : MediaQuery} (hfg : ∀ q, q ≠ c → f q = g q) {qs qs' : List MediaQuery} (hn : qs.Nodup)
    (hn' : qs'.Nodup) (hqs : qs.filter (· ≠ c) = qs'.filter (· ≠ c))
    (h : String.join (qs.map fun q => mediaText layout level q (f q)) =
      String.join (qs'.map fun q => mediaText layout level q (g q))) :
    qs = qs' ∧ (c ∈ qs → f c = g c) := by
  induction qs generalizing qs' with
  | nil =>
    cases qs' with
    | nil => simp
    | cons q qs' => simp [String.append_eq_empty_iff, mediaText_ne_empty] at h
  | cons q qs ih =>
    cases qs' with
    | nil => simp [String.append_eq_empty_iff, mediaText_ne_empty] at h
    | cons q' qs' =>
      simp only [List.map_cons, String.join_cons] at h
      obtain rfl := query_eq_of_mediaText h
      obtain ⟨hq, hn⟩ := List.nodup_cons.1 hn
      obtain ⟨hq', hn'⟩ := List.nodup_cons.1 hn'
      by_cases hc : q = c
      · -- No other block has this query, so the rest is the same.
        subst hc
        have hrest : qs = qs' := by
          rwa [List.filter_cons_of_neg (by simp), List.filter_cons_of_neg (by simp),
            filter_ne_of_notMem hq, filter_ne_of_notMem hq'] at hqs
        subst hrest
        have hmap : (qs.map fun a => mediaText layout level a (f a)) =
            qs.map fun a => mediaText layout level a (g a) := by
          apply List.map_congr_left
          intro a ha
          rw [hfg a fun e : a = q => hq (e ▸ ha)]
        rw [hmap, String.append_left_inj] at h
        simp only [mediaText, String.append_left_inj, String.append_right_inj] at h
        exact ⟨rfl, fun _ => h⟩
      · rw [hfg q hc, String.append_right_inj] at h
        obtain ⟨rfl, hmem⟩ := ih hn hn' (by simpa [hc] using hqs) h
        exact ⟨rfl, fun hm => hmem (List.mem_of_ne_of_mem (Ne.symm hc) hm)⟩

theorem occupied_eraseDups {names : List String} {p : List MediaQuery} :
    Occupied names.eraseDups p ↔ Occupied names p := by
  simp only [Occupied, List.mem_eraseDups]

/-- A class asks for nothing where its own way ends. -/
theorem nextQuery?_past_end {p path : List MediaQuery} (h : path <+: p) :
    nextQuery? p path = none := by
  rw [Option.eq_none_iff_forall_ne_some]
  intro q hq
  have hlen := (nextQuery?_eq_some.1 hq).length_le
  have hle := h.length_le
  rw [List.length_append, List.length_singleton] at hlen
  omega

/-- Nor does it behind another query than the one of its own way. -/
theorem nextQuery?_of_ne {p p' path : List MediaQuery} {q q' : MediaQuery} (h : p ++ [q] <+: path)
    (hne : q' ≠ q) (hp : p ++ [q'] <+: p') : nextQuery? p' path = none := by
  rw [Option.eq_none_iff_forall_ne_some]
  intro q'' hq''
  have hq' := hp.trans ((List.prefix_append p' [q'']).trans (nextQuery?_eq_some.1 hq''))
  have heq := List.prefix_of_prefix_length_le hq' h (by simp)
  exact hne (by simpa using heq)

/-- The media queries that the classes ask for behind `p`, of the blocks that have text. -/
def askedAt (names all : List String) (p : List MediaQuery) : List MediaQuery :=
  (names.filterMap fun name => nextQuery? p (pathOf name)).filter fun q => Occupied all (p ++ [q])

theorem askedAt_append (as bs all : List String) (p : List MediaQuery) :
    askedAt (as ++ bs) all p = askedAt as all p ++ askedAt bs all p := by
  simp [askedAt]

theorem askedAt_cons {name : String} {names all : List String} {p : List MediaQuery}
    {q : MediaQuery} (h : p ++ [q] <+: pathOf name) : askedAt (name :: names) all p =
      if Occupied all (p ++ [q]) then q :: askedAt names all p else askedAt names all p := by
  simp only [askedAt, List.filterMap_cons, nextQuery?_eq_some.2 h, List.filter_cons,
    decide_eq_true_eq]

theorem askedAt_cons_of_none {name : String} {names all : List String} {p : List MediaQuery}
    (h : nextQuery? p (pathOf name) = none) :
    askedAt (name :: names) all p = askedAt names all p := by
  simp only [askedAt, List.filterMap_cons, h]

theorem shownAt_eq (names : List String) (p : List MediaQuery) :
    shownAt names p = (askedAt names names p).eraseDups := by
  rw [shownAt, queriesAt, Distinct.filter_eraseDups, askedAt]

theorem shownAt_eraseDups (names : List String) (p : List MediaQuery) :
    shownAt names.eraseDups p = shownAt names p := by
  rw [shownAt, shownAt, queriesAt, queriesAt, Distinct.filterMap_eraseDups]
  simp only [occupied_eraseDups]

def Opens (names : List String) (p : List MediaQuery) : Prop := ∃ name ∈ names, p <+: pathOf name

/-- Of the blocks behind `p` that have text and are not open yet, that of `q` is the first which the
classes `after` open. -/
def ComesNext (before after : List String) (p : List MediaQuery) (q : MediaQuery) : Prop :=
  ∃ earlier name later, after = earlier ++ name :: later ∧ p ++ [q] <+: pathOf name ∧
    ∀ other ∈ earlier, ∀ q', p ++ [q'] <+: pathOf other →
      Occupied (before ++ after) (p ++ [q']) → Opens before (p ++ [q'])

/-- Every block with text on the way of the class is open before, or comes next without it. -/
def Unnoticed (before after : List String) (c : String) : Prop :=
  ∀ p q, p ++ [q] <+: pathOf c → Occupied (before ++ after) (p ++ [q]) →
    Opens before (p ++ [q]) ∨ ComesNext before after p q

theorem mem_askedAt {names all : List String} {p : List MediaQuery} {q : MediaQuery} :
    q ∈ askedAt names all p ↔ Opens names (p ++ [q]) ∧ Occupied all (p ++ [q]) := by
  simp [askedAt, Opens, nextQuery?_eq_some]

theorem find?_askedAt {before after : List String} {p : List MediaQuery} {q : MediaQuery}
    (ho : Occupied (before ++ after) (p ++ [q])) (hb : ¬ Opens before (p ++ [q])) :
    (askedAt after (before ++ after) p).find?
        (fun q' => !(askedAt before (before ++ after) p).elem q') = some q ↔
      ComesNext before after p q := by
  rw [show askedAt after _ p = List.filter _ (List.filterMap _ after) from rfl, List.find?_filter,
    List.find?_filterMap, Option.bind_eq_some_iff]
  simp only [List.find?_eq_some_iff_append]
  constructor
  · rintro ⟨name, ⟨-, earlier, later, hafter, hearlier⟩, hq⟩
    refine ⟨earlier, name, later, hafter, nextQuery?_eq_some.1 hq, ?_⟩
    intro other hm q' hq' ho'
    have h := hearlier other hm
    rw [nextQuery?_eq_some.2 hq'] at h
    -- `h` says that the block of `q'` is either empty or open before.
    exact (mem_askedAt.1 (by simpa [ho'] using h)).1
  · rintro ⟨earlier, name, later, hafter, hq, hearlier⟩
    have hnext := nextQuery?_eq_some.2 hq
    refine ⟨name, ⟨by simp [hnext, mem_askedAt, ho, hb], earlier, later, hafter, ?_⟩, hnext⟩
    intro other hm
    cases hn : nextQuery? p (pathOf other) with
    | none => rfl
    | some q' =>
      have hopen := hearlier other hm q' (nextQuery?_eq_some.1 hn)
      by_cases ho' : Occupied (before ++ after) (p ++ [q'])
      · simp [mem_askedAt, ho', hopen ho']
      · simp [ho']

section insertion
variable {before after : List String} {c : String} (hs : isStyled c = false)
  (hc : isContainer c = false)

include hs hc

theorem sameRules_insert : SameRules (before ++ c :: after) (before ++ after) := by
  constructor <;> simp [hs, hc]

theorem shownAt_insert (p : List MediaQuery) : shownAt (before ++ c :: after) p =
    (askedAt (before ++ c :: after) (before ++ after) p).eraseDups := by
  rw [shownAt_eq, askedAt, askedAt]
  simp only [occupied_congr (sameRules_insert hs hc)]

/-- Off the way of the class nothing changes. -/
theorem shownAt_insert_of_none {p : List MediaQuery} (h : nextQuery? p (pathOf c) = none) :
    shownAt (before ++ c :: after) p = shownAt (before ++ after) p := by
  rw [shownAt_insert hs hc, shownAt_eq, askedAt_append, askedAt_append, askedAt_cons_of_none h]

/-- The other blocks keep their order. -/
theorem filter_shownAt_insert {p : List MediaQuery} {q : MediaQuery}
    (h : p ++ [q] <+: pathOf c) :
    (shownAt (before ++ c :: after) p).filter (· ≠ q) =
      (shownAt (before ++ after) p).filter (· ≠ q) := by
  rw [shownAt_insert hs hc, shownAt_eq, Distinct.filter_eraseDups, Distinct.filter_eraseDups,
    askedAt_append, askedAt_append, askedAt_cons h, List.filter_append, List.filter_append]
  split
  · rw [List.filter_cons_of_neg (by simp)]
  · rfl

theorem shownAt_insert_iff {p : List MediaQuery} {q : MediaQuery} (h : p ++ [q] <+: pathOf c) :
    shownAt (before ++ c :: after) p = shownAt (before ++ after) p ↔
      (Occupied (before ++ after) (p ++ [q]) →
        Opens before (p ++ [q]) ∨ ComesNext before after p q) := by
  rw [shownAt_insert hs hc, shownAt_eq, askedAt_append, askedAt_append, askedAt_cons h]
  by_cases ho : Occupied (before ++ after) (p ++ [q])
  · rw [if_pos ho, Distinct.eraseDups_insert_iff, mem_askedAt, and_iff_left ho,
      forall_prop_of_true ho]
    by_cases hb : Opens before (p ++ [q])
    · simp only [hb, true_or]
    · rw [or_iff_right hb, or_iff_right hb, find?_askedAt ho hb]
  · simp [ho]

/-- Where the text is the same with the class and without it, so are the blocks from there on. -/
theorem shownAt_eq_of_textAt_eq (layout : Layout) {p rest : List MediaQuery}
    (hp : pathOf c = p ++ rest)
    (h : textAt layout (before ++ c :: after).eraseDups p =
      textAt layout (before ++ after).eraseDups p) {p' : List MediaQuery} (hpp : p <+: p') :
    shownAt (before ++ c :: after) p' = shownAt (before ++ after) p' := by
  have hsame : SameRules (before ++ c :: after).eraseDups (before ++ after).eraseDups :=
    (sameRules_insert hs hc).eraseDups
  induction rest generalizing p p' with
  | nil =>
    rw [List.append_nil] at hp
    exact shownAt_insert_of_none hs hc (nextQuery?_past_end (hp ▸ hpp))
  | cons q rest ih =>
    have hq : p ++ [q] <+: pathOf c := ⟨rest, by simp [hp]⟩
    have hoff : ∀ q', q' ≠ q → ∀ p', p ++ [q'] <+: p' →
        shownAt (before ++ c :: after) p' = shownAt (before ++ after) p' := by
      intro q' hne p' hpp
      exact shownAt_insert_of_none hs hc (nextQuery?_of_ne hq hne hpp)
    have htext : ∀ q', q' ≠ q → textAt layout (before ++ c :: after).eraseDups (p ++ [q']) =
        textAt layout (before ++ after).eraseDups (p ++ [q']) := by
      intro q' hne
      apply textAt_congr layout hsame
      intro p' hp'
      rw [shownAt_eraseDups, shownAt_eraseDups, hoff q' hne p' hp']
    rw [textAt_eq_shown, textAt_eq_shown, hsame.containers, hsame.stylesAt_eq,
      String.append_right_inj] at h
    simp only [shownAt_eraseDups] at h
    -- Only the block of `q` can differ, so the blocks are the same one by one.
    obtain ⟨hshown, hq'⟩ := eq_of_join_mediaText htext (nodup_shownAt _ p) (nodup_shownAt _ p)
      (filter_shownAt_insert hs hc hq) h
    rcases prefix_iff_eq_or.1 hpp with rfl | ⟨q', hpp'⟩
    · exact hshown
    · by_cases hne : q' = q
      · subst hne
        refine ih (by simp [hp]) ?_ hpp'
        by_cases hm : q' ∈ shownAt (before ++ c :: after) p
        · exact hq' hm
        · -- A block that is not shown has no text, with the class or without it.
          have ho : ¬ Occupied (before ++ c :: after).eraseDups (p ++ [q']) := by
            intro ho
            apply hm
            exact mem_shownAt.2 ⟨mem_queriesAt.2 ⟨c, by simp, hq⟩, occupied_eraseDups.1 ho⟩
          rw [(textAt_eq_empty layout _ _).2 ho,
            (textAt_eq_empty layout _ _).2 (mt (occupied_congr hsame _).2 ho)]
      · exact hoff q' hne p' hpp'

/-- The class leaves the text as it is just if it goes unnoticed. -/
theorem textAt_insert_iff (layout : Layout) :
    textAt layout (before ++ c :: after).eraseDups [] =
      textAt layout (before ++ after).eraseDups [] ↔ Unnoticed before after c := by
  constructor
  · intro h p q hq
    rw [← shownAt_insert_iff hs hc hq]
    exact shownAt_eq_of_textAt_eq hs hc layout (List.nil_append _).symm h List.nil_prefix
  · intro h
    apply textAt_congr layout (sameRules_insert hs hc).eraseDups
    intro p _
    rw [shownAt_eraseDups, shownAt_eraseDups]
    cases hn : nextQuery? p (pathOf c) with
    | none => exact shownAt_insert_of_none hs hc hn
    | some q =>
      have hq := nextQuery?_eq_some.1 hn
      exact (shownAt_insert_iff hs hc hq).2 (h p q hq)

end insertion

end UtilityCss.Sheet

namespace UtilityCss.Compiler
open Sheet

/-- A class that is no container and that no utility resolves leaves the text as it is just if it goes
unnoticed among the others. -/
theorem text_add_unresolved_iff (layout : Layout) (p : Partition) (before after : List String)
    {c : String} (hc : isContainer c = false) (hr : (candidateOf c).resolve? = none) :
    (({ layout } : Compiler).add p (before ++ c :: after)).1.text p =
      (({ layout } : Compiler).add p (before ++ after)).1.text p ↔ Unnoticed before after c := by
  have hs : isStyled c = false := by simp [isStyled, hr]
  rw [text_add, text_add, text_ofClasses, text_ofClasses]
  exact textAt_insert_iff hs hc layout

theorem text_add_unresolved_between : isContainer "sm:dark:bogus" = false ∧
    (candidateOf "sm:dark:bogus").resolve? = none ∧
      ((({ layout := ⟨true⟩ } : Compiler).add .critical
          (["container", "md:p-4"] ++ "sm:dark:bogus" :: ["sm:p-2"])).1.text .critical =
        (({ layout := ⟨true⟩ } : Compiler).add .critical
          (["container", "md:p-4"] ++ ["sm:p-2"])).1.text .critical ↔
        Unnoticed ["container", "md:p-4"] ["sm:p-2"] "sm:dark:bogus") :=
  ⟨by decide +kernel, by decide +kernel,
    text_add_unresolved_iff ⟨true⟩ .critical ["container", "md:p-4"] ["sm:p-2"]
      (by decide +kernel) (by decide +kernel)⟩

/-- Behind a container, a class that nothing resolves still makes a block, of its breakpoint. -/
theorem text_add_unresolved_ne : isContainer "sm:bogus" = false ∧
    (candidateOf "sm:bogus").resolve? = none ∧
      (({ layout := ⟨true⟩ } : Compiler).add .critical ["container", "sm:bogus"]).1.text .critical ≠
        (({ layout := ⟨true⟩ } : Compiler).add .critical ["container"]).1.text .critical := by
  decide +kernel

end UtilityCss.Compiler
