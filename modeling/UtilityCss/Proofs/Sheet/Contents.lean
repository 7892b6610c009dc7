import UtilityCss.Sheet.Rules
import UtilityCss.Proofs.Modifier

namespace UtilityCss.Rules

/-- A media block, with the level of its at-rule. -/
structure Block where
  level : Nat
  query : MediaQuery
  inner : Rules

def styles : Rules → List (String × StyleRule)
  | nil => []
  | style key rule rest => (key, rule) :: rest.styles
  | media _ _ _ rest => rest.styles

def blocks : Rules → List Block
  | nil => []
  | style _ _ rest => rest.blocks
  | media level query inner rest => ⟨level, query, inner⟩ :: rest.blocks

theorem mem_keys {key : String} {r : Rules} :
    key ∈ r.keys ↔ (∃ rule, (key, rule) ∈ r.styles) ∨ ∃ b ∈ r.blocks, b.query.name = key := by
  induction r with
  | nil => simp [keys, styles, blocks]
  | style k rule rest ih =>
    simp only [keys, styles, blocks, List.mem_cons, Prod.mk.injEq, ih]
    constructor
    · rintro (rfl | ⟨r, h⟩ | h)
      · exact .inl ⟨rule, .inl ⟨rfl, rfl⟩⟩
      · exact .inl ⟨r, .inr h⟩
      · exact .inr h
    · rintro (⟨r, ⟨rfl, -⟩ | h⟩ | h)
      · exact .inl rfl
      · exact .inr (.inl ⟨r, h⟩)
      · exact .inr (.inr h)
  | media level query inner rest _ ih =>
    simp only [keys, styles, blocks, List.mem_cons, exists_eq_or_imp, ih]
    rw [or_left_comm, eq_comm]

/-- No style rule has the name of a media query for its key. -/
def Separate (r : Rules) : Prop := ∀ s ∈ r.styles, MediaQuery.ofName? s.1 = none

theorem Separate.ne_name {r : Rules} (h : r.Separate) (q : MediaQuery) :
    ∀ s ∈ r.styles, s.1 ≠ q.name := by
  intro s hs hq
  have hn := h s hs
  rw [hq, MediaQuery.ofName?_name] at hn
  cases hn

theorem styles_insert {key : String} {rule : StyleRule} {r : Rules} (h : key ∉ r.keys) :
    (r.insert key rule).styles = r.styles ++ [(key, rule)] := by
  induction r with
  | nil => rfl
  | style k k' rest ih =>
    simp only [keys, List.mem_cons, not_or] at h
    simp [insert, Ne.symm h.1, styles, ih h.2]
  | media level query inner rest _ ih =>
    simp only [keys, List.mem_cons, not_or] at h
    simp [insert, Ne.symm h.1, styles, ih h.2]

@[simp] theorem blocks_insert (key : String) (rule : StyleRule) (r : Rules) :
    (r.insert key rule).blocks = r.blocks := by
  induction r with
  | nil => rfl
  | style k k' rest ih => by_cases h : k = key <;> simp [insert, h, blocks, ih]
  | media level query inner rest _ ih =>
    by_cases h : query.name = key <;> simp [insert, h, blocks, ih]

/-- Blocks in which one is entered: the first of its query, or a new one at the end. -/
def enter (level : Nat) (query : MediaQuery) (f : Nat → Rules → Rules) : List Block → List Block
  | [] => [⟨level, query, f (level + 1) nil⟩]
  | b :: bs =>
    if b.query = query then ⟨b.level, query, f (b.level + 1) b.inner⟩ :: bs
    else b :: enter level query f bs

section within
variable {level : Nat} {query : MediaQuery} {f : Nat → Rules → Rules} {r : Rules}

theorem styles_within (h : ∀ s ∈ r.styles, s.1 ≠ query.name) :
    (r.within level query f).styles = r.styles := by
  induction r with
  | nil => rfl
  | style k rule rest ih =>
    simp only [styles, List.forall_mem_cons] at h
    simp [within, h.1, styles, ih h.2]
  | media l q inner rest _ ih => by_cases hq : q = query <;> simp [within, hq, styles, ih h]

theorem blocks_within (h : ∀ s ∈ r.styles, s.1 ≠ query.name) :
    (r.within level query f).blocks = enter level query f r.blocks := by
  induction r with
  | nil => rfl
  | style k rule rest ih =>
    simp only [styles, List.forall_mem_cons] at h
    simp [within, h.1, blocks, ih h.2]
  | media l q inner rest _ ih => by_cases hq : q = query <;> simp [within, hq, blocks, enter, ih h]

end within

/-- Entering one of several blocks that stand at one level, each with its own query. -/
theorem enter_map {level : Nat} {query : MediaQuery} {f : Nat → Rules → Rules}
    {qs : List MediaQuery} {g : MediaQuery → Rules} (hn : qs.Nodup) (hg : query ∉ qs → g query = nil) :
    enter level query f (qs.map fun q => ⟨level, q, g q⟩) =
      (if query ∈ qs then qs else qs ++ [query]).map fun q =>
        ⟨level, q, if q = query then f (level + 1) (g q) else g q⟩ := by
  induction qs with
  | nil => simp [enter, hg (by simp)]
  | cons q qs ih =>
    obtain ⟨hq, hqs⟩ := List.nodup_cons.1 hn
    by_cases h : q = query
    · subst h
      -- The other blocks have other queries, so they stay.
      have hrest : (qs.map fun q' => (⟨level, q', g q'⟩ : Block)) =
          qs.map fun q' => ⟨level, q', if q' = q then f (level + 1) (g q') else g q'⟩ := by
        apply List.map_congr_left
        intro q' hq'
        rw [if_neg fun e : q' = q => hq (e ▸ hq')]
      simp [enter, hrest]
    · have hmem : query ∈ q :: qs ↔ query ∈ qs := by simp [Ne.symm h]
      have hi := ih hqs fun hm => hg (mt hmem.1 hm)
      by_cases hm : query ∈ qs <;> simp [enter, h, hm, hmem, hi]

/-- A block that is changed inside where it is a breakpoint's. -/
def Block.mapBreakpoint (f : Breakpoint → Nat → Rules → Rules) (b : Block) : Block :=
  match b.query with
  | .breakpoint p => { b with inner := f p (b.level + 1) b.inner }
  | .feature _ => b

@[simp] theorem styles_mapBreakpoints (f : Breakpoint → Nat → Rules → Rules) (r : Rules) :
    (r.mapBreakpoints f).styles = r.styles := by
  induction r with
  | nil => rfl
  | style k rule rest ih => simp [mapBreakpoints, styles, ih]
  | media l q inner rest _ ih => cases q <;> simp [mapBreakpoints, styles, ih]

theorem blocks_mapBreakpoints (f : Breakpoint → Nat → Rules → Rules) (r : Rules) :
    (r.mapBreakpoints f).blocks = r.blocks.map (Block.mapBreakpoint f) := by
  induction r with
  | nil => rfl
  | style k rule rest ih => simpa [mapBreakpoints, blocks] using ih
  | media l q inner rest _ ih =>
    cases q <;> simp [mapBreakpoints, blocks, Block.mapBreakpoint, ih]

theorem block?_eq (query : MediaQuery) (r : Rules) :
    r.block? query = (r.blocks.find? (·.query = query)).map fun b => (b.level + 1, b.inner) := by
  induction r with
  | nil => rfl
  | style k rule rest ih => simpa [block?, blocks] using ih
  | media l q inner rest _ ih => by_cases h : q = query <;> simp [block?, blocks, h, ih]

theorem find?_eq_style {key : String} {rule : StyleRule} {r : Rules} (hn : r.keys.Nodup) :
    r.find? key = some (style key rule nil) ↔ (key, rule) ∈ r.styles := by
  induction r with
  | nil => simp [find?, styles]
  | style k k' rest ih =>
    obtain ⟨hk, hr⟩ := List.nodup_cons.1 hn
    by_cases h : k = key
    · subst h
      have ha : (k, rule) ∉ rest.styles := fun hm => hk (mem_keys.2 (.inl ⟨rule, hm⟩))
      simp [find?, styles, ha, eq_comm]
    · simp [find?, styles, h, Ne.symm h, ih hr]
  | media l q inner rest _ ih =>
    obtain ⟨hk, hr⟩ := List.nodup_cons.1 hn
    by_cases h : q.name = key
    · subst h
      have ha : (q.name, rule) ∉ rest.styles := fun hm => hk (mem_keys.2 (.inl ⟨rule, hm⟩))
      simp [find?, styles, ha]
    · simp [find?, styles, h, ih hr]

theorem find?_eq_media {key : String} {level : Nat} {query : MediaQuery} {inner : Rules} {r : Rules}
    (hn : r.keys.Nodup) :
    r.find? key = some (media level query inner nil) ↔
      query.name = key ∧ ⟨level, query, inner⟩ ∈ r.blocks := by
  induction r with
  | nil => simp [find?, blocks]
  | style k rule rest ih =>
    obtain ⟨hk, hr⟩ := List.nodup_cons.1 hn
    by_cases h : k = key
    · subst h
      have ha : query.name = k → ⟨level, query, inner⟩ ∉ rest.blocks :=
        fun e hm => hk (mem_keys.2 (.inr ⟨_, hm, e⟩))
      simpa [find?, blocks] using ha
    · simp [find?, blocks, h, ih hr]
  | media l q i rest _ ih =>
    obtain ⟨hk, hr⟩ := List.nodup_cons.1 hn
    by_cases h : q.name = key
    -- A second block of the name would have its key twice.
    · subst h
      have ha : query.name = q.name → ⟨level, query, inner⟩ ∉ rest.blocks :=
        fun e hm => hk (mem_keys.2 (.inr ⟨_, hm, e⟩))
      simp only [find?, if_true, blocks, List.mem_cons, Option.some.injEq, media.injEq, and_true,
        Block.mk.injEq]
      constructor
      · rintro ⟨rfl, rfl, rfl⟩
        exact ⟨rfl, .inl ⟨rfl, rfl, rfl⟩⟩
      · rintro ⟨e, ⟨rfl, rfl, rfl⟩ | hm⟩
        · exact ⟨rfl, rfl, rfl⟩
        · exact absurd hm (ha e)
    · have hne : query.name = key → query ≠ q := by
        rintro e rfl
        exact h e
      simp only [find?, if_neg h, ih hr, blocks, List.mem_cons, Block.mk.injEq]
      constructor
      · rintro ⟨e, hm⟩
        exact ⟨e, .inr hm⟩
      · rintro ⟨e, ⟨-, rfl, -⟩ | hm⟩
        · exact absurd rfl (hne e)
        · exact ⟨e, hm⟩

theorem nodup_keys {r : Rules} (hs : (r.styles.map (·.1)).Nodup)
    (hb : (r.blocks.map (·.query)).Nodup) (h : r.Separate) : r.keys.Nodup := by
  induction r with
  | nil => exact List.nodup_nil
  | style k rule rest ih =>
    obtain ⟨hk, hs⟩ := List.nodup_cons.1 hs
    have hrest : rest.Separate := fun s hm => h s (List.mem_cons_of_mem _ hm)
    refine List.nodup_cons.2 ⟨fun hm => ?_, ih hs hb hrest⟩
    rcases mem_keys.1 hm with ⟨rule', hm⟩ | ⟨b, -, hq⟩
    · exact hk (List.mem_map.2 ⟨_, hm, rfl⟩)
    · exact h.ne_name b.query (k, rule) List.mem_cons_self hq.symm
  | media l q inner rest _ ih =>
    obtain ⟨hq, hb⟩ := List.nodup_cons.1 hb
    refine List.nodup_cons.2 ⟨fun hm => ?_, ih hs hb h⟩
    rcases mem_keys.1 hm with ⟨rule, hm⟩ | ⟨b, hm, he⟩
    · exact h.ne_name q _ hm rfl
    · exact hq (List.mem_map.2 ⟨b, hm, MediaQuery.name_injective he⟩)

theorem text_append (layout : Layout) (a b : Rules) :
    (a ++ b).text layout = a.text layout ++ b.text layout := by
  change (a.append b).text layout = _
  induction a with
  | nil => simp [append, text]
  | style k rule rest ih => simp [append, text, ih, String.append_assoc]
  | media l q inner rest _ ih => simp [append, text, ih, String.append_assoc]

def mediaText (layout : Layout) (level : Nat) (query : MediaQuery) (body : String) : String :=
  layout.opening level query.atRule ++ body ++ layout.closing level

/-- A media block around a text, left out where there is none. -/
def wrap (layout : Layout) (level : Nat) (query : MediaQuery) (body : String) : String :=
  if body = "" then "" else mediaText layout level query body

theorem text_plain {r : Rules} (layout : Layout) (h : r.Separate) :
    r.plain.text layout = String.join (r.styles.map fun s => s.2.text layout) := by
  induction r with
  | nil => rfl
  | style k rule rest ih =>
    simp only [Separate, styles, List.forall_mem_cons] at h
    simp [plain, isMediaName, h.1, text, styles, ih h.2]
  | media l q inner rest _ ih => simpa [plain, styles] using ih h

theorem text_responsive {r : Rules} (layout : Layout) (h : r.Separate) :
    r.responsive.text layout = String.join (r.blocks.map fun b =>
      wrap layout b.level b.query (b.inner.cascade.text layout)) := by
  induction r with
  | nil => rfl
  | style k rule rest ih =>
    simp only [Separate, styles, List.forall_mem_cons] at h
    simpa [responsive, isMediaName, h.1, blocks] using ih h.2
  | media l q inner rest _ ih =>
    simp only [blocks, List.map_cons, String.join_cons, ← ih h]
    rfl

theorem text_cascade {r : Rules} (layout : Layout) (h : r.Separate) :
    r.cascade.text layout = String.join (r.styles.map fun s => s.2.text layout) ++
      String.join (r.blocks.map fun b =>
        wrap layout b.level b.query (b.inner.cascade.text layout)) := by
  rw [cascade, text_append, text_plain layout h, text_responsive layout h]

end UtilityCss.Rules
