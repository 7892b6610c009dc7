import UtilityCss.Proofs.Distinct
import UtilityCss.Proofs.Sheet.Contents

namespace UtilityCss.Rules

/-- A class on its way into rules: the blocks that it opens, outermost first, and the style rule that it
leaves in the last of them, if any, at a level. -/
structure Arrival where
  path : List MediaQuery
  key : String
  rule? : Nat → Option StyleRule

namespace Arrival

def settle (a : Arrival) (level : Nat) (rules : Rules) : Rules :=
  match a.rule? level with
  | some rule => rules.insert a.key rule
  | none => rules

def place (a : Arrival) (level : Nat) (rules : Rules) : Rules := atPath a.settle a.path level rules

/-- The arrivals that go through a path, behind it. -/
def past (p : List MediaQuery) (as : List Arrival) : List Arrival :=
  as.filterMap fun a => (a.path.dropPrefix? p).map fun rest => { a with path := rest }

/-- The style rules that arrivals leave where they are. -/
def settled (level : Nat) (as : List Arrival) : List (String × StyleRule) :=
  as.filterMap fun a => if a.path = [] then (a.rule? level).map (a.key, ·) else none

/-- The outermost blocks that arrivals open, in the order of the first that does. -/
def opened (as : List Arrival) : List MediaQuery := (as.filterMap fun a => a.path.head?).eraseDups

/-- Each arrival has a key of its own, and no rule comes under the name of a media query. -/
def Apart (as : List Arrival) : Prop :=
  as.Pairwise (fun a b => a.key ≠ b.key) ∧
    ∀ a ∈ as, ∀ level, MediaQuery.ofName? a.key ≠ none → a.rule? level = none

end Arrival

open Arrival

def ofArrivals (level : Nat) (as : List Arrival) : Rules :=
  as.foldl (fun rules a => a.place level rules) nil

theorem ofArrivals_snoc (level : Nat) (as : List Arrival) (a : Arrival) :
    ofArrivals level (as ++ [a]) = a.place level (ofArrivals level as) := by
  simp [ofArrivals]

namespace Arrival

theorem dropPrefix?_append (l p p' : List MediaQuery) :
    l.dropPrefix? (p ++ p') = (l.dropPrefix? p).bind fun rest => rest.dropPrefix? p' := by
  induction p generalizing l with
  | nil => simp
  | cons q p ih =>
    cases l with
    | nil => rfl
    | cons q' l => by_cases h : q' = q <;> simp [List.dropPrefix?, h, ih]

theorem past_append (p p' : List MediaQuery) (as : List Arrival) :
    past (p ++ p') as = past p' (past p as) := by
  simp only [past, List.filterMap_filterMap]
  congr 1
  funext a
  rw [dropPrefix?_append]
  cases a.path.dropPrefix? p <;> rfl

@[simp] theorem past_nil (as : List Arrival) : past [] as = as := by simp [past]

theorem past_snoc (p : List MediaQuery) (as : List Arrival) (a : Arrival) :
    past p (as ++ [a]) = past p as ++ past p [a] := by
  simp [past]

theorem mem_past {p : List MediaQuery} {as : List Arrival} {b : Arrival} :
    b ∈ past p as ↔ ∃ a ∈ as, a.path = p ++ b.path ∧ a.key = b.key ∧ a.rule? = b.rule? := by
  simp only [past, List.mem_filterMap, Option.map_eq_some_iff, List.dropPrefix?_eq_some_iff,
    beq_iff_eq]
  constructor
  · rintro ⟨a, ha, rest, ⟨_, hp, rfl⟩, rfl⟩
    exact ⟨a, ha, hp, rfl, rfl⟩
  · rintro ⟨a, ha, hp, hk, hr⟩
    refine ⟨a, ha, b.path, ⟨p, hp, rfl⟩, ?_⟩
    rw [hk, hr]

theorem exists_past {p p' : List MediaQuery} {as : List Arrival} :
    (∃ b ∈ past p as, p' <+: b.path) ↔ ∃ a ∈ as, p ++ p' <+: a.path := by
  constructor
  · rintro ⟨b, hb, hp'⟩
    obtain ⟨a, ha, hp, -⟩ := mem_past.1 hb
    refine ⟨a, ha, ?_⟩
    rw [hp]
    exact (List.prefix_append_right_inj p).2 hp'
  · rintro ⟨a, ha, s, hs⟩
    refine ⟨{ a with path := p' ++ s }, mem_past.2 ⟨a, ha, ?_, rfl, rfl⟩, List.prefix_append p' s⟩
    rw [← hs, List.append_assoc]

theorem nodup_opened (as : List Arrival) : (opened as).Nodup := Distinct.nodup_eraseDups _

theorem mem_opened {q : MediaQuery} {as : List Arrival} :
    q ∈ opened as ↔ ∃ a ∈ as, [q] <+: a.path := by
  simp [opened, List.head?_eq_some_iff, List.prefix_iff_exists_append_eq, eq_comm]

theorem Apart.past {as : List Arrival} (h : Apart as) (p : List MediaQuery) : Apart (past p as) := by
  constructor
  · apply h.1.filterMap
    intro a a' hne b hb b' hb'
    obtain ⟨_, -, rfl⟩ := Option.map_eq_some_iff.1 hb
    obtain ⟨_, -, rfl⟩ := Option.map_eq_some_iff.1 hb'
    exact hne
  · intro b hb level
    obtain ⟨a, ha, -, hk, hr⟩ := mem_past.1 hb
    rw [← hk, ← hr]
    exact h.2 a ha level

theorem mem_settled {level : Nat} {as : List Arrival} {key : String} {rule : StyleRule} :
    (key, rule) ∈ settled level as ↔
      ∃ a ∈ as, a.path = [] ∧ a.key = key ∧ a.rule? level = some rule := by
  simp only [settled, List.mem_filterMap]
  apply exists_congr
  intro a
  by_cases h : a.path = [] <;> simp [h, and_comm]

theorem Apart.nodup_settled {as : List Arrival} (h : Apart as) (level : Nat) :
    ((settled level as).map (·.1)).Nodup := by
  apply List.pairwise_map.2
  apply h.1.filterMap
  have hkey : ∀ (a : Arrival) (s : String × StyleRule),
      (if a.path = [] then (a.rule? level).map (a.key, ·) else none) = some s → a.key = s.1 := by
    intro a s hs
    split at hs
    · obtain ⟨rule, -, rfl⟩ := Option.map_eq_some_iff.1 hs
      rfl
    · cases hs
  intro a a' hne s hs s' hs'
  rwa [← hkey a s hs, ← hkey a' s' hs']

theorem Apart.separate {as : List Arrival} (h : Apart as) {r : Rules} {level : Nat}
    (hr : r.styles = settled level as) : r.Separate := by
  rintro ⟨key, rule⟩ hs
  rw [hr, mem_settled] at hs
  obtain ⟨a, ha, -, rfl, hrule⟩ := hs
  by_contra hk
  rw [h.2 a ha level hk] at hrule
  cases hrule

theorem past_singleton_nil {a : Arrival} (q : MediaQuery) (h : a.path = []) : past [q] [a] = [] := by
  simp [past, h, List.dropPrefix?]

theorem past_singleton_cons {a : Arrival} {q : MediaQuery} {rest : List MediaQuery} (q' : MediaQuery)
    (h : a.path = q :: rest) :
    past [q'] [a] = if q' = q then [{ a with path := rest }] else [] := by
  by_cases hq : q' = q
  · simp [past, h, List.dropPrefix?, hq]
  · simp [past, h, List.dropPrefix?, hq, Ne.symm hq]

theorem past_eq_nil {q : MediaQuery} {as : List Arrival} (h : q ∉ opened as) : past [q] as = [] := by
  rw [List.eq_nil_iff_forall_not_mem]
  intro b hb
  obtain ⟨a, ha, hp, -⟩ := mem_past.1 hb
  exact h (mem_opened.2 ⟨a, ha, ⟨b.path, hp.symm⟩⟩)

theorem opened_snoc_nil {a : Arrival} (as : List Arrival) (h : a.path = []) :
    opened (as ++ [a]) = opened as := by
  simp [opened, h]

theorem opened_snoc_cons {a : Arrival} {q : MediaQuery} {rest : List MediaQuery} (as : List Arrival)
    (h : a.path = q :: rest) :
    opened (as ++ [a]) = if q ∈ opened as then opened as else opened as ++ [q] := by
  simp [opened, h, Distinct.eraseDups_snoc]

theorem settle_contents {a : Arrival} {as : List Arrival} {level : Nat} {r : Rules}
    (h : Apart (as ++ [a])) (hs : r.styles = settled level as) (ha : a.path = []) :
    (a.settle level r).styles = settled level (as ++ [a]) ∧ (a.settle level r).blocks = r.blocks := by
  unfold settle settled
  cases hr : a.rule? level with
  | none => simp [ha, hr, hs, settled]
  | some rule =>
    -- Neither an earlier arrival nor a block has the key, so the rule comes last.
    have hkey : a.key ∉ r.keys := by
      rw [mem_keys]
      rintro (⟨rule', hm⟩ | ⟨b, -, hq⟩)
      · rw [hs, mem_settled] at hm
        obtain ⟨a', ha', -, hk, -⟩ := hm
        exact (List.pairwise_append.1 h.1).2.2 a' ha' a (by simp) hk
      · have hn := h.2 a (by simp) level (by rw [← hq, MediaQuery.ofName?_name]; simp)
        rw [hr] at hn
        cases hn
    simp [styles_insert hkey, ha, hr, hs, settled]

end Arrival

/-- What arrivals build at one level: the style rules of those that stay, and a block for each media
query that comes first in a path, which holds what the arrivals behind that query build. -/
theorem contents_ofArrivals {as : List Arrival} (level : Nat) (h : Apart as) :
    (ofArrivals level as).styles = settled level as ∧
      (ofArrivals level as).blocks = (opened as).map fun q =>
        ⟨level, q, ofArrivals (level + 1) (past [q] as)⟩ := by
  induction as using List.reverseRecOn with
  | nil => exact ⟨rfl, rfl⟩
  | append_singleton as a ih =>
    have has : Apart as :=
      ⟨(List.pairwise_append.1 h.1).1, fun a' ha' => h.2 a' (List.mem_append_left _ ha')⟩
    obtain ⟨hs, hb⟩ := ih has
    rw [ofArrivals_snoc, place]
    cases hpath : a.path with
    | nil =>
      obtain ⟨hs', hb'⟩ := settle_contents h hs hpath
      refine ⟨hs', ?_⟩
      rw [atPath, hb', hb, opened_snoc_nil as hpath]
      simp only [past_snoc, past_singleton_nil _ hpath, List.append_nil]
    | cons q rest =>
      have hne := (has.separate hs).ne_name q
      constructor
      · rw [atPath, styles_within hne, hs]
        simp [settled, hpath]
      · have hempty : q ∉ opened as → ofArrivals (level + 1) (past [q] as) = nil := by
          intro hq
          rw [past_eq_nil hq]
          rfl
        rw [atPath, blocks_within hne, hb, enter_map (nodup_opened as) hempty,
          opened_snoc_cons as hpath]
        apply List.map_congr_left
        intro q' _
        rw [past_snoc, past_singleton_cons q' hpath]
        -- Only behind its first query does the new arrival change what is built.
        by_cases hq : q' = q
        · rw [if_pos hq, if_pos hq, ofArrivals_snoc, hq]
          rfl
        · rw [if_neg hq, if_neg hq, List.append_nil]

theorem separate_ofArrivals {as : List Arrival} (level : Nat) (h : Apart as) :
    (ofArrivals level as).Separate :=
  h.separate (contents_ofArrivals level h).1

theorem nodup_keys_ofArrivals {as : List Arrival} (level : Nat) (h : Apart as) :
    (ofArrivals level as).keys.Nodup := by
  obtain ⟨hs, hb⟩ := contents_ofArrivals level h
  apply nodup_keys
  · rw [hs]
    exact h.nodup_settled level
  · rw [hb, List.map_map]
    exact (List.map_id' (opened as)).symm ▸ nodup_opened as
  · exact separate_ofArrivals level h

theorem find?_query (qs : List MediaQuery) (q : MediaQuery) :
    qs.find? (fun q' => decide (q' = q)) = if q ∈ qs then some q else none := by
  induction qs with
  | nil => rfl
  | cons q' qs ih =>
    by_cases h : q' = q
    · simp [h]
    · simp [h, Ne.symm h, ih]

theorem block?_ofArrivals {as : List Arrival} (level : Nat) (q : MediaQuery) (h : Apart as) :
    (ofArrivals level as).block? q =
      if q ∈ opened as then some (level + 1, ofArrivals (level + 1) (past [q] as)) else none := by
  rw [block?_eq, (contents_ofArrivals level h).2, List.find?_map]
  change (((opened as).find? fun q' => decide (q' = q)).map _).map _ = _
  rw [find?_query]
  split <;> rfl

/-- A path leads to rules where it is empty or some arrival goes through it, and to what the arrivals
behind it build. -/
theorem atPath?_ofArrivals (p : List MediaQuery) {as : List Arrival} (level : Nat) (h : Apart as) :
    atPath? p level (ofArrivals level as) =
      if p = [] ∨ ∃ a ∈ as, p <+: a.path
      then some (level + p.length, ofArrivals (level + p.length) (past p as)) else none := by
  induction p generalizing level as with
  | nil => simp [atPath?]
  | cons q p ih =>
    rw [atPath?, block?_ofArrivals level q h]
    by_cases hq : q ∈ opened as
    · have hiff : (p = [] ∨ ∃ b ∈ past [q] as, p <+: b.path) ↔
          (q :: p = [] ∨ ∃ a ∈ as, q :: p <+: a.path) := by
        rw [exists_past]
        constructor
        · rintro (rfl | ⟨a, ha⟩)
          · exact .inr (mem_opened.1 hq)
          · exact .inr ⟨a, ha⟩
        · rintro (hp | ha)
          · cases hp
          · exact .inr ha
      -- Behind `q`, the arrivals that go through it are all that counts.
      rw [if_pos hq]
      change atPath? p (level + 1) (ofArrivals (level + 1) (past [q] as)) = _
      rw [ih (level + 1) (h.past [q]), ← past_append, if_congr hiff rfl rfl, List.length_cons,
        Nat.add_assoc, Nat.add_comm 1]
      rfl
    · rw [if_neg hq, Option.bind_none, if_neg]
      rintro (hp | ⟨a, ha, hp⟩)
      · cases hp
      · exact hq (mem_opened.2 ⟨a, ha, (List.prefix_append [q] p).trans hp⟩)

end UtilityCss.Rules
