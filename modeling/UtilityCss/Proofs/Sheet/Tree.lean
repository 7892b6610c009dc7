import UtilityCss.Sheet.Tree
import UtilityCss.Proofs.Modifier

namespace UtilityCss

/-- A rule seen from outside: of a tree further in it shows no more than the level. -/
def Rule.hollow : Rule → Rule
  | ⟨preamble, .declarations text, postamble⟩ => ⟨preamble, .declarations text, postamble⟩
  | ⟨preamble, .scope tree, postamble⟩ => ⟨preamble, .scope { level := tree.level }, postamble⟩

theorem Rule.exists_of_inside? {rule : Rule} {inside : RuleTree} (h : rule.inside? = some inside) :
    ∃ preamble postamble, rule = ⟨preamble, .scope inside, postamble⟩ := by
  obtain ⟨preamble, body, postamble⟩ := rule
  cases body with
  | declarations text => cases h
  | scope tree =>
    cases h
    exact ⟨preamble, postamble, rfl⟩

namespace RuleTree

/-- The rules of a tree in order, under their keys, each seen from outside. -/
def hollow (t : RuleTree) : List (String × Rule) := t.entries.map fun e => (e.1, e.2.hollow)

/-- A tree is settled once those further in are. -/
theorem induction {P : RuleTree → Prop}
    (step : ∀ t : RuleTree, (∀ e ∈ t.entries, ∀ inside, e.2.inside? = some inside → P inside) → P t) :
    ∀ t, P t
  | ⟨level, entries⟩ => step ⟨level, entries⟩ fun (key, rule) he inside hin =>
    have hlt : sizeOf inside < sizeOf entries := by
      have hmem := List.sizeOf_lt_of_mem he
      obtain ⟨preamble, postamble, rfl⟩ := Rule.exists_of_inside? hin
      simp only [Prod.mk.sizeOf_spec, Rule.mk.sizeOf_spec, Body.scope.sizeOf_spec] at hmem
      omega
    induction step inside
  termination_by t => sizeOf t
  decreasing_by
    rw [mk.sizeOf_spec]
    omega

theorem keys_eq (t : RuleTree) : t.keys = t.hollow.map (·.1) := by
  simp [keys, hollow, Function.comp_def]

theorem mem_keys {t : RuleTree} {key : String} : key ∈ t.keys ↔ (t.get? key).isSome := by
  simp [keys, get?, List.lookup_isSome_iff]

section entries
variable (entries : List (String × Rule)) (key : String) (rule : Rule)

variable {key} in
theorem lookup_cons_of_ne {k : String} (h : key ≠ k) :
    List.lookup key ((k, rule) :: entries) = entries.lookup key := by
  simp [List.lookup_cons, beq_eq_false_iff_ne.2 h]

theorem lookup_map (f : Rule → Rule) :
    (entries.map fun e => (e.1, f e.2)).lookup key = (entries.lookup key).map f := by
  induction entries with
  | nil => rfl
  | cons e entries ih =>
    obtain ⟨k, rule⟩ := e
    by_cases hk : key = k
    · simp [hk]
    · rw [List.map_cons, lookup_cons_of_ne _ _ hk, lookup_cons_of_ne _ _ hk, ih]

theorem lookup_putIn (k : String) :
    (putIn key rule entries).lookup k = if k = key then some rule else entries.lookup k := by
  induction entries with
  | nil =>
    by_cases hk : k = key
    · simp [putIn, hk]
    · rw [putIn, lookup_cons_of_ne _ _ hk, if_neg hk]
  | cons e entries ih =>
    obtain ⟨k', r⟩ := e
    by_cases hk' : k' = key
    · rw [putIn, if_pos hk', hk']
      by_cases hk : k = key
      · simp [hk]
      · rw [lookup_cons_of_ne _ _ hk, lookup_cons_of_ne _ _ hk, if_neg hk]
    · rw [putIn, if_neg hk']
      by_cases hk : k = k'
      · simp [hk, hk']
      · rw [lookup_cons_of_ne _ _ hk, lookup_cons_of_ne _ _ hk, ih]

theorem map_putIn (f : Rule → Rule) : (putIn key rule entries).map (fun e => (e.1, f e.2)) =
    putIn key (f rule) (entries.map fun e => (e.1, f e.2)) := by
  induction entries with
  | nil => rfl
  | cons e entries ih => by_cases hk : e.1 = key <;> simp [putIn, hk, ih]

theorem mem_putIn {e : String × Rule} (h : e ∈ putIn key rule entries) :
    e = (key, rule) ∨ e ∈ entries := by
  induction entries with
  | nil => exact .inl (List.mem_singleton.1 h)
  | cons e' entries ih =>
    unfold putIn at h
    split at h
    · exact (List.mem_cons.1 h).imp_right (List.mem_cons_of_mem _)
    · rcases List.mem_cons.1 h with rfl | h
      · exact .inr List.mem_cons_self
      · exact (ih h).imp_right (List.mem_cons_of_mem _)

variable {entries key}

theorem putIn_of_notMem (h : entries.lookup key = none) :
    putIn key rule entries = entries ++ [(key, rule)] := by
  induction entries with
  | nil => rfl
  | cons e entries ih =>
    obtain ⟨k, r⟩ := e
    by_cases hk : key = k
    · simp [hk] at h
    · rw [lookup_cons_of_ne _ _ hk] at h
      rw [putIn, if_neg (Ne.symm hk), ih h, List.cons_append]

/-- What takes a place moves nothing else. -/
theorem exists_putIn {old : Rule} (h : entries.lookup key = some old) :
    ∃ before after, entries = before ++ (key, old) :: after ∧
      putIn key rule entries = before ++ (key, rule) :: after := by
  induction entries with
  | nil => cases h
  | cons e entries ih =>
    obtain ⟨k, r⟩ := e
    by_cases hk : key = k
    · subst hk
      obtain rfl : r = old := by simpa using h
      exact ⟨[], entries, rfl, by simp [putIn]⟩
    · rw [lookup_cons_of_ne _ _ hk] at h
      obtain ⟨before, after, rfl, hput⟩ := ih h
      refine ⟨(k, r) :: before, after, rfl, ?_⟩
      rw [putIn, if_neg (Ne.symm hk), hput, List.cons_append]

theorem putIn_self (h : entries.lookup key = some rule) : putIn key rule entries = entries := by
  obtain ⟨before, after, he, hput⟩ := exists_putIn rule h
  rw [hput, ← he]

end entries

section put
variable {key : String} (rule : Rule) {t : RuleTree}

theorem get?_of_notMem (h : key ∉ t.keys) : t.get? key = none :=
  Option.not_isSome_iff_eq_none.1 (h ∘ mem_keys.2)

theorem put_of_notMem (h : key ∉ t.keys) :
    t.put key rule = ⟨t.level, t.entries ++ [(key, rule)]⟩ := by
  rw [put, putIn_of_notMem rule (get?_of_notMem h)]

theorem insert_of_mem (h : key ∈ t.keys) : t.insert key rule = (t, false) :=
  if_pos (mem_keys.1 h)

theorem insert_of_notMem (h : key ∉ t.keys) : t.insert key rule = (t.put key rule, true) :=
  if_neg (h ∘ mem_keys.2)

theorem hollow_put : (t.put key rule).hollow = putIn key rule.hollow t.hollow :=
  map_putIn t.entries key rule _

theorem hollow_put_of_notMem (h : key ∉ t.keys) : t.hollow <+: (t.put key rule).hollow := by
  rw [put_of_notMem rule h, hollow, hollow, List.map_append]
  exact List.prefix_append _ _

variable {rule} in
theorem mem_of_get? (h : t.get? key = some rule) : (key, rule) ∈ t.entries := by
  obtain ⟨before, after, he, -⟩ := exists_putIn rule h
  rw [he]
  exact List.mem_append_right _ List.mem_cons_self

theorem mem_keys_put {k : String} (h : k ∈ (t.put key rule).keys) : k = key ∨ k ∈ t.keys := by
  obtain ⟨e, he, rfl⟩ := List.mem_map.1 h
  rcases mem_putIn _ _ _ he with rfl | he
  · exact .inl rfl
  · exact .inr (List.mem_map_of_mem he)

theorem nodup_keys_put (h : t.keys.Nodup) (key : String) : (t.put key rule).keys.Nodup := by
  by_cases hkey : key ∈ t.keys
  · obtain ⟨old, hold⟩ := Option.isSome_iff_exists.1 (mem_keys.1 hkey)
    obtain ⟨before, after, he, hput⟩ := exists_putIn rule hold
    have hkeys : (t.put key rule).keys = t.keys := by
      rw [keys, keys, put, hput, he]
      simp only [List.map_append, List.map_cons]
    rwa [hkeys]
  · rw [put_of_notMem rule hkey, keys, List.map_append]
    exact List.Nodup.append h (List.nodup_singleton key) (List.disjoint_singleton.2 hkey)

end put

theorem at?_put (key : String) (rule : Rule) (t : RuleTree) (k : String) (path : List String) :
    at? (k :: path) (t.put key rule) =
      if k = key then rule.inside?.bind (at? path) else at? (k :: path) t := by
  simp only [at?, scope?, get?, put, lookup_putIn]
  split <;> rfl

theorem at?_empty (level : Nat) {path : List String} (h : path ≠ []) :
    at? path { level } = none := by
  cases path with
  | nil => exact absurd rfl h
  | cons key path => rfl

theorem at?_child (query : MediaQuery) (t : RuleTree) {path : List String} (h : path ≠ []) :
    at? path (t.child query) = at? (query.name :: path) t := by
  rw [child, at?]
  cases t.scope? query.name with
  | none => exact at?_empty _ h
  | some inside => rfl

/-- Where a child has a key, it is no empty one. -/
theorem at?_of_at?_child {query : MediaQuery} {t s : RuleTree} {path : List String} {key : String}
    (h : at? path (t.child query) = some s) (hkey : key ∈ s.keys) :
    at? (query.name :: path) t = some s := by
  cases path with
  | cons k path => rwa [← at?_child query t (List.cons_ne_nil k path)]
  | nil =>
    cases h
    rw [child] at hkey ⊢
    rw [at?]
    cases hscope : t.scope? query.name with
    | none =>
      rw [hscope] at hkey
      cases hkey
    | some inside => rfl

theorem inside?_around (layout : Layout) (query : MediaQuery) (t inside : RuleTree) :
    (t.around layout query inside).inside? = some inside := by
  unfold around
  split <;> rfl

section within
variable {α : Type} (layout : Layout)

section path
variable (query : MediaQuery) (f : RuleTree → RuleTree × α) (t : RuleTree)

theorem fst_within : (t.within layout query f).1 =
    t.put query.name (t.around layout query (f (t.child query)).1) := rfl

/-- Entering a query changes the tree in its block, and no other one below. -/
theorem at?_within (k : String) (path : List String) :
    at? (k :: path) (t.within layout query f).1 =
      if k = query.name then at? path (f (t.child query)).1 else at? (k :: path) t := by
  rw [fst_within, at?_put, inside?_around]
  rfl

end path

section around
variable {query : MediaQuery} {t : RuleTree}

theorem around_of_scope {tree : RuleTree} {preamble postamble : String}
    (h : t.get? query.name = some ⟨preamble, .scope tree, postamble⟩) (inside : RuleTree) :
    t.around layout query inside = ⟨preamble, .scope inside, postamble⟩ := by
  simp only [around, h]

theorem around_of_scope?_eq_none (h : t.scope? query.name = none) (inside : RuleTree) :
    t.around layout query inside = .block layout t.level query inside := by
  unfold around
  split
  · rename_i hget
    rw [scope?, hget] at h
    cases h
  · rfl

/-- A block with another tree in it looks the same from outside. -/
theorem hollow_put_around {tree inside : RuleTree} {preamble postamble : String}
    (h : t.get? query.name = some ⟨preamble, .scope tree, postamble⟩)
    (hlevel : inside.level = tree.level) :
    (t.put query.name (t.around layout query inside)).hollow = t.hollow := by
  rw [around_of_scope layout h, hollow_put]
  apply putIn_self
  rw [hollow, lookup_map, ← get?, h, Option.map_some, Rule.hollow, Rule.hollow, hlevel]

end around

variable (level : Nat) (query : MediaQuery) (f : RuleTree → RuleTree × α)
  (rest : List (String × Rule))

theorem within_cons_leaf (rule : StyleRule) :
    (within layout query f ⟨level, (query.name, .leaf layout rule) :: rest⟩).1 =
      ⟨level, (query.name, .block layout level query (f { level := level + 1 }).1) :: rest⟩ := by
  simp [fst_within, child, around, scope?, get?, put, putIn, Rule.leaf, Rule.inside?]

theorem within_cons_block (l : Nat) (inside : RuleTree) :
    (within layout query f ⟨level, (query.name, .block layout l query inside) :: rest⟩).1 =
      ⟨level, (query.name, .block layout l query (f inside).1) :: rest⟩ := by
  simp [fst_within, child, around, scope?, get?, put, putIn, Rule.block, Rule.inside?]

variable {query} in
theorem within_cons_of_ne {key : String} (rule : Rule) (h : key ≠ query.name) :
    (within layout query f ⟨level, (key, rule) :: rest⟩).1 =
      ⟨level, (key, rule) :: (within layout query f ⟨level, rest⟩).1.entries⟩ := by
  have hget : get? ⟨level, (key, rule) :: rest⟩ query.name = get? ⟨level, rest⟩ query.name :=
    lookup_cons_of_ne _ _ (Ne.symm h)
  simp only [fst_within, put, putIn, if_neg h, child, around, scope?, hget]

end within

section insert
variable (level : Nat) {key : String} (rule new : Rule) (rest : List (String × Rule))

theorem insert_cons_self :
    (insert key new ⟨level, (key, rule) :: rest⟩).1 = ⟨level, (key, rule) :: rest⟩ := by
  simp [insert, get?]

theorem insert_cons_of_ne {k : String} (h : k ≠ key) :
    (insert key new ⟨level, (k, rule) :: rest⟩).1 =
      ⟨level, (k, rule) :: (insert key new ⟨level, rest⟩).1.entries⟩ := by
  have hget : get? ⟨level, (k, rule) :: rest⟩ key = get? ⟨level, rest⟩ key :=
    lookup_cons_of_ne _ _ (Ne.symm h)
  rw [insert, insert, hget]
  split
  · rfl
  · rw [put, putIn, if_neg h, put]

end insert

end RuleTree

namespace Rules
variable (layout : Layout)

theorem text_tree (level : Nat) (r : Rules) : (r.tree layout level).text = r.text layout := by
  rw [tree, RuleTree.text]
  induction r with
  | nil => rfl
  | style key rule rest ih =>
    rw [entries, RuleTree.textOf, ih]
    rfl
  | media l q inner rest ihinner ih =>
    simp only [entries, RuleTree.textOf, Rule.block, Rule.text, RuleTree.text, text, ihinner, ih]

theorem entries_append (a b : Rules) :
    (a ++ b).entries layout = a.entries layout ++ b.entries layout := by
  change (a.append b).entries layout = _
  induction a with
  | nil => rfl
  | style key rule rest ih => simp [append, entries, ih]
  | media l q inner rest _ ih => simp [append, entries, ih]

variable (level : Nat)

theorem level_tree (r : Rules) : (r.tree layout level).level = level := rfl

theorem tree_style (key : String) (rule : StyleRule) (rest : Rules) :
    (style key rule rest).tree layout level =
      ⟨level, (key, .leaf layout rule) :: (rest.tree layout level).entries⟩ := rfl

theorem tree_media (l : Nat) (q : MediaQuery) (inner rest : Rules) :
    (media l q inner rest).tree layout level =
      ⟨level, (q.name, .block layout l q (inner.tree layout (l + 1))) ::
        (rest.tree layout level).entries⟩ := rfl

theorem tree_insert (key : String) (rule : StyleRule) (r : Rules) :
    (r.insert key rule).tree layout level =
      ((r.tree layout level).insert key (.leaf layout rule)).1 := by
  induction r with
  | nil => rfl
  | style k old rest ih =>
    rw [insert]
    split
    · rename_i hk
      rw [tree_style, hk, RuleTree.insert_cons_self]
    · rename_i hk
      rw [tree_style, tree_style, ih, RuleTree.insert_cons_of_ne _ _ _ _ hk]
      rfl
  | media l q inner rest _ ih =>
    rw [insert]
    split
    · rename_i hk
      rw [tree_media, hk, RuleTree.insert_cons_self]
    · rename_i hk
      rw [tree_media, tree_media, ih, RuleTree.insert_cons_of_ne _ _ _ _ hk]
      rfl

theorem tree_within {α : Type} (q : MediaQuery) (r : Rules) {f : RuleTree → RuleTree × α}
    {g : Nat → Rules → Rules}
    (h : ∀ level inner, (g level inner).tree layout level = (f (inner.tree layout level)).1) :
    (r.within level q g).tree layout level = ((r.tree layout level).within layout q f).1 := by
  induction r with
  | nil =>
    rw [within, tree_media, h]
    rfl
  | style key rule rest ih =>
    rw [within]
    split
    · rename_i hk
      rw [tree_media, tree_style, hk, RuleTree.within_cons_leaf, h]
      rfl
    · rename_i hk
      rw [tree_style, tree_style, ih, RuleTree.within_cons_of_ne _ _ _ _ _ hk]
      rfl
  | media l q' inner rest _ ih =>
    rw [within]
    split
    · rename_i hq
      rw [tree_media, tree_media, hq, RuleTree.within_cons_block, h]
    · rename_i hq
      have hname : q'.name ≠ q.name := mt (MediaQuery.name_injective ·) hq
      rw [tree_media, tree_media, ih, RuleTree.within_cons_of_ne _ _ _ _ _ hname]
      rfl

end Rules
end UtilityCss
