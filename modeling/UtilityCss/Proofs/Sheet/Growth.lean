import UtilityCss.Proofs.Compiler
import UtilityCss.Proofs.Sheet.Tree

namespace UtilityCss.RuleTree
open Rules (Arrival)

/-- An arrival at the end of its path, which says whether it has left its rule if it has one. -/
def settle (layout : Layout) (a : Arrival) (t : RuleTree) : RuleTree × Option Bool :=
  match a.rule? t.level with
  | none => (t, none)
  | some rule =>
    let (t, inserted) := t.insert a.key (.leaf layout rule)
    (t, some inserted)

def place (layout : Layout) (a : Arrival) (t : RuleTree) : RuleTree × Option Bool :=
  t.atPath layout (settle layout a) a.path

/-- The tree with the blocks of a path and nothing new inside. -/
def opened (layout : Layout) (path : List MediaQuery) (t : RuleTree) : RuleTree :=
  (t.atPath layout (fun inside => (inside, ())) path).1

def names (path : List MediaQuery) : List String := path.map MediaQuery.name

/-- The tree of some arrivals, each with the layout that it is written in. -/
def ofArrivals (as : List (Layout × Arrival)) : RuleTree :=
  as.foldl (fun t a => (t.place a.1 a.2).1) {}

theorem ofArrivals_snoc (as : List (Layout × Arrival)) (a : Layout × Arrival) :
    ofArrivals (as ++ [a]) = (place a.1 a.2 (ofArrivals as)).1 := by
  simp [ofArrivals]

section settle
variable {layout : Layout} {a : Arrival} {t : RuleTree} {rule : StyleRule}

theorem settle_idle (h : a.rule? t.level = none) : settle layout a t = (t, none) := by
  rw [settle, h]

theorem settle_taken (hrule : a.rule? t.level = some rule) (h : a.key ∈ t.keys) :
    settle layout a t = (t, some false) := by
  simp only [settle, hrule, insert_of_mem _ h]

theorem settle_free (hrule : a.rule? t.level = some rule) (h : a.key ∉ t.keys) :
    settle layout a t = (t.put a.key (.leaf layout rule), some true) := by
  simp only [settle, hrule, insert_of_notMem _ h]

variable (layout a t)

theorem settle_cases : (settle layout a t).1 = t ∨ ∃ rule, a.key ∉ t.keys ∧
    (settle layout a t).1 = t.put a.key (.leaf layout rule) := by
  cases hrule : a.rule? t.level with
  | none => exact .inl (by rw [settle_idle hrule])
  | some rule =>
    by_cases h : a.key ∈ t.keys
    · exact .inl (by rw [settle_taken hrule h])
    · exact .inr ⟨rule, h, by rw [settle_free hrule h]⟩

theorem level_settle : (settle layout a t).1.level = t.level := by
  rcases settle_cases layout a t with h | ⟨rule, -, h⟩
  · rw [h]
  · rw [h, put]

theorem hollow_settle : t.hollow <+: (settle layout a t).1.hollow := by
  rcases settle_cases layout a t with h | ⟨rule, hfree, h⟩
  · exact h.symm ▸ List.prefix_rfl
  · rw [h]
    exact hollow_put_of_notMem _ hfree

/-- A style rule leaves everything further in as it is. -/
theorem at?_settle (key : String) (path : List String) :
    at? (key :: path) (settle layout a t).1 = at? (key :: path) t := by
  rcases settle_cases layout a t with h | ⟨rule, hfree, h⟩
  · rw [h]
  · rw [h, at?_put]
    split
    · rename_i hk
      rw [hk, at?, scope?, get?_of_notMem hfree]
      rfl
    · rfl

end settle

section place
variable (layout : Layout) (a : Arrival)

theorem names_cons (q : MediaQuery) (path : List MediaQuery) :
    names (q :: path) = q.name :: names path := rfl

/-- What does not lie on the path stays as it is, with all that is inside. -/
theorem at?_atPath_aside {path : List MediaQuery} {p : List String} (t : RuleTree)
    (h : ¬p <+: names path) :
    at? p (t.atPath layout (settle layout a) path).1 = at? p t := by
  induction path generalizing t p with
  | nil =>
    cases p with
    | nil => exact absurd List.nil_prefix h
    | cons key p => exact at?_settle layout a t key p
  | cons q path ih =>
    cases p with
    | nil => exact absurd List.nil_prefix h
    | cons key p =>
      rw [atPath, at?_within]
      split
      · rename_i hk
        have hp : ¬p <+: names path := by
          rw [hk, names_cons, List.cons_prefix_cons] at h
          exact fun hp => h ⟨rfl, hp⟩
        have hne : p ≠ [] := by
          rintro rfl
          exact hp List.nil_prefix
        rw [ih _ hp, at?_child q t hne, hk]
      · rfl

/-- A tree `s` on the path of an arrival and what becomes of it, where a style rule has the name of the
query that is entered there. The block that takes its place is empty when the arrival goes on. -/
inductive Replaced (path : List MediaQuery) : List String → RuleTree → RuleTree → Prop
  | intro (pre : List MediaQuery) {q rest level before old after} :
    path = pre ++ q :: rest → Rule.inside? old = none →
    Replaced path (names pre) ⟨level, before ++ (q.name, old) :: after⟩
      ⟨level, before ++ (q.name, .block layout level q
        (({ level := level + 1 } : RuleTree).atPath layout (settle layout a) rest).1) :: after⟩

theorem Replaced.cons {path : List MediaQuery} {p : List String} {s s' : RuleTree}
    (h : Replaced layout a path p s s') (q : MediaQuery) :
    Replaced layout a (q :: path) (q.name :: p) s s' := by
  obtain ⟨pre, rfl, hold⟩ := h
  exact .intro (q :: _) rfl hold

theorem level_atPath (path : List MediaQuery) (t : RuleTree) :
    (t.atPath layout (settle layout a) path).1.level = t.level := by
  cases path with
  | nil => exact level_settle layout a t
  | cons q path => rfl

/-- In the tree where a query is entered, the rules stay and a new one comes last, or a style rule gives
way. -/
theorem hollow_atPath_cons (q : MediaQuery) (path : List MediaQuery) (t : RuleTree) :
    t.hollow <+: (t.atPath layout (settle layout a) (q :: path)).1.hollow ∨
      Replaced layout a (q :: path) [] t (t.atPath layout (settle layout a) (q :: path)).1 := by
  rw [atPath, fst_within]
  -- The name is free, or a style rule has it, or the block is there already.
  cases hget : t.get? q.name with
  | none =>
    have hfree : q.name ∉ t.keys := by
      rw [mem_keys, hget]
      exact Bool.false_ne_true
    exact .inl (hollow_put_of_notMem _ hfree)
  | some rule =>
    cases hin : rule.inside? with
    | none =>
      have hscope : t.scope? q.name = none := by rw [scope?, hget, Option.bind_some, hin]
      obtain ⟨level, entries⟩ := t
      obtain ⟨before, after, rfl, hput⟩ := exists_putIn (.block layout level q
        (({ level := level + 1 } : RuleTree).atPath layout (settle layout a) path).1) hget
      refine .inr ?_
      rw [around_of_scope?_eq_none layout hscope, child, hscope, put, Option.getD_none, hput]
      exact .intro [] rfl hin
    | some inside =>
      obtain ⟨preamble, postamble, rfl⟩ := Rule.exists_of_inside? hin
      have hchild : t.child q = inside := by rw [child, scope?, hget]; rfl
      rw [hchild, hollow_put_around layout hget (level_atPath layout a path inside)]
      exact .inl List.prefix_rfl

/-- A tree on the path keeps its place and its level, and each of its rules stays in its place unless
it is one that gives way. -/
theorem kept_atPath (path : List MediaQuery) {p : List String} {t s : RuleTree}
    (h : at? p t = some s) :
    ∃ s', at? p (t.atPath layout (settle layout a) path).1 = some s' ∧ s'.level = s.level ∧
      (s.hollow <+: s'.hollow ∨ Replaced layout a path p s s') := by
  induction path generalizing t p with
  | nil =>
    cases p with
    | nil =>
      cases h
      exact ⟨_, rfl, level_settle layout a s, .inl (hollow_settle layout a s)⟩
    | cons key p => exact ⟨s, (at?_settle layout a t key p).trans h, rfl, .inl List.prefix_rfl⟩
  | cons q path ih =>
    cases p with
    | nil =>
      cases h
      exact ⟨_, rfl, rfl, hollow_atPath_cons layout a q path s⟩
    | cons key p =>
      -- Under other keys than the one entered nothing changes.
      rw [atPath, at?_within]
      split
      · rename_i hk
        subst hk
        obtain ⟨inside, hscope, hs⟩ := Option.bind_eq_some_iff.1 h
        have hchild : t.child q = inside := by rw [child, hscope, Option.getD_some]
        rw [← hchild] at hs
        obtain ⟨s', hs', hlevel, hkept⟩ := ih hs
        exact ⟨s', hs', hlevel, hkept.imp_right fun hr => hr.cons layout a q⟩
      · exact ⟨s, h, rfl, .inl List.prefix_rfl⟩

/-- Keys that were not there are those on the path, and in its last tree that of the arrival. -/
theorem mem_keys_atPath (path : List MediaQuery) {p : List String} {t s' : RuleTree} {key : String}
    (h : at? p (t.atPath layout (settle layout a) path).1 = some s') (hkey : key ∈ s'.keys) :
    p ++ [key] <+: names path ∨ (p = names path ∧ key = a.key) ∨
      ∃ s, at? p t = some s ∧ key ∈ s.keys := by
  -- Along the path of the arrival, with any place to look at: a new key stands on that path or at its end.
  induction path generalizing t p with
  | nil =>
    cases p with
    | nil =>
      cases h
      rcases settle_cases layout a t with hs | ⟨rule, -, hs⟩
      · exact .inr (.inr ⟨t, rfl, by rwa [atPath, hs] at hkey⟩)
      · rw [atPath, hs] at hkey
        rcases mem_keys_put _ hkey with rfl | hkey
        · exact .inr (.inl ⟨rfl, rfl⟩)
        · exact .inr (.inr ⟨t, rfl, hkey⟩)
    | cons k p => exact .inr (.inr ⟨s', (at?_settle layout a t k p).symm.trans h, hkey⟩)
  | cons q path ih =>
    cases p with
    | nil =>
      cases h
      rw [atPath, fst_within] at hkey
      rcases mem_keys_put _ hkey with rfl | hkey
      · exact .inl (List.cons_prefix_cons.2 ⟨rfl, List.nil_prefix⟩)
      · exact .inr (.inr ⟨t, rfl, hkey⟩)
    | cons k p =>
      rw [atPath, at?_within] at h
      split at h
      · rename_i hk
        subst hk
        rcases ih h with hp | ⟨rfl, rfl⟩ | ⟨s, hs, hkey⟩
        · exact .inl (List.cons_prefix_cons.2 ⟨rfl, hp⟩)
        · exact .inr (.inl ⟨rfl, rfl⟩)
        · exact .inr (.inr ⟨s, at?_of_at?_child hs hkey, hkey⟩)
      · exact .inr (.inr ⟨s', h, hkey⟩)

end place

/-- What an action does at the end of a path is all that it changes, once the blocks are there. -/
theorem exists_opened (α : Type) (layout : Layout) (path : List MediaQuery) (t : RuleTree) :
    ∃ s, at? (names path) (t.opened layout path) = some s ∧ ∀ f : RuleTree → RuleTree × α,
      at? (names path) (t.atPath layout f path).1 = some (f s).1 ∧
      (t.atPath layout f path).2 = (f s).2 ∧
      ((f s).1 = s → (t.atPath layout f path).1 = t.opened layout path) := by
  induction path generalizing t with
  | nil => exact ⟨t, rfl, fun f => ⟨rfl, rfl, id⟩⟩
  | cons q path ih =>
    obtain ⟨s, hs, hf⟩ := ih (t.child q)
    refine ⟨s, ?_, fun f => ⟨?_, (hf f).2.1, fun h => ?_⟩⟩
    · rw [opened, atPath, names_cons, at?_within, if_pos rfl]
      exact hs
    · rw [atPath, names_cons, at?_within, if_pos rfl]
      exact (hf f).1
    · rw [opened, atPath, atPath, fst_within, fst_within, (hf f).2.2 h]
      rfl

/-- A rule under its key is the block of a query around `inside`, in one of some layouts. -/
def IsBlock (layouts : List Layout) (level : Nat) (e : String × Rule) (inside : RuleTree) : Prop :=
  inside.level = level + 1 ∧
    ∃ layout ∈ layouts, ∃ q : MediaQuery, e = (q.name, .block layout level q inside)

/-- Each key names one rule, at every depth, and only blocks of queries have trees inside. -/
inductive Sound (layouts : List Layout) : RuleTree → Prop
  | intro {t : RuleTree} (nodup_keys : t.keys.Nodup)
    (blocks : ∀ e ∈ t.entries, ∀ inside, e.2.inside? = some inside →
      IsBlock layouts t.level e inside)
    (further : ∀ e ∈ t.entries, ∀ inside, e.2.inside? = some inside → Sound layouts inside) :
    Sound layouts t

namespace Sound
variable {layouts : List Layout} {t : RuleTree}

theorem empty (level : Nat) : Sound layouts { level } :=
  .intro List.nodup_nil (fun _ he => (List.not_mem_nil he).elim)
    fun _ he => (List.not_mem_nil he).elim

theorem put (h : Sound layouts t) (key : String) (rule : Rule)
    (hr : ∀ inside, rule.inside? = some inside →
      IsBlock layouts t.level (key, rule) inside ∧ Sound layouts inside) :
    Sound layouts (t.put key rule) := by
  obtain ⟨hnodup, hblocks, hfurther⟩ := h
  refine .intro (nodup_keys_put rule hnodup key) (fun e he => ?_) fun e he => ?_
  · rcases mem_putIn _ _ _ he with rfl | he
    · exact fun inside hin => (hr inside hin).1
    · exact hblocks e he
  · rcases mem_putIn _ _ _ he with rfl | he
    · exact fun inside hin => (hr inside hin).2
    · exact hfurther e he

theorem settle (h : Sound layouts t) (layout : Layout) (a : Arrival) :
    Sound layouts (settle layout a t).1 := by
  rcases settle_cases layout a t with hs | ⟨rule, -, hs⟩
  · rwa [hs]
  · rw [hs]
    exact h.put _ _ fun inside hin => by cases hin

theorem child (h : Sound layouts t) (q : MediaQuery) :
    Sound layouts (t.child q) ∧ (t.child q).level = t.level + 1 := by
  rw [RuleTree.child]
  cases hscope : t.scope? q.name with
  | none => exact ⟨empty _, rfl⟩
  | some inside =>
    obtain ⟨rule, hget, hin⟩ := Option.bind_eq_some_iff.1 hscope
    obtain ⟨-, hblocks, hfurther⟩ := h
    exact ⟨hfurther _ (mem_of_get? hget) inside hin, (hblocks _ (mem_of_get? hget) inside hin).1⟩

/-- A query has its block, and a block that is there keeps its text. -/
theorem isBlock_around (h : Sound layouts t) {layout : Layout} (hl : layout ∈ layouts)
    (q : MediaQuery) {inside : RuleTree} (hlevel : inside.level = t.level + 1) :
    IsBlock layouts t.level (q.name, t.around layout q inside) inside := by
  refine ⟨hlevel, ?_⟩
  cases hscope : t.scope? q.name with
  | none => exact ⟨layout, hl, q, by rw [around_of_scope?_eq_none layout hscope]⟩
  | some old =>
    obtain ⟨rule, hget, hin⟩ := Option.bind_eq_some_iff.1 hscope
    obtain ⟨preamble, postamble, rfl⟩ := Rule.exists_of_inside? hin
    obtain ⟨-, hblocks, -⟩ := h
    obtain ⟨-, layout', hl', q', he⟩ := hblocks _ (mem_of_get? hget) old hin
    rw [around_of_scope layout hget]
    injection he with hname hrule
    injection hrule with hpre _ hpost
    exact ⟨layout', hl', q', by rw [hname, hpre, hpost, Rule.block]⟩

theorem atPath (h : Sound layouts t) {layout : Layout} (hl : layout ∈ layouts) (a : Arrival)
    (path : List MediaQuery) :
    Sound layouts (t.atPath layout (RuleTree.settle layout a) path).1 := by
  induction path generalizing t with
  | nil => exact h.settle layout a
  | cons q path ih =>
    obtain ⟨hchild, hlevel⟩ := h.child q
    rw [RuleTree.atPath, fst_within]
    refine h.put _ _ fun inside hin => ?_
    rw [inside?_around] at hin
    cases hin
    exact ⟨h.isBlock_around hl q ((level_atPath layout a path _).trans hlevel), ih hchild⟩

end Sound

/-- What holds after some arrivals, and goes on to hold after more. -/
structure Grown (as : List (Layout × Arrival)) : Prop where
  level : (ofArrivals as).level = 0
  sound : Sound (as.map (·.1)) (ofArrivals as)
  keys_kept (more : List (Layout × Arrival)) {p : List String} {s : RuleTree} :
    at? p (ofArrivals as) = some s →
      ∃ s', at? p (ofArrivals (as ++ more)) = some s' ∧ s'.level = s.level ∧ s.keys <+: s'.keys

theorem level_ofArrivals (as : List (Layout × Arrival)) : (ofArrivals as).level = 0 := by
  induction as using List.reverseRecOn with
  | nil => rfl
  | append_singleton as a ih => rw [ofArrivals_snoc, place, level_atPath, ih]

theorem sound_ofArrivals {layouts : List Layout} {as : List (Layout × Arrival)}
    (h : ∀ a ∈ as, a.1 ∈ layouts) : Sound layouts (ofArrivals as) := by
  induction as using List.reverseRecOn with
  | nil => exact Sound.empty 0
  | append_singleton as a ih =>
    rw [ofArrivals_snoc]
    exact (ih fun b hb => h b (List.mem_append_left _ hb)).atPath (h a List.mem_concat_self) a.2 _

theorem Replaced.keys_eq {layout : Layout} {a : Arrival} {path : List MediaQuery} {p : List String}
    {s s' : RuleTree} (h : Replaced layout a path p s s') : s'.keys = s.keys := by
  obtain ⟨-, -, -⟩ := h
  simp only [keys, List.map_append, List.map_cons]

/-- Keys stay in their places, and new ones come last. -/
theorem keys_kept_ofArrivals {as : List (Layout × Arrival)} (more : List (Layout × Arrival))
    {p : List String} {s : RuleTree} (h : at? p (ofArrivals as) = some s) :
    ∃ s', at? p (ofArrivals (as ++ more)) = some s' ∧ s'.level = s.level ∧ s.keys <+: s'.keys := by
  induction more using List.reverseRecOn with
  | nil => exact ⟨s, by rwa [List.append_nil], rfl, List.prefix_rfl⟩
  | append_singleton more a ih =>
    obtain ⟨s₁, hs₁, hlevel₁, hkeys₁⟩ := ih
    obtain ⟨s₂, hs₂, hlevel₂, hkept⟩ := kept_atPath a.1 a.2 a.2.path hs₁
    have hkeys₂ : s₁.keys <+: s₂.keys := by
      rcases hkept with hkept | hkept
      · rw [keys_eq, keys_eq]
        exact hkept.map _
      · exact hkept.keys_eq.symm ▸ List.prefix_rfl
    rw [← List.append_assoc, ofArrivals_snoc]
    exact ⟨s₂, hs₂, hlevel₂.trans hlevel₁, hkeys₁.trans hkeys₂⟩

section tree
variable (layout : Layout)

theorem tree_settle (a : Arrival) (level : Nat) (r : Rules) :
    (a.settle level r).tree layout level = (settle layout a (r.tree layout level)).1 := by
  rw [Arrival.settle, settle, Rules.level_tree]
  cases a.rule? level with
  | none => rfl
  | some rule => exact Rules.tree_insert layout level a.key rule r

theorem tree_place (a : Arrival) (level : Nat) (r : Rules) :
    (a.place level r).tree layout level = (place layout a (r.tree layout level)).1 := by
  rw [Arrival.place, place]
  induction a.path generalizing level r with
  | nil => exact tree_settle layout a level r
  | cons q path ih => exact Rules.tree_within layout level q r ih

theorem tree_ofArrivals (as : List Arrival) :
    (Rules.ofArrivals 0 as).tree layout 0 = ofArrivals (as.map (layout, ·)) := by
  induction as using List.reverseRecOn with
  | nil => rfl
  | append_singleton as a ih =>
    rw [Rules.ofArrivals_snoc, tree_place, ih, List.map_append, List.map_singleton, ofArrivals_snoc]

end tree

/-- What an arrival does to a tree. Before its rule comes in, the tree is `opened` and `s` is where the
path ends in it. -/
structure Placed (layout : Layout) (a : Arrival) (t : RuleTree) : Prop where
  elsewhere {p : List String} : ¬p <+: names a.path → at? p (place layout a t).1 = at? p t
  kept {p : List String} {s : RuleTree} : at? p t = some s →
    ∃ s', at? p (place layout a t).1 = some s' ∧ s'.level = s.level ∧
      (s.hollow <+: s'.hollow ∨ Replaced layout a a.path p s s')
  /-- No other key is new. -/
  mem_keys {p : List String} {s' : RuleTree} {key : String} :
    at? p (place layout a t).1 = some s' → key ∈ s'.keys →
      p ++ [key] <+: names a.path ∨ (p = names a.path ∧ key = a.key) ∨
        ∃ s, at? p t = some s ∧ key ∈ s.keys
  entered : (at? (names a.path) (t.opened layout a.path)).isSome
  idle {s : RuleTree} : at? (names a.path) (t.opened layout a.path) = some s →
    a.rule? s.level = none → place layout a t = (t.opened layout a.path, none)
  taken {s : RuleTree} {rule : StyleRule} :
    at? (names a.path) (t.opened layout a.path) = some s → a.rule? s.level = some rule →
    a.key ∈ s.keys → place layout a t = (t.opened layout a.path, some false)
  free {s : RuleTree} {rule : StyleRule} :
    at? (names a.path) (t.opened layout a.path) = some s → a.rule? s.level = some rule →
    a.key ∉ s.keys → (place layout a t).2 = some true ∧
      at? (names a.path) (place layout a t).1 =
        some ⟨s.level, s.entries ++ [(a.key, .leaf layout rule)]⟩

theorem placed (layout : Layout) (a : Arrival) (t : RuleTree) : Placed layout a t := by
  obtain ⟨s, hs, hend⟩ := exists_opened (Option Bool) layout a.path t
  obtain ⟨hat, hsaid, hsame⟩ := hend (settle layout a)
  refine ⟨at?_atPath_aside layout a t, kept_atPath layout a a.path, mem_keys_atPath layout a a.path,
    by rw [hs]; rfl, fun hs' hrule => ?_, fun hs' hrule hkey => ?_, fun hs' hrule hkey => ?_⟩
  all_goals
    obtain rfl := Option.some.inj (hs.symm.trans hs')
  · rw [settle_idle hrule] at hsaid hsame
    exact Prod.ext (hsame rfl) hsaid
  · rw [settle_taken hrule hkey] at hsaid hsame
    exact Prod.ext (hsame rfl) hsaid
  · rw [settle_free hrule hkey, put_of_notMem _ hkey] at hsaid hat
    exact ⟨hsaid, hat⟩

/-- What one arrival does to any tree, and what holds of all trees that arrivals make of an empty one. The
sheets of a compiler grow like that, by the classes that they are given. -/
theorem placed_and_grown : (∀ layout a t, Placed layout a t) ∧ (∀ as, Grown as) ∧
    ∀ layout calls p, ((({ layout } : Compiler).run calls).sheet p).rules.tree layout 0 =
      ofArrivals ((Compiler.classesFor p calls).eraseDups.map fun name =>
        (layout, Sheet.arrival name)) := by
  refine ⟨placed, fun as => ⟨level_ofArrivals as, ?_, keys_kept_ofArrivals⟩, fun layout calls p => ?_⟩
  · exact sound_ofArrivals fun a ha => List.mem_map_of_mem ha
  · rw [Compiler.sheet_run, Sheet.ofClasses, tree_ofArrivals, List.map_map]
    rfl

/-- A style rule under the name of a query gives way to the block where it stands. -/
example (layout : Layout) (plain rule : StyleRule) :
    let t : RuleTree := ⟨0, [("sm", .leaf layout plain), ("a", .leaf layout plain)]⟩
    (place layout ⟨[.breakpoint .sm], "sm:b", fun _ => rule⟩ t).1.hollow =
      [("sm", .block layout 0 (.breakpoint .sm) { level := 1 }), ("a", .leaf layout plain)] := rfl

end UtilityCss.RuleTree
