import UtilityCss.Sheet.Rules

namespace UtilityCss

mutual

/-- What stands between the opening and the closing of a rule. -/
inductive Body where
  | declarations (text : String)
  | scope (tree : RuleTree)

structure Rule where
  preamble : String
  body : Body
  postamble : String

/-- Rules under keys. `level` is the depth that they are indented for. -/
structure RuleTree where
  level : Nat := 0
  entries : List (String × Rule) := []

end

namespace Rule

def leaf (layout : Layout) (rule : StyleRule) : Rule :=
  ⟨layout.opening rule.level rule.selector, .declarations (rule.body layout),
    layout.closing rule.level⟩

/-- The block of a media query among rules of the given level. -/
def block (layout : Layout) (level : Nat) (query : MediaQuery) (inside : RuleTree) : Rule :=
  ⟨layout.opening level query.atRule, .scope inside, layout.closing level⟩

/-- The tree further in. -/
def inside? : Rule → Option RuleTree
  | ⟨_, .declarations _, _⟩ => none
  | ⟨_, .scope tree, _⟩ => some tree

end Rule

namespace RuleTree

def keys (t : RuleTree) : List String := t.entries.map (·.1)

def get? (t : RuleTree) (key : String) : Option Rule := t.entries.lookup key

/-- The tree in the rule under a key. -/
def scope? (t : RuleTree) (key : String) : Option RuleTree := (t.get? key).bind Rule.inside?

/-- The tree at the end of a path of keys. -/
def at? : List String → RuleTree → Option RuleTree
  | [], t => some t
  | key :: path, t => (t.scope? key).bind (at? path)

/-- A rule takes the place of the one under its key, or else goes last. -/
def putIn (key : String) (rule : Rule) : List (String × Rule) → List (String × Rule)
  | [] => [(key, rule)]
  | (k, r) :: rest => if k = key then (key, rule) :: rest else (k, r) :: putIn key rule rest

def put (key : String) (rule : Rule) (t : RuleTree) : RuleTree :=
  { t with entries := putIn key rule t.entries }

/-- A rule goes last, unless its key is taken. Says whether it did. -/
def insert (key : String) (rule : Rule) (t : RuleTree) : RuleTree × Bool :=
  if (t.get? key).isSome then (t, false) else (t.put key rule, true)

/-- The tree in the block of `query`, or else an empty one. -/
def child (query : MediaQuery) (t : RuleTree) : RuleTree :=
  (t.scope? query.name).getD { level := t.level + 1 }

/-- The rule of `query` around a tree: with the text that it has there, or as a new block. -/
def around (layout : Layout) (query : MediaQuery) (t inside : RuleTree) : Rule :=
  match t.get? query.name with
  | some ⟨preamble, .scope _, postamble⟩ => ⟨preamble, .scope inside, postamble⟩
  | _ => .block layout t.level query inside

section within
variable {α : Type} (layout : Layout)

/-- Changes the tree in the block of `query` by `f`, which may have something to say. A block that is
not there is opened last; declarations in its place give way to an empty block. -/
def within (query : MediaQuery) (f : RuleTree → RuleTree × α) (t : RuleTree) : RuleTree × α :=
  let (inside, said) := f (t.child query)
  (t.put query.name (t.around layout query inside), said)

/-- Changes the tree at the end of a path of media queries, outermost first. -/
def atPath (f : RuleTree → RuleTree × α) : List MediaQuery → RuleTree → RuleTree × α
  | [], t => f t
  | query :: path, t => t.within layout query (atPath f path)

end within

/-- Rules of plain keys first, and then those under the names of media queries. -/
def arrange (entries : List (String × Rule)) : List (String × Rule) :=
  entries.filter (fun e => !Rules.isMediaName e.1) ++ entries.filter fun e => Rules.isMediaName e.1

end RuleTree

mutual

/-- Media queries last, at every depth. -/
def RuleTree.hoist : RuleTree → RuleTree
  | ⟨level, entries⟩ => ⟨level, RuleTree.arrange (RuleTree.hoistInside entries)⟩

def RuleTree.hoistInside : List (String × Rule) → List (String × Rule)
  | [] => []
  | (key, rule) :: rest => (key, rule.hoist) :: RuleTree.hoistInside rest

def Rule.hoist : Rule → Rule
  | ⟨preamble, .declarations text, postamble⟩ => ⟨preamble, .declarations text, postamble⟩
  | ⟨preamble, .scope tree, postamble⟩ => ⟨preamble, .scope tree.hoist, postamble⟩

end

mutual

def RuleTree.text : RuleTree → String
  | ⟨_, entries⟩ => RuleTree.textOf entries

/-- The rules one after the other. -/
def RuleTree.textOf : List (String × Rule) → String
  | [] => ""
  | (_, rule) :: rest => rule.text ++ RuleTree.textOf rest

/-- A block without any text inside is left out. -/
def Rule.text : Rule → String
  | ⟨preamble, .declarations text, postamble⟩ => preamble ++ text ++ postamble
  | ⟨preamble, .scope tree, postamble⟩ =>
    let body := tree.text
    if body = "" then "" else preamble ++ body ++ postamble

end

namespace Rules

def entries (layout : Layout) : Rules → List (String × Rule)
  | nil => []
  | style key rule rest => (key, .leaf layout rule) :: rest.entries layout
  | media level query inner rest =>
    (query.name, .block layout level query ⟨level + 1, inner.entries layout⟩) :: rest.entries layout

/-- Rules with their text, in a tree. -/
def tree (layout : Layout) (level : Nat) (rules : Rules) : RuleTree := ⟨level, rules.entries layout⟩

end Rules
end UtilityCss
