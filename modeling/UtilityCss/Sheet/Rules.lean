import UtilityCss.Declaration
import UtilityCss.Modifier

namespace UtilityCss

/-- The white space of a sheet. Minified ones have neither indentation nor line breaks. -/
structure Layout where
  minified : Bool
  deriving DecidableEq, Repr

namespace Layout

def indent (l : Layout) (level : Nat) : String :=
  if l.minified then "" else String.ofList (List.replicate (2 * level) ' ')

def newline (l : Layout) : String := if l.minified then "" else "\n"

/-- The line that opens a block. -/
def opening (l : Layout) (level : Nat) (prelude : String) : String :=
  l.indent level ++ prelude ++ " \x7b" ++ l.newline

/-- The line that closes a block. -/
def closing (l : Layout) (level : Nat) : String := l.indent level ++ "\x7d" ++ l.newline

end Layout

/-- A selector with its declarations. `level` is the depth that it is indented for. -/
structure StyleRule where
  selector : String
  declarations : List Declaration
  level : Nat
  deriving DecidableEq, Repr

/-- A list of rules in order of arrival, style rules under keys of their own and media blocks under the
names of their queries. The rules inside a block stand one level deeper than its at-rule. -/
inductive Rules where
  | nil
  | style (key : String) (rule : StyleRule) (rest : Rules)
  | media (level : Nat) (query : MediaQuery) (inner rest : Rules)
  deriving DecidableEq, Repr

namespace Rules

def keys : Rules → List String
  | nil => []
  | style key _ rest => key :: rest.keys
  | media _ query _ rest => query.name :: rest.keys

/-- The rule under a key, by itself. -/
def find? (key : String) : Rules → Option Rules
  | nil => none
  | style k rule rest => if k = key then some (style k rule nil) else rest.find? key
  | media level query inner rest =>
    if query.name = key then some (media level query inner nil) else rest.find? key

/-- A style rule goes last, unless its key is taken. -/
def insert (key : String) (rule : StyleRule) : Rules → Rules
  | nil => style key rule nil
  | style k r rest => if k = key then style k r rest else style k r (rest.insert key rule)
  | media level query inner rest =>
    if query.name = key then media level query inner rest
    else media level query inner (rest.insert key rule)

/-- Changes the block of `query` by `f`, which is told the level inside. A block that is not there is
opened last, at `level`; a style rule in its place gives way to an empty block. -/
def within (level : Nat) (query : MediaQuery) (f : Nat → Rules → Rules) : Rules → Rules
  | nil => media level query (f (level + 1) nil) nil
  | style k r rest =>
    if k = query.name then media level query (f (level + 1) nil) rest
    else style k r (rest.within level query f)
  | media l q inner rest =>
    if q = query then media l q (f (l + 1) inner) rest
    else media l q inner (rest.within level query f)

/-- Changes the rules at a path of media queries, outermost first. -/
def atPath (f : Nat → Rules → Rules) : List MediaQuery → Nat → Rules → Rules
  | [], level, rules => f level rules
  | query :: path, level, rules => rules.within level query (atPath f path)

/-- The level and the rules inside the block of `query`. -/
def block? (query : MediaQuery) : Rules → Option (Nat × Rules)
  | nil => none
  | style _ _ rest => rest.block? query
  | media level q inner rest => if q = query then some (level + 1, inner) else rest.block? query

/-- The level and the rules at the end of a path. -/
def atPath? : List MediaQuery → Nat → Rules → Option (Nat × Rules)
  | [], level, rules => some (level, rules)
  | query :: path, _, rules => (rules.block? query).bind fun (level, inner) => atPath? path level inner

/-- Changes the outermost blocks of breakpoints by `f`, which is told the level inside. -/
def mapBreakpoints (f : Breakpoint → Nat → Rules → Rules) : Rules → Rules
  | nil => nil
  | style k r rest => style k r (rest.mapBreakpoints f)
  | media l (.breakpoint b) inner rest =>
    media l (.breakpoint b) (f b (l + 1) inner) (rest.mapBreakpoints f)
  | media l (.feature q) inner rest => media l (.feature q) inner (rest.mapBreakpoints f)

def append : Rules → Rules → Rules
  | nil, other => other
  | style k r rest, other => style k r (rest.append other)
  | media l q inner rest, other => media l q inner (rest.append other)

instance : Append Rules := ⟨append⟩

def isMediaName (key : String) : Bool := (MediaQuery.ofName? key).isSome

/-- The rules whose keys name no media query. -/
def plain : Rules → Rules
  | nil => nil
  | style k r rest => if isMediaName k then rest.plain else style k r rest.plain
  | media _ _ _ rest => rest.plain

/-- The rules whose keys name a media query, themselves in order inside. -/
def responsive : Rules → Rules
  | nil => nil
  | style k r rest => if isMediaName k then style k r rest.responsive else rest.responsive
  | media l q inner rest => media l q (inner.plain ++ inner.responsive) rest.responsive

/-- The rules in the order of the cascade: at every depth, what is keyed by a media query comes after
all else. -/
def cascade (rules : Rules) : Rules := rules.plain ++ rules.responsive

end Rules

def StyleRule.body (layout : Layout) (r : StyleRule) : String :=
  String.join (r.declarations.map (Declaration.text (layout.indent (r.level + 1)) layout.newline))

def StyleRule.text (layout : Layout) (r : StyleRule) : String :=
  layout.opening r.level r.selector ++ r.body layout ++ layout.closing r.level

/-- The rules one after the other; a media block without any text inside is left out. -/
def Rules.text (layout : Layout) : Rules → String
  | nil => ""
  | style _ rule rest => rule.text layout ++ rest.text layout
  | media level query inner rest =>
    let body := inner.text layout
    let block :=
      if body = "" then ""
      else layout.opening level query.atRule ++ body ++ layout.closing level
    block ++ rest.text layout

end UtilityCss
