import UtilityCss.Proofs.Source.Expression
import UtilityCss.Proofs.Text.Pieces
import UtilityCss.Source.Classes

namespace UtilityCss.Source

/-- What an entry of an object says, without the white space around it. -/
inductive Property where
  | bare (name : List Char)
  | named (name gap : List Char) (value : Expression)
  | quoted (mark : Char) (body : List Letter) (gap : List Char) (value : Expression)
  | computed (key : Expression) (gap : List Char) (value : Expression)
  | spread (value : Expression)

namespace Property

/-- The text behind a key, where `gap` is in front of the colon. -/
def assigned (gap : List Char) (value : Expression) : Expression := .after gap (.char ':' value)

def expression : Property → Expression
  | bare name => .after name .nil
  | named name gap value => .after name (assigned gap value)
  | quoted mark body gap value => .quoted mark body (assigned gap value)
  | computed key gap value => .group .square key (assigned gap value)
  | spread value => .after "...".toList value

def isName (name : List Char) : Bool := !name.isEmpty && name.all isIdentifierChar

def isValue (gap : List Char) (value : Expression) : Bool :=
  gap.all Text.isBlank && value.isSound && value.isSingle

def isSound : Property → Bool
  | bare name => isName name
  | named name gap value => isName name && isValue gap value
  | quoted mark body gap value =>
    isQuote mark && body.all (Letter.isSound mark) && isValue gap value
  | computed key gap value => key.isSound && isValue gap value
  | spread value => isValue [] value

/-- The key, where it is a bare name. -/
def key? : Property → Option (List Char)
  | bare name | named name _ _ => some name
  | quoted _ _ _ _ | computed _ _ _ | spread _ => none

end Property

/-- An entry of an object, with the white space around it. -/
structure Entry where
  before : List Char
  property : Property
  behind : List Char

namespace Entry

def text (e : Entry) : List Char := e.before ++ (e.property.expression.text ++ e.behind)

def isSound (e : Entry) : Bool :=
  e.before.all Text.isBlank && e.property.isSound && e.behind.all Text.isBlank

/-- The items of an entry, where brackets of all kinds are looked for. -/
def items (e : Entry) : List Item :=
  e.before.map .char ++ (e.property.expression.items ++ e.behind.map .char)

end Entry

/-- The text of an object literal. -/
def objectText (entries : List Entry) : List Char :=
  '{' :: ([','].intercalate (entries.map Entry.text) ++ ['}'])

/-- An expression that is sound and not cut by a comma. -/
structure Expression.IsPart (e : Expression) : Prop where
  sound : e.isSound
  single : e.isSingle

theorem Expression.isPart_after {p : Char → Bool} (hp : (',' :: delimiters).all fun d => !p d)
    {s : List Char} (hs : s.all p) {e : Expression} (he : e.IsPart) : (after s e).IsPart := by
  have hfree : ∀ d ∈ ',' :: delimiters, d ∉ s := fun d hd hmem =>
    absurd (List.all_eq_true.1 hs d hmem) (by simpa using List.all_eq_true.1 hp d hd)
  exact ⟨isSound_after (fun c hc hd => hfree c (List.mem_cons_of_mem _ hd) hc) he.sound,
    isSingle_after (hfree ',' List.mem_cons_self) he.single⟩

theorem blank_free : (',' :: delimiters).all fun d => !Text.isBlank d := by decide

theorem identifier_free : (',' :: delimiters).all fun d => !isIdentifierChar d := by decide

namespace Property

theorem isPart_assigned {gap : List Char} {value : Expression} (h : isValue gap value) :
    (assigned gap value).IsPart := by
  simp only [isValue, Bool.and_eq_true] at h
  obtain ⟨⟨hgap, hsound⟩, hsingle⟩ := h
  refine Expression.isPart_after blank_free hgap ⟨?_, ?_⟩
  · rw [Expression.isSound, hsound]
    rfl
  · rw [Expression.isSingle, hsingle]
    rfl

theorem isPart_expression {p : Property} (h : p.isSound) : p.expression.IsPart := by
  cases p with
  | bare name =>
    simp only [isSound, isName, Bool.and_eq_true] at h
    exact Expression.isPart_after identifier_free h.2 ⟨rfl, rfl⟩
  | named name gap value =>
    simp only [isSound, isName, Bool.and_eq_true] at h
    exact Expression.isPart_after identifier_free h.1.2 (isPart_assigned h.2)
  | quoted mark body gap value =>
    simp only [isSound, Bool.and_eq_true] at h
    obtain ⟨hsound, hsingle⟩ := isPart_assigned h.2
    exact ⟨by simp [expression, Expression.isSound, h.1, hsound], hsingle⟩
  | computed key gap value =>
    simp only [isSound, Bool.and_eq_true] at h
    obtain ⟨hsound, hsingle⟩ := isPart_assigned h.2
    exact ⟨by simp [expression, Expression.isSound, h.1, hsound], hsingle⟩
  | spread value =>
    simp only [isSound, isValue, Bool.and_eq_true] at h
    exact Expression.isPart_after (p := (· == '.')) (by decide) rfl ⟨h.1.2, h.2⟩

end Property

namespace Entry

theorem isPart_blank {s : List Char} (hs : s.all Text.isBlank) : (Expression.after s .nil).IsPart :=
  Expression.isPart_after blank_free hs ⟨rfl, rfl⟩

/-- Of an entry, its three parts as expressions. -/
theorem isPart_of_isSound {e : Entry} (h : e.isSound) :
    (Expression.after e.before .nil).IsPart ∧ e.property.expression.IsPart ∧
      (Expression.after e.behind .nil).IsPart := by
  simp only [isSound, Bool.and_eq_true] at h
  exact ⟨isPart_blank h.1.1, Property.isPart_expression h.1.2, isPart_blank h.2⟩

theorem text_eq (e : Entry) : e.text = (Expression.after e.before .nil).text ++
    (e.property.expression.text ++ (Expression.after e.behind .nil).text) := by
  simp [text, Expression.text]

theorem items_eq (e : Entry) : e.items = (Expression.after e.before .nil).items ++
    (e.property.expression.items ++ (Expression.after e.behind .nil).items) := by
  simp [items, Expression.items]

theorem passes_text {e : Entry} (h : e.isSound) :
    Passes [.group .brace] [.group .brace] e.text := by
  obtain ⟨hbefore, hproperty, hbehind⟩ := isPart_of_isSound h
  rw [text_eq]
  exact (passes_expression hbefore.sound []).append
    ((passes_expression hproperty.sound []).append (passes_expression hbehind.sound []))

theorem items_text {e : Entry} (h : e.isSound) (s : List Char) :
    Source.items [.brace, .paren, .square] (e.text ++ s) =
      e.items ++ Source.items [.brace, .paren, .square] s := by
  obtain ⟨hbefore, hproperty, hbehind⟩ := isPart_of_isSound h
  rw [text_eq, items_eq, List.append_assoc, List.append_assoc, items_expression hbefore.sound,
    items_expression hproperty.sound, items_expression hbehind.sound]
  simp only [List.append_assoc]

theorem comma_notMem_items {e : Entry} (h : e.isSound) : Item.char ',' ∉ e.items := by
  obtain ⟨hbefore, hproperty, hbehind⟩ := isPart_of_isSound h
  rw [items_eq, List.mem_append, List.mem_append, not_or, not_or]
  exact ⟨Expression.comma_notMem_items hbefore.single,
    Expression.comma_notMem_items hproperty.single, Expression.comma_notMem_items hbehind.single⟩

end Entry

theorem passes_entries {es : List Entry} (h : ∀ e ∈ es, e.isSound) :
    Passes [.group .brace] [.group .brace] ([','].intercalate (es.map Entry.text)) := by
  induction es with
  | nil => exact .nil _
  | cons e es ih =>
    rw [List.forall_mem_cons] at h
    cases es with
    | nil =>
      rw [List.map_singleton, List.intercalate_singleton]
      exact Entry.passes_text h.1
    | cons d es =>
      rw [List.map_cons, List.map_cons, List.intercalate_cons_cons]
      exact ((Entry.passes_text h.1).append (.cons (fun _ => rfl) (.nil _))).append (ih h.2)

theorem items_entries {es : List Entry} (h : ∀ e ∈ es, e.isSound) :
    items [.brace, .paren, .square] ([','].intercalate (es.map Entry.text)) =
      [.char ','].intercalate (es.map Entry.items) := by
  induction es with
  | nil => exact items_nil _
  | cons e es ih =>
    rw [List.forall_mem_cons] at h
    cases es with
    | nil =>
      simp only [List.map_singleton, List.intercalate_singleton]
      rw [← List.append_nil e.text, Entry.items_text h.1, items_nil, List.append_nil]
    | cons d es =>
      have hcomma (s : List Char) :
          item [.brace, .paren, .square] ',' s = (.char ',', s) :=
        item_char rfl (by decide) (by decide) s
      simp only [List.map_cons, List.intercalate_cons_cons, List.append_assoc,
        List.cons_append, List.nil_append] at ih ⊢
      rw [Entry.items_text h.1, items_cons, hcomma, ih h.2]

/-- The commas between the entries are those that an object's inside is cut at. -/
theorem entries_text {es : List Entry} (h : ∀ e ∈ es, e.isSound) (hne : es ≠ []) :
    entries ([','].intercalate (es.map Entry.text)) = es.map Entry.items := by
  have hcomma : Item.isChar (· == ',') = (· == Item.char ',') := by
    funext i
    cases i <;> simp [Item.isChar]
  rw [entries, items_entries h, hcomma]
  refine Text.pieces_intercalate (fun ps hps => ?_) (by simpa using hne)
  obtain ⟨e, he, rfl⟩ := List.mem_map.1 hps
  exact Entry.comma_notMem_items (h e he)

theorem forall_isChar_map {p : Char → Bool} {s : List Char} (hs : s.all p) :
    ∀ i ∈ s.map Item.char, i.isChar p := by
  intro i hi
  obtain ⟨c, hc, rfl⟩ := List.mem_map.1 hi
  exact List.all_eq_true.1 hs c hc

/-- Behind white space, an entry that does not begin with a name has no bare key. -/
theorem bareKey?_eq_none {before : List Char} (hbefore : before.all Text.isBlank) {rest : List Item}
    (hrest : ∀ i ∈ rest.head?, i.isChar Text.isBlank = false ∧ i.isChar isIdentifierChar = false) :
    bareKey? (before.map .char ++ rest) = none := by
  have hskip : (before.map Item.char ++ rest).dropWhile (Item.isChar Text.isBlank) = rest :=
    Text.dropWhile_append_of_ends (forall_isChar_map hbefore) fun i hi => (hrest i hi).1
  have hname : rest.takeWhile (Item.isChar isIdentifierChar) = [] :=
    Text.takeWhile_append_of_ends (u := []) (by simp) fun i hi => (hrest i hi).2
  rw [bareKey?]
  simp [hskip, hname]

theorem isBlank_eq_false_of_isIdentifierChar {c : Char} (h : isIdentifierChar c) :
    Text.isBlank c = false := by
  simp only [isIdentifierChar, Text.isLetter, Text.isDigit, Bool.or_eq_true, Bool.and_eq_true,
    decide_eq_true_eq] at h
  rcases h with (((hsmall | hcapital) | hdigit) | rfl) | rfl
  · have hlo : 0x61 ≤ c.toNat := hsmall.1
    have hhi : c.toNat ≤ 0x7A := hsmall.2
    apply Text.isBlank_eq_false <;> omega
  · have hlo : 0x41 ≤ c.toNat := hcapital.1
    have hhi : c.toNat ≤ 0x5A := hcapital.2
    apply Text.isBlank_eq_false <;> omega
  · have hlo : 0x30 ≤ c.toNat := hdigit.1
    have hhi : c.toNat ≤ 0x39 := hdigit.2
    apply Text.isBlank_eq_false <;> omega
  · decide
  · decide

/-- White space and a colon end a name. -/
theorem isIdentifierChar_eq_false_of_gap {gap : List Char} (hgap : gap.all Text.isBlank)
    {rest : List Item} (hcolon : ∀ i ∈ rest.head?, i = .char ':') :
    ∀ i ∈ (gap.map Item.char ++ rest).head?, i.isChar isIdentifierChar = false := by
  cases gap with
  | nil => exact fun i hi => by rw [hcolon i hi]; decide
  | cons c s =>
    intro i hi
    obtain rfl : Item.char c = i := Option.some_inj.1 hi
    have hblank : Text.isBlank c := List.all_eq_true.1 hgap c List.mem_cons_self
    refine Bool.eq_false_iff.2 fun hc => ?_
    rw [isBlank_eq_false_of_isIdentifierChar hc] at hblank
    cases hblank

/-- Behind white space, a name is the key where only white space follows it up to a colon or the end. -/
theorem bareKey?_eq_some {before name gap : List Char} (hbefore : before.all Text.isBlank)
    (hname : Property.isName name) (hgap : gap.all Text.isBlank) (rest : List Item)
    (hrest : rest = [] ∨ rest.head? = some (.char ':')) :
    bareKey? (before.map .char ++ (name.map .char ++ (gap.map .char ++ rest))) = some name := by
  simp only [Property.isName, Bool.and_eq_true, Bool.not_eq_true', List.isEmpty_eq_false_iff] at hname
  obtain ⟨hne, hchars⟩ := hname
  have hcolon : ∀ i ∈ rest.head?, i = .char ':' := by
    rcases hrest with rfl | hhead
    · exact nofun
    · exact fun i hi => Option.mem_unique hi hhead
  have hskip : (before.map Item.char ++ (name.map Item.char ++ (gap.map Item.char ++ rest))).dropWhile
      (Item.isChar Text.isBlank) = name.map Item.char ++ (gap.map Item.char ++ rest) := by
    refine Text.dropWhile_append_of_ends (forall_isChar_map hbefore) fun i hi => ?_
    obtain ⟨c, s, rfl⟩ := List.exists_cons_of_ne_nil hne
    obtain rfl : Item.char c = i := Option.some_inj.1 hi
    exact isBlank_eq_false_of_isIdentifierChar (List.all_eq_true.1 hchars c List.mem_cons_self)
  have hends := isIdentifierChar_eq_false_of_gap hgap hcolon
  have htake := Text.takeWhile_append_of_ends (forall_isChar_map hchars) hends
  have hdrop := Text.dropWhile_append_of_ends (forall_isChar_map hchars) hends
  have hgapEnds : (gap.map Item.char ++ rest).dropWhile (Item.isChar Text.isBlank) = rest :=
    Text.dropWhile_append_of_ends (forall_isChar_map hgap) fun i hi => by rw [hcolon i hi]; decide
  have hkey : (rest.isEmpty || rest.head?.any (Item.isChar (· == ':'))) = true := by
    rcases hrest with rfl | hhead
    · rfl
    · rw [hhead, Bool.or_eq_true]
      exact .inr rfl
  rw [bareKey?]
  simp [hskip, htake, hdrop, hgapEnds, hkey, hne, List.filterMap_map]

theorem bareKey?_items {e : Entry} (h : e.isSound) : bareKey? e.items = e.property.key? := by
  obtain ⟨before, property, behind⟩ := e
  simp only [Entry.isSound, Bool.and_eq_true] at h
  obtain ⟨⟨hbefore, hproperty⟩, hbehind⟩ := h
  cases property with
  | bare name =>
    have hkey := bareKey?_eq_some hbefore hproperty hbehind [] (.inl rfl)
    simpa [Entry.items, Property.expression, Property.key?, Expression.items] using hkey
  | named name gap value =>
    simp only [Property.isSound, Property.isValue, Bool.and_eq_true] at hproperty
    have hkey := bareKey?_eq_some hbefore hproperty.1 hproperty.2.1.1
      (.char ':' :: (value.items ++ behind.map .char)) (.inr rfl)
    simpa [Entry.items, Property.expression, Property.assigned, Property.key?, Expression.items]
      using hkey
  | quoted mark body gap value =>
    exact bareKey?_eq_none hbefore fun i hi => by cases hi; exact ⟨rfl, rfl⟩
  | computed key gap value =>
    exact bareKey?_eq_none hbefore fun i hi => by cases hi; exact ⟨rfl, rfl⟩
  | spread value =>
    exact bareKey?_eq_none hbefore fun i hi => by cases hi; exact ⟨by decide, by decide⟩

/-- The keys of an object literal are the bare names among the keys of its entries, in order. Values, nested
objects, quoted and computed keys and spreads bring none and hide none. -/
theorem objectKeys_objectText {es : List Entry} (h : ∀ e ∈ es, e.isSound) :
    objectKeys (objectText es) = es.filterMap fun e => e.property.key? := by
  have hgroup : item [.brace] '{' ([','].intercalate (es.map Entry.text) ++ ['}']) =
      (.group .brace ([','].intercalate (es.map Entry.text)), []) :=
    item_group (b := .brace) List.mem_cons_self (passes_entries h) []
  rw [objectKeys, objectText, items_cons, hgroup, items_nil, List.flatMap_singleton]
  by_cases hes : es = []
  · subst hes
    decide +kernel
  · simp only [entries_text h hes, List.filterMap_map]
    exact List.filterMap_congr fun e he => bareKey?_items (h e he)

/-- An object with entries of every kind, which hold commas, braces and objects of their own. -/
def mixedObject : List Entry :=
  [⟨" ".toList, .bare "$flex".toList, "\n".toList⟩,
    ⟨"\n".toList, .named "p4".toList " ".toList <| .after " f".toList <|
      .group .paren (.after "a, ".toList <| .group .brace (.after "b: ".toList <|
        .quoted '\'' (Letter.plain "\x7d,") .nil) .nil) .nil, []⟩,
    ⟨" ".toList, .quoted '"' (Letter.plain "m-2, " ++ [⟨'"', true⟩]) [] (.after " x".toList .nil), []⟩,
    ⟨[], .computed (.template (.after "k, " <| .hole (.group (.after "a: 1, b" .nil) .nil) .nil) .nil) []
      (.group .square (.after "1, 2".toList .nil) .nil), " ".toList⟩,
    ⟨[], .spread (.after "g".toList <| .group .paren (.group .brace (.after "h".toList .nil) .nil) .nil),
      []⟩,
    ⟨[], .named "_".toList [] .nil, []⟩]

theorem objectKeys_mixedObject : (∀ e ∈ mixedObject, e.isSound) ∧
    objectKeys (objectText mixedObject) = ["$flex".toList, "p4".toList, "_".toList] := by
  have h : ∀ e ∈ mixedObject, e.isSound := by decide +kernel
  exact ⟨h, objectKeys_objectText h⟩

end UtilityCss.Source
