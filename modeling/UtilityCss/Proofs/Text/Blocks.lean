import UtilityCss.Declaration
import UtilityCss.Text.Blank
import Mathlib.Tactic.ByContra

namespace UtilityCss

inductive Blocks where
  | nil
  | block (head : String) (declarations : List Declaration) (inner rest : Blocks)
  deriving DecidableEq, Repr

namespace Blocks
open Text

inductive Token where
  | opening (head : String)
  | declaration (d : Declaration)
  | closing
  deriving DecidableEq, Repr

def append : Blocks → Blocks → Blocks
  | nil, other => other
  | block head ds inner rest, other => block head ds inner (rest.append other)

/-- Inside each block are declarations or blocks, not both. -/
def Pure : Blocks → Prop
  | nil => True
  | block _ ds inner rest => (ds = [] ∨ inner = nil) ∧ inner.Pure ∧ rest.Pure

def tokens : Blocks → List Token
  | nil => []
  | block head ds inner rest =>
    .opening head :: ds.map .declaration ++ inner.tokens ++ .closing :: rest.tokens

/-- What `property: value` declares. -/
def declaration? (words : List Char) : Option Declaration :=
  match cut ':' (trimStart words) with
  | some (property, ' ' :: value) => some ⟨String.ofList property, String.ofList value⟩
  | _ => none

/-- The tokens of a text, where `words` stand between the last token and the text. -/
def lex (words : List Char) : List Char → Option (List Token)
  | [] => if words.all isBlank then some [] else none
  | c :: s =>
    if c = '\x7b' then (lex [] s).map (.opening (String.ofList (trim words)) :: ·)
    else if c = ';' then
      (declaration? words).bind fun d => (lex [] s).map (.declaration d :: ·)
    else if c = '\x7d' then
      if words.all isBlank then (lex [] s).map (.closing :: ·) else none
    else lex (words ++ [c]) s

/-- Puts blocks together from tokens. `outer` are the blocks that are still open, innermost first, each
with the blocks in front of it; `here` and `ds` is what the innermost holds so far. -/
def assemble : List (String × Blocks) → Blocks → List Declaration → List Token → Option Blocks
  | [], here, [], [] => some here
  | outer, here, [], .opening head :: ts => assemble ((head, here) :: outer) nil [] ts
  | o :: outer, nil, ds, .declaration d :: ts => assemble (o :: outer) nil (ds ++ [d]) ts
  | (head, before) :: outer, here, ds, .closing :: ts =>
    assemble outer (before.append (block head ds here nil)) [] ts
  | _, _, _, _ => none

/-- The blocks of a text, if it is one of nested blocks to its end. -/
def read (s : String) : Option Blocks := (lex [] s.toList).bind (assemble [] nil [])

theorem append_nil (b : Blocks) : b.append nil = b := by
  induction b with
  | nil => rfl
  | block head ds inner rest _ ih => rw [append, ih]

theorem append_assoc (a b c : Blocks) : (a.append b).append c = a.append (b.append c) := by
  induction a with
  | nil => rfl
  | block head ds inner rest _ ih => rw [append, append, append, ih]

theorem assemble_declarations (o : String × Blocks) (outer : List (String × Blocks))
    (ds more : List Declaration) (ts : List Token) :
    assemble (o :: outer) nil ds (more.map .declaration ++ ts) =
      assemble (o :: outer) nil (ds ++ more) ts := by
  induction more generalizing ds with
  | nil => simp
  | cons d more ih =>
    rw [List.map_cons, List.cons_append, assemble, ih, List.append_assoc]
    rfl

/-- The tokens of blocks are put together to these blocks, behind those that are there. -/
theorem assemble_tokens {b : Blocks} (h : b.Pure) (outer : List (String × Blocks)) (here : Blocks)
    (ts : List Token) :
    assemble outer here [] (b.tokens ++ ts) = assemble outer (here.append b) [] ts := by
  induction b generalizing outer here ts with
  | nil => rw [append_nil]; rfl
  | block head ds inner rest ihinner ihrest =>
    obtain ⟨hpure, hinner, hrest⟩ := h
    have hbody : assemble ((head, here) :: outer) nil []
        (ds.map .declaration ++ (inner.tokens ++ .closing :: (rest.tokens ++ ts))) =
          assemble ((head, here) :: outer) inner ds (.closing :: (rest.tokens ++ ts)) := by
      rcases hpure with rfl | rfl
      · exact ihinner hinner _ _ _
      · exact assemble_declarations _ _ _ _ _
    have hjoin : (here.append (block head ds inner nil)).append rest =
        here.append (block head ds inner rest) := append_assoc _ _ _
    simp only [tokens, List.cons_append, List.append_assoc, assemble, hbody, ihrest hrest, hjoin]

/-- The tokens that were read before: of what is open, and of what the innermost holds. -/
def readTokens : List (String × Blocks) → List Token
  | [] => []
  | (head, before) :: outer => readTokens outer ++ before.tokens ++ [.opening head]

theorem tokens_append (a b : Blocks) : (a.append b).tokens = a.tokens ++ b.tokens := by
  induction a with
  | nil => rfl
  | block head ds inner rest _ ih => simp [append, tokens, ih]

/-- Whatever is put together has just the tokens that it was put together from. -/
theorem tokens_of_assemble {outer : List (String × Blocks)} {here b : Blocks}
    {ds : List Declaration} {ts : List Token} (h : assemble outer here ds ts = some b) :
    b.tokens = readTokens outer ++ ds.map .declaration ++ here.tokens ++ ts := by
  fun_induction assemble outer here ds ts with
  | case1 here =>
    cases h
    simp [readTokens]
  | case2 outer here head ts ih => simp [ih h, readTokens, tokens]
  | case3 o outer ds d ts ih => simp [ih h, tokens]
  | case4 head before outer here ds ts ih => simp [ih h, readTokens, tokens, tokens_append]
  | case5 => cases h

def blockCount : Blocks → Nat
  | nil => 0
  | block _ _ inner rest => 1 + inner.blockCount + rest.blockCount

def declarationCount : Blocks → Nat
  | nil => 0
  | block _ ds inner rest => ds.length + inner.declarationCount + rest.declarationCount

def isDelimiter (c : Char) : Bool := c == '\x7b' || c == ';' || c == '\x7d'

def Plain (s : List Char) : Prop := ∀ c ∈ s, isDelimiter c = false

theorem Plain.append {s t : List Char} (h : Plain s) (h' : Plain t) : Plain (s ++ t) :=
  List.forall_mem_append.2 ⟨h, h'⟩

theorem plain_of_all {s : List Char} (h : (s.all fun c => !isDelimiter c) = true) : Plain s := by
  intro c hc
  simpa using List.all_eq_true.1 h c hc

/-- Characters that delimit nothing are gathered. -/
theorem lex_plain_append {plain : List Char} (h : Plain plain) (words s : List Char) :
    lex words (plain ++ s) = lex (words ++ plain) s := by
  induction plain generalizing words with
  | nil => simp
  | cons c plain ih =>
    obtain ⟨hc, hplain⟩ := List.forall_mem_cons.1 h
    simp only [isDelimiter, Bool.or_eq_false_iff, beq_eq_false_iff_ne] at hc
    obtain ⟨⟨hopen, hend⟩, hclose⟩ := hc
    rw [List.cons_append, lex, if_neg hopen, if_neg hend, if_neg hclose, ih hplain]
    simp

theorem isDelimiter_of_isBlank {c : Char} (h : isBlank c) : isDelimiter c = false := by
  by_contra hd
  simp only [isDelimiter, Bool.not_eq_false, Bool.or_eq_true, beq_iff_eq] at hd
  rcases hd with (rfl | rfl) | rfl <;> exact absurd h (by decide)

section blanks
variable {w : List Char} (hw : ∀ c ∈ w, isBlank c)
include hw

theorem trimStart_blank_append (s : List Char) : trimStart (w ++ s) = trimStart s :=
  List.dropWhile_append_of_pos hw

theorem trim_blank_append (s : List Char) : trim (w ++ s) = trim s := by
  rw [trim, trim, trimStart_blank_append hw]

/-- Blanks in front of a token are none of it. -/
theorem lex_blank_append (words s : List Char) : lex (w ++ words) s = lex words s := by
  have hall : (w ++ words).all isBlank = words.all isBlank := by
    rw [List.all_append, List.all_eq_true.2 hw, Bool.true_and]
  induction s generalizing words with
  | nil => rw [lex, lex, hall]
  | cons c s ih =>
    have hgather : lex (w ++ words ++ [c]) s = lex (words ++ [c]) s := by
      rw [List.append_assoc]
      apply ih
      rw [List.all_append, List.all_eq_true.2 hw, Bool.true_and]
    rw [lex, lex, trim_blank_append hw, declaration?, declaration?, trimStart_blank_append hw, hall,
      hgather]

end blanks

/-- Whatever follows it, the text has these tokens. -/
def Lexes (s : String) (ts : List Token) : Prop :=
  ∀ rest, lex [] (s.toList ++ rest) = (lex [] rest).map (ts ++ ·)

/-- A text that can stand in front of an opening brace. -/
structure Head (s : String) : Prop where
  plain : Plain s.toList
  first : ∃ c, s.toList.head? = some c ∧ isBlank c = false
  last : ∃ c, s.toList.getLast? = some c ∧ isBlank c = false

def isHead (s : List Char) : Bool :=
  s.all (fun c => !isDelimiter c) && s.head?.any (fun c => !isBlank c) &&
    s.getLast?.any fun c => !isBlank c

theorem head_of_isHead {s : String} (h : isHead s.toList) : Head s := by
  simp only [isHead, Bool.and_eq_true, Option.any_eq_true, Bool.not_eq_true'] at h
  obtain ⟨⟨hplain, hfirst⟩, hlast⟩ := h
  exact ⟨plain_of_all hplain, hfirst, hlast⟩

def Blank (s : String) : Prop := ∀ c ∈ s.toList, isBlank c

theorem Blank.plain {s : String} (h : Blank s) : Plain s.toList :=
  fun c hc => isDelimiter_of_isBlank (h c hc)

theorem Head.append {s t : String} (h : Head s) (hplain : Plain t.toList)
    (hlast : ∀ c, t.toList.getLast? = some c → isBlank c = false) : Head (s ++ t) := by
  obtain ⟨c, hc, hfirst⟩ := h.first
  obtain ⟨d, hd, hend⟩ := h.last
  refine ⟨?_, ⟨c, ?_, hfirst⟩, ?_⟩
  · rw [String.toList_append]
    exact h.plain.append hplain
  · rw [String.toList_append, List.head?_append, hc]
    rfl
  · rw [String.toList_append, List.getLast?_append]
    cases ht : t.toList.getLast? with
    | none => exact ⟨d, hd, hend⟩
    | some e => exact ⟨e, rfl, hlast e ht⟩

/-- A character of a text that is one piece: it neither delimits nor is blank. -/
def isSolid (c : Char) : Bool := !isDelimiter c && !isBlank c

theorem Head.append_solid {s t : String} (h : Head s) (ht : ∀ c ∈ t.toList, isSolid c) :
    Head (s ++ t) := by
  simp only [isSolid, Bool.and_eq_true, Bool.not_eq_true'] at ht
  exact h.append (fun c hc => (ht c hc).1) fun c hc => (ht c (List.mem_of_getLast? hc)).2

theorem Head.intercalate {separator : String} (hs : Plain separator.toList) {heads : List String}
    (hne : heads ≠ []) (h : ∀ s ∈ heads, Head s) : Head (separator.intercalate heads) := by
  induction heads with
  | nil => exact absurd rfl hne
  | cons s heads ih =>
    obtain ⟨hhead, hheads⟩ := List.forall_mem_cons.1 h
    cases heads with
    | nil => rwa [String.intercalate_singleton]
    | cons s' heads =>
      have hrest := ih (by simp) hheads
      obtain ⟨d, hd, hend⟩ := hrest.last
      rw [String.intercalate_cons_cons, String.append_assoc]
      refine hhead.append ?_ ?_
      · rw [String.toList_append]
        exact hs.append hrest.plain
      · intro c hc
        rw [String.toList_append, List.getLast?_append, hd] at hc
        cases hc
        exact hend

theorem Lexes.append {s t : String} {ts us : List Token} (h : Lexes s ts) (h' : Lexes t us) :
    Lexes (s ++ t) (ts ++ us) := by
  intro rest
  rw [String.toList_append, List.append_assoc, h, h', Option.map_map]
  simp [Function.comp_def]

theorem lexes_blank {s : String} (h : Blank s) : Lexes s [] := by
  intro rest
  have hskip := lex_blank_append h [] rest
  rw [lex_plain_append h.plain, List.nil_append]
  simpa using hskip

theorem trim_head {s : String} (h : Head s) : trim (s.toList ++ [' ']) = s.toList := by
  obtain ⟨c, hc, hfirst⟩ := h.first
  obtain ⟨d, hd, hlast⟩ := h.last
  obtain ⟨l, hl⟩ := List.head?_eq_some_iff.1 hc
  obtain ⟨m, hm⟩ := List.getLast?_eq_some_iff.1 hd
  have hstart : trimStart (s.toList ++ [' ']) = s.toList ++ [' '] := by
    rw [hl, List.cons_append, trimStart, List.dropWhile_cons_of_neg (by simp [hfirst])]
  have hend : trimStart (s.toList ++ [' ']).reverse = s.toList.reverse := by
    rw [hm]
    simp only [trimStart, List.reverse_append, List.reverse_singleton, List.singleton_append]
    rw [List.dropWhile_cons_of_pos (by decide), List.dropWhile_cons_of_neg (by simp [hlast])]
  rw [trim, hstart, hend, List.reverse_reverse]

theorem lexes_opening {head : String} (h : Head head) : Lexes (head ++ " \x7b") [.opening head] := by
  intro rest
  have hspace : Plain [' '] := plain_of_all rfl
  have htext : (head ++ " \x7b").toList ++ rest = head.toList ++ ([' '] ++ '\x7b' :: rest) := by simp
  rw [htext, lex_plain_append h.plain, lex_plain_append hspace, List.nil_append, lex, if_pos rfl,
    trim_head h, String.ofList_toList]
  rfl

/-- A property that can be told from its value, and a value that is not cut short. -/
structure Legible (d : Declaration) : Prop where
  property_plain : Plain d.property.toList
  property_colon : ':' ∉ d.property.toList
  property_first : ∃ c, d.property.toList.head? = some c ∧ isBlank c = false
  value_plain : Plain d.value.toList

theorem declaration?_eq_some {d : Declaration} (h : Legible d) :
    declaration? (d.property.toList ++ ([':', ' '] ++ d.value.toList)) = some d := by
  obtain ⟨c, hc, hfirst⟩ := h.property_first
  obtain ⟨l, hl⟩ := List.head?_eq_some_iff.1 hc
  have hstart : trimStart (d.property.toList ++ ([':', ' '] ++ d.value.toList)) =
      d.property.toList ++ ':' :: ' ' :: d.value.toList := by
    rw [hl, List.cons_append, trimStart, List.dropWhile_cons_of_neg (by simp [hfirst])]
    rfl
  simp only [declaration?, hstart, cut_append _ h.property_colon, String.ofList_toList]

theorem lexes_declaration {d : Declaration} (h : Legible d) :
    Lexes (d.property ++ ": " ++ d.value ++ ";") [.declaration d] := by
  intro rest
  have hcolon : Plain [':', ' '] := plain_of_all rfl
  have htext : (d.property ++ ": " ++ d.value ++ ";").toList ++ rest =
      d.property.toList ++ ([':', ' '] ++ (d.value.toList ++ ';' :: rest)) := by simp
  rw [htext, lex_plain_append h.property_plain, lex_plain_append hcolon,
    lex_plain_append h.value_plain, List.nil_append, List.append_assoc, lex, if_neg (by decide),
    if_pos rfl, declaration?_eq_some h]
  rfl

theorem lexes_closing : Lexes "\x7d" [.closing] := by
  intro rest
  rfl

theorem lexes_join {α : Type} {as : List α} {f : α → String} {g : α → Token}
    (h : ∀ a ∈ as, Lexes (f a) [g a]) : Lexes (String.join (as.map f)) (as.map g) := by
  induction as with
  | nil => exact lexes_blank (by simp [Blank])
  | cons a as ih =>
    rw [List.map_cons, List.map_cons, String.join_cons]
    exact (h a List.mem_cons_self).append (ih fun b hb => h b (List.mem_cons_of_mem _ hb))

/-- A text with the tokens of some blocks is read as these. -/
theorem Lexes.read_eq {s : String} {b : Blocks} (h : Lexes s b.tokens) (hb : b.Pure) :
    read s = some b := by
  have hlex := h []
  rw [List.append_nil, lex, if_pos (by simp), Option.map_some, List.append_nil] at hlex
  have hput := assemble_tokens hb [] nil []
  rw [List.append_nil] at hput
  rw [read, hlex, Option.bind_some, hput]
  rfl

def Token.delimiter : Token → Char
  | opening _ => '\x7b'
  | declaration _ => ';'
  | closing => '\x7d'

/-- Each delimiter of a text makes a token, in the same order. -/
theorem filter_of_lex {words s : List Char} {ts : List Token} (h : lex words s = some ts) :
    s.filter isDelimiter = ts.map Token.delimiter := by
  fun_induction lex words s generalizing ts with
  | case1 words =>
    cases h
    rfl
  | case2 => cases h
  | case3 words s ih =>
    obtain ⟨rest, hrest, rfl⟩ := Option.map_eq_some_iff.1 h
    rw [List.filter_cons_of_pos rfl, ih hrest]
    rfl
  | case4 words s _ ih =>
    obtain ⟨d, -, hd⟩ := Option.bind_eq_some_iff.1 h
    obtain ⟨rest, hrest, rfl⟩ := Option.map_eq_some_iff.1 hd
    rw [List.filter_cons_of_pos rfl, ih hrest]
    rfl
  | case5 words s _ _ _ ih =>
    obtain ⟨rest, hrest, rfl⟩ := Option.map_eq_some_iff.1 h
    rw [List.filter_cons_of_pos rfl, ih hrest]
    rfl
  | case6 => cases h
  | case7 words c s hopen hend hclose ih =>
    rw [List.filter_cons_of_neg (by simp [isDelimiter, hopen, hend, hclose]), ih h]

/-- Each block brings one brace of either kind, and each declaration one semicolon. -/
theorem count_delimiter (b : Blocks) :
    (b.tokens.map Token.delimiter).count '\x7b' = b.blockCount ∧
      (b.tokens.map Token.delimiter).count '\x7d' = b.blockCount ∧
        (b.tokens.map Token.delimiter).count ';' = b.declarationCount := by
  induction b with
  | nil => exact ⟨rfl, rfl, rfl⟩
  | block head ds inner rest ihinner ihrest =>
    have hds : (ds.map Token.declaration).map Token.delimiter = List.replicate ds.length ';' := by
      rw [List.map_map]
      exact List.map_const'
    obtain ⟨hopen, hclose, hend⟩ := ihinner
    obtain ⟨hopen', hclose', hend'⟩ := ihrest
    simp only [tokens, List.map_append, List.map_cons, List.count_append, List.count_cons, hds,
      List.count_replicate, hopen, hclose, hend, hopen', hclose', hend', Token.delimiter, blockCount,
      declarationCount, Char.reduceBEq, BEq.rfl, Bool.false_eq_true, if_false, if_true]
    omega

/-- In a text that can be read there is one pair of braces for each block and one semicolon for each
declaration. -/
theorem count_of_read {s : String} {b : Blocks} (h : read s = some b) :
    s.toList.count '\x7b' = b.blockCount ∧ s.toList.count '\x7d' = b.blockCount ∧
      s.toList.count ';' = b.declarationCount := by
  obtain ⟨ts, hlex, hput⟩ := Option.bind_eq_some_iff.1 h
  have htokens : b.tokens = ts := by simpa [readTokens, tokens] using tokens_of_assemble hput
  have hfilter := filter_of_lex hlex
  rw [← htokens] at hfilter
  have hcount : ∀ c, isDelimiter c →
      s.toList.count c = (b.tokens.map Token.delimiter).count c := by
    intro c hc
    rw [← hfilter, List.count_filter hc]
  rw [hcount _ rfl, hcount _ rfl, hcount _ rfl]
  exact count_delimiter b

end Blocks
end UtilityCss
