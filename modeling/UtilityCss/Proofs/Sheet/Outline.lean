import UtilityCss.Source.Classes
import UtilityCss.Proofs.Compiler
import UtilityCss.Proofs.Sheet.Leaves
import UtilityCss.Proofs.Text.Blocks
import UtilityCss.Proofs.Utility.Tidy

namespace UtilityCss
open Blocks

namespace Rules

/-- The blocks of rules: style rules, and media blocks with some style rule inside. -/
def outline : Rules → Blocks
  | nil => .nil
  | style _ rule rest => .block rule.selector rule.declarations .nil rest.outline
  | media _ query inner rest =>
    if inner.outline = .nil then rest.outline
    else .block query.atRule [] inner.outline rest.outline

theorem pure_outline (r : Rules) : r.outline.Pure := by
  induction r with
  | nil => trivial
  | style key rule rest ih => exact ⟨.inr rfl, trivial, ih⟩
  | media level query inner rest ihinner ih =>
    rw [outline]
    split
    · exact ih
    · exact ⟨.inl rfl, ihinner, ih⟩

/-- What is left out of the outline is left out of the text. -/
theorem text_eq_empty_iff (layout : Layout) (r : Rules) : r.text layout = "" ↔ r.outline = .nil := by
  induction r with
  | nil => simp [text, outline]
  | style key rule rest ih =>
    simp [text, outline, String.append_eq_empty_iff, Sheet.text_ne_empty]
  | media level query inner rest ihinner ih =>
    simp only [text, outline, String.append_eq_empty_iff, ih, ihinner]
    split
    · simp
    · simp [Sheet.opening_ne_empty]

end Rules

theorem isSolid_of_lt {c : Char} (hlo : 0x20 < c.toNat) (hhi : c.toNat < 0x7B)
    (hend : c.toNat ≠ 0x3B) : isSolid c := by
  have hplain : isDelimiter c = false := by
    by_contra hd
    simp only [isDelimiter, Bool.not_eq_false, Bool.or_eq_true, beq_iff_eq] at hd
    rcases hd with (rfl | rfl) | rfl
    · exact absurd hhi (by decide)
    · exact hend rfl
    · exact absurd hhi (by decide)
  rw [isSolid, hplain, Text.isBlank_eq_false hlo hhi]
  rfl

theorem isSolid_of_isClassName {name : List Char} (h : isClassName name) {c : Char} (hc : c ∈ name) :
    isSolid c := by
  have hall := List.all_eq_true.1 (Bool.and_eq_true_iff.1 h).2 c hc
  simp only [Text.isLetter, Text.isDigit, Bool.or_eq_true, Bool.and_eq_true, decide_eq_true_eq,
    Char.le_def, UInt32.le_iff_toNat_le] at hall
  rcases hall with ((hsmall | hcapital) | hdigit) | hmark
  · have hlo : 0x61 ≤ c.toNat := hsmall.1
    have hhi : c.toNat ≤ 0x7A := hsmall.2
    apply isSolid_of_lt <;> omega
  · have hlo : 0x41 ≤ c.toNat := hcapital.1
    have hhi : c.toNat ≤ 0x5A := hcapital.2
    apply isSolid_of_lt <;> omega
  · have hlo : 0x30 ≤ c.toNat := hdigit.1
    have hhi : c.toNat ≤ 0x39 := hdigit.2
    apply isSolid_of_lt <;> omega
  · have hmarks : ['-', '_', ':', '/', '.'].all isSolid = true := rfl
    exact List.all_eq_true.1 hmarks c (List.contains_iff_mem.1 hmark)

namespace ClassName

theorem isSolid_escape {name : String} (h : isClassName name.toList) :
    ∀ c ∈ (escape name).toList, isSolid c := by
  intro c hc
  rw [escape, String.toList_ofList] at hc
  rcases mem_escapeChars hc with hm | rfl
  · exact isSolid_of_isClassName h hm
  · decide

theorem isSolid_state (p : PseudoClass) : ∀ c ∈ p.state.toList, isSolid c := by
  have hall : (p.state.toList.all isSolid) = true := by cases p <;> decide +kernel
  exact List.all_eq_true.1 hall

theorem plain_ancestor (p : PseudoClass) : Plain p.ancestor.toList := by
  apply plain_of_all
  cases p <;> decide +kernel

theorem plain_target (target : Target) : Plain target.selector.toList := by
  apply plain_of_all
  cases target <;> decide

theorem head_point : Head "." := head_of_isHead (by decide)

/-- The selector of a class reads back whole, from the point or an ancestor to what a utility adds. -/
theorem head_selector {name : String} (h : isClassName name.toList) (target : Target) :
    Head ((ofString name).selector name target.selector) := by
  obtain ⟨hfirst, hancestors⟩ :=
    ancestors_ofSegments [] ((Text.pieces (· == ':') name.toList).map String.ofList)
  have hpoint : Head ((ofString name).ancestors ++ ".") := by
    refine ⟨?_, ⟨'.', hfirst, rfl⟩, '.', by simp, rfl⟩
    rw [String.toList_append]
    refine Plain.append (fun c hc => ?_) head_point.plain
    obtain ⟨p, hp⟩ := hancestors c hc
    exact plain_ancestor p c hp
  have hstates : ∀ c ∈ (ofString name).states.toList, isSolid c := by
    intro c hc
    obtain ⟨p, hp⟩ := states_ofSegments _ _ c hc
    exact isSolid_state p c hp
  have hlast : ∀ c, target.selector.toList.getLast? = some c → Text.isBlank c = false := by
    cases target <;> simp [Target.selector] <;> decide
  exact ((hpoint.append_solid (isSolid_escape h)).append_solid hstates).append
    (plain_target target) hlast

end ClassName

/-- A rule whose parts can be told apart in its text. -/
def StyleRule.Legible (rule : StyleRule) : Prop :=
  Head rule.selector ∧ ∀ d ∈ rule.declarations, Blocks.Legible d

theorem blank_indent (layout : Layout) (level : Nat) : Blank (layout.indent level) := by
  intro c hc
  unfold Layout.indent at hc
  split at hc
  · simp at hc
  · rw [String.toList_ofList] at hc
    rw [List.eq_of_mem_replicate hc]
    rfl

theorem blank_newline (layout : Layout) : Blank layout.newline := by
  intro c hc
  unfold Layout.newline at hc
  split at hc
  · simp at hc
  · have hfeed : c = '\n' := by simpa using hc
    rw [hfeed]
    rfl

section text
variable (layout : Layout) (level : Nat)

theorem lexes_layout_opening {head : String} (h : Head head) :
    Lexes (layout.opening level head) [.opening head] := by
  have hopen := ((lexes_blank (blank_indent layout level)).append (lexes_opening h)).append
    (lexes_blank (blank_newline layout))
  simp only [Layout.opening, String.append_assoc] at hopen ⊢
  exact hopen

theorem lexes_layout_closing : Lexes (layout.closing level) [.closing] :=
  ((lexes_blank (blank_indent layout level)).append lexes_closing).append
    (lexes_blank (blank_newline layout))

theorem lexes_declaration_text {d : Declaration} (h : Blocks.Legible d) :
    Lexes (d.text (layout.indent level) layout.newline) [.declaration d] := by
  have hline := ((lexes_blank (blank_indent layout level)).append (lexes_declaration h)).append
    (lexes_blank (blank_newline layout))
  simp only [Declaration.text, String.append_assoc] at hline ⊢
  exact hline

theorem StyleRule.Legible.lexes {rule : StyleRule} (h : rule.Legible) :
    Lexes (rule.text layout)
      (.opening rule.selector :: rule.declarations.map .declaration ++ [.closing]) := by
  have hbody := lexes_join fun d hd => lexes_declaration_text layout (rule.level + 1) (h.2 d hd)
  exact ((lexes_layout_opening layout rule.level h.1).append hbody).append
    (lexes_layout_closing layout rule.level)

end text

theorem head_atRule (q : MediaQuery) : Head q.atRule := by
  have hall : ∀ q ∈ MediaQuery.all, isHead q.atRule.toList := by decide +kernel
  exact head_of_isHead (hall q (MediaQuery.mem_all q))

namespace Rules

/-- The text of legible rules has the tokens of their outline. -/
theorem lexes_text (layout : Layout) {p : List MediaQuery} {r : Rules}
    (h : ∀ leaf ∈ r.leaves p, leaf.rule.Legible) : Lexes (r.text layout) r.outline.tokens := by
  induction r generalizing p with
  | nil => exact lexes_blank (by simp [Blank, text])
  | style key rule rest ih =>
    obtain ⟨hrule, hrest⟩ := List.forall_mem_cons.1 h
    have hboth := (hrule.lexes layout).append (ih hrest)
    simpa [text, outline, tokens] using hboth
  | media level query inner rest ihinner ih =>
    obtain ⟨hinner, hrest⟩ := List.forall_mem_append.1 h
    have hempty := text_eq_empty_iff layout inner
    by_cases hnil : inner.outline = .nil
    · have hbody := hempty.2 hnil
      simpa [text, outline, hnil, hbody] using ih hrest
    · have hblock := (((lexes_layout_opening layout level (head_atRule query)).append
        (ihinner hinner)).append (lexes_layout_closing layout level)).append (ih hrest)
      simpa [text, outline, hnil, mt hempty.1 hnil, tokens] using hblock

end Rules

theorem isSolid_of_isPropertyChar {c : Char} (h : isPropertyChar c) : isSolid c := by
  simp only [isPropertyChar, Bool.or_eq_true, Bool.and_eq_true, decide_eq_true_eq, Char.le_def,
    UInt32.le_iff_toNat_le, beq_iff_eq] at h
  rcases h with h | rfl
  · have hlo : 0x61 ≤ c.toNat := h.1
    have hhi : c.toNat ≤ 0x7A := h.2
    apply isSolid_of_lt <;> omega
  · decide

theorem plain_of_isValueChar {c : Char} (h : isValueChar c) : isDelimiter c = false := by
  have hspecial : ∀ a, isDelimiter a → a ∈ specialChars := by
    intro a ha
    simp only [isDelimiter, Bool.or_eq_true, beq_iff_eq] at ha
    rcases ha with (rfl | rfl) | rfl <;> decide
  simp only [isValueChar, Bool.and_eq_true, Bool.not_eq_true'] at h
  rw [← Bool.not_eq_true]
  intro hd
  rw [List.contains_iff_mem.2 (hspecial c hd)] at h
  exact Bool.noConfusion h.2

theorem Declaration.Tidy.legible {d : Declaration} (h : d.Tidy) : Blocks.Legible d := by
  obtain ⟨hne, hproperty⟩ := madeOf_iff.1 h.1
  obtain ⟨c, l, hl⟩ := List.exists_cons_of_ne_nil hne
  have hsolid : ∀ a ∈ d.property.toList, isDelimiter a = false ∧ Text.isBlank a = false := by
    intro a ha
    simpa [isSolid] using isSolid_of_isPropertyChar (hproperty a ha)
  constructor
  · exact fun a ha => (hsolid a ha).1
  · exact fun hm => absurd (hproperty ':' hm) (by decide)
  · exact ⟨c, by rw [hl]; rfl, (hsolid c (by rw [hl]; exact List.mem_cons_self)).2⟩
  · exact fun a ha => plain_of_isValueChar ((madeOf_iff.1 h.2).2 a ha)

namespace Sheet

theorem legible_containerRule {names : List String} (hne : names ≠ [])
    (hn : ∀ name ∈ names, isClassName name.toList) {property value : String}
    (hd : (⟨property, value⟩ : Declaration).Tidy) (layout : Layout) (level : Nat) :
    (containerRule layout names property value level).Legible := by
  have hcomma : Plain ",".toList := plain_of_all (by decide +kernel)
  have hseparator : Plain ("," ++ layout.newline ++ layout.indent level).toList := by
    rw [String.toList_append, String.toList_append]
    exact (hcomma.append (blank_newline layout).plain).append (blank_indent layout level).plain
  have hheads : ∀ s ∈ names.map fun name => "." ++ ClassName.escape name, Head s := by
    intro s hs
    obtain ⟨name, hm, rfl⟩ := List.mem_map.1 hs
    exact ClassName.head_point.append_solid (ClassName.isSolid_escape (hn name hm))
  refine ⟨Head.intercalate hseparator (by simpa using hne) hheads, ?_⟩
  intro d hmem
  rw [List.mem_singleton.1 hmem]
  exact hd.legible

theorem legible_isContainerRule {names : List String} (hne : names ≠ [])
    (hn : ∀ name ∈ names, isClassName name.toList) {layout : Layout} {rule : StyleRule}
    (h : IsContainerRule layout names rule) : rule.Legible := by
  rcases h with rfl | ⟨b, level, rfl⟩
  · exact legible_containerRule hne hn ⟨madeOf_literal rfl, madeOf_literal rfl⟩ layout 0
  · have hsize : madeOf isValueChar b.size := by cases b <;> exact madeOf_literal rfl
    exact legible_containerRule hne hn ⟨madeOf_literal rfl, hsize⟩ layout level

theorem legible_leaf? {name : String} (hn : isClassName name.toList) {leaf : Leaf}
    (h : leaf? name = some leaf) : leaf.rule.Legible := by
  obtain ⟨rule, hrule, rfl⟩ := Option.map_eq_some_iff.1 h
  obtain ⟨-, styling, hs, rfl⟩ := styleRule?_eq_some.1 hrule
  exact ⟨ClassName.head_selector hn styling.target, fun d hd => ((tidy_of_resolve? hs).2 d hd).legible⟩

/-- Every rule of a sheet is legible, those of its containers included. -/
theorem legible_leaves {names : List String} (hn : ∀ name ∈ names, isClassName name.toList)
    (layout : Layout) :
    ∀ leaf ∈ ((ofClasses names).expanded layout).cascade.leaves [], leaf.rule.Legible := by
  intro leaf hm
  have hm' := (Rules.leaves_cascade [] _).mem_iff.1 hm
  rcases mem_leaves_expanded hm' with hleaf | ⟨hne, hrule⟩
  · obtain ⟨name, hname, hleaf⟩ := List.mem_filterMap.1 ((leaves_ofClasses names).mem_iff.1 hleaf)
    exact legible_leaf? (hn name (List.mem_eraseDups.1 hname)) hleaf
  · refine legible_isContainerRule hne (fun name hname => ?_) hrule
    exact hn name (List.mem_eraseDups.1 (List.mem_filter.1 hname).1)

end Sheet

namespace Rules

/-- The blocks of the style rules, in order. -/
def styleBlocks : Rules → Blocks
  | nil => .nil
  | style _ rule rest => .block rule.selector rule.declarations .nil rest.styleBlocks
  | media _ _ _ rest => rest.styleBlocks

/-- The media blocks, in order. Inside each come its style rules, then what is added to it, then its media
blocks; one with nothing inside is left out. -/
def mediaBlocks (added : MediaQuery → Blocks) : Rules → Blocks
  | nil => .nil
  | style _ _ rest => rest.mediaBlocks added
  | media _ query inner rest =>
    let body := inner.styleBlocks.append ((added query).append (inner.mediaBlocks fun _ => .nil))
    if body = .nil then rest.mediaBlocks added
    else .block query.atRule [] body (rest.mediaBlocks added)

theorem outline_append (a b : Rules) : (a ++ b).outline = a.outline.append b.outline := by
  change (a.append b).outline = _
  induction a with
  | nil => rfl
  | style key rule rest ih => rw [append, outline, ih]; rfl
  | media level query inner rest _ ih =>
    rw [append, outline, outline, ih]
    split <;> rfl

theorem outline_plain {p : List MediaQuery} {r : Rules}
    (h : ∀ leaf ∈ r.leaves p, isMediaName leaf.key = false) : r.plain.outline = r.styleBlocks := by
  induction r with
  | nil => rfl
  | style key rule rest ih =>
    obtain ⟨hkey, hrest⟩ := List.forall_mem_cons.1 h
    rw [plain, if_neg (by simp [hkey]), outline, ih hrest, styleBlocks]
  | media level query inner rest _ ih => exact ih (List.forall_mem_append.1 h).2

theorem outline_responsive {p : List MediaQuery} {r : Rules}
    (h : ∀ leaf ∈ r.leaves p, isMediaName leaf.key = false) :
    r.responsive.outline = r.mediaBlocks fun _ => .nil := by
  induction r generalizing p with
  | nil => rfl
  | style key rule rest ih =>
    obtain ⟨hkey, hrest⟩ := List.forall_mem_cons.1 h
    rw [responsive, if_neg (by simp [hkey]), ih hrest, mediaBlocks]
  | media level query inner rest ihinner ih =>
    obtain ⟨hinner, hrest⟩ := List.forall_mem_append.1 h
    rw [responsive, outline, outline_append, outline_plain hinner, ihinner hinner, ih hrest]
    rfl

/-- The cascade shows style rules first, at every depth. -/
theorem outline_cascade {p : List MediaQuery} {r : Rules}
    (h : ∀ leaf ∈ r.leaves p, isMediaName leaf.key = false) :
    r.cascade.outline = r.styleBlocks.append (r.mediaBlocks fun _ => .nil) := by
  rw [cascade, outline_append, outline_plain h, outline_responsive h]

section insert
variable {key : String} (rule : StyleRule) {r : Rules}

theorem styleBlocks_insert (h : key ∉ r.keys) : (r.insert key rule).styleBlocks =
    r.styleBlocks.append (.block rule.selector rule.declarations .nil .nil) := by
  induction r with
  | nil => rfl
  | style k other rest ih =>
    simp only [keys, List.mem_cons, not_or] at h
    rw [insert, if_neg (Ne.symm h.1), styleBlocks, ih h.2]
    rfl
  | media level query inner rest _ ih =>
    simp only [keys, List.mem_cons, not_or] at h
    rw [insert, if_neg (Ne.symm h.1), styleBlocks, ih h.2]
    rfl

theorem mediaBlocks_insert (added : MediaQuery → Blocks) :
    (r.insert key rule).mediaBlocks added = r.mediaBlocks added := by
  induction r with
  | nil => rfl
  | style k other rest ih =>
    rw [insert]
    split
    · rfl
    · exact ih
  | media level query inner rest _ ih =>
    rw [insert]
    split
    · rfl
    · simp only [mediaBlocks, ih]

end insert

theorem styleBlocks_mapBreakpoints (f : Breakpoint → Nat → Rules → Rules) (r : Rules) :
    (r.mapBreakpoints f).styleBlocks = r.styleBlocks := by
  induction r with
  | nil => rfl
  | style key rule rest ih => rw [mapBreakpoints, styleBlocks, ih, styleBlocks]
  | media level query inner rest _ ih => cases query <;> exact ih

/-- Rules that are inserted into the blocks of breakpoints come behind the style rules there. -/
theorem mediaBlocks_mapBreakpoints {key : String} {rule : Breakpoint → Nat → StyleRule} {r : Rules}
    (hlevel : ∀ b ∈ r.blocks, b.level = 0) (hkey : ∀ b ∈ r.blocks, key ∉ b.inner.keys) :
    (r.mapBreakpoints fun b level rules => rules.insert key (rule b level)).mediaBlocks
        (fun _ => .nil) =
      r.mediaBlocks fun
        | .breakpoint b => .block (rule b 1).selector (rule b 1).declarations .nil .nil
        | .feature _ => .nil := by
  induction r with
  | nil => rfl
  | style key rule rest ih => exact ih hlevel hkey
  | media level query inner rest _ ih =>
    obtain ⟨rfl, hlevels⟩ := List.forall_mem_cons.1 hlevel
    obtain ⟨hinner, hkeys⟩ := List.forall_mem_cons.1 hkey
    cases query with
    | breakpoint b =>
      simp only [mapBreakpoints, mediaBlocks, ih hlevels hkeys, styleBlocks_insert _ hinner,
        mediaBlocks_insert, append_assoc]
      rfl
    | feature f => simp only [mapBreakpoints, mediaBlocks, ih hlevels hkeys]

end Rules

namespace Sheet
open Rules

/-- The block of the rule that containers share at a level, if there are any. -/
def containerBlock (layout : Layout) (containers : List String) (level : Nat)
    (property value : String) : Blocks :=
  if containers = [] then .nil
  else .block (selectorList layout level containers) [⟨property, value⟩] .nil .nil

/-- The blocks that a sheet shows: its style rules, then that of the containers, then its media blocks,
those of breakpoints with the size for the containers. -/
def outline (layout : Layout) (sheet : Sheet) : Blocks :=
  sheet.rules.styleBlocks.append
    ((containerBlock layout sheet.containers 0 "width" "100%").append
      (sheet.rules.mediaBlocks fun
        | .breakpoint b => containerBlock layout sheet.containers 1 "max-width" b.size
        | .feature _ => .nil))

theorem isMediaName_leaf {layout : Layout} {names : List String} {leaf : Leaf}
    (h : leaf ∈ ((ofClasses names).expanded layout).leaves []) : isMediaName leaf.key = false := by
  rw [isMediaName, ← Bool.not_eq_true]
  intro hname
  obtain ⟨q, hq⟩ := Option.isSome_iff_exists.1 hname
  rcases mem_leaves_rendered ((leaves_cascade [] _).mem_iff.2 h) with ⟨hown, -⟩ | ⟨hkey, -⟩
  · have hleaf := (mem_leaves_ofClasses.1 hown).2
    rw [leaf?, ← MediaQuery.name_of_ofName? hq, styleRule?_mediaName] at hleaf
    cases hleaf
  · have hnone : MediaQuery.ofName? containerKey = none := by decide +kernel
    rw [hkey, hnone] at hq
    cases hq

/-- What is stored, with the rules of the containers put in and media blocks put last, shows the blocks
of the sheet. -/
theorem outline_expanded (layout : Layout) (names : List String) :
    ((ofClasses names).expanded layout).cascade.outline = (ofClasses names).outline layout := by
  have hn := Distinct.nodup_eraseDups names
  have hrules : (ofClasses names).rules = builtAt names.eraseDups [] := by
    rw [builtAt, Arrival.past_nil]
    rfl
  have hfree : ∀ p, containerKey ∉ (builtAt names.eraseDups p).keys :=
    containerKey_notMem_builtAt hn
  have hblocks := blocks_builtAt hn []
  rw [outline_cascade fun leaf => isMediaName_leaf]
  -- Without containers nothing is put in. With some, their rule comes behind the style rules at the top and
  -- in each block of a breakpoint, none of which has its key yet.
  by_cases hc : (ofClasses names).containers = []
  · have hnone : ∀ level property value,
        containerBlock layout (ofClasses names).containers level property value = .nil :=
      fun _ _ _ => if_pos hc
    rw [expanded, hc, List.isEmpty_nil, if_pos rfl, outline]
    simp only [hnone]
    congr 2
    funext q
    cases q <;> rfl
  · have hsome : ∀ level property value,
        containerBlock layout (ofClasses names).containers level property value =
          .block (selectorList layout level (ofClasses names).containers) [⟨property, value⟩] .nil .nil :=
      fun _ _ _ => if_neg hc
    have hlevel : ∀ b ∈ ((builtAt names.eraseDups []).insert containerKey
        (containerRule layout (ofClasses names).containers "width" "100%" 0)).blocks, b.level = 0 := by
      rw [blocks_insert, hblocks, List.forall_mem_map]
      exact fun _ _ => rfl
    have hkey : ∀ b ∈ ((builtAt names.eraseDups []).insert containerKey
        (containerRule layout (ofClasses names).containers "width" "100%" 0)).blocks,
          containerKey ∉ b.inner.keys := by
      rw [blocks_insert, hblocks, List.forall_mem_map]
      exact fun q _ => hfree _
    rw [expanded, if_neg (by simpa using hc), styleBlocks_mapBreakpoints, outline, hrules,
      mediaBlocks_mapBreakpoints hlevel hkey, mediaBlocks_insert, styleBlocks_insert _ (hfree []),
      append_assoc]
    simp only [hsome, containerRule_eq]

theorem read_text_ofClasses {names : List String} (hn : ∀ name ∈ names, isClassName name.toList)
    (layout : Layout) :
    Blocks.read ((ofClasses names).text layout) = some ((ofClasses names).outline layout) := by
  have hlexes := Rules.lexes_text layout (legible_leaves hn layout)
  rw [← outline_expanded]
  exact hlexes.read_eq (Rules.pure_outline _)

end Sheet

namespace Compiler

/-- The text of a sheet whose classes have the characters of class names is read to its end, and what
is read are the blocks of the sheet, in order. So braces balance, and there is one pair of them for each
block and one semicolon for each declaration. -/
theorem read_text {calls : List (Partition × List String)}
    (h : ∀ call ∈ calls, ∀ name ∈ call.2, isClassName name.toList) (layout : Layout)
    (p : Partition) :
    let c := ({ layout } : Compiler).run calls
    let blocks := (c.sheet p).outline layout
    Blocks.read (c.text p) = some blocks ∧
      (c.text p).toList.count '\x7b' = blocks.blockCount ∧
      (c.text p).toList.count '\x7d' = blocks.blockCount ∧
      (c.text p).toList.count ';' = blocks.declarationCount := by
  intro c blocks
  have hn : ∀ name ∈ classesFor p calls, isClassName name.toList := by
    intro name hm
    obtain ⟨call, hc, hname⟩ := exists_of_mem_classesFor hm
    exact h call hc name hname
  have hread : Blocks.read (c.text p) = some blocks := by
    have hsheet := Sheet.read_text_ofClasses hn layout
    rwa [← text_run, ← sheet_run layout] at hsheet
  exact ⟨hread, count_of_read hread⟩

theorem read_text_mixed :
    let calls := [(Partition.critical, ["sm:p-4", "container", "md:dark:w-1/2", "sm:container"]),
      (.external, ["block"]), (.critical, ["group-hover:text-center"])]
    let c := ({ layout := ⟨false⟩ } : Compiler).run calls
    (∀ call ∈ calls, ∀ name ∈ call.2, isClassName name.toList) ∧
      Blocks.read (c.text .critical) =
        some (.block ".group:hover .group-hover\\:text-center" [⟨"text-align", "center"⟩] .nil
          (.block ".container,\n.sm\\:container" [⟨"width", "100%"⟩] .nil
          (.block "@media (min-width: 640px)" []
            (.block ".sm\\:p-4" [⟨"padding", "1rem"⟩] .nil
            (.block ".container,\n  .sm\\:container" [⟨"max-width", "640px"⟩] .nil .nil))
          (.block "@media (min-width: 768px)" []
            (.block ".container,\n  .sm\\:container" [⟨"max-width", "768px"⟩] .nil
            (.block "@media (prefers-color-scheme: dark)" []
              (.block ".md\\:dark\\:w-1\\/2" [⟨"width", "50%"⟩] .nil .nil) .nil)) .nil)))) := by
  intro calls c
  have h : ∀ call ∈ calls, ∀ name ∈ call.2, isClassName name.toList := by decide +kernel
  have hread := (read_text h ⟨false⟩ .critical).1
  refine ⟨h, hread.trans ?_⟩
  decide +kernel

end Compiler
end UtilityCss
