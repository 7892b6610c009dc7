import UtilityCss.Utility.Resolve
import UtilityCss.Proofs.Number.Rounding
import UtilityCss.Proofs.Text.MadeOf

namespace UtilityCss

def isPropertyChar (c : Char) : Bool := ('a' ≤ c && c ≤ 'z') || c == '-'

def isControl (c : Char) : Bool := c.toNat < 0x20 || (0x7F ≤ c.toNat && c.toNat < 0xA0)

/-- What opens or closes a block, ends a declaration or escapes. -/
def specialChars : List Char := ['\x7b', '\x7d', ';', '\\']

/-- A character that ends neither a declaration nor a line, and that escapes nothing. -/
def isValueChar (c : Char) : Bool := !isControl c && !specialChars.contains c

def Declaration.Tidy (d : Declaration) : Prop :=
  madeOf isPropertyChar d.property ∧ madeOf isValueChar d.value

def Styling.Tidy (s : Styling) : Prop :=
  s.declarations ≠ [] ∧ ∀ d ∈ s.declarations, d.Tidy

theorem tidy_of {pairs : List (String × String)} {target : Target} (hne : pairs ≠ [])
    (h : ∀ pair ∈ pairs, madeOf isPropertyChar pair.1 ∧ madeOf isValueChar pair.2) :
    (Styling.of pairs target).Tidy := by
  refine ⟨by simpa [Styling.of] using hne, ?_⟩
  intro d hd
  obtain ⟨pair, hm, rfl⟩ := List.mem_map.1 hd
  exact h pair hm

theorem tidy_setAll {properties : List String} {value : String}
    (hp : properties ≠ [] ∧ ∀ property ∈ properties, madeOf isPropertyChar property)
    (hv : madeOf isValueChar value) : (Styling.setAll properties value).Tidy := by
  apply tidy_of (by simpa using hp.1)
  intro pair hm
  obtain ⟨property, hproperty, rfl⟩ := List.mem_map.1 hm
  exact ⟨hp.2 property hproperty, hv⟩

theorem tidy_of_singleton {property value : String} {target : Target}
    (hp : madeOf isPropertyChar property) (hv : madeOf isValueChar value) :
    (Styling.of [(property, value)] target).Tidy := by
  apply tidy_of (by simp)
  intro pair hm
  rw [List.mem_singleton.1 hm]
  exact ⟨hp, hv⟩

theorem tidy_set {property value : String} (hp : madeOf isPropertyChar property)
    (hv : madeOf isValueChar value) : (Styling.set property value).Tidy := tidy_of_singleton hp hv

theorem madeOf_single {property : String} (h : madeOf isPropertyChar property) :
    [property] ≠ [] ∧ ∀ p ∈ [property], madeOf isPropertyChar p :=
  ⟨by simp, by simpa using h⟩

theorem madeOf_pair {first second : String} (h : madeOf isPropertyChar first)
    (h' : madeOf isPropertyChar second) :
    [first, second] ≠ [] ∧ ∀ p ∈ [first, second], madeOf isPropertyChar p :=
  ⟨by simp, by simp [h, h']⟩

/-- A value that may be missing, set for some properties. -/
theorem tidy_bind {α : Type} {value? : Option α} {f : α → String} (properties : List String)
    {s : Styling} (hp : properties ≠ [] ∧ ∀ property ∈ properties, madeOf isPropertyChar property)
    (hv : ∀ a, value? = some a → madeOf isValueChar (f a))
    (h : (value?.bind fun a => some (Styling.setAll properties (f a))) = some s) : s.Tidy := by
  obtain ⟨a, ha, he⟩ := Option.bind_eq_some_iff.1 h
  cases he
  exact tidy_setAll hp (hv a ha)

theorem tidy_bind_single {α : Type} {value? : Option α} {f : α → String} (property : String)
    {s : Styling} (hp : madeOf isPropertyChar property)
    (hv : ∀ a, value? = some a → madeOf isValueChar (f a))
    (h : (value?.bind fun a => some (Styling.setAll [property] (f a))) = some s) : s.Tidy :=
  tidy_bind [property] (madeOf_single hp) hv h

def specialCodes : List Nat := [0x7B, 0x7D, 0x3B, 0x5C]

/-- The codes of the ASCII characters among `isValueChar`. -/
def isValueCode (n : Nat) : Bool :=
  Nat.ble 0x20 n && Nat.blt n 0x7F && !specialCodes.any (Nat.beq n)

def isPropertyCode (n : Nat) : Bool := (Nat.ble 0x61 n && Nat.ble n 0x7A) || Nat.beq n 0x2D

theorem isValueChar_of_isValueCode {c : Char} (h : isValueCode c.toNat) : isValueChar c := by
  have hcodes : specialChars.map Char.toNat = specialCodes := rfl
  simp only [isValueCode, Bool.and_eq_true, Nat.ble_eq, Nat.blt_eq, Bool.not_eq_true',
    List.any_eq_false, Nat.beq_eq] at h
  obtain ⟨⟨hlo, hhi⟩, hne⟩ := h
  have hnot : c ∉ specialChars := fun hm => hne c.toNat (hcodes ▸ List.mem_map_of_mem hm) rfl
  rw [isValueChar, Bool.and_eq_true]
  refine ⟨?_, by simpa using hnot⟩
  simp only [isControl, Bool.not_eq_true', Bool.or_eq_false_iff, Bool.and_eq_false_iff,
    decide_eq_false_iff_not]
  omega

theorem isPropertyChar_of_isPropertyCode {c : Char} (h : isPropertyCode c.toNat) :
    isPropertyChar c := by
  simp only [isPropertyCode, Bool.or_eq_true, Bool.and_eq_true, Nat.ble_eq, Nat.beq_eq] at h
  simp only [isPropertyChar, Bool.or_eq_true, Bool.and_eq_true, decide_eq_true_eq, Char.le_def,
    UInt32.le_iff_toNat_le, beq_iff_eq]
  rcases h with h | h
  · exact .inl h
  · exact .inr (Char.toNat_inj.1 h)

theorem isValueCode_of_lt {n : Nat} (hlo : 0x20 ≤ n) (hhi : n < 0x7B) (hsemi : n ≠ 0x3B)
    (hback : n ≠ 0x5C) : isValueCode n := by
  simp only [isValueCode, Bool.and_eq_true, Nat.ble_eq, Nat.blt_eq, Bool.not_eq_true',
    List.any_eq_false, Nat.beq_eq]
  refine ⟨⟨hlo, by omega⟩, ?_⟩
  intro x hx
  simp only [specialCodes, List.mem_cons, List.not_mem_nil, or_false] at hx
  omega

theorem isValueChar_of_isDigit {c : Char} (h : Text.isDigit c) : isValueChar c := by
  simp only [Text.isDigit, Bool.and_eq_true, decide_eq_true_eq, Char.le_def,
    UInt32.le_iff_toNat_le] at h
  have hlo : 48 ≤ c.toNat := h.1
  have hhi : c.toNat ≤ 57 := h.2
  apply isValueChar_of_isValueCode
  apply isValueCode_of_lt <;> omega

theorem isValueChar_of_isPropertyChar {c : Char} (h : isPropertyChar c) : isValueChar c := by
  simp only [isPropertyChar, Bool.or_eq_true, Bool.and_eq_true, decide_eq_true_eq, Char.le_def,
    UInt32.le_iff_toNat_le, beq_iff_eq] at h
  apply isValueChar_of_isValueCode
  rcases h with h | rfl
  · have hlo : 97 ≤ c.toNat := h.1
    have hhi : c.toNat ≤ 122 := h.2
    apply isValueCode_of_lt <;> omega
  · rfl

theorem madeOf_of_isInteger {token : String} (h : isInteger token) : madeOf isValueChar token :=
  madeOf_mono (fun _ => isValueChar_of_isDigit) h

theorem madeOf_text (m : Magnitude) : madeOf isValueChar m.text := by
  match m with
  | .finite units =>
    rw [Magnitude.text]
    split
    · exact madeOf_literal rfl
    · rcases Magnitude.shortest units with ⟨digits, exponent⟩
      apply madeOf_ofList (Magnitude.positional_ne_nil digits exponent)
      intro c hc
      rcases Magnitude.isDigit_of_mem_positional hc with hd | rfl
      · exact isValueChar_of_isDigit hd
      · rfl
  | .infinite => exact madeOf_literal rfl
  | .undefined => exact madeOf_literal rfl

theorem madeOf_signed {value : String} (negative : Bool) (h : madeOf isValueChar value) :
    madeOf isValueChar (signed negative value) := by
  rw [signed]
  split
  · exact madeOf_append (madeOf_literal rfl) h
  · exact h

theorem madeOf_size (axis : Axis) (size : Size) : madeOf isValueChar (size.text axis) := by
  cases size with
  | zero => exact madeOf_literal rfl
  | auto => exact madeOf_literal rfl
  | pixel => exact madeOf_literal rfl
  | full => exact madeOf_literal rfl
  | screen =>
    cases axis with
    | width => exact madeOf_literal rfl
    | height => exact madeOf_literal rfl
  | percent amount => exact madeOf_append (madeOf_text amount) (madeOf_literal rfl)
  | rem amount => exact madeOf_append (madeOf_text amount) (madeOf_literal rfl)

theorem madeOf_length? {token value : String} {negative : Bool} {axis : Axis}
    (h : length? token negative axis = some value) : madeOf isValueChar value := by
  obtain ⟨size, -, rfl⟩ := Option.map_eq_some_iff.1 h
  exact madeOf_signed negative (madeOf_size axis size)

theorem madeOf_spacing? {token value : String} {negative : Bool}
    (h : spacing? token negative = some value) : madeOf isValueChar value := by
  obtain ⟨size, -, rfl⟩ := Option.map_eq_some_iff.1 h
  exact madeOf_signed negative (madeOf_size .width size)

namespace Measure
variable {c : Candidate} {s : Styling}

theorem madeOf_edgeProperties {letter property identifier : String} {properties : List String}
    (hp : madeOf isPropertyChar property)
    (h : edgeProperties? letter property identifier = some properties) :
    properties ≠ [] ∧ ∀ side ∈ properties, madeOf isPropertyChar side := by
  have hedges : ∀ e ∈ edges, e.2 ≠ [] ∧ ∀ side ∈ e.2, side.toList.all isPropertyChar := by
    decide
  obtain ⟨⟨edge, sides⟩, he, rfl⟩ := Option.map_eq_some_iff.1 h
  obtain ⟨hne, hall⟩ := hedges _ (List.mem_of_find?_eq_some he)
  refine ⟨by simpa using hne, ?_⟩
  intro side hm
  obtain ⟨part, hpart, rfl⟩ := List.mem_map.1 hm
  exact madeOf_append_of_all hp (List.all_eq_true.1 (hall part hpart))

theorem tidy_padding (h : padding c = some s) : s.Tidy := by
  simp only [padding, Option.bind_eq_bind, Option.bind_eq_some_iff, Option.pure_def,
    Option.some_inj] at h
  obtain ⟨token, -, value, hv, properties, hp, rfl⟩ := h
  exact tidy_setAll (madeOf_edgeProperties (madeOf_literal rfl) hp) (madeOf_spacing? hv)

theorem tidy_margin (h : margin c = some s) : s.Tidy := by
  have hvalue : ∀ value, madeOf isValueChar value →
      ((edgeProperties? "m" "margin" c.identifier).bind fun properties =>
        some (Styling.setAll properties value)) = some s → s.Tidy := by
    intro value hv hm
    obtain ⟨properties, hp, he⟩ := Option.bind_eq_some_iff.1 hm
    cases he
    exact tidy_setAll (madeOf_edgeProperties (madeOf_literal rfl) hp) hv
  simp only [margin, Option.bind_eq_bind, Option.bind_eq_some_iff, Option.pure_def] at h
  obtain ⟨token, -, h⟩ := h
  split at h
  · exact hvalue "auto" (madeOf_literal rfl) h
  · obtain ⟨value, hv, h⟩ := Option.bind_eq_some_iff.1 h
    exact hvalue value (madeOf_spacing? hv) h

theorem tidy_inset (h : inset c = some s) : s.Tidy := by
  -- The sides are either spelled out or the identifier itself, which is then one of the four.
  have hsides : ∀ identifier token sides rest, offsetSides? identifier token = some (sides, rest) →
      sides ≠ [] ∧ ∀ side ∈ sides, side ∈ ["top", "right", "bottom", "left"] := by
    intro identifier token sides rest hs
    unfold offsetSides? at hs
    split at hs
    · split at hs <;> cases hs <;> decide
    · split at hs
      · rename_i hm
        cases hs
        simpa using hm
      · cases hs
  have hnames : ∀ side ∈ ["top", "right", "bottom", "left"], madeOf isPropertyChar side := by
    simp only [List.forall_mem_cons]
    exact ⟨madeOf_literal rfl, madeOf_literal rfl, madeOf_literal rfl, madeOf_literal rfl, by simp⟩
  simp only [inset, Option.bind_eq_bind, Option.bind_eq_some_iff, Option.pure_def,
    Option.some_inj] at h
  obtain ⟨token, -, ⟨sides, rest⟩, hs, rfl⟩ := h
  obtain ⟨hne, hall⟩ := hsides _ _ _ _ hs
  apply tidy_setAll ⟨hne, fun side hm => hnames side (hall side hm)⟩
  apply madeOf_signed
  split
  · exact madeOf_literal rfl
  · exact madeOf_literal rfl

theorem tidy_gap (h : gap c = some s) : s.Tidy := by
  simp only [gap, Option.bind_eq_bind, Option.bind_eq_some_iff, Option.pure_def] at h
  obtain ⟨token, -, h⟩ := h
  have hv : ∀ rest value, spacing? rest false = some value → madeOf isValueChar value :=
    fun _ _ => madeOf_spacing?
  split at h
  · exact tidy_bind ["grid-column-gap", "column-gap"]
      (madeOf_pair (madeOf_literal rfl) (madeOf_literal rfl)) (hv _) h
  · exact tidy_bind ["grid-row-gap", "row-gap"]
      (madeOf_pair (madeOf_literal rfl) (madeOf_literal rfl)) (hv _) h
  · exact tidy_bind ["grid-gap", "gap"]
      (madeOf_pair (madeOf_literal rfl) (madeOf_literal rfl)) (hv _) h

theorem tidy_betweenSiblings {reverse leading trailing value : String} {leadingFirst : Bool}
    (hr : madeOf isPropertyChar reverse) (hl : madeOf isPropertyChar leading)
    (ht : madeOf isPropertyChar trailing) (hv : madeOf isValueChar value) :
    (Keyword.betweenSiblings reverse leading trailing value leadingFirst).Tidy := by
  have hr' : madeOf isValueChar reverse := madeOf_mono (fun _ => isValueChar_of_isPropertyChar) hr
  have hlead : madeOf isValueChar
      ("calc(" ++ value ++ " * calc(1 - var(" ++ reverse ++ ")))") := by
    apply madeOf_append _ (madeOf_literal rfl)
    apply madeOf_append _ hr'
    apply madeOf_append _ (madeOf_literal rfl)
    exact madeOf_append (madeOf_literal rfl) hv
  have htrail : madeOf isValueChar ("calc(" ++ value ++ " * var(" ++ reverse ++ "))") := by
    apply madeOf_append _ (madeOf_literal rfl)
    apply madeOf_append _ hr'
    apply madeOf_append _ (madeOf_literal rfl)
    exact madeOf_append (madeOf_literal rfl) hv
  have hzero : madeOf isValueChar "0" := madeOf_literal rfl
  cases leadingFirst with
  | true =>
    apply tidy_of (by simp)
    simp [hr, hl, ht, hlead, htrail, hzero]
  | false =>
    apply tidy_of (by simp)
    simp [hr, hl, ht, hlead, htrail, hzero]

theorem tidy_space (h : space c = some s) : s.Tidy := by
  -- The axis is a part of a property, so it must be one of two letters.
  have haxis : ∀ token axis rest, axisOf token = (some axis, rest) → axis = "x" ∨ axis = "y" := by
    intro token axis rest ha
    unfold axisOf at ha
    split at ha <;> cases ha
    · exact .inl rfl
    · exact .inr rfl
  have hreverse : ∀ axis, axis = "x" ∨ axis = "y" →
      madeOf isPropertyChar ("--space-" ++ axis ++ "-reverse") := by
    intro axis ha
    apply madeOf_append _ (madeOf_literal rfl)
    apply madeOf_append (madeOf_literal rfl)
    rcases ha with rfl | rfl
    · exact madeOf_literal rfl
    · exact madeOf_literal rfl
  simp only [space, Option.bind_eq_bind, Option.bind_eq_some_iff, Option.pure_def] at h
  obtain ⟨token, -, h⟩ := h
  split at h
  · rename_i axis rest ha
    have hr := hreverse axis (haxis _ _ _ ha)
    rw [Option.bind_some] at h
    split at h
    · cases h
      have hone : madeOf isValueChar "1" := madeOf_literal rfl
      apply tidy_of (by simp)
      simp [hr, hone]
    · obtain ⟨value, hv, he⟩ := Option.bind_eq_some_iff.1 h
      cases he
      split
      · exact tidy_betweenSiblings hr (madeOf_literal rfl) (madeOf_literal rfl) (madeOf_spacing? hv)
      · exact tidy_betweenSiblings hr (madeOf_literal rfl) (madeOf_literal rfl) (madeOf_spacing? hv)
  · cases h

theorem madeOf_integer? {token : Option String} {value : String} (h : integer? token = some value) :
    madeOf isValueChar value := by
  obtain ⟨-, hi⟩ := Option.filter_eq_some_iff.1 h
  exact madeOf_of_isInteger hi

theorem tidy_grid (h : grid c = some s) : s.Tidy := by
  have htracks : ∀ count, madeOf isValueChar count → madeOf isValueChar (tracks count) := by
    intro count hc
    exact madeOf_append (madeOf_append (madeOf_literal rfl) hc) (madeOf_literal rfl)
  simp only [grid, Option.bind_eq_bind, Option.bind_eq_some_iff, Option.pure_def] at h
  obtain ⟨token, -, ⟨kind, rest⟩, -, count, hc, h⟩ := h
  have hv := htracks count (madeOf_integer? hc)
  split at h
  · cases h
    exact tidy_set (madeOf_literal rfl) hv
  · cases h
    exact tidy_set (madeOf_literal rfl) hv
  · cases h

theorem tidy_gridLine {property : String} (hp : madeOf isPropertyChar property)
    (h : gridLine property c = some s) : s.Tidy := by
  simp only [gridLine, Option.bind_eq_bind, Option.bind_eq_some_iff, Option.pure_def] at h
  obtain ⟨token, -, ⟨kind, rest⟩, -, line, hl, h⟩ := h
  have hv := madeOf_integer? hl
  split at h
  · cases h
    apply tidy_set hp
    apply madeOf_append _ hv
    apply madeOf_append _ (madeOf_literal rfl)
    exact madeOf_append (madeOf_literal rfl) hv
  · cases h
    exact tidy_set (madeOf_append hp (madeOf_literal rfl)) hv
  · cases h
    exact tidy_set (madeOf_append hp (madeOf_literal rfl)) hv
  · cases h

theorem tidy_scale (h : scale c = some s) : s.Tidy := by
  simp only [scale, Option.bind_eq_bind, Option.bind_eq_some_iff, Option.pure_def] at h
  obtain ⟨token, -, h⟩ := h
  have hv : ∀ rest amount, hundredth? rest = some amount → madeOf isValueChar amount.text :=
    fun _ amount _ => madeOf_text amount
  split at h
  · exact tidy_bind_single Keyword.scaleX (madeOf_literal rfl) (hv _) h
  · exact tidy_bind_single Keyword.scaleY (madeOf_literal rfl) (hv _) h
  · cases h
  · exact tidy_bind [Keyword.scaleX, Keyword.scaleY]
      (madeOf_pair (madeOf_literal rfl) (madeOf_literal rfl)) (hv _) h

theorem tidy_zIndex (h : zIndex c = some s) : s.Tidy := by
  simp only [zIndex, Option.bind_eq_bind, Option.pure_def] at h
  exact tidy_bind_single "z-index" (madeOf_literal rfl)
    (fun _ hv => madeOf_signed _ (madeOf_integer? hv)) h

theorem tidy_order (h : order c = some s) : s.Tidy := by
  simp only [order, Option.bind_eq_bind, Option.pure_def] at h
  exact tidy_bind_single "order" (madeOf_literal rfl) (fun _ hv => madeOf_integer? hv) h

theorem tidy_height (h : height c = some s) : s.Tidy := by
  simp only [height, Option.bind_eq_bind, Option.pure_def] at h
  obtain ⟨token, -, h⟩ := Option.bind_eq_some_iff.1 h
  exact tidy_bind_single "height" (madeOf_literal rfl) (fun _ hv => madeOf_length? hv) h

theorem tidy_width (h : width c = some s) : s.Tidy := by
  simp only [width, Option.bind_eq_bind, Option.pure_def] at h
  obtain ⟨token, -, h⟩ := Option.bind_eq_some_iff.1 h
  exact tidy_bind_single "width" (madeOf_literal rfl) (fun _ hv => madeOf_length? hv) h

theorem tidy_leading (h : leading c = some s) : s.Tidy := by
  simp only [leading, Option.bind_eq_bind, Option.pure_def] at h
  obtain ⟨token, -, h⟩ := Option.bind_eq_some_iff.1 h
  exact tidy_bind_single "line-height" (madeOf_literal rfl) (fun _ hv => madeOf_spacing? hv) h

theorem tidy_opacity (h : opacity c = some s) : s.Tidy := by
  simp only [opacity, Option.bind_eq_bind, Option.bind_eq_some_iff, Option.pure_def] at h
  obtain ⟨token, -, amount, -, h⟩ := h
  split at h
  · cases h
    exact tidy_set (madeOf_literal rfl) (madeOf_text amount)
  · cases h

theorem madeOf_degrees? {token value : String} {negative : Bool}
    (h : degrees? token negative = some value) : madeOf isValueChar value := by
  obtain ⟨amount, -, rfl⟩ := Option.map_eq_some_iff.1 h
  split
  · exact madeOf_literal rfl
  · exact madeOf_signed _ (madeOf_append (madeOf_text amount) (madeOf_literal rfl))

theorem tidy_rotate (h : rotate c = some s) : s.Tidy := by
  simp only [rotate, Option.bind_eq_bind, Option.pure_def] at h
  obtain ⟨token, -, h⟩ := Option.bind_eq_some_iff.1 h
  exact tidy_bind_single Keyword.rotate (madeOf_literal rfl) (fun _ hv => madeOf_degrees? hv) h

theorem tidy_translate (h : translate c = some s) : s.Tidy := by
  have hvalue : ∀ property axis rest, madeOf isPropertyChar property →
      (if rest = "auto" ∨ rest = "screen" then none.bind fun _ : PUnit =>
        (length? rest c.negative axis).bind fun value => some (Styling.set property value)
      else (length? rest c.negative axis).bind fun value => some (Styling.set property value)) =
        some s → s.Tidy := by
    intro property axis rest hp h
    split at h
    · cases h
    · obtain ⟨value, hv, he⟩ := Option.bind_eq_some_iff.1 h
      cases he
      exact tidy_set hp (madeOf_length? hv)
  -- Both axes end in the same way.
  simp only [translate, Option.bind_eq_bind, Option.pure_def] at h
  obtain ⟨token, -, h⟩ := Option.bind_eq_some_iff.1 h
  split at h
  · exact hvalue Keyword.translateX .width _ (madeOf_literal rfl) h
  · exact hvalue Keyword.translateY .height _ (madeOf_literal rfl) h
  · cases h

theorem tidy_skew (h : skew c = some s) : s.Tidy := by
  simp only [skew, Option.bind_eq_bind, Option.pure_def] at h
  obtain ⟨token, -, h⟩ := Option.bind_eq_some_iff.1 h
  split at h
  · exact tidy_bind_single Keyword.skewX (madeOf_literal rfl) (fun _ hv => madeOf_degrees? hv) h
  · exact tidy_bind_single Keyword.skewY (madeOf_literal rfl) (fun _ hv => madeOf_degrees? hv) h
  · cases h

theorem tidy_timing {property : String} (hp : madeOf isPropertyChar property)
    (h : timing property c = some s) : s.Tidy := by
  simp only [timing, Option.bind_eq_bind, Option.pure_def] at h
  obtain ⟨token, -, h⟩ := Option.bind_eq_some_iff.1 h
  split at h
  · rename_i hi
    cases h
    exact tidy_set hp (madeOf_append (madeOf_of_isInteger hi) (madeOf_literal rfl))
  · cases h

end Measure

theorem tidy_values {identifier property : String} {pairs : List (String × String)}
    (hp : madeOf isPropertyChar property) (hv : ∀ pair ∈ pairs, madeOf isValueChar pair.2) :
    ∀ e ∈ Keyword.values identifier property pairs, e.styling.Tidy := by
  intro e he
  obtain ⟨pair, hm, rfl⟩ := List.mem_map.1 he
  exact tidy_set hp (hv pair hm)

theorem madeOf_colors : ∀ color ∈ Palette.colors, madeOf isValueChar color.2 := by
  have hbytes : ∀ color ∈ Palette.colors, bytesMadeOf isValueCode color.2 := by decide +kernel
  intro color hc
  exact madeOf_of_bytesMadeOf (fun _ => isValueChar_of_isValueCode) (hbytes color hc)

theorem tidy_colored : ∀ e ∈ Keyword.colored, e.styling.Tidy := by
  intro e he
  simp only [Keyword.colored, List.mem_append] at he
  rcases he with (((he | he) | he) | he) | he
  · exact tidy_values (madeOf_literal rfl) madeOf_colors e he
  · exact tidy_values (madeOf_literal rfl) madeOf_colors e he
  · exact tidy_values (madeOf_literal rfl) madeOf_colors e he
  · obtain ⟨color, hc, rfl⟩ := List.mem_map.1 he
    exact tidy_of_singleton (madeOf_literal rfl) (madeOf_colors color hc)
  · obtain ⟨color, hc, rfl⟩ := List.mem_map.1 he
    exact tidy_of_singleton (madeOf_literal rfl) (madeOf_colors color hc)

/-- Rows whose texts are checked byte by byte. -/
theorem tidy_of_bytesMadeOf {rows : List Keyword.Entry}
    (h : ∀ e ∈ rows, e.styling.declarations ≠ [] ∧ ∀ d ∈ e.styling.declarations,
      bytesMadeOf isPropertyCode d.property ∧ bytesMadeOf isValueCode d.value) :
    ∀ e ∈ rows, e.styling.Tidy := by
  intro e he
  obtain ⟨hne, hall⟩ := h e he
  refine ⟨hne, ?_⟩
  intro d hd
  obtain ⟨hp, hv⟩ := hall d hd
  exact ⟨madeOf_of_bytesMadeOf (fun _ => isPropertyChar_of_isPropertyCode) hp,
    madeOf_of_bytesMadeOf (fun _ => isValueChar_of_isValueCode) hv⟩

section table
open Keyword

set_option maxRecDepth 2000 in
theorem tidy_fonts : ∀ e ∈ fonts, e.styling.Tidy := by
  intro e he
  simp only [fonts, List.append_assoc, List.mem_append] at he
  rcases he with he | he | he | he
  · exact tidy_of_bytesMadeOf (by decide +kernel) e he
  · exact tidy_of_bytesMadeOf (by decide +kernel) e he
  · -- The families are too long for their bytes to be quick.
    refine tidy_values (madeOf_literal rfl) ?_ e he
    simp only [List.forall_mem_cons]
    refine ⟨madeOf_literal ?_, madeOf_literal ?_, madeOf_literal ?_, by simp⟩
    all_goals decide +kernel
  · exact tidy_of_bytesMadeOf (by decide +kernel) e he

theorem tidy_of_mem_table {e : Keyword.Entry} (h : e ∈ table) : e.styling.Tidy := by
  unfold table at h
  simp only [List.mem_append, or_assoc] at h
  rcases h with h | h | h | h | h | h | h | h | h | h | h | h | h | h | h | h | h | h | h | h
  -- The fonts are the eighth of the tables, and the coloured rows the last.
  iterate 7 exact tidy_of_bytesMadeOf (by decide +kernel) e h
  · exact tidy_fonts e h
  iterate 11 exact tidy_of_bytesMadeOf (by decide +kernel) e h
  · exact tidy_colored e h

theorem tidy_of_keyword {identifier : String} {token : Option String} {s : Styling}
    (h : Keyword.styling? identifier token = some s) : s.Tidy := by
  obtain ⟨e, he, rfl⟩ := Option.map_eq_some_iff.1 h
  exact tidy_of_mem_table (List.mem_of_find?_eq_some he)

end table

theorem tidy_of_measure {u : Utility} {c : Candidate} {s : Styling} (h : u.measure c = some s) :
    s.Tidy := by
  unfold Utility.measure at h
  split at h
  · exact Measure.tidy_inset h
  · exact Measure.tidy_zIndex h
  · exact Measure.tidy_space h
  · exact Measure.tidy_order h
  · exact Measure.tidy_grid h
  · exact Measure.tidy_gridLine (madeOf_literal rfl) h
  · exact Measure.tidy_gridLine (madeOf_literal rfl) h
  · exact Measure.tidy_gap h
  · exact Measure.tidy_padding h
  · exact Measure.tidy_margin h
  · exact Measure.tidy_height h
  · exact Measure.tidy_width h
  · exact Measure.tidy_leading h
  · exact Measure.tidy_opacity h
  · exact Measure.tidy_scale h
  · exact Measure.tidy_rotate h
  · exact Measure.tidy_translate h
  · exact Measure.tidy_skew h
  · exact Measure.tidy_timing (madeOf_literal rfl) h
  · exact Measure.tidy_timing (madeOf_literal rfl) h
  · cases h

/-- Whatever a candidate's texts are, its declarations are tidy. -/
theorem tidy_of_resolve? {c : Candidate} {s : Styling} (h : c.resolve? = some s) : s.Tidy := by
  obtain ⟨utility, -, h⟩ := Option.bind_eq_some_iff.1 h
  rcases Option.or_eq_some_iff.1 h with hk | ⟨-, hm⟩
  · exact tidy_of_keyword hk
  · exact tidy_of_measure hm

/-- A styling that can be written into a rule as it is: nothing in it ends a declaration or a block, or
begins another. -/
structure Styling.Contained (s : Styling) : Prop where
  declarations_ne : s.declarations ≠ []
  property_ne : ∀ d ∈ s.declarations, d.property ≠ ""
  property_chars : ∀ d ∈ s.declarations, ∀ c ∈ d.property.toList, ('a' ≤ c ∧ c ≤ 'z') ∨ c = '-'
  value_ne : ∀ d ∈ s.declarations, d.value ≠ ""
  value_chars : ∀ d ∈ s.declarations, ∀ c ∈ d.value.toList,
    c ≠ '\x7b' ∧ c ≠ '\x7d' ∧ c ≠ ';' ∧ c ≠ '\\' ∧ isControl c = false
  target : s.target = .element ∨
    s.target.selector ∈ [":after", "::placeholder", " > :not(template) ~ :not(template)"]

theorem ne_empty_of_madeOf {p : Char → Bool} {s : String} (h : madeOf p s) : s ≠ "" := by
  rintro rfl
  exact (madeOf_iff.1 h).1 rfl

/-- What a candidate stands for is contained, whatever its identifier, its token and its sign are. -/
theorem contained_of_resolve? {c : Candidate} {s : Styling} (h : c.resolve? = some s) :
    s.Contained where
  declarations_ne := (tidy_of_resolve? h).1
  property_ne d hd := ne_empty_of_madeOf ((tidy_of_resolve? h).2 d hd).1
  property_chars d hd a ha := by
    have hp := (madeOf_iff.1 ((tidy_of_resolve? h).2 d hd).1).2 a ha
    simpa [isPropertyChar] using hp
  value_ne d hd := ne_empty_of_madeOf ((tidy_of_resolve? h).2 d hd).2
  value_chars d hd a ha := by
    have hv := (madeOf_iff.1 ((tidy_of_resolve? h).2 d hd).2).2 a ha
    simp only [isValueChar, specialChars, Bool.and_eq_true, Bool.not_eq_true', List.contains_cons,
      List.contains_nil, Bool.or_eq_false_iff, beq_eq_false_iff_ne, and_true] at hv
    obtain ⟨hcontrol, hopen, hclose, hend, hescape⟩ := hv
    exact ⟨hopen, hclose, hend, hescape, hcontrol⟩
  target := by cases s.target <;> simp [Target.selector]

theorem contained_space_between :
    (⟨"space", some "y-px", true⟩ : Candidate).resolve? = some
      (Keyword.betweenSiblings "--space-y-reverse" "margin-top" "margin-bottom" "-1px" true) ∧
    (Keyword.betweenSiblings "--space-y-reverse" "margin-top" "margin-bottom" "-1px"
      true).Contained := by
  have h : (⟨"space", some "y-px", true⟩ : Candidate).resolve? = some
      (Keyword.betweenSiblings "--space-y-reverse" "margin-top" "margin-bottom" "-1px" true) := by
    decide +kernel
  exact ⟨h, contained_of_resolve? h⟩

end UtilityCss
