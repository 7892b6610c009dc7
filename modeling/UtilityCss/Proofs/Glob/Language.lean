import UtilityCss.Glob.Sign
import Mathlib.Computability.Language

namespace UtilityCss.Glob

/-- The texts of one byte that is admitted. -/
def byte (free : UInt8 → Bool) : Language UInt8 := {s | ∃ b, free b ∧ s = [b]}

/-- The texts whose bytes are all admitted. -/
def bytes (free : UInt8 → Bool) : Language UInt8 := {s | ∀ b ∈ s, free b}

/-- No directories, or some with a slash behind them. -/
def directories : Language UInt8 := 1 + bytes (fun _ => true) * byte (· == slash)

mutual

/-- The texts that a sign stands for. -/
def Sign.language (separated : Bool) : Sign → Language UInt8
  | .literal c => {bytesOf c}
  | .one => byte fun b => !(separated && b == slash)
  | .many => bytes fun b => !(separated && b == slash)
  | .leading => directories
  | .beneath => byte (· == slash) * bytes fun _ => true
  | .between => byte (· == slash) * directories
  | .oneOf negated ranges => byte fun b => ranges.any (inRange b) != negated
  | .choice alternatives =>
    if areVoid alternatives then 1 else languageOfSome separated alternatives

def languageOf (separated : Bool) : List Sign → Language UInt8
  | [] => 1
  | sign :: signs => sign.language separated * languageOf separated signs

/-- The texts of alternatives, of which the empty ones do not count. -/
def languageOfSome (separated : Bool) : List (List Sign) → Language UInt8
  | [] => 0
  | signs :: rest =>
    let others := languageOfSome separated rest
    if isVoid signs then others else languageOf separated signs + others

end

theorem languageOf_append (separated : Bool) (signs more : List Sign) :
    languageOf separated (signs ++ more) = languageOf separated signs * languageOf separated more := by
  induction signs with
  | nil => rw [List.nil_append, languageOf, one_mul]
  | cons sign signs ih => rw [List.cons_append, languageOf, languageOf, ih, mul_assoc]

theorem languageOf_concat (separated : Bool) (signs : List Sign) (sign : Sign) :
    languageOf separated (signs ++ [sign]) =
      languageOf separated signs * sign.language separated := by
  rw [languageOf_append, languageOf, languageOf, mul_one]

theorem languageOf_singleton (separated : Bool) (sign : Sign) :
    languageOf separated [sign] = sign.language separated :=
  mul_one _

theorem languageOf_literals (separated : Bool) (text : List Char) :
    languageOf separated (text.map .literal) = {text.flatMap bytesOf} := by
  induction text with
  | nil => rfl
  | cons c text ih =>
    rw [List.map_cons, languageOf, ih, Sign.language, List.flatMap_cons]
    exact Set.image2_singleton

theorem singleton_mem_byte {free : UInt8 → Bool} {b : UInt8} (h : free b) : [b] ∈ byte free :=
  ⟨b, h, rfl⟩

theorem mem_bytes_true (s : Bytes) : s ∈ bytes fun _ => true := fun _ _ => rfl

theorem concat_slash_mem_directories (s : Bytes) : s ++ [slash] ∈ directories :=
  .inr (Language.append_mem_mul (mem_bytes_true s) (singleton_mem_byte rfl))

theorem slash_cons_mem_beneath (separated : Bool) (s : Bytes) :
    slash :: s ∈ Sign.beneath.language separated :=
  Language.append_mem_mul (singleton_mem_byte (b := slash) rfl) (mem_bytes_true s)

theorem slash_cons_mem_between (separated : Bool) {s : Bytes} (h : s ∈ directories) :
    slash :: s ∈ Sign.between.language separated :=
  Language.append_mem_mul (singleton_mem_byte (b := slash) rfl) h

/-- Signs that stand for texts with a slash at their start. -/
def Sign.IsSlashLed : Sign → Prop
  | .literal c => c = '/'
  | .beneath | .between => True
  | _ => False

theorem Sign.IsSlashLed.eq_cons {separated : Bool} {sign : Sign} (h : sign.IsSlashLed) {s : Bytes}
    (hs : s ∈ sign.language separated) : ∃ rest, s = slash :: rest := by
  cases sign with
  | literal c =>
    obtain rfl : c = '/' := h
    exact ⟨[], hs⟩
  | beneath | between =>
    obtain ⟨_, ⟨b, hb, rfl⟩, rest, -, rfl⟩ := Language.mem_mul.1 hs
    rw [eq_of_beq hb]
    exact ⟨rest, rfl⟩
  | one | many | leading | oneOf | choice => exact h.elim

/-- What stands between two places of a text. -/
def slice (s : Bytes) (i j : Nat) : Bytes := (s.drop i).take (j - i)

theorem length_slice {s : Bytes} {i j : Nat} (hj : j ≤ s.length) : (slice s i j).length = j - i := by
  simp only [slice, List.length_take, List.length_drop]
  omega

theorem slice_append (s : Bytes) {i k j : Nat} (hi : i ≤ k) (hk : k ≤ j) :
    slice s i k ++ slice s k j = slice s i j := by
  obtain ⟨a, rfl⟩ := Nat.exists_eq_add_of_le hi
  obtain ⟨b, rfl⟩ := Nat.exists_eq_add_of_le hk
  simp only [slice, show i + a - i = a by omega, show i + a + b - (i + a) = b by omega,
    show i + a + b - i = a + b by omega, List.take_add, List.drop_drop]

theorem slice_eq_append {s a b : Bytes} {i j : Nat} (hi : i ≤ j) (hj : j ≤ s.length)
    (h : slice s i j = a ++ b) : ∃ k, i ≤ k ∧ k ≤ j ∧ slice s i k = a ∧ slice s k j = b := by
  have hlength := congrArg List.length h
  rw [length_slice hj, List.length_append] at hlength
  refine ⟨i + a.length, by omega, by omega, ?_⟩
  rw [← slice_append s (by omega : i ≤ i + a.length) (by omega)] at h
  exact List.append_inj h (by rw [length_slice (by omega)]; omega)

theorem slice_eq_nil_iff {s : Bytes} {i j : Nat} (hi : i ≤ j) (hj : j ≤ s.length) :
    slice s i j = [] ↔ i = j := by
  rw [← List.length_eq_zero_iff, length_slice hj]
  omega

theorem slice_succ {s : Bytes} {i : Nat} {b : UInt8} (h : s[i]? = some b) :
    slice s i (i + 1) = [b] := by
  obtain ⟨hi, rfl⟩ := List.getElem?_eq_some_iff.1 h
  rw [slice, Nat.add_sub_cancel_left, List.drop_eq_getElem_cons hi]
  rfl

theorem slice_eq_singleton {s : Bytes} {i j : Nat} {b : UInt8} (hj : j ≤ s.length)
    (h : slice s i j = [b]) : j = i + 1 ∧ s[i]? = some b := by
  have hlength := congrArg List.length h
  rw [length_slice hj, List.length_singleton] at hlength
  obtain rfl : j = i + 1 := by omega
  have hi : i < s.length := by omega
  rw [slice_succ (List.getElem?_eq_getElem hi), List.cons.injEq] at h
  exact ⟨rfl, by rw [List.getElem?_eq_getElem hi, h.1]⟩

theorem slice_zero_length (s : Bytes) : slice s 0 s.length = s := by
  simp [slice]

namespace Marks

/-- One set of marks leads to another over the texts of a language: what is marked in the other is just
what lies behind a marked place by such a text. -/
structure Leads (L : Language UInt8) (s : Bytes) (m m' : Marks) : Prop where
  length : m'.length = s.length + 1
  marked_iff {j} : j ≤ s.length →
    (m'[j]? = some true ↔ ∃ i, i ≤ j ∧ m[i]? = some true ∧ slice s i j ∈ L)

section leads
variable {s : Bytes} {m m' m'' : Marks} {L M : Language UInt8}

theorem leads_one (hm : m.length = s.length + 1) : Leads 1 s m m where
  length := hm
  marked_iff {j} hj := by
    constructor
    · exact fun h => ⟨j, le_rfl, h, (slice_eq_nil_iff le_rfl hj).2 rfl⟩
    · rintro ⟨i, hi, h, hs⟩
      rwa [← (slice_eq_nil_iff hi hj).1 hs]

theorem leads_zero (hm : m.length = s.length + 1) : Leads 0 s m (m.map fun _ => false) where
  length := by rw [List.length_map, hm]
  marked_iff {j} _ := by simp [List.getElem?_replicate]

theorem Leads.mul (h : Leads L s m m') (h' : Leads M s m' m'') : Leads (L * M) s m m'' where
  length := h'.length
  marked_iff {j} hj := by
    rw [h'.marked_iff hj]
    constructor
    · rintro ⟨k, hk, hmark, hM⟩
      obtain ⟨i, hi, hmark, hL⟩ := (h.marked_iff (hk.trans hj)).1 hmark
      exact ⟨i, hi.trans hk, hmark, Language.mem_mul.2 ⟨_, hL, _, hM, slice_append s hi hk⟩⟩
    · rintro ⟨i, hi, hmark, hLM⟩
      obtain ⟨a, ha, b, hb, hs⟩ := Language.mem_mul.1 hLM
      obtain ⟨k, hik, hkj, rfl, rfl⟩ := slice_eq_append hi hj hs.symm
      exact ⟨k, hkj, (h.marked_iff (hkj.trans hj)).2 ⟨i, hik, hmark, ha⟩, hb⟩

theorem Leads.add (h : Leads L s m m') (h' : Leads M s m m'') :
    Leads (L + M) s m (either m' m'') where
  length := by rw [either, List.length_zipWith, h.length, h'.length, Nat.min_self]
  marked_iff {j} hj := by
    have hm' : j < m'.length := by rw [h.length]; omega
    have hm'' : j < m''.length := by rw [h'.length]; omega
    have heither : (either m' m'')[j]? = some true ↔ m'[j]? = some true ∨ m''[j]? = some true := by
      simp [either, List.getElem?_zipWith, List.getElem?_eq_getElem hm',
        List.getElem?_eq_getElem hm'']
    rw [heither, h.marked_iff hj, h'.marked_iff hj, ← exists_or]
    simp only [Language.mem_add, and_or_left]

theorem leads_step (free : UInt8 → Bool) (hm : m.length = s.length + 1) :
    Leads (byte free) s m (step free s m) where
  length := by simp [step, hm]
  marked_iff {j} hj := by
    constructor
    · intro h
      cases j with
      | zero => simp [step] at h
      | succ i =>
        rw [step, List.getElem?_cons_succ, List.getElem?_zipWith_eq_some] at h
        obtain ⟨b, mark, hb, hmark, hfree⟩ := h
        rw [Bool.and_eq_true] at hfree
        exact ⟨i, by omega, by rw [hmark, hfree.2], b, hfree.1, slice_succ hb⟩
    · rintro ⟨i, -, hmark, b, hfree, hslice⟩
      obtain ⟨rfl, hb⟩ := slice_eq_singleton hj hslice
      rw [step, List.getElem?_cons_succ, List.getElem?_zipWith_eq_some]
      exact ⟨b, true, hb, hmark, by rw [hfree]; rfl⟩

theorem mem_bytes_cons {free : UInt8 → Bool} {b : UInt8} {s : Bytes} :
    b :: s ∈ bytes free ↔ free b ∧ s ∈ bytes free :=
  List.forall_mem_cons

theorem nil_mem_bytes (free : UInt8 → Bool) : [] ∈ bytes free := List.forall_mem_nil _

theorem marked_spread (free : UInt8 → Bool) (led : Bool) {j : Nat} (hm : m.length = s.length + 1)
    (hj : j ≤ s.length) : (spread free led s m)[j]? = some true ↔
      (led ∧ s.take j ∈ bytes free) ∨
        ∃ i, i ≤ j ∧ m[i]? = some true ∧ slice s i j ∈ bytes free := by
  induction s generalizing m led j with
  | nil =>
    obtain rfl : j = 0 := Nat.le_zero.1 hj
    obtain ⟨mark, rfl⟩ := List.length_eq_one_iff.1 hm
    simp [spread, slice, nil_mem_bytes]
  | cons b s ih =>
    obtain ⟨mark, m, rfl⟩ := List.exists_cons_of_length_eq_add_one hm
    have hm : m.length = s.length + 1 := Nat.succ.inj hm
    rw [spread]
    cases j with
    | zero => simp [slice, nil_mem_bytes]
    | succ j =>
      -- A mark at the front is one to be led on from, behind it the text is shorter.
      have hsome : (∃ i, i ≤ j + 1 ∧ (mark :: m)[i]? = some true ∧
          slice (b :: s) i (j + 1) ∈ bytes free) ↔ (mark ∧ free b ∧ s.take j ∈ bytes free) ∨
            ∃ i, i ≤ j ∧ m[i]? = some true ∧ slice s i j ∈ bytes free := by
        rw [← Nat.or_exists_add_one]
        simp [slice, mem_bytes_cons]
      rw [List.getElem?_cons_succ, hsome]
      refine (ih (free b && (led || mark)) hm (Nat.le_of_succ_le_succ hj)).trans ?_
      rw [← or_assoc, List.take_succ_cons, mem_bytes_cons]
      refine or_congr_left ?_
      rw [Bool.and_eq_true, Bool.or_eq_true, and_assoc, or_and_right, and_or_left,
        @and_left_comm _ (led = true), @and_left_comm _ (mark = true)]

theorem leads_spread (free : UInt8 → Bool) (hm : m.length = s.length + 1) :
    Leads (bytes free) s m (spread free false s m) where
  length := by
    generalize false = led
    induction s generalizing m led with
    | nil => simpa [spread] using hm
    | cons b s ih =>
      obtain ⟨mark, m, rfl⟩ := List.exists_cons_of_length_eq_add_one hm
      rw [spread, List.length_cons, ih (Nat.succ.inj hm), List.length_cons]
  marked_iff {j} hj := by simpa using marked_spread free false hm hj

theorem leads_directories (hm : m.length = s.length + 1) :
    Leads directories s m (either m (behindSlash s m)) := by
  have hspread := leads_spread (fun _ => true) hm
  exact (leads_one hm).add (hspread.mul (leads_step _ hspread.length))

theorem leads_literal (t : Bytes) (hm : m.length = s.length + 1) :
    Leads {t} s m (t.foldl (fun m a => step (· == a) s m) m) := by
  induction t generalizing m with
  | nil => exact leads_one hm
  | cons a t ih =>
    have hstep := leads_step (· == a) hm
    have htext : ({a :: t} : Language UInt8) = byte (· == a) * {t} := by
      ext x
      rw [Language.mem_mul]
      constructor
      · rintro rfl
        exact ⟨[a], ⟨a, by simp, rfl⟩, t, rfl, rfl⟩
      · rintro ⟨_, ⟨b, hb, rfl⟩, _, rfl, rfl⟩
        rw [eq_of_beq hb]
        rfl
    rw [htext, List.foldl_cons]
    exact hstep.mul (ih hstep.length)

end leads

end Marks

open Marks

mutual

theorem Sign.leads_reach (separated : Bool) {s : Bytes} {m : Marks} (hm : m.length = s.length + 1) :
    (sign : Sign) → Leads (sign.language separated) s m (sign.reach separated s m)
  | .literal c => leads_literal (bytesOf c) hm
  | .one => leads_step _ hm
  | .many => leads_spread _ hm
  | .leading => leads_directories hm
  | .beneath => (leads_step _ hm).mul (leads_spread _ (leads_step _ hm).length)
  | .between => (leads_step _ hm).mul (leads_directories (leads_step _ hm).length)
  | .oneOf _ _ => leads_step _ hm
  | .choice alternatives => by
    rw [Sign.language, Sign.reach]
    split
    · exact leads_one hm
    · exact leads_reachSome separated hm alternatives

theorem leads_reach (separated : Bool) {s : Bytes} {m : Marks} (hm : m.length = s.length + 1) :
    (signs : List Sign) → Leads (languageOf separated signs) s m (reach separated s m signs)
  | [] => leads_one hm
  | sign :: signs =>
    have hsign := sign.leads_reach separated hm
    hsign.mul (leads_reach separated hsign.length signs)

theorem leads_reachSome (separated : Bool) {s : Bytes} {m : Marks} (hm : m.length = s.length + 1) :
    (alternatives : List (List Sign)) →
      Leads (languageOfSome separated alternatives) s m (reachSome separated s m alternatives)
  | [] => leads_zero hm
  | signs :: rest => by
    rw [languageOfSome, reachSome]
    split
    · exact leads_reachSome separated hm rest
    · exact (leads_reach separated hm signs).add (leads_reachSome separated hm rest)

end

/-- A glob matches just the texts of its language. -/
theorem accepts_iff (separated : Bool) (signs : List Sign) (s : Bytes) :
    accepts separated signs s ↔ s ∈ languageOf separated signs := by
  have hstart : (Marks.start s).length = s.length + 1 := by simp [Marks.start]
  have hreach := leads_reach separated hstart signs
  have hmark : ∀ i, (Marks.start s)[i]? = some true ↔ i = 0 := by
    intro i
    cases i <;> simp [Marks.start, List.getElem?_replicate]
  have hlast := hreach.marked_iff (le_refl s.length)
  have haccepts : accepts separated signs s ↔
      (reach separated s (Marks.start s) signs)[s.length]? = some true := by
    rw [accepts, List.getLast?_eq_getElem?, hreach.length, Nat.add_sub_cancel]
    cases (reach separated s (Marks.start s) signs)[s.length]? <;> simp
  rw [haccepts, hlast]
  simp [hmark, slice_zero_length]

end UtilityCss.Glob
