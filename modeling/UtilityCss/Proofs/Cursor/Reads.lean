import UtilityCss.Source.Cursor

namespace UtilityCss.Source.Cursor

variable {α β γ σ : Type} {text s t r : List Char}

/-- Where `s` is left of a text, `reading` gives `value` and leaves `t`. -/
def Reads (text : List Char) (reading : Reading α) (s : List Char) (value : α) (t : List Char) :
    Prop :=
  ∀ ahead, text = ahead ++ s → ∃ read, text = read ++ t ∧
    reading.run (Text.size ahead) = pure (value, Text.size read)

namespace Reads

theorem pure (value : α) : Reads text (pure value) s value s := fun ahead h => ⟨ahead, h, rfl⟩

theorem bind {reading : Reading α} {next : α → Reading β} {a : α} {b : β}
    (h : Reads text reading s a t) (hnext : Reads text (next a) t b r) :
    Reads text (reading >>= next) s b r := by
  intro ahead htext
  obtain ⟨read, htext, hrun⟩ := h ahead htext
  obtain ⟨more, htext, hmore⟩ := hnext read htext
  exact ⟨more, htext, by rw [StateT.run_bind, hrun, pure_bind, hmore]⟩

/-- What only needs to be shown where `s` is the end of the text. -/
theorem of_suffix {reading : Reading α} {a : α}
    (h : ∀ ahead, text = ahead ++ s → Reads text reading s a t) : Reads text reading s a t :=
  fun ahead htext => h ahead htext ahead htext

theorem lift {outcome : Outcome α} {a : α} (h : outcome = Pure.pure a) :
    Reads text (liftM outcome) s a s := by
  subst h
  intro ahead htext
  exact ⟨ahead, htext, rfl⟩

end Reads

theorem behind_append (a b : List Char) : behind (a ++ b) (Text.size a) = pure b := by
  rw [behind, Text.splitAt?_size]

theorem before_append (a b : List Char) : before (a ++ b) (Text.size a) = pure a := by
  rw [before, Text.splitAt?_size]

theorem between_append (a b c : List Char) :
    between (a ++ (b ++ c)) (Text.size a) (Text.size (a ++ b)) = pure b := by
  rw [between, ← List.append_assoc, before_append]
  exact behind_append a b

theorem run_moveTo {a b : List Char} (h : text = a ++ b) (n : Nat) :
    (moveTo text (Text.size a)).run n = pure ((), Text.size a) := by
  rw [moveTo, h, Text.splitAt?_size]
  rfl

theorem reads_get {ahead : List Char} (h : text = ahead ++ s) :
    Reads text get s (Text.size ahead) s := by
  intro a ha
  obtain rfl := List.append_cancel_right (h.symm.trans ha)
  exact ⟨ahead, h, rfl⟩

theorem reads_moveTo {ahead : List Char} (h : text = ahead ++ t) :
    Reads text (moveTo text (Text.size ahead)) s () t :=
  fun _ _ => ⟨ahead, h, run_moveTo h _⟩

theorem reads_peek : Reads text (peek text) s s.head? s :=
  .of_suffix fun ahead h => (reads_get h).bind
    ((Reads.lift (by rw [h, behind_append])).bind (.pure _))

/-- A step over the next character, and what comes after it. -/
theorem reads_step {c : Char} {ahead : List Char} (h : text = ahead ++ c :: s)
    {next : Unit → Reading α} {a : α} (hnext : Reads text (next ()) s a t) :
    Reads text (get >>= fun n => moveTo text (n + c.utf8Size) >>= next) (c :: s) a t := by
  have hs : text = (ahead ++ [c]) ++ s := by rw [h, List.append_assoc]; rfl
  have hsize : Text.size ahead + c.utf8Size = Text.size (ahead ++ [c]) := by simp
  refine (reads_get h).bind ?_
  rw [hsize]
  exact (reads_moveTo hs).bind hnext

theorem reads_bump_nil : Reads text (bump text) [] none [] := reads_peek.bind (.pure _)

theorem reads_bump_cons (c : Char) (s : List Char) :
    Reads text (bump text) (c :: s) (some c) s :=
  .of_suffix fun _ h => reads_peek.bind (reads_step h (.pure _))

theorem reads_bump (s : List Char) : Reads text (bump text) s s.head? s.tail := by
  cases s with
  | nil => exact reads_bump_nil
  | cons c s => exact reads_bump_cons c s

theorem reads_eat_cons (c : Char) (s : List Char) : Reads text (eat text c) (c :: s) true s := by
  refine .of_suffix fun _ h => reads_peek.bind ?_
  rw [List.head?_cons, if_pos rfl]
  exact reads_step h (.pure _)

theorem reads_eat_of_ne {c : Char} (h : s.head? ≠ some c) : Reads text (eat text c) s false s := by
  refine reads_peek.bind ?_
  rw [if_neg h]
  exact .pure _

theorem reads_stepBack {c : Char} (hc : c.utf8Size = 1) {ahead : List Char}
    (h : text = ahead ++ c :: s) : Reads text (stepBack text) s () (c :: s) := by
  have hs : text = (ahead ++ [c]) ++ s := by rw [h, List.append_assoc]; rfl
  have hsize : Text.size (ahead ++ [c]) = Text.size ahead + 1 := by simp [hc]
  refine (reads_get hs).bind ?_
  rw [hsize]
  exact reads_moveTo h

/-- What a loop is to come to. Its states stand for data of the proof, which may say more about what has
been read; some of it must hold, and from it and what is left the result and what is left then follow. -/
structure Course (γ σ α : Type) where
  state : γ → σ
  Holds : γ → List Char → Prop
  answer : γ → List Char → α × List Char

variable {course : Course γ σ α} {turn : σ → Reading (Turn σ α)}

/-- Whether a turn, taken where `s` is left, keeps to the course and leaves `t`, which is less. -/
def Course.Kept (course : Course γ σ α) (g : γ) (s t : List Char) : Turn σ α → Prop
  | .ended result => t = s ∧ course.answer g s = (result, s)
  | .left result => t.length < s.length ∧ course.answer g s = (result, t)
  | .again next => t.length < s.length ∧
    ∃ g', next = course.state g' ∧ course.Holds g' t ∧ course.answer g' t = course.answer g s

/-- Every turn keeps to the course. -/
def Course.Advances (text : List Char) (course : Course γ σ α)
    (turn : σ → Reading (Turn σ α)) : Prop :=
  ∀ g s, course.Holds g s →
    ∃ result t, Reads text (turn (course.state g)) s result t ∧ course.Kept g s t result

/-- As each turn keeps to the course, a loop comes to its end, in no more turns than characters are left
and one more. -/
theorem reads_loop (h : course.Advances text turn) {fuel : Nat} (g : γ) (s : List Char)
    (hs : course.Holds g s) (hfuel : s.length < fuel) :
    Reads text (loop turn fuel (course.state g)) s (course.answer g s).1 (course.answer g s).2 := by
  induction fuel generalizing g s with
  | zero => exact absurd hfuel (Nat.not_lt_zero _)
  | succ fuel ih =>
    obtain ⟨result, t, hturn, hkept⟩ := h g s hs
    rw [loop]
    refine hturn.bind ?_
    cases result with
    | ended result =>
      obtain ⟨rfl, hanswer⟩ := hkept
      rw [hanswer]
      exact .pure result
    | left result =>
      rw [hkept.2]
      exact .pure result
    | again next =>
      obtain ⟨hlt, g', rfl, ht, hanswer⟩ := hkept
      rw [← hanswer]
      exact ih g' t ht (by omega)

theorem startingAt_eq {reading : Reading α} {a : α} {ahead : List Char}
    (htext : text = ahead ++ s) (h : Reads text reading s a t) :
    startingAt text (Text.size ahead) reading = pure a := by
  obtain ⟨read, -, hrun⟩ := h ahead htext
  rw [startingAt, StateT.run'_eq, StateT.run_bind, run_moveTo htext, pure_bind, hrun]
  rfl

end UtilityCss.Source.Cursor
