import UtilityCss.Proofs.Source.Code
import UtilityCss.Source.Classes

namespace UtilityCss

namespace Source

/-- The values of the quoted literals that no template interpolates. -/
def Code.outerValues : Code → List (List Char)
  | .nil => []
  | .char _ rest => rest.outerValues
  | .quoted _ body rest => body.map Letter.char :: rest.outerValues
  | .template _ rest => rest.outerValues
  | .group inside rest => inside.outerValues ++ rest.outerValues

mutual

/-- The values of all quoted literals, at any depth. -/
def Code.values : Code → List (List Char)
  | .nil => []
  | .char _ rest => rest.values
  | .quoted _ body rest => body.map Letter.char :: rest.values
  | .template t rest => t.values ++ rest.values
  | .group inside rest => inside.values ++ rest.values

def Template.values : Template → List (List Char)
  | .nil => []
  | .letter _ rest => rest.values
  | .hole code rest => code.values ++ rest.values

end

theorem mem_literals_of_outerValues {value : List Char} (hne : value ≠ []) : (code : Code) →
    value ∈ code.outerValues → value ∈ code.literals
  | .nil, h => h
  | .char _ rest, h => mem_literals_of_outerValues hne rest h
  | .quoted _ body rest, h => by
    rw [Code.literals, List.mem_append]
    rcases List.mem_cons.1 h with rfl | h
    · left
      rw [Item.literals, if_neg (by simpa using hne)]
      exact List.mem_singleton_self _
    · exact .inr (mem_literals_of_outerValues hne rest h)
  | .template _ rest, h => List.mem_append_right _ (mem_literals_of_outerValues hne rest h)
  | .group inside rest, h => by
    rw [Code.literals, List.mem_append]
    exact (List.mem_append.1 h).imp (mem_literals_of_outerValues hne inside)
      (mem_literals_of_outerValues hne rest)

theorem stringLiterals_text {code : Code} (h : code.isSound .brace) :
    stringLiterals (code.text .brace) = code.literals := by
  have hcode := stringLiterals_code code h []
  have hend : stringLiterals [] = [] := by rw [stringLiterals, items, List.flatMap_nil]
  rwa [hend, List.append_nil, List.append_nil] at hcode

end Source

open Source

namespace SourceKind

theorem mem_classes {kind : SourceKind} {text name : String} : name ∈ kind.classes text ↔
    isClassName name.toList ∧ ∃ s ∈ kind.texts text.toList, name.toList ∈ Text.words s := by
  rw [classes, List.mem_map]
  simp only [List.mem_eraseDups, List.mem_filter, List.mem_flatMap]
  constructor
  · rintro ⟨_, ⟨hwords, hname⟩, rfl⟩
    rw [String.toList_ofList]
    exact ⟨hname, hwords⟩
  · rintro ⟨hname, hwords⟩
    exact ⟨name.toList, ⟨hwords, hname⟩, String.ofList_toList⟩

/-- Classes by where they are found, in whatever order these places come. -/
theorem mem_classes_of_perm {kind : SourceKind} {text : String} {first second : List (List Char)}
    (h : (kind.texts text.toList).Perm (first ++ second)) {name : String} :
    name ∈ kind.classes text ↔ isClassName name.toList ∧
      ((∃ s ∈ first, name.toList ∈ Text.words s) ∨ ∃ s ∈ second, name.toList ∈ Text.words s) := by
  simp only [mem_classes, h.mem_iff, List.mem_append, or_and_right, exists_or]

/-- The classes of code are those in its literals, and in a script those in keys passed to helpers, in
other sources those in class attributes. No quoted literal is lost that no template interpolates. -/
theorem mem_classes_code {code : Code} (h : code.isSound .brace) :
    let text := String.ofList (code.text .brace)
    (∀ name, name ∈ script.classes text ↔ isClassName name.toList ∧
      ((∃ s ∈ code.literals, name.toList ∈ Text.words s) ∨
        ∃ s ∈ helperKeys text.toList, name.toList ∈ Text.words s)) ∧
    (∀ name, name ∈ other.classes text ↔ isClassName name.toList ∧
      ((∃ s ∈ code.literals, name.toList ∈ Text.words s) ∨
        ∃ s ∈ classAttributes text.toList, name.toList ∈ Text.words s)) ∧
    ∀ value ∈ code.outerValues, ∀ name : String, isClassName name.toList →
      name.toList ∈ Text.words value → name ∈ script.classes text ∧ name ∈ other.classes text := by
  intro text
  have hliterals : stringLiterals text.toList = code.literals := by
    rw [String.toList_ofList, stringLiterals_text h]
  have hscript : (script.texts text.toList).Perm (code.literals ++ helperKeys text.toList) := by
    rw [texts, hliterals]
  have hother : (other.texts text.toList).Perm (code.literals ++ classAttributes text.toList) := by
    rw [texts, hliterals]
    exact List.perm_append_comm
  refine ⟨fun _ => mem_classes_of_perm hscript, fun _ => mem_classes_of_perm hother,
    fun value hvalue name hname hword => ?_⟩
  have hne : value ≠ [] := by
    rintro rfl
    cases hword
  have hmem := mem_literals_of_outerValues hne code hvalue
  exact ⟨(mem_classes_of_perm hscript).2 ⟨hname, .inl ⟨value, hmem, hword⟩⟩,
    (mem_classes_of_perm hother).2 ⟨hname, .inl ⟨value, hmem, hword⟩⟩⟩

/-- A helper's call with a quoted key, and a template that holds a literal with a brace. -/
def nestedCall : Code :=
  .after "cx(" <| .quoted '"' (Letter.plain "px-4 " ++ [⟨'"', true⟩]) <| .after ", " <|
    .group (.after " flex: a, " <| .quoted '\'' (Letter.plain "m-2") <| .after ": b " .nil) <|
      .after ") + " <| .template
        (.after "p-1 $" <| .hole (.group (.after "f(" <| .quoted '"' (Letter.plain "\x7d") <|
          .after ")" .nil) .nil) <| .letter ⟨'`', true⟩ <| .after " block" .nil) .nil

theorem mem_classes_nestedCall :
    nestedCall.isSound .brace ∧
    let text := String.ofList (nestedCall.text .brace)
    (∀ name, name ∈ script.classes text ↔ isClassName name.toList ∧
      ((∃ s ∈ nestedCall.literals, name.toList ∈ Text.words s) ∨
        ∃ s ∈ helperKeys text.toList, name.toList ∈ Text.words s)) ∧
    (∀ name, name ∈ other.classes text ↔ isClassName name.toList ∧
      ((∃ s ∈ nestedCall.literals, name.toList ∈ Text.words s) ∨
        ∃ s ∈ classAttributes text.toList, name.toList ∈ Text.words s)) ∧
    ∀ value ∈ nestedCall.outerValues, ∀ name : String, isClassName name.toList →
      name.toList ∈ Text.words value → name ∈ script.classes text ∧ name ∈ other.classes text := by
  have h : nestedCall.isSound .brace := by decide
  exact ⟨h, mem_classes_code h⟩

/-- A quoted key is lost where a template interpolates the call, although a bare one beside it is
found. -/
theorem notMem_classes_interpolated :
    let key : Code := .after " flex: a, " <| .quoted '"' (Letter.plain "m-2") <| .after ": b " .nil
    let call : Code := .after "clsx(" <| .group key <| .after ")" .nil
    let code : Code := .template (.after "p-4 " <| .hole call .nil) .nil
    let text := String.ofList (code.text .brace)
    text = "`p-4 $\x7bclsx(\x7b flex: a, \"m-2\": b \x7d)\x7d`" ∧ code.isSound .brace ∧
    "m-2".toList ∈ code.values ∧ isClassName "m-2".toList ∧
    "m-2".toList ∈ Text.words "m-2".toList ∧
    script.classes text = ["p-4", "flex"] ∧ other.classes text = ["p-4"] := by
  decide +kernel

end SourceKind

end UtilityCss
