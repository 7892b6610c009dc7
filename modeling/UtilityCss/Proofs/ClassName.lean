import UtilityCss.Proofs.Modifier
import UtilityCss.Proofs.Reports
import UtilityCss.Text.Cut
import UtilityCss.Proofs.Text.Pieces

namespace UtilityCss

theorem Modifier.ofName?_cases (name : String) :
    (∃ p, ofName? name = some (.pseudo p) ∧ PseudoClass.ofName? name = some p ∧
        MediaQuery.ofName? name = none) ∨
      (∃ q, ofName? name = some (.media q) ∧ PseudoClass.ofName? name = none ∧
        MediaQuery.ofName? name = some q) ∨
      ofName? name = none ∧ PseudoClass.ofName? name = none ∧ MediaQuery.ofName? name = none := by
  have hapart : ∀ p ∈ PseudoClass.all, MediaQuery.ofName? p.name = none := by decide
  unfold ofName?
  cases hp : PseudoClass.ofName? name with
  | some p =>
    have hname : p.name = name := by simpa using List.find?_some hp
    exact .inl ⟨p, rfl, rfl, hname ▸ hapart p (List.mem_of_find?_eq_some hp)⟩
  | none =>
    cases hq : MediaQuery.ofName? name with
    | some q => exact .inr (.inl ⟨q, rfl, rfl, rfl⟩)
    | none => exact .inr (.inr ⟨rfl, rfl, rfl⟩)

namespace ClassName

/-- The parts of a name between its colons. -/
def segments (name : String) : List String := (name.toList.splitOn ':').map String.ofList

/-- The different modifiers of a name, in the order in which they come first. -/
def modifiers (name : String) : List String := (segments name).dropLast.eraseDups

/-- Neither table has the modifier. -/
def isUnknown (modifier : String) : Bool :=
  (PseudoClass.ofName? modifier).isNone && (MediaQuery.ofName? modifier).isNone

theorem base_foldr (ms : List String) (base : String) :
    (ms.foldr under { base }).base = base := by
  induction ms with
  | nil => rfl
  | cons m ms ih =>
    rw [List.foldr_cons, under]
    split <;> exact ih

theorem media_foldr (ms : List String) (base : String) :
    (ms.foldr under { base }).media = ms.filterMap MediaQuery.ofName? := by
  induction ms with
  | nil => rfl
  | cons m ms ih =>
    rw [List.foldr_cons, under, List.filterMap_cons]
    obtain ⟨p, hm, -, hq⟩ | ⟨q, hm, -, hq⟩ | ⟨hm, -, hq⟩ := Modifier.ofName?_cases m <;>
      simp only [hm, hq, ih]

theorem pseudo_foldr (ms : List String) (base : String) :
    (ms.foldr under { base }).ancestors =
        String.join ((ms.filterMap PseudoClass.ofName?).map PseudoClass.ancestor) ∧
      (ms.foldr under { base }).states =
        String.join ((ms.filterMap PseudoClass.ofName?).map PseudoClass.state) := by
  induction ms with
  | nil => exact ⟨rfl, rfl⟩
  | cons m ms ih =>
    rw [List.foldr_cons, under, List.filterMap_cons]
    obtain ⟨p, hm, hp, -⟩ | ⟨q, hm, hp, -⟩ | ⟨hm, hp, -⟩ := Modifier.ofName?_cases m
    · simp only [hm, hp, ih.1, ih.2, List.map_cons, String.join_cons, and_self]
    · simpa only [hm, hp] using ih
    · simpa only [hm, hp] using ih

theorem unknown_foldr (ms : List String) (base : String) :
    (ms.foldr under { base }).unknown = ms.filter isUnknown := by
  induction ms with
  | nil => rfl
  | cons m ms ih =>
    rw [List.foldr_cons, under, List.filter_cons, isUnknown]
    obtain ⟨p, hm, hp, hq⟩ | ⟨q, hm, hp, hq⟩ | ⟨hm, hp, hq⟩ := Modifier.ofName?_cases m <;>
      simp only [hm, hp, hq, ih] <;> rfl

/-- A modifier counts if it is not in use, and is in use from then on. -/
theorem ofSegments_append (used ms : List String) (base : String) :
    ofSegments used (ms ++ [base]) = (newcomers used ms).foldr under { base } := by
  induction ms generalizing used with
  | nil => rfl
  | cons m ms ih =>
    have hsame : newcomers (used ++ [m]) ms = newcomers (m :: used) ms :=
      newcomers_congr (fun name => by simp [or_comm]) ms
    have hstep : ofSegments used (m :: ms ++ [base]) = if m ∈ used then ofSegments used (ms ++ [base])
        else (ofSegments (m :: used) (ms ++ [base])).under m := by
      cases ms <;> rfl
    rw [hstep, newcomers_cons, hsame]
    split
    · rename_i hm
      have hused : newcomers used ms = newcomers (m :: used) ms := by
        refine newcomers_congr (fun name => ?_) ms
        rw [List.mem_cons, or_iff_right_of_imp]
        rintro rfl
        exact hm
      rw [ih, hused]
      rfl
    · rw [ih]
      rfl

theorem segments_ne_nil (name : String) : segments name ≠ [] := by simp [segments]

theorem ofString_eq_ofSegments (name : String) : ofString name = ofSegments [] (segments name) := by
  rw [ofString, segments, Text.pieces_eq_splitOnP, List.splitOn_eq_splitOnP]

theorem ofString_eq_foldr (name : String) :
    ofString name = (modifiers name).foldr under
      { base := (segments name).getLast (segments_ne_nil name) } := by
  have hsplit := List.dropLast_append_getLast (segments_ne_nil name)
  have hfresh : newcomers [] (segments name).dropLast = modifiers name := by simp [newcomers, modifiers]
  rw [ofString_eq_ofSegments, ← hfresh, ← ofSegments_append, hsplit]

theorem segments_append (front rest : String) :
    segments (front ++ ":" ++ rest) = segments front ++ segments rest := by
  have htext : (front ++ ":" ++ rest).toList = front.toList ++ ':' :: rest.toList := by simp
  rw [segments, htext, List.splitOn_append_cons_self, List.map_append]
  rfl

theorem segments_of_notMem {name : String} (h : ':' ∉ name.toList) : segments name = [name] := by
  simp [segments, List.splitOn_eq_singleton h]

theorem segments_of_cutAt {name modifier behind : String}
    (h : Text.cutAt ':' name = some (modifier, behind)) :
    segments name = modifier :: segments behind := by
  obtain ⟨hfree, htext⟩ := Text.cutAt_eq_some_iff.1 h
  have hname : name = modifier ++ ":" ++ behind := String.toList_injective (by simp [htext])
  rw [hname, segments_append, segments_of_notMem hfree, List.singleton_append]

/-- What was read, with the modifier that comes next. -/
def extend (c : ClassName) (modifier : String) : ClassName :=
  match Modifier.ofName? modifier with
  | some (.pseudo p) => { c with ancestors := c.ancestors ++ p.ancestor, states := c.states ++ p.state }
  | some (.media q) => { c with media := c.media ++ [q] }
  | none => { c with unknown := c.unknown ++ [modifier] }

/-- Reads on from what was read and the modifiers in use: up to the next colon, as long as there is one. -/
def readOn (c : ClassName) (used : List String) (rest : String) : ClassName :=
  match _hcut : Text.cutAt ':' rest with
  | none => { c with base := rest }
  | some (modifier, behind) =>
    if modifier ∈ used then readOn c used behind
    else readOn (c.extend modifier) (used ++ [modifier]) behind
termination_by rest.toList.length
decreasing_by all_goals
  rw [(Text.cutAt_eq_some_iff.1 _hcut).2, List.length_append, List.length_cons]
  omega

/-- What was read of the front of a name, and what of the rest. -/
def append (c d : ClassName) : ClassName :=
  ⟨c.media ++ d.media, c.ancestors ++ d.ancestors, c.states ++ d.states, c.unknown ++ d.unknown, d.base⟩

theorem extend_append (c d : ClassName) (modifier : String) :
    (c.extend modifier).append d = c.append (d.under modifier) := by
  unfold extend under
  cases Modifier.ofName? modifier with
  | none => simp [append]
  | some m => cases m <;> simp [append, String.append_assoc]

/-- The invariant of the reader: the front is read, and the rest brings its newcomers. -/
theorem readOn_eq (c : ClassName) (used : List String) (rest : String) :
    readOn c used rest = c.append ((newcomers used (segments rest).dropLast).foldr under
      { base := (segments rest).getLast (segments_ne_nil rest) }) := by
  have hnext : ∀ {rest modifier behind : String}, Text.cutAt ':' rest = some (modifier, behind) →
      (segments rest).dropLast = modifier :: (segments behind).dropLast ∧
        (segments rest).getLast (segments_ne_nil rest) =
          (segments behind).getLast (segments_ne_nil behind) := by
    intro rest modifier behind hcut
    have hsegments := segments_of_cutAt hcut
    refine ⟨by rw [hsegments, List.dropLast_cons_of_ne_nil (segments_ne_nil behind)], ?_⟩
    simp only [hsegments, List.getLast_cons (segments_ne_nil behind)]
  -- One step moves a modifier from the rest to those in use; what it adds is what the rest had first.
  fun_induction readOn c used rest with
  | case1 c used rest hcut =>
    have hsegments := segments_of_notMem (Text.cutAt_eq_none_iff.1 hcut)
    simp [hsegments, append, newcomers]
  | case2 c used rest modifier behind hcut hused ih =>
    obtain ⟨hfront, hbase⟩ := hnext hcut
    have hsame : newcomers (used ++ [modifier]) (segments behind).dropLast =
        newcomers used (segments behind).dropLast := by
      refine newcomers_congr (fun name => ?_) _
      rw [List.mem_append, List.mem_singleton, or_iff_left_of_imp]
      rintro rfl
      exact hused
    rw [ih, hfront, hbase, newcomers_cons, if_pos hused, hsame]
    rfl
  | case3 c used rest modifier behind hcut hused ih =>
    obtain ⟨hfront, hbase⟩ := hnext hcut
    rw [ih, hfront, hbase, newcomers_cons, if_neg hused, extend_append]
    rfl

theorem readOn_eq_ofString (name : String) : readOn {} [] name = ofString name := by
  have hfresh : newcomers [] (segments name).dropLast = modifiers name := by simp [newcomers, modifiers]
  rw [readOn_eq, hfresh, ← ofString_eq_foldr]
  simp [append]

/-- A modifier that came before makes no difference. -/
theorem ofString_repeated {front modifier : String} (h : modifier ∈ segments front) (rest : String) :
    ofString (front ++ ":" ++ modifier ++ ":" ++ rest) = ofString (front ++ ":" ++ rest) := by
  have hsingle : segments modifier = [modifier] := by
    obtain ⟨piece, hpiece, rfl⟩ := List.mem_map.1 h
    refine segments_of_notMem ?_
    rw [String.toList_ofList]
    rw [List.splitOn_eq_splitOnP, ← Text.pieces_eq_splitOnP] at hpiece
    intro hmem
    simpa using Text.eq_false_of_mem_pieces hpiece ':' hmem
  have hrest := segments_ne_nil rest
  have hplain : segments (front ++ ":" ++ rest) = segments front ++ segments rest := segments_append ..
  have hmore : segments (front ++ ":" ++ modifier ++ ":" ++ rest) =
      segments front ++ modifier :: segments rest := by
    rw [segments_append, segments_append, hsingle, List.append_assoc, List.singleton_append]
  rw [ofString_eq_foldr, ofString_eq_foldr]
  have hmodifiers : modifiers (front ++ ":" ++ modifier ++ ":" ++ rest) =
      modifiers (front ++ ":" ++ rest) := by
    rw [modifiers, modifiers, hplain, hmore, List.dropLast_append_of_ne_nil hrest,
      List.dropLast_append_of_ne_nil (List.cons_ne_nil _ _), List.dropLast_cons_of_ne_nil hrest]
    exact Distinct.eraseDups_insert_iff.2 (.inl h)
  have hbase : (segments (front ++ ":" ++ modifier ++ ":" ++ rest)).getLast (segments_ne_nil _) =
      (segments (front ++ ":" ++ rest)).getLast (segments_ne_nil _) := by
    simp only [hplain, hmore, List.getLast_append_of_ne_nil _ hrest,
      List.getLast_append_of_ne_nil _ (List.cons_ne_nil modifier (segments rest)), List.getLast_cons hrest]
  rw [hmodifiers, hbase]

end ClassName

def Diagnostic.isModifierWarning : Diagnostic → Bool
  | unknownModifier .. => true
  | _ => false

namespace ClassName

/-- What a name is read as, in terms of its segments. -/
structure ReadBySegments (name : String) : Prop where
  base : (segments name).getLast? = some (ofString name).base
  media : (ofString name).media = (modifiers name).filterMap MediaQuery.ofName?
  ancestors : (ofString name).ancestors =
    String.join (((modifiers name).filterMap PseudoClass.ofName?).map PseudoClass.ancestor)
  states : (ofString name).states =
    String.join (((modifiers name).filterMap PseudoClass.ofName?).map PseudoClass.state)
  unknown : (ofString name).unknown = (modifiers name).filter isUnknown
  /-- one warning for each unknown modifier, when the class comes to a sheet -/
  warnings : ∀ sheet : Sheet, name ∉ sheet.seen →
    (sheet.add name).2.filter Diagnostic.isModifierWarning =
      ((modifiers name).filter isUnknown).map (Diagnostic.unknownModifier · name)
  /-- reading from front to back comes to the same -/
  inOrder : readOn {} [] name = ofString name
  repeated : ∀ front modifier rest, name = front ++ ":" ++ rest → modifier ∈ segments front →
    ofString (front ++ ":" ++ modifier ++ ":" ++ rest) = ofString name

theorem readBySegments (name : String) : ReadBySegments name where
  base := by
    rw [ofString_eq_foldr, base_foldr]
    exact List.getLast?_eq_some_getLast (segments_ne_nil name)
  media := by rw [ofString_eq_foldr, media_foldr]
  ancestors := by rw [ofString_eq_foldr, (pseudo_foldr ..).1]
  states := by rw [ofString_eq_foldr, (pseudo_foldr ..).2]
  unknown := by rw [ofString_eq_foldr, unknown_foldr]
  warnings sheet h := by
    have hunknown : (ofString name).unknown = (modifiers name).filter isUnknown := by
      rw [ofString_eq_foldr, unknown_foldr]
    have hown : ∀ ms : List String, (ms.map (Diagnostic.unknownModifier · name)).filter
        Diagnostic.isModifierWarning = ms.map (Diagnostic.unknownModifier · name) := by
      intro ms
      refine List.filter_eq_self.2 fun d hd => ?_
      obtain ⟨m, -, rfl⟩ := List.mem_map.1 hd
      rfl
    rw [Sheet.diagnostics_add, if_neg h, Sheet.diagnosticsOf, List.filter_append, hunknown, hown]
    refine (congrArg _ ?_).trans (List.append_nil _)
    by_cases hcontainer : Sheet.isContainer name
    · rw [if_pos hcontainer]
      rfl
    · rw [if_neg hcontainer]
      split <;> rfl
  inOrder := readOn_eq_ofString name
  repeated front modifier rest hname h := hname ▸ ofString_repeated h rest

end ClassName
end UtilityCss
