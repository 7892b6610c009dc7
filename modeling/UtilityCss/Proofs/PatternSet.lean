import UtilityCss.Site.Scan
import UtilityCss.Proofs.Libraries

namespace UtilityCss

theorem any_toOption_iff {α ε : Type} {r : Except ε α} {p : α → Bool} :
    r.toOption.any p ↔ ∃ a, r = .ok a ∧ p a := by
  cases r <;> simp [Except.toOption]

/-- Whether a pattern by itself matches the path, as it is written or relative to `base`. -/
def GlobLibrary.chooses (L : GlobLibrary) (path base pattern : String) : Bool :=
  (L.read pattern).toOption.any fun g =>
    L.admits g ((Path.relative? path base).getD path) || L.admits g path

theorem GlobLibrary.chooses_iff {L : GlobLibrary} {path base pattern : String} :
    L.chooses path base pattern ↔ ∃ g, L.read pattern = .ok g ∧
      (L.admits g ((Path.relative? path base).getD path) ∨ L.admits g path) := by
  simp only [chooses, any_toOption_iff, Bool.or_eq_true]

namespace PatternSet
variable {L : GlobLibrary}

theorem readGlob_eq_ok {pattern : String} {g : L.Glob} :
    readGlob L pattern = .ok g ↔ L.read pattern = .ok g := by
  rw [readGlob]
  cases L.read pattern <;> simp [Except.mapError]

theorem mem_of_mapM {patterns : List String} {globs : List L.Glob}
    (h : patterns.mapM (readGlob L) = .ok globs) {g : L.Glob} :
    g ∈ globs ↔ ∃ pattern ∈ patterns, L.read pattern = .ok g := by
  induction patterns generalizing globs with
  | nil =>
    cases h
    simp
  | cons pattern patterns ih =>
    rw [List.mapM_cons] at h
    cases hfirst : readGlob L pattern with
    | error fault => rw [hfirst] at h; cases h
    | ok first =>
      cases hrest : patterns.mapM (readGlob L) with
      | error fault => rw [hfirst, hrest] at h; cases h
      | ok rest =>
        rw [hfirst, hrest] at h
        cases h
        simp [ih hrest, readGlob_eq_ok.1 hfirst, eq_comm]

/-- A set holds the globs that its patterns are read as. -/
theorem exists_globs {patterns : List String} {set : PatternSet L} (h : ofList L patterns = .ok set) :
    ∃ globs, patterns.mapM (readGlob L) = .ok globs ∧ L.build globs = .ok set.globs := by
  rw [ofList] at h
  cases hglobs : patterns.mapM (readGlob L) with
  | error fault => rw [hglobs] at h; cases h
  | ok globs =>
    cases hset : L.build globs with
    | error fault => simp [hglobs, hset, bind, Except.bind, Except.mapError] at h
    | ok inside =>
      simp only [hglobs, hset, bind, Except.bind, Except.mapError, pure, Except.pure,
        Except.ok.injEq] at h
      exact ⟨globs, rfl, by rw [← h, hset]⟩

/-- A set selects what one of its patterns chooses. -/
theorem selects_eq (hL : L.Documented) {patterns : List String} {set : PatternSet L}
    (h : ofList L patterns = .ok set) (path base : String) :
    set.selects path base = patterns.any (L.chooses path base) := by
  obtain ⟨globs, hglobs, hset⟩ := exists_globs h
  rw [Bool.eq_iff_iff, selects, Bool.or_eq_true, hL.isMatch_iff hset, hL.isMatch_iff hset,
    List.any_eq_true, ← exists_or]
  simp only [← and_or_left, mem_of_mapM hglobs, GlobLibrary.chooses_iff]
  constructor
  · rintro ⟨g, ⟨pattern, hp, hread⟩, hadmits⟩
    exact ⟨pattern, hp, g, hread, hadmits⟩
  · rintro ⟨pattern, hp, g, hread, hadmits⟩
    exact ⟨g, ⟨pattern, hp, hread⟩, hadmits⟩

/-- A glob for what is below a directory brings no fault with it. -/
theorem ofList_of_concat (hL : L.Documented) {patterns : List String} {directory : String}
    (hplain : ∀ c ∈ directory.toList, c ∉ GlobLibrary.structural) {fault : PatternFault}
    (h : ofList L (patterns ++ [directory ++ "/**"]) = .error fault) :
    ofList L patterns = .error fault := by
  cases hread : L.read (directory ++ "/**") with
  | error message =>
    have hok := hL.read_below hplain
    rw [hread] at hok
    cases hok
  | ok g =>
    have hlast : [directory ++ "/**"].mapM (readGlob L) = .ok [g] := by
      rw [List.mapM_cons, readGlob_eq_ok.2 hread]
      rfl
    rw [ofList, List.mapM_append, hlast] at h
    rw [ofList]
    cases hglobs : patterns.mapM (readGlob L) with
    | error f =>
      rw [hglobs] at h
      exact h
    | ok globs =>
      rw [hglobs] at h
      simp only [bind, Except.bind, pure, Except.pure] at h ⊢
      cases hbuild : L.build (globs ++ [g]) with
      | ok set => simp [hbuild, Except.mapError] at h
      | error message =>
        rw [hbuild] at h
        rw [hL.build_below hplain hread hbuild]
        exact h

end PatternSet
end UtilityCss
