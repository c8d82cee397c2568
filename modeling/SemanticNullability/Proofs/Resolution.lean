import SemanticNullability.Proofs.Nullability
/-!
# Resolution is exact

Resolution puts the markers of a set of levels into a type and does nothing else. In the view by list
depth a type is known by its name, its list layers and the wrappers at each depth
(`TypeExpr.ext_wrappers`), and `wrappers_resolve` says what resolution makes of each: so the result is
determined, and it depends on the levels among the depths of the type only (`resolve_congr`). What
this comes to is `resolve_exact`.
-/
namespace SemanticNullability

namespace TypeExpr

/-! ## Types by their wrappers -/

/-- **Extensionality.** Two types of one name, with equally many list layers and the same wrappers at
every depth, are one. -/
theorem ext_wrappers {t u : TypeExpr} (hname : t.baseName = u.baseName)
    (hdepth : t.depth = u.depth) (hwrappers : ∀ l, t.wrappers l = u.wrappers l) : t = u := by
  induction t generalizing u with
  | named name =>
    cases u with
    | named other => rw [show name = other from hname]
    | list item => cases hdepth
    | nonNull inner | semanticNonNull inner => cases hwrappers 0
  | list item ih =>
    cases u with
    | named name => cases hdepth
    | list other =>
      have hitem : item = other := ih hname (Nat.succ.inj hdepth) fun l => hwrappers (l + 1)
      rw [hitem]
    | nonNull inner | semanticNonNull inner => cases hwrappers 0
  | nonNull inner ih =>
    cases u with
    | named name => cases hwrappers 0
    | list item => cases hwrappers 0
    | nonNull other =>
      have hinner : inner = other := by
        refine ih hname hdepth fun l => ?_
        cases l with
        | zero => exact (List.cons.inj (hwrappers 0)).2
        | succ l => exact hwrappers (l + 1)
      rw [hinner]
    | semanticNonNull other => cases (List.cons.inj (hwrappers 0)).1
  | semanticNonNull inner ih =>
    cases u with
    | named name => cases hwrappers 0
    | list item => cases hwrappers 0
    | nonNull other => cases (List.cons.inj (hwrappers 0)).1
    | semanticNonNull other =>
      have hinner : inner = other := by
        refine ih hname hdepth fun l => ?_
        cases l with
        | zero => exact (List.cons.inj (hwrappers 0)).2
        | succ l => exact hwrappers (l + 1)
      rw [hinner]

/-! ## Markers that stand alone -/

def isSemantic : TypeExpr → Bool
  | semanticNonNull _ => true
  | _ => false

/-- Whether the outermost wrapper is a non-null one, enforced or semantic. -/
def isWrapped : TypeExpr → Bool
  | nonNull _ => true
  | semanticNonNull _ => true
  | _ => false

/-- Whether a semantic wrapper stands directly inside or directly around another non-null one. -/
def hasCrowdedMarker : TypeExpr → Bool
  | named _ => false
  | list item => item.hasCrowdedMarker
  | nonNull inner => inner.isSemantic || inner.hasCrowdedMarker
  | semanticNonNull inner => inner.isWrapped || inner.hasCrowdedMarker

theorem semantic_mem_wrappers_zero {t : TypeExpr} (h : t.isSemantic = true) :
    .semantic ∈ t.wrappers 0 := by
  cases t with
  | semanticNonNull inner => exact List.mem_cons_self
  | named | list | nonNull => cases h

theorem wrappers_zero_ne_nil {t : TypeExpr} (h : t.isWrapped = true) : t.wrappers 0 ≠ [] := by
  cases t with
  | nonNull inner | semanticNonNull inner => exact List.cons_ne_nil _ _
  | named | list => cases h

/-- A marker that is all there is at its depth has no other wrapper beside it. -/
theorem hasCrowdedMarker_eq_false {t : TypeExpr}
    (h : ∀ l, .semantic ∈ t.wrappers l → t.wrappers l = [.semantic]) :
    t.hasCrowdedMarker = false := by
  induction t with
  | named name => rfl
  | list item ih => exact ih fun l => h (l + 1)
  | nonNull inner ih =>
    -- an enforced wrapper at the depth, so that there is no marker
    have hnone : .semantic ∉ inner.wrappers 0 := by
      intro hmem
      cases h 0 (List.mem_cons_of_mem _ hmem)
    have hhead : inner.isSemantic = false := by
      rw [← Bool.not_eq_true]
      exact fun hhead => hnone (semantic_mem_wrappers_zero hhead)
    have hrest : inner.hasCrowdedMarker = false := by
      refine ih fun l hmem => ?_
      cases l with
      | zero => exact absurd hmem hnone
      | succ l => exact h (l + 1) hmem
    rw [hasCrowdedMarker, hhead, hrest]
    rfl
  | semanticNonNull inner ih =>
    -- the marker is all there is at its depth
    have hnil : inner.wrappers 0 = [] := (List.cons.inj (h 0 List.mem_cons_self)).2
    have hhead : inner.isWrapped = false := by
      rw [← Bool.not_eq_true]
      exact fun hhead => wrappers_zero_ne_nil hhead hnil
    have hrest : inner.hasCrowdedMarker = false := by
      refine ih fun l hmem => ?_
      cases l with
      | zero => simp [hnil] at hmem
      | succ l => exact h (l + 1) hmem
    rw [hasCrowdedMarker, hhead, hrest]
    rfl

/-! ## Resolution -/

section

variable {t : TypeExpr} {levels : Levels} {l : Nat}

@[simp] theorem baseName_resolve (t : TypeExpr) (levels : Levels) :
    (t.resolve levels).baseName = t.baseName := baseName_resolveAt levels 0 t

@[simp] theorem depth_resolve (t : TypeExpr) (levels : Levels) :
    (t.resolve levels).depth = t.depth := depth_resolveAt levels 0 t

theorem wrappers_resolve_of_lt (levels : Levels) (hl : t.depth < l) :
    (t.resolve levels).wrappers l = [] := by
  refine wrappers_eq_nil_of_depth_lt ?_
  rw [depth_resolve]
  exact hl

theorem wrappers_resolve_of_covers (hl : l ≤ t.depth) (hdepth : t.depth < UInt32.size)
    (hcovers : levels.Covers l) : (t.resolve levels).wrappers l = [.semantic] := by
  rw [wrappers_resolve levels hl hdepth, if_pos hcovers]

theorem wrappers_resolve_of_not_covers (hdepth : t.depth < UInt32.size)
    (hcovers : ¬ levels.Covers l) :
    (t.resolve levels).wrappers l = (t.wrappers l).filter (· = .nonNull) := by
  by_cases hl : l ≤ t.depth
  · rw [wrappers_resolve levels hl hdepth, if_neg hcovers]
  · have hlt : t.depth < l := Nat.lt_of_not_le hl
    rw [wrappers_resolve_of_lt levels hlt, wrappers_eq_nil_of_depth_lt hlt]
    rfl

/-- A marker of a resolved type is all there is at its depth. -/
theorem wrappers_resolve_of_semantic_mem (hdepth : t.depth < UInt32.size)
    (hmem : .semantic ∈ (t.resolve levels).wrappers l) :
    (t.resolve levels).wrappers l = [.semantic] := by
  by_cases hcovers : levels.Covers l
  · by_cases hl : l ≤ t.depth
    · exact wrappers_resolve_of_covers hl hdepth hcovers
    · rw [wrappers_resolve_of_lt levels (Nat.lt_of_not_le hl)] at hmem
      cases hmem
  · rw [wrappers_resolve_of_not_covers hdepth hcovers] at hmem
    exact absurd hmem semantic_not_mem_filter

/-- Levels that agree on the depths of a type resolve it alike. -/
theorem resolve_congr {others : Levels} (hdepth : t.depth < UInt32.size)
    (hagree : ∀ l ≤ t.depth, others.Covers l ↔ levels.Covers l) :
    t.resolve others = t.resolve levels := by
  refine ext_wrappers (by simp) (by simp) fun l => ?_
  by_cases hl : l ≤ t.depth
  · rw [wrappers_resolve others hl hdepth, wrappers_resolve levels hl hdepth]
    simp only [hagree l hl]
  · have hlt : t.depth < l := Nat.lt_of_not_le hl
    rw [wrappers_resolve_of_lt others hlt, wrappers_resolve_of_lt levels hlt]

end

/-- **Resolution is exact.** Name and list layers stay. At a covered depth there is one semantic
wrapper and no enforced one; at any other there is no semantic wrapper and there are as many enforced
ones as before. So no marker has another wrapper beside it, and levels with the same members among
the depths of the type give the same result. -/
theorem resolve_exact (t : TypeExpr) (levels : Levels) (hdepth : t.depth < UInt32.size) :
    (t.resolve levels).baseName = t.baseName ∧
    (t.resolve levels).depth = t.depth ∧
    (∀ l ≤ t.depth, levels.Covers l →
      ((t.resolve levels).wrappers l).count .semantic = 1 ∧
      ((t.resolve levels).wrappers l).count .nonNull = 0) ∧
    (∀ l, ¬ levels.Covers l →
      ((t.resolve levels).wrappers l).count .semantic = 0 ∧
      ((t.resolve levels).wrappers l).count .nonNull = (t.wrappers l).count .nonNull) ∧
    (t.resolve levels).hasCrowdedMarker = false ∧
    ∀ others : Levels, (∀ l ≤ t.depth, others.Covers l ↔ levels.Covers l) →
      t.resolve others = t.resolve levels := by
  refine ⟨baseName_resolve t levels, depth_resolve t levels, fun l hl hcovers => ?_,
    fun l hcovers => ?_, ?_, fun others hagree => resolve_congr hdepth hagree⟩
  · rw [wrappers_resolve_of_covers hl hdepth hcovers]
    decide
  · rw [wrappers_resolve_of_not_covers hdepth hcovers]
    refine ⟨List.count_eq_zero.2 semantic_not_mem_filter, ?_⟩
    exact List.count_filter (decide_eq_true rfl)
  · exact hasCrowdedMarker_eq_false fun l hmem => wrappers_resolve_of_semantic_mem hdepth hmem

/-- The type `[[Int*!]!!*]!*!`: wrappers of both sorts on each side of the markers that are there. -/
def crowded : TypeExpr :=
  .nonNull (.semanticNonNull (.nonNull (.list
    (.semanticNonNull (.nonNull (.nonNull (.list
      (.nonNull (.semanticNonNull (.named "Int"))))))))))

theorem resolve_exact_crowded :
    let resolved := crowded.resolve (Levels.ofList [7, 2, 0])
    (crowded.depth < UInt32.size ∧ crowded.hasCrowdedMarker = true) ∧
      ((resolved.wrappers 0).count .semantic = 1 ∧ (resolved.wrappers 0).count .nonNull = 0) ∧
      ((resolved.wrappers 1).count .semantic = 0 ∧ (resolved.wrappers 1).count .nonNull = 2) ∧
      ((resolved.wrappers 2).count .semantic = 1 ∧ (resolved.wrappers 2).count .nonNull = 0) ∧
      resolved.hasCrowdedMarker = false ∧
      crowded.resolve (Levels.ofList [0, 2, 3, 9]) = resolved := by
  intro resolved
  have hdepth : crowded.depth < UInt32.size := by decide
  obtain ⟨-, -, hcovered, hother, halone, hcongr⟩ :=
    resolve_exact crowded (Levels.ofList [7, 2, 0]) hdepth
  refine ⟨⟨hdepth, by decide⟩, hcovered 0 (by decide) (by decide), hother 1 (by decide),
    hcovered 2 (by decide) (by decide), halone, hcongr _ ?_⟩
  decide

end TypeExpr

end SemanticNullability
