import SemanticNullability.Conversion.Field
/-!
# Types by list depth

A type composition is a name under a number of list layers, with a run of non-null wrappers, hard
and semantic, around each layer and around the name: `TypeExpr.depth` counts the layers and
`TypeExpr.wrappers` is the run at a list depth. In this view resolution and conversion act on each
run by itself. Resolution puts one semantic wrapper at a covered depth and keeps the hard ones at any
other (`wrappers_resolveAt`); conversion leaves one hard wrapper or none (`wrappers_convert`).
-/
namespace SemanticNullability

/-- A non-null wrapper: an enforced one or a semantic one. -/
inductive Wrapper where
  | nonNull | semantic
  deriving DecidableEq, Inhabited

namespace TypeExpr

def depth : TypeExpr → Nat
  | named _ => 0
  | list item => item.depth + 1
  | nonNull inner => inner.depth
  | semanticNonNull inner => inner.depth

/-- The non-null wrappers at a list depth, from the outside in. -/
def wrappers : TypeExpr → Nat → List Wrapper
  | named _, _ => []
  | list _, 0 => []
  | list item, l + 1 => item.wrappers l
  | nonNull inner, 0 => .nonNull :: inner.wrappers 0
  | nonNull inner, l + 1 => inner.wrappers (l + 1)
  | semanticNonNull inner, 0 => .semantic :: inner.wrappers 0
  | semanticNonNull inner, l + 1 => inner.wrappers (l + 1)

theorem wrappers_eq_nil_of_depth_lt {t : TypeExpr} {l : Nat} (h : t.depth < l) :
    t.wrappers l = [] := by
  induction t generalizing l with
  | named name => rfl
  | list item ih =>
    cases l with
    | zero => rfl
    | succ l => exact ih (Nat.lt_of_succ_lt_succ h)
  | nonNull inner ih | semanticNonNull inner ih =>
    cases l with
    | zero => exact absurd h (Nat.not_lt_zero _)
    | succ l => exact ih h

/-- A marker is a semantic wrapper at some list depth. -/
theorem hasMarker_iff {t : TypeExpr} : t.hasMarker = true ↔ ∃ l, .semantic ∈ t.wrappers l := by
  induction t with
  | named name => simp [hasMarker, wrappers]
  | list item ih =>
    rw [hasMarker, ih]
    constructor
    · rintro ⟨l, hl⟩
      exact ⟨l + 1, hl⟩
    · rintro ⟨l, hl⟩
      cases l with
      | zero => simp [wrappers] at hl
      | succ l => exact ⟨l, hl⟩
  | nonNull inner ih =>
    rw [hasMarker, ih]
    refine exists_congr fun l => ?_
    cases l with
    | zero => simp [wrappers]
    | succ l => exact Iff.rfl
  | semanticNonNull inner => exact iff_of_true rfl ⟨0, List.mem_cons_self⟩

theorem semantic_not_mem_wrappers {t : TypeExpr} (h : t.hasMarker = false) (l : Nat) :
    .semantic ∉ t.wrappers l := by
  intro hl
  rw [hasMarker_iff.2 ⟨l, hl⟩] at h
  cases h

/-! ## Resolution -/

theorem depth_resolveAt (levels : Levels) (level : Level) (t : TypeExpr) :
    (resolveAt levels level t).depth = t.depth := by
  induction t generalizing level with
  | named name =>
    simp only [resolveAt]
    split <;> rfl
  | list item ih =>
    simp only [resolveAt]
    split <;> simp only [depth, ih]
  | nonNull inner ih =>
    simp only [resolveAt]
    split <;> simp only [depth, ih]
  | semanticNonNull inner ih => exact ih level

theorem add_one_add_ofNat (level : Level) (l : Nat) :
    level + 1 + UInt32.ofNat l = level + UInt32.ofNat (l + 1) := by
  rw [UInt32.ofNat_add, UInt32.add_assoc, UInt32.add_comm 1]
  rfl

/-- **Resolution, depth by depth.** At a covered depth one semantic wrapper stands for all that was
there; at any other the semantic ones go and the hard ones stay. -/
theorem wrappers_resolveAt (levels : Levels) {t : TypeExpr} {l : Nat} (level : Level)
    (h : l ≤ t.depth) :
    (resolveAt levels level t).wrappers l =
      if levels.contains (level + UInt32.ofNat l) then [.semantic]
      else (t.wrappers l).filter (· = .nonNull) := by
  have hzero : level + UInt32.ofNat 0 = level := UInt32.add_zero level
  induction t generalizing level l with
  | named name =>
    obtain rfl : l = 0 := Nat.le_zero.1 h
    rw [hzero]
    simp only [resolveAt]
    split <;> rfl
  | list item ih =>
    cases l with
    | zero =>
      rw [hzero]
      simp only [resolveAt]
      split <;> rfl
    | succ l =>
      have hitem := ih (level + 1) (Nat.le_of_succ_le_succ h) (UInt32.add_zero _)
      rw [add_one_add_ofNat] at hitem
      simp only [resolveAt]
      split <;> simp only [wrappers, hitem]
  | nonNull inner ih =>
    have hinner := ih level h hzero
    simp only [resolveAt]
    cases l with
    | zero =>
      rw [hzero] at hinner ⊢
      -- a covered level takes the wrapper away after the marker stands inside
      by_cases hc : levels.contains level = true
      · simp only [hc, if_true] at hinner ⊢
        exact hinner
      · simp only [hc, if_false, Bool.false_eq_true] at hinner ⊢
        simp [wrappers, hinner]
    | succ l =>
      split
      · exact hinner
      · simp only [wrappers, hinner]
  | semanticNonNull inner ih =>
    have hinner := ih level h hzero
    rw [resolveAt, hinner]
    cases l with
    | zero => simp [wrappers]
    | succ l => rfl

/-! ## Conversion -/

theorem hasMarker_nonNullOnce (t : TypeExpr) : t.nonNullOnce.hasMarker = t.hasMarker := by
  cases t <;> rfl

theorem depth_nonNullOnce (t : TypeExpr) : t.nonNullOnce.depth = t.depth := by
  cases t <;> rfl

/-- No marker is left in a converted type. -/
theorem hasMarker_convert (mode : Mode) (t : TypeExpr) : (t.convert mode).hasMarker = false := by
  induction t with
  | named name => rfl
  | list item ih => exact ih
  | nonNull inner ih => rw [convert, hasMarker_nonNullOnce, ih]
  | semanticNonNull inner ih =>
    cases mode with
    | strict => rw [convert, hasMarker_nonNullOnce, ih]
    | nullable => exact ih

@[simp] theorem depth_convert (mode : Mode) (t : TypeExpr) : (t.convert mode).depth = t.depth := by
  induction t with
  | named name => rfl
  | list item ih => simp only [convert, depth, ih]
  | nonNull inner ih => rw [convert, depth_nonNullOnce, ih, depth]
  | semanticNonNull inner ih =>
    cases mode with
    | strict => rw [convert, depth_nonNullOnce, ih, depth]
    | nullable => exact ih

theorem wrappers_nonNullOnce_succ (t : TypeExpr) (l : Nat) :
    t.nonNullOnce.wrappers (l + 1) = t.wrappers (l + 1) := by
  cases t <;> rfl

/-- Wrapping once more makes no difference where one hard wrapper is the whole run. -/
theorem wrappers_nonNullOnce_zero {t : TypeExpr} {b : Bool}
    (h : t.wrappers 0 = if b then [.nonNull] else []) : t.nonNullOnce.wrappers 0 = [.nonNull] := by
  cases t with
  | named name => rfl
  | list item => rfl
  | nonNull inner =>
    have hinner : inner.wrappers 0 = [] := by
      cases b with
      | false => cases h
      | true => exact (List.cons.inj h).2
    simp only [nonNullOnce, wrappers, hinner]
  | semanticNonNull inner => cases b <;> cases h

end TypeExpr

/-- Whether a mode makes a wrapper an enforced one. -/
def Mode.enforces : Mode → Wrapper → Bool
  | strict, _ => true
  | nullable, .nonNull => true
  | nullable, .semantic => false

/-- **Conversion, depth by depth.** A run of wrappers becomes one hard wrapper if the mode enforces
any of them, and vanishes otherwise. -/
theorem TypeExpr.wrappers_convert (mode : Mode) (t : TypeExpr) (l : Nat) :
    (t.convert mode).wrappers l = if (t.wrappers l).any mode.enforces then [.nonNull] else [] := by
  induction t generalizing l with
  | named name => rfl
  | list item ih =>
    cases l with
    | zero => rfl
    | succ l => exact ih l
  | nonNull inner ih =>
    cases l with
    | zero =>
      rw [convert, wrappers_nonNullOnce_zero (ih 0)]
      cases mode <;> rfl
    | succ l => rw [convert, wrappers_nonNullOnce_succ, ih, wrappers]
  | semanticNonNull inner ih =>
    cases mode with
    | strict =>
      cases l with
      | zero =>
        rw [convert, wrappers_nonNullOnce_zero (ih 0)]
        rfl
      | succ l =>
        rw [convert, wrappers_nonNullOnce_succ, ih]
        rfl
    | nullable =>
      cases l with
      | zero =>
        simp only [convert, ih, wrappers, List.any_cons, Mode.enforces, Bool.false_or]
      | succ l => exact ih (l + 1)

end SemanticNullability
