import Mathlib.Tactic.ByContra
import SemanticNullability.Proofs.Nullability
/-!
# What the two conversions accept

A field is answered with a response, and its type says which responses are accepted. A type asks two
things of a response: the right layers of lists, and no null at the depths where it enforces non-null
(`TypeExpr.accepts_iff`). The two conversions of a field have the same layers, so what they accept
differs by nulls alone, and only at the depths where the field is semantically non-null
(`Field.accepts_convert`).
-/
namespace SemanticNullability

/-- What a field is answered with. -/
inductive Response where
  | null
  | leaf
  | list (items : List Response)

namespace Response

/-- Whether a null stands at a list depth. -/
def hasNullAt : Response → Nat → Bool
  | null, 0 => true
  | list items, l + 1 => items.any fun v => v.hasNullAt l
  | _, _ => false

/-- Whether a response has so many layers of lists: a leaf stands inside all of them, and a null may
stand anywhere. -/
def fitsDepth : Response → Nat → Bool
  | null, _ => true
  | leaf, depth => depth == 0
  | list items, depth + 1 => items.all fun v => v.fitsDepth depth
  | list _, 0 => false

theorem hasNullAt_list_succ {items : List Response} {l : Nat} :
    (list items).hasNullAt (l + 1) = false ↔ ∀ v ∈ items, v.hasNullAt l = false := by
  rw [hasNullAt, List.any_eq_false]
  simp only [Bool.not_eq_true]

theorem fitsDepth_list_succ {items : List Response} {depth : Nat} :
    (list items).fitsDepth (depth + 1) = true ↔ ∀ v ∈ items, v.fitsDepth depth = true := by
  rw [fitsDepth, List.all_eq_true]

/-- Inside all layers there is nothing, so no null either. -/
theorem hasNullAt_eq_false_of_lt {v : Response} {depth l : Nat} (hv : v.fitsDepth depth = true)
    (hl : depth < l) : v.hasNullAt l = false := by
  induction depth generalizing v l with
  | zero =>
    cases v with
    | null =>
      cases l with
      | zero => omega
      | succ l => rfl
    | leaf => cases l <;> rfl
    | list items => cases hv
  | succ depth ih =>
    obtain ⟨l, rfl⟩ : ∃ k, l = k + 1 := ⟨l - 1, by omega⟩
    cases v with
    | null => rfl
    | leaf => rfl
    | list items =>
      rw [hasNullAt_list_succ]
      intro v hmem
      exact ih (fitsDepth_list_succ.1 hv v hmem) (by omega)

end Response

namespace TypeExpr

/-- Whether a type accepts a response. A named type accepts leaves, a list type lists of what its
items accept, and both accept null; a non-null type accepts what stands in it does, but for null. A
semantic marker asks nothing of a response. -/
def accepts : TypeExpr → Response → Bool
  | named _, .null => true
  | named _, .leaf => true
  | named _, .list _ => false
  | list _, .null => true
  | list _, .leaf => false
  | list item, .list items => items.all fun v => item.accepts v
  | nonNull _, .null => false
  | nonNull inner, v => inner.accepts v
  | semanticNonNull inner, v => inner.accepts v

/-! ## Depth by depth -/

variable {v : Response}

/-- Whether a response has no null where a type enforces non-null. -/
def Spares (t : TypeExpr) (v : Response) : Prop :=
  ∀ l, .nonNull ∈ t.wrappers l → v.hasNullAt l = false

theorem spares_list_iff {item : TypeExpr} {items : List Response} :
    (list item).Spares (.list items) ↔ ∀ v ∈ items, item.Spares v := by
  constructor
  · intro h v hv l hl
    exact Response.hasNullAt_list_succ.1 (h (l + 1) hl) v hv
  · intro h l hl
    cases l with
    | zero => rfl
    | succ l => exact Response.hasNullAt_list_succ.2 fun v hv => h v hv l hl

theorem not_spares_nonNull_null {inner : TypeExpr} : ¬ (nonNull inner).Spares .null :=
  fun h => Bool.noConfusion (h 0 List.mem_cons_self)

/-- The wrapper is at depth zero, where only null is null. -/
theorem spares_nonNull_iff {inner : TypeExpr} (hv : v.hasNullAt 0 = false) :
    (nonNull inner).Spares v ↔ inner.Spares v := by
  refine forall_congr' fun l => ?_
  cases l with
  | zero => simp [hv]
  | succ l => exact Iff.rfl

theorem spares_semanticNonNull_iff {inner : TypeExpr} :
    (semanticNonNull inner).Spares v ↔ inner.Spares v := by
  refine forall_congr' fun l => ?_
  cases l with
  | zero => simp [wrappers]
  | succ l => exact Iff.rfl

/-- **Acceptance, depth by depth.** A type accepts the responses of its list layers that have no null
where it enforces non-null. -/
theorem accepts_iff {t : TypeExpr} :
    t.accepts v = true ↔ v.fitsDepth t.depth = true ∧ t.Spares v := by
  induction t generalizing v with
  | named name => cases v <;> simp [accepts, depth, Response.fitsDepth, Spares, wrappers]
  | list item ih =>
    cases v with
    | null =>
      have hspares : (list item).Spares .null := by
        intro l hl
        cases l with
        | zero => simp [wrappers] at hl
        | succ l => rfl
      simp [accepts, Response.fitsDepth, hspares]
    | leaf => simp [accepts, depth, Response.fitsDepth]
    | list items =>
      rw [accepts, List.all_eq_true, depth, Response.fitsDepth_list_succ, spares_list_iff]
      simp only [ih, forall_and]
  | nonNull inner ih =>
    cases v with
    | null => simp [accepts, not_spares_nonNull_null]
    | leaf | list items =>
      rw [spares_nonNull_iff rfl, depth, ← ih]
      rfl
  | semanticNonNull inner ih => rw [spares_semanticNonNull_iff, depth, ← ih, accepts]

end TypeExpr

/-! ## The two conversions of a field -/

namespace Field

/-- The list depths at which a field is semantically non-null: those of its levels or, without
levels, those at which its type has a marker. -/
def Semantic (f : Field) (l : Nat) : Prop :=
  match f.semantic with
  | some levels => levels.Covers l
  | none => .semantic ∈ f.type.wrappers l

theorem enforced_strict_iff {f : Field} {l : Nat} :
    f.Enforced .strict l ↔ f.Enforced .nullable l ∨ f.Semantic l := by
  unfold Enforced Semantic
  cases f.semantic with
  | none => exact Iff.rfl
  | some levels =>
    by_cases hc : levels.Covers l <;> simp [hc]

/-- A converted field accepts the responses of its layers without null where non-null is enforced. -/
theorem accepts_convert_iff {f : Field} {mode : Mode} {v : Response}
    (hdepth : f.type.depth < UInt32.size) :
    (f.convert mode).type.accepts v = true ↔
      v.fitsDepth f.type.depth = true ∧
        ∀ l ≤ f.type.depth, f.Enforced mode l → v.hasNullAt l = false := by
  rw [TypeExpr.accepts_iff, depth_convert, TypeExpr.Spares]
  simp only [nonNull_mem_wrappers_convert_iff hdepth, and_imp]

/-- **What the two conversions accept.** The strict conversion of a field accepts the responses that
the nullable one accepts and that have no null where the field is semantically non-null. So what is
valid in the strict schema is valid in the nullable one, and what is valid only in the latter has a
null at such a depth. -/
theorem accepts_convert (f : Field) (hdepth : f.type.depth < UInt32.size) (v : Response) :
    ((f.convert .strict).type.accepts v = true ↔
      (f.convert .nullable).type.accepts v = true ∧
        ∀ l, f.Semantic l → v.hasNullAt l = false) ∧
    ((f.convert .strict).type.accepts v = true → (f.convert .nullable).type.accepts v = true) ∧
    ((f.convert .nullable).type.accepts v = true → (f.convert .strict).type.accepts v = false →
      ∃ l, f.Semantic l ∧ v.hasNullAt l = true) := by
  have hiff : (f.convert .strict).type.accepts v = true ↔
      (f.convert .nullable).type.accepts v = true ∧
        ∀ l, f.Semantic l → v.hasNullAt l = false := by
    rw [accepts_convert_iff hdepth, accepts_convert_iff hdepth, and_assoc]
    refine and_congr_right fun hfits => ⟨fun h => ⟨fun l hl henf => ?_, fun l hsem => ?_⟩, ?_⟩
    · exact h l hl (enforced_strict_iff.2 (Or.inl henf))
    · by_cases hl : l ≤ f.type.depth
      · exact h l hl (enforced_strict_iff.2 (Or.inr hsem))
      · exact Response.hasNullAt_eq_false_of_lt hfits (by omega)
    · rintro ⟨hnullable, hsemantic⟩ l hl henf
      rcases enforced_strict_iff.1 henf with hn | hs
      · exact hnullable l hl hn
      · exact hsemantic l hs
  refine ⟨hiff, fun h => (hiff.1 h).1, fun hnullable hstrict => ?_⟩
  by_contra hnone
  have haccepts : (f.convert .strict).type.accepts v = true := by
    refine hiff.2 ⟨hnullable, fun l hl => ?_⟩
    rw [← Bool.not_eq_true]
    exact fun hnull => hnone ⟨l, hl, hnull⟩
  rw [haccepts] at hstrict
  cases hstrict

/-- A field of type `[[String]!]` with the levels 0 and 2. -/
def nestedNames : Field :=
  { Field.ofType "names" (.list (.nonNull (.list (.named "String")))) with
    semantic := some (Levels.ofList [0, 2]) }

/-- A list of one list, in which a null stands beside a leaf: only the nullable conversion accepts
it. -/
theorem accepts_convert_nestedNames :
    nestedNames.type.depth < UInt32.size ∧
    (nestedNames.convert .nullable).type.accepts (.list [.list [.leaf, .null]]) = true ∧
    (nestedNames.convert .strict).type.accepts (.list [.list [.leaf, .null]]) = false ∧
    (nestedNames.convert .strict).type.accepts (.list [.list [.leaf]]) = true := by
  have hdepth : nestedNames.type.depth < UInt32.size := by decide
  have hsemantic : nestedNames.Semantic 2 := by
    have hcovers : (Levels.ofList [0, 2]).Covers 2 := by decide
    exact hcovers
  refine ⟨hdepth, by decide, ?_, ?_⟩
  · have hiff := (accepts_convert nestedNames hdepth (.list [.list [.leaf, .null]])).1
    rw [← Bool.not_eq_true, hiff]
    rintro ⟨_, hspared⟩
    exact Bool.noConfusion (hspared 2 hsemantic)
  · have hiff := (accepts_convert nestedNames hdepth (.list [.list [.leaf]])).1
    refine hiff.2 ⟨by decide, fun l _ => ?_⟩
    match l with
    | 0 | 1 | 2 | _ + 3 => rfl

end Field

end SemanticNullability
