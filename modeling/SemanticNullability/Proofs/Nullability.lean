import SemanticNullability.Proofs.Depth
/-!
# The nullability of a converted field

What conversion makes of a field is said position by position: `Field.Enforced` lists the list
depths at which the converted type is non-null, from the wrappers and the levels that the field has,
and `convert_applyLevels_nullability` says that the converted type is just that.
-/
namespace SemanticNullability

namespace Levels

/-- Whether a list depth is among the levels. -/
def Covers (levels : Levels) (depth : Nat) : Prop := ∃ level ∈ levels.toList, level.toNat = depth

instance (levels : Levels) (depth : Nat) : Decidable (levels.Covers depth) :=
  inferInstanceAs (Decidable (∃ level ∈ levels.toList, level.toNat = depth))

/-- Among more levels there are more depths. -/
theorem Covers.mono {less more : Levels} {depth : Nat} (h : less.Covers depth)
    (hsub : ∀ level ∈ less.toList, level ∈ more.toList) : more.Covers depth := by
  obtain ⟨level, hmem, hlevel⟩ := h
  exact ⟨level, hsub level hmem, hlevel⟩

/-- The 32 bits of a level are enough for a depth below `UInt32.size`. -/
theorem contains_ofNat_iff {levels : Levels} {depth : Nat} (h : depth < UInt32.size) :
    levels.contains (UInt32.ofNat depth) = true ↔ levels.Covers depth := by
  rw [contains, List.contains_iff_mem]
  constructor
  · intro hmem
    exact ⟨_, hmem, UInt32.toNat_ofNat_of_lt' h⟩
  · rintro ⟨level, hmem, rfl⟩
    rw [UInt32.ofNat_toNat]
    exact hmem

end Levels

/-- The list depths at which a field is non-null in a mode. With levels, the covered depths are
non-null in strict mode and nullable in nullable mode, and the others are what they were; markers
that stand in the type already do not count. Without levels, markers count in strict mode. -/
def Field.Enforced (f : Field) (mode : Mode) (l : Nat) : Prop :=
  match f.semantic, mode with
  | some levels, .strict => levels.Covers l ∨ .nonNull ∈ f.type.wrappers l
  | some levels, .nullable => ¬ levels.Covers l ∧ .nonNull ∈ f.type.wrappers l
  | none, .strict => .nonNull ∈ f.type.wrappers l ∨ .semantic ∈ f.type.wrappers l
  | none, .nullable => .nonNull ∈ f.type.wrappers l

namespace TypeExpr

theorem count_wrappers_convert_le_one (mode : Mode) (t : TypeExpr) (l : Nat) :
    ((t.convert mode).wrappers l).count .nonNull ≤ 1 := by
  rw [wrappers_convert]
  split
  · exact Nat.le_refl 1
  · exact Nat.zero_le 1

theorem nonNull_mem_wrappers_convert {mode : Mode} {t : TypeExpr} {l : Nat} :
    .nonNull ∈ (t.convert mode).wrappers l ↔ (t.wrappers l).any mode.enforces = true := by
  rw [wrappers_convert]
  split <;> simp_all

theorem any_enforces_strict {ws : List Wrapper} :
    ws.any Mode.strict.enforces = true ↔ .nonNull ∈ ws ∨ .semantic ∈ ws := by
  cases ws with
  | nil => simp
  | cons w rest => cases w <;> simp [Mode.enforces]

theorem any_enforces_nullable {ws : List Wrapper} :
    ws.any Mode.nullable.enforces = true ↔ .nonNull ∈ ws := by
  rw [List.any_eq_true]
  constructor
  · rintro ⟨w, hw, henf⟩
    cases w with
    | nonNull => exact hw
    | semantic => cases henf
  · intro hw
    exact ⟨_, hw, rfl⟩

theorem nonNull_mem_filter {ws : List Wrapper} :
    .nonNull ∈ ws.filter (· = .nonNull) ↔ .nonNull ∈ ws := by simp

theorem semantic_not_mem_filter {ws : List Wrapper} :
    .semantic ∉ ws.filter (· = .nonNull) := by simp

/-- The wrappers of a type into which all levels have been put. The 32 bits of a level are enough for
its depths. -/
theorem wrappers_resolve {t : TypeExpr} (levels : Levels) {l : Nat} (hl : l ≤ t.depth)
    (hdepth : t.depth < UInt32.size) :
    (t.resolve levels).wrappers l =
      if levels.Covers l then [.semantic] else (t.wrappers l).filter (· = .nonNull) := by
  have hresolve := wrappers_resolveAt levels 0 hl
  rw [UInt32.zero_add] at hresolve
  simp only [Levels.contains_ofNat_iff (Nat.lt_of_le_of_lt hl hdepth)] at hresolve
  exact hresolve

end TypeExpr

namespace Field

theorem depth_applyLevels (f : Field) : f.applyLevels.type.depth = f.type.depth := by
  unfold applyLevels
  split
  · exact TypeExpr.depth_resolveAt _ 0 f.type
  · rfl

/-- The wrappers of a field whose levels have become markers. -/
theorem wrappers_applyLevels {f : Field} {levels : Levels} {l : Nat} (hf : f.semantic = some levels)
    (hl : l ≤ f.type.depth) (hdepth : f.type.depth < UInt32.size) :
    f.applyLevels.type.wrappers l =
      if levels.Covers l then [.semantic] else (f.type.wrappers l).filter (· = .nonNull) := by
  rw [applyLevels, hf]
  exact TypeExpr.wrappers_resolve levels hl hdepth

/-- Applying the levels and converting enforces non-null at the depths of `Enforced`. -/
theorem any_enforces_applyLevels {f : Field} {mode : Mode} {l : Nat} (hl : l ≤ f.type.depth)
    (hdepth : f.type.depth < UInt32.size) :
    (f.applyLevels.type.wrappers l).any mode.enforces = true ↔ f.Enforced mode l := by
  cases hf : f.semantic with
  | none =>
    have hsame : f.applyLevels = f := by rw [applyLevels, hf]
    rw [hsame]
    cases mode with
    | strict => simp only [Enforced, hf, TypeExpr.any_enforces_strict]
    | nullable => simp only [Enforced, hf, TypeExpr.any_enforces_nullable]
  | some levels =>
    rw [wrappers_applyLevels hf hl hdepth]
    by_cases hc : levels.Covers l
    · cases mode with
      | strict => simp [Enforced, hf, hc, Mode.enforces]
      | nullable => simp [Enforced, hf, hc, Mode.enforces]
    · rw [if_neg hc]
      cases mode with
      | strict =>
        simp only [Enforced, hf, hc, false_or, TypeExpr.any_enforces_strict,
          TypeExpr.nonNull_mem_filter, TypeExpr.semantic_not_mem_filter, or_false]
      | nullable =>
        simp only [Enforced, hf, hc, not_false_eq_true, true_and, TypeExpr.any_enforces_nullable,
          TypeExpr.nonNull_mem_filter]

theorem depth_convert (mode : Mode) (f : Field) : (f.convert mode).type.depth = f.type.depth := by
  rw [convert, TypeExpr.depth_convert, depth_applyLevels]

/-- A converted field is non-null at the depths of `Enforced`, as far as its type has them. -/
theorem nonNull_mem_wrappers_convert_iff {f : Field} {mode : Mode} {l : Nat}
    (hdepth : f.type.depth < UInt32.size) :
    .nonNull ∈ (f.convert mode).type.wrappers l ↔ l ≤ f.type.depth ∧ f.Enforced mode l := by
  rw [convert, TypeExpr.nonNull_mem_wrappers_convert]
  by_cases hl : l ≤ f.type.depth
  · rw [any_enforces_applyLevels hl hdepth]
    simp [hl]
  · have hnil : f.applyLevels.type.wrappers l = [] := by
      refine TypeExpr.wrappers_eq_nil_of_depth_lt ?_
      rw [depth_applyLevels]
      omega
    simp [hnil, hl]

/-- **The nullability of a converted field.** Name and list layers stay, no marker is left, no
position is non-null twice, and the non-null positions are those of `Enforced`. -/
theorem convert_applyLevels_nullability (mode : Mode) (f : Field)
    (hdepth : f.type.depth < UInt32.size) :
    (f.applyLevels.type.convert mode).baseName = f.type.baseName ∧
    (f.applyLevels.type.convert mode).depth = f.type.depth ∧
    (f.applyLevels.type.convert mode).hasMarker = false ∧
    (∀ l, ((f.applyLevels.type.convert mode).wrappers l).count .nonNull ≤ 1) ∧
    ∀ l, .nonNull ∈ (f.applyLevels.type.convert mode).wrappers l ↔
      l ≤ f.type.depth ∧ f.Enforced mode l := by
  refine ⟨baseName_convert mode f, depth_convert mode f, TypeExpr.hasMarker_convert mode _,
    TypeExpr.count_wrappers_convert_le_one mode _, fun l => ?_⟩
  exact nonNull_mem_wrappers_convert_iff hdepth

/-- A field of type `[String!!]*!` with the level 1: the marker around the list and the doubled
wrapper inside it are both on the way. -/
def doublyMarked : Field :=
  { Field.ofType "tags"
      (.nonNull (.semanticNonNull (.list (.nonNull (.nonNull (.named "String")))))) with
    semantic := some (Levels.ofList [1]) }

theorem nullability_doublyMarked :
    doublyMarked.type.depth < UInt32.size ∧
    .nonNull ∈ (doublyMarked.applyLevels.type.convert .nullable).wrappers 0 ∧
    .nonNull ∉ (doublyMarked.applyLevels.type.convert .nullable).wrappers 1 := by
  have hdepth : doublyMarked.type.depth < UInt32.size := by decide
  obtain ⟨_, _, _, _, hiff⟩ := convert_applyLevels_nullability .nullable doublyMarked hdepth
  have houter : ¬ (Levels.ofList [1]).Covers 0 ∧ .nonNull ∈ doublyMarked.type.wrappers 0 := by
    decide
  have hinner : (Levels.ofList [1]).Covers 1 := by decide
  refine ⟨hdepth, (hiff 0).2 ⟨by decide, houter⟩, fun h => ?_⟩
  have hnot : ¬ (Levels.ofList [1]).Covers 1 ∧ .nonNull ∈ doublyMarked.type.wrappers 1 :=
    ((hiff 1).1 h).2
  exact hnot.1 hinner

end Field

end SemanticNullability
