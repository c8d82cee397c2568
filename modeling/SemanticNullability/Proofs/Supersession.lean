import SemanticNullability.Proofs.Resolution
/-!
# The last directive wins

Resolution drops the markers that it finds, so a second set of levels replaces the first, save for one
thing: an enforced wrapper that gave way to a marker of the first does not come back when the second
drops the marker. Resolving twice is resolving with the second set exactly if that happens nowhere
(`resolve_resolve_eq_iff`); what follows for equal and for larger sets is in `resolve_resolve`.

List depths are counted in 32 bits, so in a type of more layers than that the count comes round.
`Levels.Reaches` asks for a depth as it is counted; below `UInt32.size` it is `Levels.Covers`.
-/
namespace SemanticNullability

namespace Levels

/-- Whether a list depth, as it is counted in 32 bits, is among the levels. -/
def Reaches (levels : Levels) (depth : Nat) : Prop := levels.Covers (depth % UInt32.size)

instance (levels : Levels) (depth : Nat) : Decidable (levels.Reaches depth) :=
  inferInstanceAs (Decidable (levels.Covers (depth % UInt32.size)))

variable {levels : Levels} {depth : Nat}

theorem reaches_iff_covers (h : depth < UInt32.size) :
    levels.Reaches depth ↔ levels.Covers depth := by
  rw [Reaches, Nat.mod_eq_of_lt h]

theorem contains_ofNat_iff_reaches :
    levels.contains (UInt32.ofNat depth) = true ↔ levels.Reaches depth := by
  have hround : UInt32.ofNat depth = UInt32.ofNat (depth % UInt32.size) := by
    refine UInt32.toNat_inj.1 ?_
    simp
  rw [hround, contains_ofNat_iff (Nat.mod_lt _ (by decide)), Reaches]

end Levels

namespace TypeExpr

theorem filter_nonNull_eq_nil_iff {ws : List Wrapper} :
    ws.filter (· = .nonNull) = [] ↔ .nonNull ∉ ws := by
  simp only [List.filter_eq_nil_iff, decide_eq_true_eq, List.forall_mem_ne']

section

variable {t : TypeExpr} {first second : Levels} {l : Nat}

/-- The wrappers of a resolved type, however deep the type is. -/
theorem wrappers_resolve_of_le (levels : Levels) (hl : l ≤ t.depth) :
    (t.resolve levels).wrappers l =
      if levels.Reaches l then [.semantic] else (t.wrappers l).filter (· = .nonNull) := by
  have hresolve := wrappers_resolveAt levels 0 hl
  rw [UInt32.zero_add] at hresolve
  simp only [Levels.contains_ofNat_iff_reaches] at hresolve
  exact hresolve

/-- At a depth that the second set does not reach, its run drops the marker of the first and keeps
what enforced wrappers the first has left. -/
theorem wrappers_resolve_resolve (hl : l ≤ t.depth) :
    ((t.resolve first).resolve second).wrappers l =
      if second.Reaches l then [.semantic]
      else if first.Reaches l then []
      else (t.wrappers l).filter (· = .nonNull) := by
  have hdeep : l ≤ (t.resolve first).depth := by rwa [depth_resolve]
  rw [wrappers_resolve_of_le second hdeep, wrappers_resolve_of_le first hl]
  by_cases hsecond : second.Reaches l
  · rw [if_pos hsecond, if_pos hsecond]
  · by_cases hfirst : first.Reaches l
    · rw [if_neg hsecond, if_neg hsecond, if_pos hfirst, if_pos hfirst]
      rfl
    · rw [if_neg hsecond, if_neg hsecond, if_neg hfirst, if_neg hfirst, List.filter_filter]
      simp only [Bool.and_self]

/-- One depth: the second run gives what it would give alone, unless an enforced wrapper has been
lost to the first. -/
theorem wrappers_resolve_resolve_eq_iff (hl : l ≤ t.depth) :
    ((t.resolve first).resolve second).wrappers l = (t.resolve second).wrappers l ↔
      (first.Reaches l → ¬ second.Reaches l → .nonNull ∉ t.wrappers l) := by
  rw [wrappers_resolve_resolve hl, wrappers_resolve_of_le second hl]
  by_cases hsecond : second.Reaches l
  · simp [hsecond]
  · by_cases hfirst : first.Reaches l
    · -- what the first set took away is what the second alone would have kept
      simp only [hsecond, hfirst, if_false, if_true, not_false_eq_true, forall_const]
      rw [eq_comm, filter_nonNull_eq_nil_iff]
    · simp [hsecond, hfirst]

/-- **Resolving twice.** It comes to resolving with the second set alone exactly if no enforced
wrapper stands at a depth that the first set reaches and the second does not. -/
theorem resolve_resolve_eq_iff :
    (t.resolve first).resolve second = t.resolve second ↔
      ∀ l ≤ t.depth, first.Reaches l → ¬ second.Reaches l → .nonNull ∉ t.wrappers l := by
  constructor
  · intro h l hl
    exact (wrappers_resolve_resolve_eq_iff hl).1 (by rw [h])
  · intro h
    refine ext_wrappers (by simp) (by simp) fun l => ?_
    by_cases hl : l ≤ t.depth
    · exact (wrappers_resolve_resolve_eq_iff hl).2 (h l hl)
    · have hlt : t.depth < l := Nat.lt_of_not_le hl
      rw [wrappers_resolve_of_lt second (by rwa [depth_resolve]), wrappers_resolve_of_lt second hlt]

/-- Where the count of the depth does not come round, the depths are those of the levels themselves. -/
theorem resolve_resolve_eq_iff_of_lt (hdepth : t.depth < UInt32.size) :
    (t.resolve first).resolve second = t.resolve second ↔
      ∀ l, first.Covers l → ¬ second.Covers l → .nonNull ∉ t.wrappers l := by
  rw [resolve_resolve_eq_iff]
  constructor
  · intro h l hfirst hsecond
    by_cases hl : l ≤ t.depth
    · have hsize : l < UInt32.size := Nat.lt_of_le_of_lt hl hdepth
      refine h l hl ((Levels.reaches_iff_covers hsize).2 hfirst) ?_
      rwa [Levels.reaches_iff_covers hsize]
    · rw [wrappers_eq_nil_of_depth_lt (Nat.lt_of_not_le hl)]
      exact List.not_mem_nil
  · intro h l hl hfirst hsecond
    have hsize : l < UInt32.size := Nat.lt_of_le_of_lt hl hdepth
    rw [Levels.reaches_iff_covers hsize] at hfirst hsecond
    exact h l hfirst hsecond

theorem resolve_resolve_of_subset (t : TypeExpr)
    (hsub : ∀ level ∈ first.toList, level ∈ second.toList) :
    (t.resolve first).resolve second = t.resolve second :=
  resolve_resolve_eq_iff.2 fun _ _ hfirst hsecond => absurd (Levels.Covers.mono hfirst hsub) hsecond

end

/-- **The last directive wins.** Resolving with one set of levels and then with another is resolving
with the other alone exactly if no enforced wrapper stands at a list depth of the first that is not
one of the second; in a type of any depth, as the depths are counted. So resolution is idempotent,
and a set of levels replaces every smaller one. -/
theorem resolve_resolve (t : TypeExpr) (first second : Levels) :
    ((t.resolve first).resolve second = t.resolve second ↔
      ∀ l ≤ t.depth, first.Reaches l → ¬ second.Reaches l → .nonNull ∉ t.wrappers l) ∧
    (t.depth < UInt32.size →
      ((t.resolve first).resolve second = t.resolve second ↔
        ∀ l, first.Covers l → ¬ second.Covers l → .nonNull ∉ t.wrappers l)) ∧
    (t.resolve first).resolve first = t.resolve first ∧
    ((∀ level ∈ first.toList, level ∈ second.toList) →
      (t.resolve first).resolve second = t.resolve second) :=
  ⟨resolve_resolve_eq_iff, resolve_resolve_eq_iff_of_lt,
    resolve_resolve_of_subset t fun _ h => h, resolve_resolve_of_subset t⟩

/-- In `[[Int*!]!!*]!*!` the depths 0 and 1 have enforced wrappers to lose; a level beyond the type
loses none. -/
theorem resolve_resolve_crowded :
    crowded.depth < UInt32.size ∧
    (crowded.resolve (Levels.ofList [0, 7])).resolve (Levels.ofList [2, 0]) =
      crowded.resolve (Levels.ofList [2, 0]) ∧
    (crowded.resolve (Levels.ofList [1])).resolve (Levels.ofList [2, 0]) ≠
      crowded.resolve (Levels.ofList [2, 0]) ∧
    (crowded.resolve (Levels.ofList [2, 0])).resolve (Levels.ofList [0, 1, 2]) =
      crowded.resolve (Levels.ofList [0, 1, 2]) := by
  have hdepth : crowded.depth < UInt32.size := by decide
  obtain ⟨hkept, -⟩ := resolve_resolve crowded (Levels.ofList [0, 7]) (Levels.ofList [2, 0])
  obtain ⟨-, hlost, -⟩ := resolve_resolve crowded (Levels.ofList [1]) (Levels.ofList [2, 0])
  obtain ⟨-, -, -, hlarger⟩ :=
    resolve_resolve crowded (Levels.ofList [2, 0]) (Levels.ofList [0, 1, 2])
  refine ⟨hdepth, hkept.2 (by decide), fun h => ?_, hlarger (by simp)⟩
  exact (hlost hdepth).1 h 1 (by decide) (by decide) (by decide)

end TypeExpr

end SemanticNullability
