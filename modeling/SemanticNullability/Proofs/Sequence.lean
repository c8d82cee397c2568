import Mathlib.Tactic.Common
/-!
# Steps that may fail

Steps in a row succeed if each does, on what those before it give, and fail at the first that fails.
-/
namespace SemanticNullability

variable {ε σ α β : Type}

theorem bind_eq_ok_iff {x : Except ε α} {f : α → Except ε β} {b : β} :
    x >>= f = .ok b ↔ ∃ a, x = .ok a ∧ f a = .ok b := by
  cases x <;> simp [bind, Except.bind]

theorem bind_eq_error_iff {x : Except ε α} {f : α → Except ε β} {e : ε} :
    x >>= f = .error e ↔ x = .error e ∨ ∃ a, x = .ok a ∧ f a = .error e := by
  cases x <;> simp [bind, Except.bind]

variable {step : σ → α → Except ε σ} {l : List α} {s r : σ}

theorem foldlM_cons_eq_ok_iff {a : α} :
    (a :: l).foldlM step s = .ok r ↔ ∃ m, step s a = .ok m ∧ l.foldlM step m = .ok r := by
  rw [List.foldlM_cons, bind_eq_ok_iff]

/-- A fold fails exactly if one step does, behind steps that succeed; what comes later is not
looked at. -/
theorem foldlM_eq_error_iff {e : ε} :
    l.foldlM step s = .error e ↔ ∃ before a after m, l = before ++ a :: after ∧
      before.foldlM step s = .ok m ∧ step m a = .error e := by
  induction l generalizing s with
  | nil =>
    constructor
    · intro h
      cases h
    · rintro ⟨before, a, after, m, hl, -, -⟩
      cases before <;> cases hl
  | cons x rest ih =>
    simp only [List.foldlM_cons, bind_eq_error_iff, ih, List.cons_eq_append_iff]
    constructor
    · rintro (hx | ⟨s', hx, before, a, after, m, rfl, hbefore, ha⟩)
      · exact ⟨[], x, rest, s, .inl ⟨rfl, rfl⟩, rfl, hx⟩
      · exact ⟨x :: before, a, after, m, .inr ⟨before, rfl, rfl⟩,
          foldlM_cons_eq_ok_iff.2 ⟨s', hx, hbefore⟩, ha⟩
    · rintro ⟨before, a, after, m, ⟨rfl, hl⟩ | ⟨tail, rfl, rfl⟩, hbefore, ha⟩
      · cases hl
        cases hbefore
        exact .inl ha
      · obtain ⟨s', hx, htail⟩ := foldlM_cons_eq_ok_iff.1 hbefore
        exact .inr ⟨s', hx, tail, a, after, m, rfl, htail, ha⟩

end SemanticNullability
