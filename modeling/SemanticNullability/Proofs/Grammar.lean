import SemanticNullability.Grammar
/-!
# Grammar rules, both ways

How the combinators run: a repetition reads a row of things that are each read
(`Rule.many_run_flatMap`), and it fails at one that is not (`Rule.many_run_none`). In the other
direction a rule *yields* a property when whatever it reads from symbols of a kind has it
(`Rule.Yields`); this composes, so that each rule of a grammar needs one short step.
-/
namespace SemanticNullability

variable {σ α β : Type}

/-! ## How rules run -/

@[simp] theorem Phrase.run_rule (p : Phrase σ α) : p.rule.run = p.run := rfl

@[simp] theorem Phrase.run_next (f : σ → Rule σ α) (t : σ) (ts : List σ) :
    (Phrase.next f).run (t :: ts) = (f t).run ts := rfl

namespace Rule

@[simp] theorem run_peek (ts : List σ) : (peek : Rule σ (Option σ)).run ts = some (ts.head?, ts) := rfl

/-- What was read first is handed on. -/
theorem run_bind_some {p : Rule σ α} {a : α} {ts rest : List σ} (h : p.run ts = some (a, rest))
    (f : α → Rule σ β) : (p >>= f).run ts = (f a).run rest := by
  rw [run_bind, h]

theorem run_bind_none {p : Rule σ α} {ts : List σ} (h : p.run ts = none) (f : α → Rule σ β) :
    (p >>= f).run ts = none := by
  rw [run_bind, h]

theorem run_map_some {p : Rule σ α} {a : α} {ts rest : List σ} (h : p.run ts = some (a, rest))
    (f : α → β) : (f <$> p).run ts = some (f a, rest) :=
  run_bind_some h (pure ∘ f)

end Rule

theorem Phrase.run_andThen {p : Phrase σ α} {a : α} {ts rest : List σ}
    (h : p.run ts = some (a, rest)) (f : α → Rule σ β) :
    (p.andThen f).run ts = (f a).run rest := by
  simp only [Phrase.andThen, h]

theorem Phrase.run_after {r : Rule σ α} {a : α} {ts rest : List σ} (h : r.run ts = some (a, rest))
    (f : α → Phrase σ β) : (Phrase.after r f).run ts = (f a).run rest := by
  simp only [Phrase.after, h]

namespace Rule

/-- How things are written so that a repetition reads them again: each is read in front of what may
follow it, begins a phrase, and may itself follow the one before. -/
structure Rereads (starts : σ → Bool) (p : Phrase σ α) (written : α → List σ)
    (follows : List σ → Prop) (x : α) : Prop where
  run : ∀ rest, follows rest → p.run (written x ++ rest) = some (x, rest)
  starts : ∃ t ts, written x = t :: ts ∧ starts t = true
  follows : ∀ rest, follows (written x ++ rest)

section Many

variable {starts : σ → Bool} {p : Phrase σ α} {written : α → List σ} {follows : List σ → Prop}

/-- The repetition fails with a phrase that fails. -/
theorem many_run_none {t : σ} {ts : List σ} (h : starts t = true) (hp : p.run (t :: ts) = none) :
    (many starts p).run (t :: ts) = none := by
  show manyFrom starts p (t :: ts) = none
  rw [manyFrom, if_pos h]
  split
  · rename_i hr
    rw [hp] at hr
    cases hr
  · rfl

theorem many_run_cons {x : α} {rest : List σ} (h : Rereads starts p written follows x)
    (hrest : follows rest) :
    (many starts p).run (written x ++ rest) =
      ((many starts p).run rest).map fun (as, last) => (x :: as, last) := by
  obtain ⟨t, ts, hwritten, hstart⟩ := h.starts
  have hrun := h.run rest hrest
  rw [hwritten, List.cons_append] at hrun ⊢
  exact many_run_step hstart hrun

/-- **A row of things is read.** -/
theorem many_run_flatMap {xs : List α} {rest : List σ}
    (h : ∀ x ∈ xs, Rereads starts p written follows x) (hrest : follows rest)
    (hstop : ∀ t ∈ rest.head?, starts t = false) :
    (many starts p).run (xs.flatMap written ++ rest) = some (xs, rest) := by
  induction xs with
  | nil =>
    cases rest with
    | nil => exact many_run_nil starts p
    | cons t ts => exact many_run_stop (hstop t rfl)
  | cons x xs ih =>
    have hnext : follows (xs.flatMap written ++ rest) := by
      cases xs with
      | nil => exact hrest
      | cons y ys =>
        rw [List.flatMap_cons, List.append_assoc]
        exact (h y (by simp)).follows _
    rw [List.flatMap_cons, List.append_assoc, many_run_cons (h x List.mem_cons_self) hnext,
      ih fun y hy => h y (List.mem_cons_of_mem x hy)]
    rfl

/-- A row of at least one thing is read. -/
theorem manyOne_run_flatMap {xs : List α} {rest : List σ} (hne : xs ≠ [])
    (h : ∀ x ∈ xs, Rereads starts p written follows x) (hrest : follows rest)
    (hstop : ∀ t ∈ rest.head?, starts t = false) :
    (manyOne starts p).run (xs.flatMap written ++ rest) = some (xs, rest) := by
  obtain ⟨x, xs, rfl⟩ := List.exists_cons_of_ne_nil hne
  have hnext : follows (xs.flatMap written ++ rest) := by
    cases xs with
    | nil => exact hrest
    | cons y ys =>
      rw [List.flatMap_cons, List.append_assoc]
      exact (h y (by simp)).follows _
  have hfirst : p.rule.run (written x ++ (xs.flatMap written ++ rest)) = _ :=
    (h x List.mem_cons_self).run _ hnext
  rw [List.flatMap_cons, List.append_assoc, manyOne, run_bind_some hfirst,
    run_bind_some (many_run_flatMap (fun y hy => h y (List.mem_cons_of_mem x hy)) hrest hstop)]
  rfl

/-- A row of at least one thing is a row. -/
theorem manyOne_run_eq {t : σ} {ts : List σ} (h : starts t = true) :
    (manyOne starts p).run (t :: ts) = (many starts p).run (t :: ts) := by
  cases hp : p.run (t :: ts) with
  | none => rw [many_run_none h hp, manyOne, run_bind_none (by exact hp)]
  | some r =>
    obtain ⟨a, left⟩ := r
    have hfirst : p.rule.run (t :: ts) = some (a, left) := hp
    rw [many_run_step h hp, manyOne, run_bind_some hfirst, run_bind]
    cases (many starts p).run left <;> rfl

end Many

/-! ## What rules yield -/

/-- What the rule reads from symbols of a kind has a property, and it leaves symbols of that kind. -/
def Yields (kind : σ → Prop) (r : Rule σ α) (property : α → Prop) : Prop :=
  ∀ ts a rest, (∀ t ∈ ts, kind t) → r.run ts = some (a, rest) →
    property a ∧ ∀ t ∈ rest, kind t

end Rule

/-- What the phrase reads from symbols of a kind has a property, and it leaves symbols of that
kind. -/
def Phrase.Yields (kind : σ → Prop) (p : Phrase σ α) (property : α → Prop) : Prop :=
  p.rule.Yields kind property

section Yields

variable {kind : σ → Prop} {property : α → Prop} {result : β → Prop}

namespace Rule

theorem yields_pure {a : α} (h : property a) : (pure a : Rule σ α).Yields kind property := by
  intro ts b rest hts hrun
  cases hrun
  exact ⟨h, hts⟩

theorem yields_refuse : (refuse : Rule σ α).Yields kind property := by
  intro ts a rest _ hrun
  cases hrun

theorem Yields.bind {r : Rule σ α} {f : α → Rule σ β} (hr : r.Yields kind property)
    (hf : ∀ a, property a → (f a).Yields kind result) : (r >>= f).Yields kind result := by
  intro ts b rest hts hrun
  rw [run_bind] at hrun
  split at hrun
  · rename_i a left hleft
    obtain ⟨ha, hkind⟩ := hr ts a left hts hleft
    exact hf a ha left b rest hkind hrun
  · cases hrun

theorem Yields.map {r : Rule σ α} {f : α → β} (hr : r.Yields kind property)
    (hf : ∀ a, property a → result (f a)) : (f <$> r).Yields kind result :=
  hr.bind fun a ha => yields_pure (hf a ha)

theorem yields_peek : (peek : Rule σ (Option σ)).Yields kind fun t => ∀ s ∈ t, kind s := by
  intro ts a rest hts hrun
  cases hrun
  exact ⟨fun s hs => hts s (List.mem_of_mem_head? hs), hts⟩

theorem Yields.imp {r : Rule σ α} {weaker : α → Prop} (hr : r.Yields kind property)
    (h : ∀ a, property a → weaker a) : r.Yields kind weaker := by
  intro ts a rest hts hrun
  obtain ⟨ha, hrest⟩ := hr ts a rest hts hrun
  exact ⟨h a ha, hrest⟩

theorem yields_many {starts : σ → Bool} {p : Phrase σ α} (hp : p.Yields kind property) :
    (many starts p).Yields kind fun as => ∀ a ∈ as, property a := by
  intro ts as rest hts hrun
  have hfrom : manyFrom starts p ts = some (as, rest) := hrun
  fun_induction manyFrom starts p ts generalizing as rest with
  | case1 =>
    cases hfrom
    exact ⟨fun a ha => absurd ha List.not_mem_nil, hts⟩
  | case2 t ts _ a left hleft bs last hmany ih =>
    cases hfrom
    obtain ⟨ha, hkind⟩ := hp _ a left hts hleft
    obtain ⟨hbs, hlast⟩ := ih bs last hkind hmany hmany
    exact ⟨List.forall_mem_cons.2 ⟨ha, hbs⟩, hlast⟩
  | case3 => cases hfrom
  | case4 => cases hfrom
  | case5 =>
    cases hfrom
    exact ⟨fun a ha => absurd ha List.not_mem_nil, hts⟩

theorem yields_manyOne {starts : σ → Bool} {p : Phrase σ α} (hp : p.Yields kind property) :
    (manyOne starts p).Yields kind fun as => ∀ a ∈ as, property a :=
  Yields.bind hp fun _ ha => (yields_many hp).bind fun _ has =>
    yields_pure (List.forall_mem_cons.2 ⟨ha, has⟩)

end Rule

namespace Phrase

theorem yields_next {f : σ → Rule σ α} (h : ∀ t, kind t → (f t).Yields kind property) :
    (next f).Yields kind property := by
  intro ts a rest hts hrun
  cases ts with
  | nil => cases hrun
  | cons t ts =>
    exact h t (hts t List.mem_cons_self) ts a rest (fun s hs => hts s (List.mem_cons_of_mem t hs)) hrun

theorem Yields.andThen {p : Phrase σ α} {f : α → Rule σ β} (hp : p.Yields kind property)
    (hf : ∀ a, property a → (f a).Yields kind result) : (p.andThen f).Yields kind result :=
  Rule.Yields.bind hp hf

theorem yields_after {r : Rule σ α} {f : α → Phrase σ β} (hr : r.Yields kind property)
    (hf : ∀ a, property a → (f a).Yields kind result) : (after r f).Yields kind result :=
  Rule.Yields.bind hr hf

end Phrase

end Yields

end SemanticNullability
