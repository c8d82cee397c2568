/-!
# Grammar rules

A rule reads from the front of a list of symbols and leaves the rest, or refuses. A rule never
leaves more than there was, and a phrase leaves less, which is part of the type of each; so
phrases can be repeated (`Rule.many`), and the repetition ends. `Phrase.next` is the way to read
with one symbol of lookahead: the symbol decides how to go on.
-/
namespace SemanticNullability

/-- Reads something from the front of a list of symbols. -/
structure Rule (σ α : Type) where
  run : List σ → Option (α × List σ)
  length_le : ∀ {ts a rest}, run ts = some (a, rest) → rest.length ≤ ts.length

/-- Reads something of at least one symbol. -/
structure Phrase (σ α : Type) where
  run : List σ → Option (α × List σ)
  length_lt : ∀ {ts a rest}, run ts = some (a, rest) → rest.length < ts.length

variable {σ α β : Type}

def Phrase.rule (p : Phrase σ α) : Rule σ α := ⟨p.run, fun h => Nat.le_of_lt (p.length_lt h)⟩

namespace Rule

def value (a : α) : Rule σ α :=
  ⟨fun ts => some (a, ts), fun h => by cases h; exact Nat.le_refl _⟩

def refuse : Rule σ α := ⟨fun _ => none, fun h => by cases h⟩

/-- Reads one thing after the other. -/
def andThen (p : Rule σ α) (f : α → Rule σ β) : Rule σ β :=
  ⟨fun ts =>
    match p.run ts with
    | some (a, rest) => (f a).run rest
    | none => none, by
    intro ts b rest h
    split at h
    · rename_i a r hr
      exact Nat.le_trans ((f a).length_le h) (p.length_le hr)
    · cases h⟩

instance : Monad (Rule σ) where
  pure := value
  bind := andThen

/-- Looks at the next symbol. -/
def peek : Rule σ (Option σ) :=
  ⟨fun ts => some (ts.head?, ts), fun h => by cases h; exact Nat.le_refl _⟩

theorem run_bind (p : Rule σ α) (f : α → Rule σ β) (ts : List σ) :
    (p >>= f).run ts =
      match p.run ts with
      | some (a, rest) => (f a).run rest
      | none => none := rfl

@[simp] theorem run_pure (a : α) (ts : List σ) : (pure a : Rule σ α).run ts = some (a, ts) := rfl

end Rule

namespace Phrase

/-- Reads a phrase, then whatever a rule reads. -/
def andThen (p : Phrase σ α) (f : α → Rule σ β) : Phrase σ β :=
  ⟨fun ts =>
    match p.run ts with
    | some (a, rest) => (f a).run rest
    | none => none, by
    intro ts b rest h
    split at h
    · rename_i a r hr
      exact Nat.lt_of_le_of_lt ((f a).length_le h) (p.length_lt hr)
    · cases h⟩

/-- Reads what a rule reads, then a phrase. -/
def after (r : Rule σ α) (f : α → Phrase σ β) : Phrase σ β :=
  ⟨fun ts =>
    match r.run ts with
    | some (a, rest) => (f a).run rest
    | none => none, by
    intro ts b rest h
    split at h
    · rename_i a s hs
      exact Nat.lt_of_lt_of_le ((f a).length_lt h) (r.length_le hs)
    · cases h⟩

/-- Reads a symbol and goes on as it says. -/
def next (f : σ → Rule σ α) : Phrase σ α :=
  ⟨fun ts =>
    match ts with
    | [] => none
    | t :: rest => (f t).run rest, by
    intro ts a rest h
    split at h
    · cases h
    · rename_i t r
      exact Nat.lt_succ_of_le ((f t).length_le h)⟩

end Phrase

namespace Rule

/-- Reads phrases as long as the next symbol may begin one. -/
def manyFrom (starts : σ → Bool) (p : Phrase σ α) (ts : List σ) : Option (List α × List σ) :=
  match ts with
  | [] => some ([], [])
  | t :: rest =>
    if starts t then
      match _h : p.run (t :: rest) with
      | some (a, left) =>
        match manyFrom starts p left with
        | some (as, last) => some (a :: as, last)
        | none => none
      | none => none
    else some ([], t :: rest)
termination_by ts.length
decreasing_by exact p.length_lt (by assumption)

theorem length_manyFrom_le (starts : σ → Bool) (p : Phrase σ α) (ts : List σ) :
    ∀ {as rest}, manyFrom starts p ts = some (as, rest) → rest.length ≤ ts.length := by
  intro as rest h
  fun_induction manyFrom starts p ts generalizing as rest with
  | case1 => cases h; exact Nat.le_refl _
  | case2 t r _ a left hrun bs last hmany ih =>
    cases h
    exact Nat.le_of_lt (Nat.lt_of_le_of_lt (ih hmany) (p.length_lt hrun))
  | case3 => cases h
  | case4 => cases h
  | case5 => cases h; exact Nat.le_refl _

def many (starts : σ → Bool) (p : Phrase σ α) : Rule σ (List α) :=
  ⟨manyFrom starts p, length_manyFrom_le starts p _⟩

/-- Reads one phrase, then phrases as long as the next symbol may begin one. -/
def manyOne (starts : σ → Bool) (p : Phrase σ α) : Rule σ (List α) := do
  let first ← p.rule
  let rest ← many starts p
  return first :: rest

theorem many_run_nil (starts : σ → Bool) (p : Phrase σ α) :
    (many starts p).run [] = some ([], []) := by
  show manyFrom starts p [] = _
  rw [manyFrom]

/-- The repetition ends before a symbol that begins no phrase. -/
theorem many_run_stop {starts : σ → Bool} {p : Phrase σ α} {t : σ} {ts : List σ}
    (h : starts t = false) : (many starts p).run (t :: ts) = some ([], t :: ts) := by
  show manyFrom starts p (t :: ts) = _
  rw [manyFrom, if_neg (by simp [h])]

/-- The repetition goes on behind a phrase that has been read. -/
theorem many_run_step {starts : σ → Bool} {p : Phrase σ α} {t : σ} {ts left : List σ} {a : α}
    (h : starts t = true) (hp : p.run (t :: ts) = some (a, left)) :
    (many starts p).run (t :: ts) =
      ((many starts p).run left).map fun (as, last) => (a :: as, last) := by
  show manyFrom starts p (t :: ts) = (manyFrom starts p left).map _
  rw [manyFrom, if_pos h]
  split
  · rename_i b r hr
    rw [hp] at hr
    cases hr
    cases manyFrom starts p left <;> rfl
  · rename_i hr
    rw [hp] at hr
    cases hr

end Rule

end SemanticNullability
