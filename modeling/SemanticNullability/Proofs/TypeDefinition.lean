import SemanticNullability.TypeDefinition
/-!
# Replacing the fields of a definition

`TypeDefinition.mapFields` acts on the list of fields and nothing else, so it is described by what it
does to that list. `TypeDefinition.mapFieldsM` is `mapFields` as long as every field has its
replacement.
-/
namespace SemanticNullability

variable {φ ψ χ : Type}

theorem map_eq_self_of_forall {α : Type} {g : α → α} {l : List α} (h : ∀ a ∈ l, g a = a) :
    l.map g = l :=
  (List.map_congr_left h).trans (List.map_id l)

theorem replaceEach_eq_map {ε : Type} {f : φ → Except ε ψ} {g : φ → ψ} {l : List φ}
    (h : ∀ a ∈ l, f a = .ok (g a)) : replaceEach f l = .ok (l.map g) := by
  induction l with
  | nil => rfl
  | cons a rest ih =>
    have hrest := ih fun b hb => h b (List.mem_cons_of_mem a hb)
    simp only [replaceEach, h a List.mem_cons_self, hrest, List.map_cons]

/-- What comes first in a list, behind others of the sort `p`, is the head, or the head is of that sort
and it comes first in the rest. -/
theorem exists_first_cons_iff {α : Type} {p q : α → Prop} {x : α} {rest : List α} :
    (∃ before a after, x :: rest = before ++ a :: after ∧ (∀ b ∈ before, p b) ∧ q a) ↔
      q x ∨ p x ∧ ∃ before a after, rest = before ++ a :: after ∧ (∀ b ∈ before, p b) ∧ q a := by
  constructor
  · rintro ⟨before, a, after, hsplit, hbefore, ha⟩
    cases before with
    | nil =>
      cases hsplit
      exact .inl ha
    | cons b before =>
      cases hsplit
      obtain ⟨hx, hothers⟩ := List.forall_mem_cons.1 hbefore
      exact .inr ⟨hx, before, a, after, rfl, hothers, ha⟩
  · rintro (hx | ⟨hx, before, a, after, rfl, hbefore, ha⟩)
    · exact ⟨[], x, rest, rfl, fun _ hb => absurd hb List.not_mem_nil, hx⟩
    · exact ⟨x :: before, a, after, rfl, List.forall_mem_cons.2 ⟨hx, hbefore⟩, ha⟩

section

variable {ε : Type} {f : φ → Except ε ψ} {l : List φ} {err : ε}

theorem exists_replaceEach_eq_ok_iff :
    (∃ bs, replaceEach f l = .ok bs) ↔ ∀ a ∈ l, ∃ b, f a = .ok b := by
  induction l with
  | nil => exact ⟨fun _ _ h => absurd h List.not_mem_nil, fun _ => ⟨[], rfl⟩⟩
  | cons x rest ih =>
    rw [List.forall_mem_cons, ← ih]
    cases hx : f x with
    | error e => simp [replaceEach, hx]
    | ok y => cases hrest : replaceEach f rest <;> simp [replaceEach, hx, hrest]

/-- The first that has no replacement decides, and those behind it do not count. -/
theorem replaceEach_eq_error_iff :
    replaceEach f l = .error err ↔ ∃ before a after, l = before ++ a :: after ∧
      (∀ b ∈ before, ∃ c, f b = .ok c) ∧ f a = .error err := by
  induction l with
  | nil => simp [replaceEach]
  | cons x rest ih =>
    rw [exists_first_cons_iff, ← ih]
    cases hx : f x with
    | error e => simp [replaceEach, hx]
    | ok y => cases hrest : replaceEach f rest <;> simp [replaceEach, hx, hrest]

end

namespace TypeDefinition

theorem fields_mapFields (g : φ → ψ) (d : TypeDefinition φ) :
    (d.mapFields g).fields = d.fields.map g := by
  cases d <;> rfl

theorem mapFields_mapFields (g : ψ → χ) (f : φ → ψ) (d : TypeDefinition φ) :
    (d.mapFields f).mapFields g = d.mapFields fun a => g (f a) := by
  cases d with
  | object t | interface t =>
    simp only [mapFields, FieldedType.mapFields, List.map_map]
    rfl
  | union t => rfl
  | scalar t => rfl
  | enum t => rfl
  | inputObject t => rfl

theorem mapFields_eq_self {g : φ → φ} {d : TypeDefinition φ} (h : ∀ f ∈ d.fields, g f = f) :
    d.mapFields g = d := by
  cases d with
  | object t | interface t =>
    have hfields : t.fields.map g = t.fields := map_eq_self_of_forall h
    rw [mapFields, FieldedType.mapFields, hfields]
  | union t => rfl
  | scalar t => rfl
  | enum t => rfl
  | inputObject t => rfl

theorem mapFieldsM_eq_mapFields {ε : Type} {f : String → φ → Except ε ψ} {g : φ → ψ}
    {d : TypeDefinition φ} (h : ∀ a ∈ d.fields, ∀ owner, f owner a = .ok (g a)) :
    d.mapFieldsM f = .ok (d.mapFields g) := by
  cases d with
  | object t | interface t =>
    have hfields : replaceEach (f t.name) t.fields = .ok (t.fields.map g) :=
      replaceEach_eq_map fun a ha => h a ha t.name
    rw [mapFieldsM, hfields]
    rfl
  | union t => rfl
  | scalar t => rfl
  | enum t => rfl
  | inputObject t => rfl

section

variable {ε : Type} {f : String → φ → Except ε ψ} {d : TypeDefinition φ} {err : ε}

/-- The fields alone decide whether they can be replaced; what has no fields is put back as it is. -/
theorem exists_mapFieldsM_eq_map (f : String → φ → Except ε ψ) (d : TypeDefinition φ) :
    ∃ rebuild, d.mapFieldsM f = (replaceEach (f d.name) d.fields).map rebuild := by
  cases d with
  | object t | interface t => exact ⟨_, rfl⟩
  | union t => exact ⟨fun _ => union t, rfl⟩
  | scalar t => exact ⟨fun _ => scalar t, rfl⟩
  | enum t => exact ⟨fun _ => enum t, rfl⟩
  | inputObject t => exact ⟨fun _ => inputObject t, rfl⟩

theorem exists_mapFieldsM_eq_ok_iff :
    (∃ r, d.mapFieldsM f = .ok r) ↔ ∀ a ∈ d.fields, ∃ b, f d.name a = .ok b := by
  obtain ⟨rebuild, hrebuild⟩ := exists_mapFieldsM_eq_map f d
  rw [hrebuild, ← exists_replaceEach_eq_ok_iff]
  cases replaceEach (f d.name) d.fields <;> simp [Except.map]

theorem mapFieldsM_eq_error_iff :
    d.mapFieldsM f = .error err ↔ ∃ before a after, d.fields = before ++ a :: after ∧
      (∀ b ∈ before, ∃ c, f d.name b = .ok c) ∧ f d.name a = .error err := by
  obtain ⟨rebuild, hrebuild⟩ := exists_mapFieldsM_eq_map f d
  rw [hrebuild, ← replaceEach_eq_error_iff]
  cases replaceEach (f d.name) d.fields <;> simp [Except.map]

end

end TypeDefinition

end SemanticNullability
