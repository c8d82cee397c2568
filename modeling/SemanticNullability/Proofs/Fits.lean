import SemanticNullability.Proofs.Depth
import SemanticNullability.Proofs.Extension
import SemanticNullability.Proofs.Pieces
/-!
# What SDL has a notation for

A definition fits when everything that it holds can be written so that it is read again: names are
names, values and types nest no deeper than brackets may, the entries of an object are in order, no
non-null wrapper stands directly inside another, and no enum value is called `true`, `false` or
`null`. What a parser reads fits, and what fits is read again.
-/
namespace SemanticNullability

open Sdl (IsName)

/-- The members of a group fit, with one bracket less to open. -/
def GroupFits {α : Type} (fits : Nat → α → Prop) : Nat → List α → Prop
  | 0, xs => xs = []
  | depth + 1, xs => ∀ x ∈ xs, fits depth x

/-- Members of a group that fits all fit with one bracket less. -/
theorem GroupFits.exists_depth {α : Type} {fits : Nat → α → Prop} {depth : Nat} {xs : List α} {x : α}
    (h : GroupFits fits depth xs) (hx : x ∈ xs) : ∃ inner, fits inner x := by
  cases depth with
  | zero =>
    rw [GroupFits] at h
    rw [h] at hx
    cases hx
  | succ depth => exact ⟨depth, h x hx⟩

theorem GroupFits.append {α : Type} {fits : Nat → α → Prop} {depth : Nat} {xs ys : List α}
    (hxs : GroupFits fits depth xs) (hys : GroupFits fits depth ys) :
    GroupFits fits depth (xs ++ ys) := by
  cases depth with
  | zero =>
    rw [GroupFits] at hxs hys ⊢
    rw [hxs, hys, List.append_nil]
  | succ depth => exact fun x hx => (List.mem_append.1 hx).elim (hxs x) (hys x)

theorem groupFits_nil {α : Type} (fits : Nat → α → Prop) (depth : Nat) :
    GroupFits fits depth ([] : List α) := by
  cases depth with
  | zero => rfl
  | succ depth => exact fun x hx => absurd hx List.not_mem_nil

theorem GroupFits.flatMap {α β : Type} {fits : Nat → α → Prop} {depth : Nat} {f : β → List α}
    {bs : List β} (h : ∀ b ∈ bs, GroupFits fits depth (f b)) :
    GroupFits fits depth (bs.flatMap f) := by
  induction bs with
  | nil => exact groupFits_nil fits depth
  | cons b bs ih =>
    exact (h b List.mem_cons_self).append (ih fun c hc => h c (List.mem_cons_of_mem b hc))

/-- Members that are replaced by others that fit. -/
theorem GroupFits.map {α β : Type} {fits : Nat → α → Prop} {fits' : Nat → β → Prop} {g : α → β}
    {depth : Nat} {xs : List α} (h : GroupFits fits depth xs)
    (hg : ∀ depth, ∀ x ∈ xs, fits depth x → fits' depth (g x)) :
    GroupFits fits' depth (xs.map g) := by
  cases depth with
  | zero =>
    rw [GroupFits] at h ⊢
    rw [h, List.map_nil]
  | succ depth =>
    intro y hy
    obtain ⟨x, hx, rfl⟩ := List.mem_map.1 hy
    exact hg depth x hx (h x hx)

/-! ## Values and types -/

/-- A value that opens at most `depth` brackets inside each other. A constant has no variables. -/
def Value.Fits (constant : Bool) : Nat → Value → Prop
  | _, .variable n => constant = false ∧ IsName n
  | _, .float x => x.IsCanonical
  | _, .enum n => IsName n ∧ n ≠ "true" ∧ n ≠ "false" ∧ n ≠ "null"
  | 0, .list _ => False
  | depth + 1, .list items => ∀ v ∈ items, v.Fits constant depth
  | 0, .object _ => False
  | depth + 1, .object entries =>
    (∀ e ∈ entries, IsName e.1 ∧ e.2.Fits constant depth) ∧
      entries.Pairwise fun a b => a.1 < b.1
  | _, _ => True

/-- Whether a value is written in brackets. -/
def Value.opensBracket : Value → Bool
  | .list _ => true
  | .object _ => true
  | _ => false

theorem Value.fits_variable_iff {constant : Bool} {depth : Nat} {n : String} :
    (Value.variable n).Fits constant depth ↔ constant = false ∧ IsName n := by
  cases depth <;> exact Iff.rfl

theorem Value.fits_float_iff {constant : Bool} {depth : Nat} {x : Binary64} :
    (Value.float x).Fits constant depth ↔ x.IsCanonical := by
  cases depth <;> exact Iff.rfl

theorem Value.fits_enum_iff {constant : Bool} {depth : Nat} {n : String} :
    (Value.enum n).Fits constant depth ↔
      IsName n ∧ n ≠ "true" ∧ n ≠ "false" ∧ n ≠ "null" := by
  cases depth <;> exact Iff.rfl

def Entry.Fits (constant : Bool) (depth : Nat) (e : Entry) : Prop :=
  IsName e.1 ∧ e.2.Fits constant depth

def WrittenType.isNonNull : WrittenType → Bool
  | .nonNull _ => true
  | _ => false

/-- A type that opens at most `depth` brackets inside each other. -/
def WrittenType.Fits : Nat → WrittenType → Prop
  | _, .named n => IsName n
  | 0, .list _ => False
  | depth + 1, .list item => item.Fits depth
  | depth, .nonNull inner => inner.isNonNull = false ∧ inner.Fits depth

/-! ## Parts of definitions -/

structure Directive.Fits (depth : Nat) (d : Directive) : Prop where
  name : IsName d.name
  arguments : GroupFits (Entry.Fits false) depth d.arguments

def DirectivesFit (depth : Nat) (ds : List Directive) : Prop := ∀ d ∈ ds, d.Fits depth

structure InputValue.Fits (depth : Nat) (v : InputValue) : Prop where
  name : IsName v.name
  type : v.type.Fits depth
  defaultValue : ∀ value ∈ v.defaultValue, value.Fits true depth
  directives : DirectivesFit depth v.directives

structure WrittenField.Fits (depth : Nat) (f : WrittenField) : Prop where
  name : IsName f.name
  arguments : GroupFits InputValue.Fits depth f.arguments
  type : f.type.Fits depth
  directives : DirectivesFit depth f.directives

/-- A field of a schema that fits once it is written. -/
structure Field.Fits (depth : Nat) (f : Field) : Prop where
  name : IsName f.name
  arguments : GroupFits InputValue.Fits depth f.arguments
  baseName : IsName f.type.baseName
  listDepth : f.type.depth ≤ depth
  directives : DirectivesFit depth f.directives

structure EnumValue.Fits (depth : Nat) (v : EnumValue) : Prop where
  name : IsName v.name
  directives : DirectivesFit depth v.directives

/-! ## Definitions -/

/-- The parts of a definition fit; `fits` says so of its output fields. -/
structure TypeDefinition.Fits {φ : Type} (fits : Nat → φ → Prop) (depth : Nat)
    (d : TypeDefinition φ) : Prop where
  name : IsName d.name
  interfaces : ∀ n ∈ d.interfaces, IsName n
  directives : DirectivesFit depth d.directives
  members : ∀ n ∈ d.members, IsName n
  fields : GroupFits fits depth d.fields
  values : GroupFits EnumValue.Fits depth d.values
  inputFields : GroupFits InputValue.Fits depth d.inputFields

structure DirectiveDefinition.Fits (depth : Nat) (d : DirectiveDefinition) : Prop where
  name : IsName d.name
  arguments : GroupFits InputValue.Fits depth d.arguments

structure SchemaBlock.Fits (depth : Nat) (block : SchemaBlock) : Prop where
  directives : DirectivesFit depth block.directives
  roots : ∀ op n, block.roots.get? op = some n → IsName n

def Definition.Fits (depth : Nat) : Definition → Prop
  | .schema block => block.Fits depth
  | .type d => d.Fits WrittenField.Fits depth
  | .directive d => d.Fits depth
  | .extend d => d.Fits WrittenField.Fits depth

structure Schema.Fits (depth : Nat) (s : Schema) : Prop where
  directives : DirectivesFit depth s.directives
  roots : ∀ op n, s.roots.get? op = some n → IsName n
  types : ∀ e ∈ s.types.entries, e.2.Fits Field.Fits depth
  directiveDefinitions : ∀ e ∈ s.directiveDefinitions.entries, e.2.Fits depth

end SemanticNullability
