import SemanticNullability.Conversion.Assembly
import SemanticNullability.Conversion.Field
/-!
# Conversion by a worklist

Every registered type is converted once, also where types refer to each other in a circle: a name
is reserved when it is first met, queued, and filled in when its turn comes. Meeting it again does
nothing. A step takes the name queued last, so the names that are not reserved yet and the names in
the queue get fewer with every step (`size_step_lt`), and `Worklist.drain` ends.
-/
namespace SemanticNullability

/-- The names that a definition leads to: the types of its fields and its interfaces, or its
members, in the order in which `convert_fielded` and `convert_union` visit them. -/
def TypeDefinition.references : TypeDefinition Field → List String
  | object t => t.fields.map (·.type.baseName) ++ t.interfaces
  | interface t => t.fields.map (·.type.baseName) ++ t.interfaces
  | union t => t.members
  | scalar _ => []
  | enum _ => []
  | inputObject _ => []

/-- Converts the fields of a definition, if it has any. -/
def TypeDefinition.convert (mode : Mode) (d : TypeDefinition Field) : TypeDefinition Field :=
  d.mapFields (Field.convert mode)

/-- The place of a type that has been met. -/
inductive Slot where
  /-- The type is queued. -/
  | reserved
  /-- The type has been converted. -/
  | filled (definition : TypeDefinition Field)

def Slot.definition? : Slot → Option (TypeDefinition Field)
  | reserved => none
  | filled definition => some definition

/-- A conversion under way: the types met so far, in the order in which they were met, and those
still to be converted, the latest first. This is the state of `Rewriter`, whose `visit`, `drain` and
`finish` have the same names here. -/
structure Worklist where
  slots : Registry Slot
  pending : List String

namespace Worklist

def empty : Worklist := ⟨∅, []⟩

/-- Whether meeting a name queues it: the type is registered, is not part of introspection and has
not been met. -/
def queues (source : Schema) (w : Worklist) (name : String) : Bool :=
  !isIntrospectionName name && !w.slots.contains name && source.types.contains name

/-- Meets a name: reserves its place and queues it, if it is to be converted. -/
def visit (source : Schema) (w : Worklist) (name : String) : Worklist :=
  if w.queues source name then ⟨w.slots.insert name .reserved, name :: w.pending⟩ else w

def visitAll (source : Schema) (w : Worklist) (names : List String) : Worklist :=
  names.foldl (visit source) w

/-- Converts one type that has been taken from the queue: meets what it leads to and fills its
place. This is what the loop of `drain` does with a name. -/
def convertType (source : Schema) (mode : Mode) (w : Worklist) (name : String) : Worklist :=
  match source.type? name with
  | none => w
  | some definition =>
    let w := w.visitAll source (definition.convert mode).references
    { w with slots := w.slots.insert name (.filled (definition.convert mode)) }

/-! ## The measure -/

/-- The registered names that have not been met. -/
def unmet (source : Schema) (w : Worklist) : List String :=
  source.types.keys.filter fun name => !w.slots.contains name

/-- The names that may still be taken from the queue. -/
def size (source : Schema) (w : Worklist) : Nat := (w.unmet source).length + w.pending.length

theorem length_filter_lt {p q : String → Bool} {a : String} {l : List String}
    (hle : ∀ x, q x = true → p x = true) (ha : a ∈ l) (hp : p a = true) (hq : q a = false) :
    (l.filter q).length < (l.filter p).length := by
  have hsub : l.filter q = (l.filter p).filter q := by
    rw [List.filter_filter]
    refine List.filter_congr fun x _ => ?_
    cases hx : q x with
    | false => rfl
    | true => simp [hle x hx]
  rw [hsub]
  have hmem : a ∈ l.filter p := List.mem_filter.2 ⟨ha, hp⟩
  exact List.length_filter_lt_length_iff_exists.2 ⟨a, hmem, by simp [hq]⟩

theorem size_visit_le (source : Schema) (w : Worklist) (name : String) :
    (w.visit source name).size source ≤ w.size source := by
  unfold visit
  split
  · rename_i h
    simp only [queues, Bool.and_eq_true, Bool.not_eq_true'] at h
    have hlt : ((⟨w.slots.insert name .reserved, name :: w.pending⟩ : Worklist).unmet source).length
        < (w.unmet source).length := by
      refine length_filter_lt (a := name) ?_ (Registry.contains_iff.1 h.2) (by simp [h.1.2]) ?_
      · intro x hx
        simp only [Bool.not_eq_true', ← Bool.not_eq_true, Registry.contains_iff,
          Registry.mem_keys_insert] at hx ⊢
        exact fun hmem => hx (Or.inr hmem)
      · simp [Registry.contains_iff, Registry.mem_keys_insert]
    simp only [size, List.length_cons]
    omega
  · exact Nat.le_refl _

theorem size_visitAll_le (source : Schema) (names : List String) (w : Worklist) :
    (w.visitAll source names).size source ≤ w.size source := by
  induction names generalizing w with
  | nil => exact Nat.le_refl _
  | cons name rest ih => exact Nat.le_trans (ih _) (size_visit_le source w name)

theorem size_fill_le (source : Schema) (w : Worklist) (name : String) (slot : Slot) :
    ({ w with slots := w.slots.insert name slot } : Worklist).size source ≤ w.size source := by
  refine Nat.add_le_add_right ?_ _
  have hsub : source.types.keys.filter (fun n => !(w.slots.insert name slot).contains n) =
      (source.types.keys.filter fun n => !w.slots.contains n).filter
        fun n => !(w.slots.insert name slot).contains n := by
    rw [List.filter_filter]
    refine List.filter_congr fun x _ => ?_
    cases hx : w.slots.contains x with
    | false => simp
    | true =>
      have : (w.slots.insert name slot).contains x = true :=
        Registry.contains_iff.2 (Registry.mem_keys_insert.2 (Or.inr (Registry.contains_iff.1 hx)))
      simp [this]
  rw [unmet, hsub]
  exact List.length_filter_le _ _

theorem size_convertType_le (source : Schema) (mode : Mode) (w : Worklist) (name : String) :
    (w.convertType source mode name).size source ≤ w.size source := by
  unfold convertType
  split
  · exact Nat.le_refl _
  · exact Nat.le_trans (size_fill_le source _ name _) (size_visitAll_le source _ w)

/-- Taking a name from the queue and converting it leaves less to do. -/
theorem size_step_lt (source : Schema) (mode : Mode) (slots : Registry Slot) (name : String)
    (pending : List String) :
    (convertType source mode ⟨slots, pending⟩ name).size source <
      (⟨slots, name :: pending⟩ : Worklist).size source := by
  refine Nat.lt_of_le_of_lt (size_convertType_le source mode ⟨slots, pending⟩ name) ?_
  simp only [size, List.length_cons]
  exact Nat.lt_succ_self _

/-! ## The run -/

/-- Converts the queued types until the queue is empty. -/
def drain (source : Schema) (mode : Mode) (w : Worklist) : Worklist :=
  match w with
  | ⟨slots, []⟩ => ⟨slots, []⟩
  | ⟨slots, name :: pending⟩ => drain source mode (convertType source mode ⟨slots, pending⟩ name)
termination_by w.size source
decreasing_by exact size_step_lt source mode slots name pending

/-- The converted types, in the order in which they were met. -/
def finish (w : Worklist) : Registry (TypeDefinition Field) := w.slots.filterMap Slot.definition?

end Worklist

/-- Converts a schema (`convert_schema`): what the root types lead to first, then whatever else is
registered. -/
def Schema.convert (mode : Mode) (s : Schema) : Schema :=
  let reached := (Worklist.empty.visitAll s (s.roots.toList.map Prod.snd)).drain s mode
  let complete := (reached.visitAll s s.types.keys).drain s mode
  s.assemble complete.finish

end SemanticNullability
