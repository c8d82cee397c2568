import SemanticNullability.Directive
/-!
# Levels

A `@semanticNonNull` directive names positions of a field's type by their list depth: level 0 is
the type itself, and every list that is entered adds one. `Levels` keeps the levels in the order
given, each of them once. `Levels.ofDirective` reads them off an applied directive.
-/
namespace SemanticNullability

/-- A list depth, counted in 32 bits. -/
abbrev Level := UInt32

/-- Keeps the first occurrence of every member. -/
def firstOccurrences {α : Type} [DecidableEq α] : List α → List α
  | [] => []
  | a :: rest => a :: (firstOccurrences rest).filter (· ≠ a)

theorem mem_firstOccurrences {α : Type} [DecidableEq α] {x : α} :
    ∀ {l : List α}, x ∈ firstOccurrences l ↔ x ∈ l
  | [] => Iff.rfl
  | a :: rest => by
    simp only [firstOccurrences, List.mem_cons, List.mem_filter, mem_firstOccurrences (l := rest)]
    by_cases h : x = a <;> simp [h]

theorem nodup_firstOccurrences {α : Type} [DecidableEq α] :
    ∀ l : List α, (firstOccurrences l).Nodup
  | [] => List.nodup_nil
  | a :: rest => by
    refine List.nodup_cons.2 ⟨by simp, ?_⟩
    exact (nodup_firstOccurrences rest).sublist List.filter_sublist

/-- A set of levels in a fixed order. -/
structure Levels where
  toList : List Level
  nodup : toList.Nodup
  deriving DecidableEq

namespace Levels

/-- The levels of a list, in order of their first occurrences (`new`). -/
def ofList (levels : List Level) : Levels :=
  ⟨firstOccurrences levels, nodup_firstOccurrences levels⟩

/-- The field's own position alone. -/
def outer : Levels := ofList [0]

def contains (levels : Levels) (level : Level) : Bool := levels.toList.contains level

def isEmpty (levels : Levels) : Bool := levels.toList.isEmpty

@[simp] theorem mem_toList_ofList {l : List Level} {level : Level} :
    level ∈ (ofList l).toList ↔ level ∈ l :=
  mem_firstOccurrences

/-- The argument that lists the levels (`LEVELS_ARGUMENT`). -/
def argumentName : String := "levels"

/-- The level that an entry of the list names: an integer of 32 bits without sign, and nothing
else, is a level. -/
def ofValue? : Value → Option Level
  | .int n => if 0 ≤ n.toInt ∧ n.toInt < UInt32.size then some (.ofNat n.toInt.toNat) else none
  | _ => none

/-- The levels of an applied directive (`from_directive`): those in the list that the first argument
`levels` gives; the outer level if there is no such argument or it is no list. -/
def ofDirective (d : Directive) : Levels :=
  match d.argument? argumentName with
  | some (.list items) => ofList (items.filterMap ofValue?)
  | _ => outer

end Levels

end SemanticNullability
