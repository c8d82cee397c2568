import SemanticNullability.Conversion.Assembly
import SemanticNullability.Proofs.Registry
/-!
# What assembly makes of converted definitions

`Registry.moveAll` takes the definitions of the listed names out of one registry and puts them
behind another one's, in the order of the list. `Schema.assemble` runs it over the names of the
source, so the assembled registry has the names that the source knows first, in its order, and then
the others (`keys_types_assemble`); every name still finds its converted definition, unless it
belongs to introspection (`find?_types_assemble`). Together with what is taken over from the source
this is all that the assembled schema is (`assemble_exact`).
-/
namespace SemanticNullability

namespace Registry

variable {α : Type}

/-! ## Moving definitions -/

/-- What was not listed is left. -/
theorem find?_moveAll_left (keys : List String) (left done : Registry α) (key : String) :
    (moveAll keys left done).1.find? key = if key ∈ keys then none else left.find? key := by
  induction keys generalizing left done with
  | nil => simp [moveAll]
  | cons k rest ih =>
    rw [moveAll]
    split
    · rw [ih, find?_erase]
      by_cases hk : key = k <;> simp [hk]
    · rename_i hnone
      rw [ih]
      by_cases hk : key = k
      · subst hk
        simp [hnone]
      · simp [hk]

theorem keys_moveAll_left (keys : List String) (left done : Registry α) :
    (moveAll keys left done).1.keys = left.keys.filter fun k => !keys.contains k := by
  induction keys generalizing left done with
  | nil => exact (List.filter_eq_self.2 fun _ _ => rfl).symm
  | cons k rest ih =>
    rw [moveAll]
    split
    · rw [ih, keys_erase, List.filter_filter]
      refine List.filter_congr fun x _ => ?_
      by_cases hx : x = k <;> simp [hx]
    · rename_i hnone
      rw [ih]
      refine List.filter_congr fun x hx => ?_
      have hne : x ≠ k := fun h => find?_eq_none_iff.1 hnone (h ▸ hx)
      simp [hne]

/-- What was listed is done, whether it was there before or has been moved. -/
theorem find?_moveAll_done (keys : List String) (left done : Registry α) (key : String) :
    (moveAll keys left done).2.find? key =
      if key ∈ keys then (left.find? key).or (done.find? key) else done.find? key := by
  induction keys generalizing left done with
  | nil => simp [moveAll]
  | cons k rest ih =>
    rw [moveAll]
    split
    · rename_i v hsome
      rw [ih, find?_erase, find?_insert]
      by_cases hk : key = k
      · subst hk
        simp [hsome]
      · simp [hk]
    · rename_i hnone
      rw [ih]
      by_cases hk : key = k
      · subst hk
        simp [hnone]
      · simp [hk]

/-- The listed names that could be moved come behind those that were done, in the order of the
list. -/
theorem keys_moveAll_done (keys : List String) (hkeys : keys.Nodup) (left done : Registry α)
    (hnew : ∀ k ∈ keys, done.contains k = false) :
    (moveAll keys left done).2.keys = done.keys ++ keys.filter left.contains := by
  induction keys generalizing left done with
  | nil => simp [moveAll]
  | cons k rest ih =>
    obtain ⟨hnot, hnodup⟩ := List.nodup_cons.1 hkeys
    have hrest : ∀ x ∈ rest, x ≠ k := fun x hx h => hnot (h ▸ hx)
    have hk : k ∉ done.keys := by
      rw [← contains_iff, hnew k List.mem_cons_self]
      exact Bool.false_ne_true
    rw [moveAll, List.filter_cons]
    split
    · rename_i v hsome
      have hc : left.contains k = true := by rw [contains_eq_isSome, hsome]; rfl
      rw [ih hnodup, keys_insert, if_neg hk, if_pos hc, List.append_assoc]
      · have herase : rest.filter (left.erase k).contains = rest.filter left.contains := by
          refine List.filter_congr fun x hx => ?_
          simp [contains_erase, hrest x hx]
        rw [herase]
        rfl
      · intro x hx
        rw [contains_insert, hnew x (List.mem_cons_of_mem k hx)]
        simp [hrest x hx]
    · rename_i hnone
      have hc : left.contains k = false := by rw [contains_eq_isSome, hnone]; rfl
      rw [ih hnodup _ _ fun x hx => hnew x (List.mem_cons_of_mem k hx), hc]
      rfl

end Registry

namespace Schema

/-! ## The assembled registry -/

/-- The names of the assembled registry: those that the source knows, in its order, then the
others, and none that belongs to introspection. -/
theorem keys_types_assemble (source : Schema) (converted : Registry (TypeDefinition Field)) :
    (source.assemble converted).types.keys =
      (source.types.keys.filter converted.contains ++
        converted.keys.filter fun k => !source.types.contains k).filter
          fun k => !isIntrospectionName k := by
  have hdone := Registry.keys_moveAll_done source.types.keys source.types.nodup converted ∅
    fun _ _ => rfl
  have hleft := Registry.keys_moveAll_left source.types.keys converted ∅
  simp only [assemble, Registry.keys_filterKeys, Registry.keys_insertAll, hdone, hleft]
  congr 1
  rw [Registry.keys_empty, List.nil_append, List.filter_filter]
  congr 1
  refine List.filter_congr fun k hk => ?_
  have hmoved := Registry.find?_moveAll_done source.types.keys converted ∅ k
  rw [Registry.contains_eq_isSome, hmoved, Registry.contains_eq_isSome]
  by_cases hmem : k ∈ source.types.keys
  · have hsome := Registry.contains_iff.2 hmem
    rw [Registry.contains_eq_isSome] at hsome
    simp [hmem, hsome]
  · have hnone : source.types.find? k = none := Registry.find?_eq_none_iff.2 hmem
    simp [hmem, hnone]

/-- A name finds its converted definition, and nothing if it belongs to introspection. -/
theorem find?_types_assemble (source : Schema) (converted : Registry (TypeDefinition Field))
    (key : String) :
    (source.assemble converted).types.find? key =
      if isIntrospectionName key then none else converted.find? key := by
  have hdone := Registry.find?_moveAll_done source.types.keys converted ∅ key
  have hleft := Registry.find?_moveAll_left source.types.keys converted ∅ key
  simp only [assemble, Registry.find?_filterKeys, Registry.find?_insertAll, hdone, hleft]
  cases hintro : isIntrospectionName key with
  | true => rfl
  | false => by_cases hmem : key ∈ source.types.keys <;> simp [hmem]

/-- A name is bound to its converted definition, if it is bound. -/
theorem type?_assemble_eq_some_iff {source : Schema} {converted : Registry (TypeDefinition Field)}
    {key : String} {d : TypeDefinition Field} :
    (source.assemble converted).type? key = some d ↔
      converted.find? key = some d ∧ isIntrospectionName key = false := by
  rw [type?, find?_types_assemble]
  cases isIntrospectionName key <;> simp

/-- No other name is lost. -/
theorem mem_keys_types_assemble {source : Schema} {converted : Registry (TypeDefinition Field)}
    {key : String} :
    key ∈ (source.assemble converted).types.keys ↔
      key ∈ converted.keys ∧ isIntrospectionName key = false := by
  rw [Registry.mem_keys_iff_exists, Registry.mem_keys_iff_exists, ← exists_and_right]
  exact exists_congr fun _ => type?_assemble_eq_some_iff

/-! ## The assembled schema -/

/-- **What assembly makes of converted definitions**, whatever names they have in common with the
source. The names that the source registers come first, in its order; the others follow in their own.
Only names of introspection are left out, on both sides. Every name comes once and with the converted
definition. All else is as in the source, but for the definition of `@semanticNonNull`. -/
theorem assemble_exact (source : Schema) (converted : Registry (TypeDefinition Field)) :
    (source.assemble converted).types.keys =
      (source.types.keys.filter fun key => converted.contains key && !isIntrospectionName key) ++
        converted.keys.filter (fun key => !source.types.contains key && !isIntrospectionName key) ∧
    (source.assemble converted).types.keys.Nodup ∧
    (∀ key, key ∈ (source.assemble converted).types.keys ↔
      key ∈ converted.keys ∧ isIntrospectionName key = false) ∧
    (∀ key d, (source.assemble converted).type? key = some d ↔
      converted.find? key = some d ∧ isIntrospectionName key = false) ∧
    (source.assemble converted).roots = source.roots ∧
    (source.assemble converted).directives = source.directives ∧
    (source.assemble converted).directiveDefinitions.entries =
      source.directiveDefinitions.entries.filter fun e => e.1 ≠ semanticNonNullName := by
  refine ⟨?_, Registry.keys_nodup _, fun key => mem_keys_types_assemble,
    fun key d => type?_assemble_eq_some_iff, rfl, rfl, rfl⟩
  rw [keys_types_assemble, List.filter_append, List.filter_filter, List.filter_filter]
  simp only [Bool.and_comm]

end Schema

end SemanticNullability
