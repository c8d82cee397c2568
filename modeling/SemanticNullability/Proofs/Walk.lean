import SemanticNullability.Conversion.Worklist
import SemanticNullability.Proofs.Registry
/-!
# The invariant of the conversion by a worklist

`Worklist.Inv` says what holds of a conversion under way: only registered types outside of
introspection have been met, the reserved places are exactly those of the names that are queued or
taken from the queue, each of these names once, and a filled place holds the conversion of the type
registered under its name. Meeting a name keeps it (`inv_visit`), so does filling a place
(`inv_fill`), so does the whole run (`inv_drain`). When the queue is empty nothing is reserved, no
type that was met is lost (`keys_finish`), and the converted types are read off the source
(`find?_finish`).
-/
namespace SemanticNullability.Worklist

/-- The names that conversion deals with: they are registered and not part of introspection. -/
def Convertible (source : Schema) (name : String) : Prop :=
  name ∈ source.types.keys ∧ isIntrospectionName name = false

/-- What holds of a conversion under way while the names `held` have been taken from the queue but
their places are not filled yet. -/
structure Inv (source : Schema) (mode : Mode) (held : List String) (w : Worklist) : Prop where
  convertible : ∀ name ∈ w.slots.keys, Convertible source name
  reserved_iff : ∀ name, w.slots.find? name = some .reserved ↔ name ∈ held ++ w.pending
  nodup : (held ++ w.pending).Nodup
  filled : ∀ name d, w.slots.find? name = some (.filled d) →
    (source.type? name).map (TypeDefinition.convert mode) = some d

variable {source : Schema} {mode : Mode} {held : List String} {w : Worklist}

/-! ## Meeting names -/

theorem queues_iff {name : String} :
    w.queues source name = true ↔ Convertible source name ∧ name ∉ w.slots.keys := by
  simp only [queues, Convertible, Bool.and_eq_true, Bool.not_eq_true', ← Bool.not_eq_true,
    Registry.contains_iff]
  constructor
  · rintro ⟨⟨hintro, hnew⟩, hreg⟩
    exact ⟨⟨hreg, hintro⟩, hnew⟩
  · rintro ⟨⟨hreg, hintro⟩, hnew⟩
    exact ⟨⟨hintro, hnew⟩, hreg⟩

theorem mem_keys_visit {name k : String} :
    k ∈ (w.visit source name).slots.keys ↔
      k ∈ w.slots.keys ∨ (k = name ∧ Convertible source k) := by
  unfold visit
  split
  · rename_i hq
    obtain ⟨hconv, _⟩ := queues_iff.1 hq
    rw [Registry.mem_keys_insert]
    constructor
    · rintro (rfl | hk)
      · exact Or.inr ⟨rfl, hconv⟩
      · exact Or.inl hk
    · rintro (hk | ⟨rfl, _⟩)
      · exact Or.inr hk
      · exact Or.inl rfl
  · rename_i hq
    rw [queues_iff, not_and, Decidable.not_not] at hq
    constructor
    · exact Or.inl
    · rintro (hk | ⟨rfl, hconv⟩)
      · exact hk
      · exact hq hconv

theorem mem_keys_visitAll {names : List String} {k : String} :
    k ∈ (w.visitAll source names).slots.keys ↔
      k ∈ w.slots.keys ∨ (k ∈ names ∧ Convertible source k) := by
  induction names generalizing w with
  | nil => simp [visitAll]
  | cons name rest ih =>
    have hstep : w.visitAll source (name :: rest) = (w.visit source name).visitAll source rest := rfl
    rw [hstep, ih, mem_keys_visit, List.mem_cons]
    constructor
    · rintro ((hk | ⟨hname, hconv⟩) | ⟨hrest, hconv⟩)
      · exact Or.inl hk
      · exact Or.inr ⟨Or.inl hname, hconv⟩
      · exact Or.inr ⟨Or.inr hrest, hconv⟩
    · rintro (hk | ⟨hname | hrest, hconv⟩)
      · exact Or.inl (Or.inl hk)
      · exact Or.inl (Or.inr ⟨hname, hconv⟩)
      · exact Or.inr ⟨hrest, hconv⟩

/-- A name that is queued comes last among those that have been met. -/
theorem keys_visit (source : Schema) (w : Worklist) (name : String) :
    (w.visit source name).slots.keys =
      if w.queues source name then w.slots.keys ++ [name] else w.slots.keys := by
  unfold visit
  split
  · rename_i hq
    rw [Registry.keys_insert, if_neg (queues_iff.1 hq).2]
  · rfl

/-- Meeting a name fills no place. -/
theorem find?_of_visit_filled {name k : String} {d : TypeDefinition Field}
    (h : (w.visit source name).slots.find? k = some (.filled d)) :
    w.slots.find? k = some (.filled d) := by
  unfold visit at h
  split at h
  · rw [Registry.find?_insert] at h
    split at h
    · cases h
    · exact h
  · exact h

theorem Inv.met {name : String} (h : Inv source mode held w) (hname : name ∈ held ++ w.pending) :
    name ∈ w.slots.keys :=
  Registry.mem_keys_iff_exists.2 ⟨_, (h.reserved_iff name).2 hname⟩

theorem Inv.exists_type? {name : String} (h : Inv source mode held w)
    (hname : name ∈ held ++ w.pending) : ∃ definition, source.type? name = some definition :=
  Registry.mem_keys_iff_exists.1 (h.convertible name (h.met hname)).1

theorem inv_empty : Inv source mode [] empty where
  convertible name h := absurd h List.not_mem_nil
  reserved_iff name := by
    constructor
    · intro h
      cases h
    · intro h
      exact absurd h List.not_mem_nil
  nodup := List.nodup_nil
  filled name d h := by cases h

/-- Meeting a name keeps the invariant: if it is new it is reserved and queued at once. -/
theorem inv_visit (h : Inv source mode held w) (name : String) :
    Inv source mode held (w.visit source name) := by
  unfold visit
  split
  · rename_i hq
    obtain ⟨hconv, hnew⟩ := queues_iff.1 hq
    have hfree : name ∉ held ++ w.pending := fun hmem => hnew (h.met hmem)
    refine ⟨?_, ?_, ?_, ?_⟩
    · intro k hk
      rcases Registry.mem_keys_insert.1 hk with rfl | hk
      · exact hconv
      · exact h.convertible k hk
    · intro k
      rw [Registry.find?_insert]
      by_cases hk : k = name
      · simp [hk]
      · rw [if_neg hk, h.reserved_iff k]
        simp [hk]
    · exact List.perm_middle.nodup_iff.2 (List.nodup_cons.2 ⟨hfree, h.nodup⟩)
    · intro k d hd
      rw [Registry.find?_insert] at hd
      by_cases hk : k = name
      · rw [if_pos hk] at hd
        cases hd
      · rw [if_neg hk] at hd
        exact h.filled k d hd
  · exact h

theorem inv_visitAll (h : Inv source mode held w) (names : List String) :
    Inv source mode held (w.visitAll source names) := by
  induction names generalizing w with
  | nil => exact h
  | cons name rest ih => exact ih (inv_visit h name)

/-! ## Converting a type -/

/-- Filling the place of a name that was taken from the queue keeps the invariant. -/
theorem inv_fill {name : String} {definition : TypeDefinition Field}
    (h : Inv source mode (name :: held) w) (hd : source.type? name = some definition) :
    Inv source mode held
      { w with slots := w.slots.insert name (.filled (definition.convert mode)) } := by
  obtain ⟨hnot, hnodup⟩ := List.nodup_cons.1 h.nodup
  have hmet : name ∈ w.slots.keys := h.met List.mem_cons_self
  refine ⟨?_, ?_, hnodup, ?_⟩
  · intro k hk
    rcases Registry.mem_keys_insert.1 hk with rfl | hk
    · exact h.convertible k hmet
    · exact h.convertible k hk
  · intro k
    rw [Registry.find?_insert]
    by_cases hk : k = name
    · subst hk
      rw [if_pos rfl]
      constructor
      · intro hfill
        cases hfill
      · intro hmem
        exact absurd hmem hnot
    · rw [if_neg hk, h.reserved_iff k, List.cons_append, List.mem_cons]
      simp [hk]
  · intro k d hfill
    rw [Registry.find?_insert] at hfill
    by_cases hk : k = name
    · rw [if_pos hk] at hfill
      cases hfill
      rw [hk, hd]
      rfl
    · rw [if_neg hk] at hfill
      exact h.filled k d hfill

/-- A name that is taken from the queue is held. -/
theorem inv_taken {slots : Registry Slot} {name : String} {pending : List String}
    (h : Inv source mode [] ⟨slots, name :: pending⟩) : Inv source mode [name] ⟨slots, pending⟩ :=
  ⟨h.convertible, h.reserved_iff, h.nodup, h.filled⟩

/-- **One step keeps the invariant.** A queued name is registered, so its place is filled. -/
theorem inv_convertType {slots : Registry Slot} {name : String} {pending : List String}
    (h : Inv source mode [] ⟨slots, name :: pending⟩) :
    Inv source mode [] (convertType source mode ⟨slots, pending⟩ name) := by
  obtain ⟨definition, hd⟩ := h.exists_type? List.mem_cons_self
  rw [convertType, hd]
  exact inv_fill (inv_visitAll (inv_taken h) _) hd

theorem keys_subset_convertType (name : String) {k : String} (hk : k ∈ w.slots.keys) :
    k ∈ (w.convertType source mode name).slots.keys := by
  unfold convertType
  split
  · exact hk
  · exact Registry.mem_keys_insert.2 (Or.inr (mem_keys_visitAll.2 (Or.inl hk)))

/-! ## The run -/

/-- What each step keeps, the run keeps. -/
theorem drain_keeps {motive : Worklist → Prop}
    (hstep : ∀ slots name pending, motive ⟨slots, name :: pending⟩ →
      motive (convertType source mode ⟨slots, pending⟩ name))
    (h : motive w) : motive (w.drain source mode) := by
  induction w using drain.induct source mode with
  | case1 slots =>
    rw [drain]
    exact h
  | case2 slots name pending ih =>
    rw [drain]
    exact ih (hstep slots name pending h)

/-- **The run keeps the invariant.** -/
theorem inv_drain (h : Inv source mode [] w) : Inv source mode [] (w.drain source mode) :=
  drain_keeps (fun _ _ _ => inv_convertType) h

/-- The run ends with an empty queue. -/
theorem pending_drain (source : Schema) (mode : Mode) (w : Worklist) :
    (w.drain source mode).pending = [] := by
  induction w using drain.induct source mode with
  | case1 slots => rw [drain]
  | case2 slots name pending ih =>
    rw [drain]
    exact ih

/-- What has been met stays met. -/
theorem keys_subset_drain (source : Schema) (mode : Mode) (w : Worklist) {k : String}
    (hk : k ∈ w.slots.keys) : k ∈ (w.drain source mode).slots.keys :=
  drain_keeps (motive := fun w => k ∈ w.slots.keys)
    (fun _ name _ hk => keys_subset_convertType name hk) hk

/-! ## What is read off the end -/

/-- With an empty queue every type that has been met is converted. -/
theorem find?_finish (h : Inv source mode [] w) (hdone : w.pending = []) (name : String) :
    w.finish.find? name =
      if w.slots.contains name then (source.type? name).map (TypeDefinition.convert mode)
      else none := by
  rw [finish, Registry.find?_filterMap, Registry.contains_eq_isSome]
  cases hslot : w.slots.find? name with
  | none => rfl
  | some slot =>
    cases slot with
    | reserved =>
      have hmem := (h.reserved_iff name).1 hslot
      rw [hdone] at hmem
      exact absurd hmem List.not_mem_nil
    | filled d => exact (h.filled name d hslot).symm

/-- Where nothing is reserved, every name that has been met is kept. -/
theorem keys_finish (h : ∀ name, w.slots.find? name ≠ some .reserved) :
    w.finish.keys = w.slots.keys := by
  refine Registry.keys_filterMap_of_isSome fun e he => ?_
  have hfind : w.slots.find? e.1 = some e.2 := Registry.find?_eq_some_iff.2 he
  cases hslot : e.2 with
  | reserved => exact absurd (hslot ▸ hfind) (h e.1)
  | filled d => rfl

/-- The whole walk: first from the root types, then from all that is registered. -/
def complete (source : Schema) (mode : Mode) : Worklist :=
  let reached := (empty.visitAll source (source.roots.toList.map Prod.snd)).drain source mode
  (reached.visitAll source source.types.keys).drain source mode

theorem convert_eq_assemble (source : Schema) (mode : Mode) :
    source.convert mode = source.assemble (complete source mode).finish := rfl

theorem inv_complete (source : Schema) (mode : Mode) : Inv source mode [] (complete source mode) :=
  inv_drain (inv_visitAll (inv_drain (inv_visitAll inv_empty _)) _)

/-- The walk meets exactly the registered types outside of introspection. -/
theorem mem_keys_complete {name : String} :
    name ∈ (complete source mode).slots.keys ↔ Convertible source name := by
  constructor
  · exact (inv_complete source mode).convertible name
  · intro hconv
    refine keys_subset_drain source mode _ (mem_keys_visitAll.2 ?_)
    exact Or.inr ⟨hconv.1, hconv⟩

/-- **What the walk converts.** Every registered type outside of introspection is converted, whatever
leads to it, and nothing else is. -/
theorem find?_complete (source : Schema) (mode : Mode) (name : String) :
    (complete source mode).finish.find? name =
      if isIntrospectionName name then none
      else (source.type? name).map (TypeDefinition.convert mode) := by
  rw [find?_finish (inv_complete source mode) (pending_drain source mode _)]
  cases hintro : isIntrospectionName name with
  | true =>
    have hnot : name ∉ (complete source mode).slots.keys := by
      intro hmem
      have hconv := (mem_keys_complete.1 hmem).2
      rw [hintro] at hconv
      cases hconv
    rw [← Registry.contains_iff] at hnot
    simp [hnot]
  | false =>
    by_cases hmem : name ∈ source.types.keys
    · have hmet : name ∈ (complete source mode).slots.keys := mem_keys_complete.2 ⟨hmem, hintro⟩
      simp [Registry.contains_iff.2 hmet]
    · have hnone : source.type? name = none := Registry.find?_eq_none_iff.2 hmem
      simp [hnone]

end SemanticNullability.Worklist
