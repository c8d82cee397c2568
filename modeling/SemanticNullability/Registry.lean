/-!
# Registries

A registry binds names to definitions and remembers the order in which the names came. Each name
is bound once, which is part of the type. `Registry.find?` is the view through which the other
operations are described: see `find?_insert`, `find?_erase`, `find?_filterKeys` and `find?_map`.
-/
namespace SemanticNullability

/-- Bindings in the order of their first insertion, each name once. -/
structure Registry (α : Type) where
  entries : List (String × α)
  nodup : (entries.map Prod.fst).Nodup

namespace Registry

variable {α β : Type}

def keys (r : Registry α) : List String := r.entries.map Prod.fst

def values (r : Registry α) : List α := r.entries.map Prod.snd

def find? (r : Registry α) (key : String) : Option α := r.entries.lookup key

def contains (r : Registry α) (key : String) : Bool := r.entries.any (·.1 == key)

def empty : Registry α := ⟨[], List.nodup_nil⟩

instance : EmptyCollection (Registry α) := ⟨empty⟩

instance : Inhabited (Registry α) := ⟨empty⟩

theorem contains_iff {r : Registry α} {key : String} : r.contains key = true ↔ key ∈ r.keys := by
  simp [contains, keys]

theorem ext_entries {r s : Registry α} (h : r.entries = s.entries) : r = s := by
  cases r
  cases s
  cases h
  rfl

/-! ## Operations -/

/-- Binds the value at the place of the name. -/
def replaceIn (key : String) (value : α) (entries : List (String × α)) : List (String × α) :=
  entries.map fun e => if e.1 = key then (key, value) else e

theorem map_fst_replaceIn (key : String) (value : α) (entries : List (String × α)) :
    (replaceIn key value entries).map Prod.fst = entries.map Prod.fst := by
  induction entries with
  | nil => rfl
  | cons e rest ih =>
    have hrest := ih
    simp only [replaceIn, List.map_cons, List.cons.injEq] at hrest ⊢
    refine ⟨?_, hrest⟩
    split
    · rename_i h
      exact h.symm
    · rfl

/-- Binds a name. A name that is bound already keeps its place; a new one comes last. -/
def insert (r : Registry α) (key : String) (value : α) : Registry α :=
  if h : r.contains key then
    ⟨replaceIn key value r.entries, by rw [map_fst_replaceIn]; exact r.nodup⟩
  else
    ⟨r.entries ++ [(key, value)], by
      rw [List.map_append, List.map_singleton, List.nodup_append]
      refine ⟨r.nodup, List.nodup_cons.2 ⟨List.not_mem_nil, List.nodup_nil⟩, ?_⟩
      intro a ha b hb hab
      have hkey : a = key := hab.trans (List.mem_singleton.1 hb)
      exact h (contains_iff.2 (hkey ▸ ha))⟩

def filterKeys (p : String → Bool) (r : Registry α) : Registry α :=
  ⟨r.entries.filter fun e => p e.1, r.nodup.sublist (List.filter_sublist.map _)⟩

/-- Removes a name; the order of the others stays. -/
def erase (r : Registry α) (key : String) : Registry α := r.filterKeys (· ≠ key)

def map (f : α → β) (r : Registry α) : Registry β :=
  ⟨r.entries.map fun e => (e.1, f e.2), by
    rw [List.map_map]
    exact r.nodup⟩

/-- Keeps the bindings that `f` gives a value for. -/
def filterMap (f : α → Option β) (r : Registry α) : Registry β :=
  ⟨r.entries.filterMap fun e => (f e.2).map fun b => (e.1, b), by
    refine r.nodup.sublist ?_
    induction r.entries with
    | nil => exact List.Sublist.refl _
    | cons e rest ih =>
      rw [List.filterMap_cons]
      cases f e.2 with
      | none => exact List.Sublist.cons _ ih
      | some b => exact List.Sublist.cons_cons _ ih⟩

/-- Binds the names of another registry, in its order. -/
def insertAll (r s : Registry α) : Registry α :=
  s.entries.foldl (fun acc e => acc.insert e.1 e.2) r

/-- Two registries agree if they bind the same names to equal definitions, in any order. -/
def same (eq : α → α → Bool) (r s : Registry α) : Bool :=
  r.entries.length == s.entries.length &&
    r.entries.all fun e =>
      match s.find? e.1 with
      | some v => eq e.2 v
      | none => false

/-! ## The view -/

theorem lookup_eq_none_iff {key : String} {l : List (String × α)} :
    l.lookup key = none ↔ key ∉ l.map Prod.fst := by
  induction l with
  | nil => simp
  | cons e rest ih =>
    rw [List.lookup_cons]
    by_cases h : key = e.1
    · simp [h]
    · simp [h, ih, beq_eq_false_iff_ne.2 h]

theorem find?_eq_none_iff {r : Registry α} {key : String} : r.find? key = none ↔ key ∉ r.keys :=
  lookup_eq_none_iff

theorem lookup_eq_some_iff {key : String} {v : α} {l : List (String × α)}
    (h : (l.map Prod.fst).Nodup) : l.lookup key = some v ↔ (key, v) ∈ l := by
  induction l with
  | nil => simp
  | cons e rest ih =>
    obtain ⟨k, w⟩ := e
    obtain ⟨hk, hrest⟩ := List.nodup_cons.1 h
    rw [List.lookup_cons]
    by_cases hkey : key = k
    · subst hkey
      simp only [BEq.rfl, List.mem_cons, Prod.mk.injEq, true_and]
      constructor
      · intro hw
        exact Or.inl (Option.some.inj hw).symm
      · rintro (hv | hv)
        · rw [hv]
        · exact absurd (List.mem_map_of_mem (f := Prod.fst) hv) hk
    · simp only [beq_eq_false_iff_ne.2 hkey, ih hrest, List.mem_cons, Prod.mk.injEq, hkey,
        false_and, false_or]

/-- A name finds the definition it stands with. -/
theorem find?_eq_some_iff {r : Registry α} {key : String} {v : α} :
    r.find? key = some v ↔ (key, v) ∈ r.entries := lookup_eq_some_iff r.nodup

@[simp] theorem find?_empty (key : String) : (∅ : Registry α).find? key = none := rfl

@[simp] theorem keys_empty : (∅ : Registry α).keys = [] := rfl

theorem keys_nodup (r : Registry α) : r.keys.Nodup := r.nodup

theorem keys_insert (r : Registry α) (key : String) (v : α) :
    (r.insert key v).keys = if key ∈ r.keys then r.keys else r.keys ++ [key] := by
  by_cases h : key ∈ r.keys
  · simp only [insert, contains_iff, h, dif_pos, if_true]
    exact map_fst_replaceIn key v r.entries
  · simp only [insert, contains_iff, h, dif_neg, not_false_eq_true, if_false]
    simp [keys]

theorem mem_keys_insert {r : Registry α} {key k : String} {v : α} :
    k ∈ (r.insert key v).keys ↔ k = key ∨ k ∈ r.keys := by
  rw [keys_insert]
  by_cases h : key ∈ r.keys
  · rw [if_pos h]
    constructor
    · exact Or.inr
    · rintro (rfl | hk)
      · exact h
      · exact hk
  · rw [if_neg h, List.mem_append, List.mem_singleton, or_comm]

theorem lookup_replaceIn (key : String) (v : α) (k : String) (l : List (String × α)) :
    (replaceIn key v l).lookup k =
      if k = key ∧ key ∈ l.map Prod.fst then some v else l.lookup k := by
  induction l with
  | nil => simp [replaceIn]
  | cons e rest ih =>
    have hrest : (replaceIn key v (e :: rest)).lookup k =
        ((if e.1 = key then (key, v) else e) :: replaceIn key v rest).lookup k := rfl
    rw [hrest, List.lookup_cons, List.lookup_cons, ih]
    by_cases he : e.1 = key <;> by_cases hk : k = key
    · simp [he, hk]
    · simp [he, hk, beq_eq_false_iff_ne.2 hk]
    · subst hk
      have hne : ¬ k = e.1 := fun h => he h.symm
      by_cases hm : k ∈ rest.map Prod.fst
      · simp only [List.map_cons, List.mem_cons, hm, or_true, and_self, if_true]
        simp [he, beq_eq_false_iff_ne.2 hne]
      · simp only [List.map_cons, List.mem_cons, hm, hne, or_self, and_false, if_false]
        simp [he, beq_eq_false_iff_ne.2 hne]
    · simp [he, hk]

theorem find?_insert (r : Registry α) (key : String) (v : α) (k : String) :
    (r.insert key v).find? k = if k = key then some v else r.find? k := by
  by_cases h : key ∈ r.keys
  · have hm : key ∈ r.entries.map Prod.fst := h
    simp only [insert, contains_iff, h, dif_pos, find?, lookup_replaceIn, hm, and_true]
  · have hn : r.entries.lookup key = none := find?_eq_none_iff.2 h
    simp only [insert, contains_iff, h, dif_neg, not_false_eq_true, find?, List.lookup_append]
    by_cases hk : k = key
    · subst hk
      simp [hn]
    · simp [hk, List.lookup_cons, beq_eq_false_iff_ne.2 hk]

theorem keys_filterKeys (p : String → Bool) (r : Registry α) :
    (r.filterKeys p).keys = r.keys.filter p := by
  simp only [keys, filterKeys, List.filter_map]
  rfl

theorem find?_filterKeys (p : String → Bool) (r : Registry α) (key : String) :
    (r.filterKeys p).find? key = if p key then r.find? key else none := by
  refine Option.ext fun v => ?_
  rw [find?_eq_some_iff]
  by_cases h : p key = true
  · rw [if_pos h, find?_eq_some_iff]
    simp [filterKeys, h]
  · rw [if_neg h]
    simp [filterKeys, h]

theorem keys_erase (r : Registry α) (key : String) :
    (r.erase key).keys = r.keys.filter (· ≠ key) := keys_filterKeys _ r

theorem find?_erase (r : Registry α) (key k : String) :
    (r.erase key).find? k = if k = key then none else r.find? k := by
  rw [erase, find?_filterKeys]
  by_cases h : k = key <;> simp [h]

@[simp] theorem keys_map (f : α → β) (r : Registry α) : (r.map f).keys = r.keys := by
  simp [keys, map]

theorem find?_map (f : α → β) (r : Registry α) (key : String) :
    (r.map f).find? key = (r.find? key).map f := by
  refine Option.ext fun v => ?_
  rw [find?_eq_some_iff, Option.map_eq_some_iff]
  simp only [find?_eq_some_iff, map, List.mem_map, Prod.mk.injEq]
  constructor
  · rintro ⟨e, he, rfl, rfl⟩
    exact ⟨e.2, he, rfl⟩
  · rintro ⟨a, ha, rfl⟩
    exact ⟨(key, a), ha, rfl, rfl⟩

end Registry

end SemanticNullability
