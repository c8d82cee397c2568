import SemanticNullability.Registry
/-!
# Registries by their names and their look-up

A registry is known by its list of names and by what each name finds: `Registry.ext_find?`. So an
operation is described by two equations, one for the names in their order and one for the look-up.
The equations of `insertAll` are here (`keys_insertAll`, `find?_insertAll`); a registry that is built
from nothing out of another one's bindings is that other registry (`insertAll_empty`).
-/
namespace SemanticNullability.Registry

variable {α β : Type}

/-! ## Extensionality -/

theorem lookup_cons_self (key : String) (v : α) (l : List (String × α)) :
    ((key, v) :: l).lookup key = some v := by simp

theorem lookup_cons_ne {key k : String} (v : α) (l : List (String × α)) (h : key ≠ k) :
    ((k, v) :: l).lookup key = l.lookup key := by
  simp [List.lookup_cons, beq_eq_false_iff_ne.2 h]

/-- Bindings are determined by their names, in order, and by the look-up, as long as no name comes
twice. -/
theorem entries_ext {l m : List (String × α)} (hl : (l.map Prod.fst).Nodup)
    (hkeys : l.map Prod.fst = m.map Prod.fst) (hfind : ∀ k, l.lookup k = m.lookup k) : l = m := by
  induction l generalizing m with
  | nil =>
    have hm : m.map Prod.fst = [] := hkeys.symm
    rw [List.map_eq_nil_iff] at hm
    exact hm.symm
  | cons e rest ih =>
    obtain ⟨k, v⟩ := e
    obtain ⟨⟨k', v'⟩, rest', rfl, rfl, htail⟩ := List.map_eq_cons_iff.1 hkeys.symm
    obtain ⟨hnot, hnodup⟩ := List.nodup_cons.1 hl
    have hv : v = v' := by
      have hk := hfind k'
      rw [lookup_cons_self, lookup_cons_self] at hk
      exact Option.some.inj hk
    subst hv
    congr 1
    refine ih hnodup htail.symm fun key => ?_
    by_cases hkey : key = k'
    · subst hkey
      have h1 : rest.lookup key = none := lookup_eq_none_iff.2 hnot
      have h2 : rest'.lookup key = none := lookup_eq_none_iff.2 (by rw [htail]; exact hnot)
      rw [h1, h2]
    · have := hfind key
      rwa [lookup_cons_ne _ _ hkey, lookup_cons_ne _ _ hkey] at this

/-- **Extensionality.** Two registries with the same names in the same order, in which every name
finds the same definition, are one. -/
theorem ext_find? {r s : Registry α} (hkeys : r.keys = s.keys)
    (hfind : ∀ key, r.find? key = s.find? key) : r = s :=
  ext_entries (entries_ext r.nodup hkeys hfind)

/-! ## Names that are bound -/

theorem contains_eq_isSome (r : Registry α) (key : String) :
    r.contains key = (r.find? key).isSome := by
  cases h : r.find? key with
  | none =>
    have hn := find?_eq_none_iff.1 h
    rw [← contains_iff, Bool.not_eq_true] at hn
    rw [hn]
    rfl
  | some v =>
    have hmem : key ∈ r.keys := List.mem_map_of_mem (f := Prod.fst) (find?_eq_some_iff.1 h)
    rw [contains_iff.2 hmem]
    rfl

theorem mem_keys_iff_exists {r : Registry α} {key : String} :
    key ∈ r.keys ↔ ∃ v, r.find? key = some v := by
  rw [← contains_iff, contains_eq_isSome, Option.isSome_iff_exists]

theorem contains_erase (r : Registry α) (key k : String) :
    (r.erase key).contains k = (r.contains k && k != key) := by
  rw [contains_eq_isSome, contains_eq_isSome, find?_erase]
  by_cases h : k = key <;> simp [h]

theorem contains_insert (r : Registry α) (key : String) (v : α) (k : String) :
    (r.insert key v).contains k = (r.contains k || k == key) := by
  rw [contains_eq_isSome, contains_eq_isSome, find?_insert]
  by_cases h : k = key <;> simp [h]

theorem find?_filterMap (f : α → Option β) (r : Registry α) (key : String) :
    (r.filterMap f).find? key = (r.find? key).bind f := by
  refine Option.ext fun b => ?_
  rw [find?_eq_some_iff, Option.bind_eq_some_iff]
  simp only [find?_eq_some_iff, filterMap, List.mem_filterMap, Option.map_eq_some_iff,
    Prod.mk.injEq]
  constructor
  · rintro ⟨⟨k, a⟩, he, b', hb, rfl, rfl⟩
    exact ⟨a, he, hb⟩
  · rintro ⟨a, ha, hb⟩
    exact ⟨(key, a), ha, b, hb, rfl, rfl⟩

/-- Where every definition has a value, no name is lost. -/
theorem keys_filterMap_of_isSome {f : α → Option β} {r : Registry α}
    (h : ∀ e ∈ r.entries, (f e.2).isSome = true) : (r.filterMap f).keys = r.keys := by
  simp only [keys, filterMap]
  generalize r.entries = l at h
  induction l with
  | nil => rfl
  | cons e rest ih =>
    obtain ⟨b, hb⟩ := Option.isSome_iff_exists.1 (h e List.mem_cons_self)
    have hrest := ih fun e' he' => h e' (List.mem_cons_of_mem e he')
    simp [hb, hrest]

/-! ## A new name -/

/-- A name that is not bound yet is bound behind all others. -/
theorem entries_insert_of_new {r : Registry α} {key : String} (h : r.contains key = false) (v : α) :
    (r.insert key v).entries = r.entries ++ [(key, v)] := by
  simp [insert, h]

/-- What stands behind other bindings is not bound by them. -/
theorem contains_eq_false_of_entries {r s : Registry α} {key : String} {v : α}
    {rest : List (String × α)} (h : s.entries = r.entries ++ (key, v) :: rest) :
    r.contains key = false := by
  have hnodup := s.nodup
  rw [h, List.map_append, List.map_cons, List.nodup_append] at hnodup
  rw [← Bool.not_eq_true, contains_iff]
  intro hmem
  exact hnodup.2.2 key hmem key List.mem_cons_self rfl

theorem values_filterKeys_subset (p : String → Bool) (r : Registry α) :
    (r.filterKeys p).values ⊆ r.values :=
  List.map_subset _ List.filter_sublist.subset

/-! ## Operations that change nothing -/

theorem filterKeys_eq_self {p : String → Bool} {r : Registry α} (h : ∀ key ∈ r.keys, p key = true) :
    r.filterKeys p = r := by
  refine ext_entries (List.filter_eq_self.2 fun e he => ?_)
  exact h e.1 (List.mem_map_of_mem he)

theorem map_eq_self {g : α → α} {r : Registry α} (h : ∀ e ∈ r.entries, g e.2 = e.2) :
    r.map g = r := by
  refine ext_entries ((List.map_congr_left fun e he => ?_).trans (List.map_id r.entries))
  rw [h e he]
  rfl

/-! ## Binding all of another registry -/

theorem keys_foldl_insert (l : List (String × α)) (hl : (l.map Prod.fst).Nodup) (r : Registry α) :
    (l.foldl (fun acc e => acc.insert e.1 e.2) r).keys =
      r.keys ++ (l.map Prod.fst).filter fun k => !r.contains k := by
  induction l generalizing r with
  | nil => simp
  | cons e rest ih =>
    obtain ⟨hnot, hnodup⟩ := List.nodup_cons.1 hl
    rw [List.foldl_cons, ih hnodup, List.map_cons, List.filter_cons]
    have hrest : (rest.map Prod.fst).filter (fun k => !(r.insert e.1 e.2).contains k) =
        (rest.map Prod.fst).filter fun k => !r.contains k := by
      refine List.filter_congr fun k hk => ?_
      have hne : k ≠ e.1 := fun h => hnot (h ▸ hk)
      rw [contains_eq_isSome, contains_eq_isSome, find?_insert, if_neg hne]
    rw [hrest, keys_insert]
    by_cases he : e.1 ∈ r.keys
    · simp [he, contains_iff.2 he]
    · have hc : r.contains e.1 = false := by
        rw [← Bool.not_eq_true, contains_iff]
        exact he
      simp [he, hc]

theorem find?_foldl_insert (l : List (String × α)) (hl : (l.map Prod.fst).Nodup) (r : Registry α)
    (key : String) :
    (l.foldl (fun acc e => acc.insert e.1 e.2) r).find? key =
      (l.lookup key).or (r.find? key) := by
  induction l generalizing r with
  | nil => rfl
  | cons e rest ih =>
    obtain ⟨k, v⟩ := e
    obtain ⟨hnot, hnodup⟩ := List.nodup_cons.1 hl
    rw [List.foldl_cons, ih hnodup, find?_insert]
    by_cases hkey : key = k
    · subst hkey
      have hnone : rest.lookup key = none := lookup_eq_none_iff.2 hnot
      rw [hnone, lookup_cons_self, if_pos rfl, Option.none_or, Option.some_or]
    · rw [if_neg hkey, lookup_cons_ne _ _ hkey]

theorem keys_insertAll (r s : Registry α) :
    (r.insertAll s).keys = r.keys ++ s.keys.filter fun k => !r.contains k :=
  keys_foldl_insert s.entries s.nodup r

theorem find?_insertAll (r s : Registry α) (key : String) :
    (r.insertAll s).find? key = (s.find? key).or (r.find? key) :=
  find?_foldl_insert s.entries s.nodup r key

/-- Binding all of a registry where there was nothing gives the registry. -/
theorem insertAll_empty (s : Registry α) : (∅ : Registry α).insertAll s = s := by
  refine ext_find? ?_ fun key => ?_
  · rw [keys_insertAll]
    exact List.filter_eq_self.2 fun _ _ => rfl
  · rw [find?_insertAll]
    exact Option.or_none

end SemanticNullability.Registry
