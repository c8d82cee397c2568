import SemanticNullability.Levels
/-!
# The levels of a directive

What `Levels.ofDirective` reads is compared with a description in integers, `Directive.listedDepths`:
of the list in the first argument `levels` the integers that 32 bits hold, each once and where it
comes first; the outer depth alone if there is no such list. The two agree (`ofDirective_exact`), and
no level is put in the place of a list that has none.
-/
namespace SemanticNullability

/-! ## First occurrences -/

section

variable {α β : Type} [DecidableEq α] [DecidableEq β]

theorem filter_firstOccurrences (p : α → Bool) (l : List α) :
    (firstOccurrences l).filter p = firstOccurrences (l.filter p) := by
  induction l with
  | nil => rfl
  | cons a rest ih =>
    cases ha : p a with
    | true =>
      rw [List.filter_cons_of_pos ha, firstOccurrences, firstOccurrences,
        List.filter_cons_of_pos ha, ← ih, List.filter_filter, List.filter_filter]
      simp only [Bool.and_comm]
    | false =>
      have hna : ¬ p a = true := by simp [ha]
      rw [List.filter_cons_of_neg hna, firstOccurrences, List.filter_cons_of_neg hna, ← ih,
        List.filter_filter]
      refine List.filter_congr fun x _ => ?_
      by_cases hx : x = a
      · simp [hx, ha]
      · simp [hx]

theorem firstOccurrences_eq_eraseDups : ∀ l : List α, firstOccurrences l = l.eraseDups
  | [] => rfl
  | a :: rest => by
    -- `eraseDups` filters before it goes on, so the recursion is on the filtered rest
    have hrest : (rest.filter fun b => !b == a) = rest.filter (· ≠ a) :=
      List.filter_congr fun b _ => by by_cases hb : b = a <;> simp [hb]
    rw [List.eraseDups_cons, hrest, firstOccurrences, filter_firstOccurrences,
      firstOccurrences_eq_eraseDups (rest.filter (· ≠ a))]
termination_by l => l.length
decreasing_by exact Nat.lt_succ_of_le (List.length_filter_le _ rest)

theorem map_firstOccurrences {f : α → β} (hf : ∀ a b, f a = f b → a = b) (l : List α) :
    (firstOccurrences l).map f = firstOccurrences (l.map f) := by
  induction l with
  | nil => rfl
  | cons a rest ih =>
    rw [List.map_cons, firstOccurrences, firstOccurrences, List.map_cons, ← ih, List.filter_map]
    congr 2
    refine List.filter_congr fun x _ => ?_
    by_cases hx : x = a
    · simp [hx]
    · have hfx : f x ≠ f a := fun h => hx (hf x a h)
      simp [hx, hfx]

end

/-! ## What a directive lists -/

/-- The list in the first argument `levels` of a directive, if there is such an argument and it is a
list. -/
def Directive.levelList? (d : Directive) : Option (List Value) :=
  match d.arguments.find? (·.1 == Levels.argumentName) with
  | some (_, .list items) => some items
  | _ => none

def Value.integers (items : List Value) : List Int :=
  items.filterMap fun
    | .int n => some n.toInt
    | _ => none

/-- Whether an integer is a list depth that 32 bits hold. -/
def isDepth (n : Int) : Bool := decide (0 ≤ n ∧ n < UInt32.size)

theorem isDepth_iff {n : Int} : isDepth n = true ↔ 0 ≤ n ∧ n < UInt32.size := decide_eq_true_iff

/-- The depths that a directive lists. -/
def Directive.listedDepths (d : Directive) : List Int :=
  match d.levelList? with
  | some items => ((Value.integers items).filter isDepth).eraseDups
  | none => [0]

def Level.depth (level : Level) : Int := level.toNat

theorem Level.depth_inj (l m : Level) (h : l.depth = m.depth) : l = m :=
  UInt32.toNat_inj.1 (Int.ofNat_inj.1 h)

theorem Level.isDepth_depth (level : Level) : isDepth level.depth = true := by
  have hlt : level.toNat < UInt32.size := level.toNat_lt_size
  rw [isDepth_iff, Level.depth]
  omega

theorem Value.mem_integers {items : List Value} {z : Int} :
    z ∈ Value.integers items ↔ ∃ n : Int64, .int n ∈ items ∧ n.toInt = z := by
  simp only [integers, List.mem_filterMap]
  constructor
  · rintro ⟨v, hv, hz⟩
    cases v with
    | int n => exact ⟨n, hv, Option.some.inj hz⟩
    | _ => cases hz
  · rintro ⟨n, hn, rfl⟩
    exact ⟨_, hn, rfl⟩

theorem Directive.mem_listedDepths {d : Directive} {z : Int} :
    z ∈ d.listedDepths ↔
      match d.levelList? with
      | some items => isDepth z = true ∧ ∃ n : Int64, .int n ∈ items ∧ n.toInt = z
      | none => z = 0 := by
  rw [listedDepths]
  cases d.levelList? with
  | none => exact List.mem_singleton
  | some items => rw [List.mem_eraseDups, List.mem_filter, Value.mem_integers, and_comm]

theorem Directive.listedDepths_eq_nil_iff {d : Directive} :
    d.listedDepths = [] ↔
      ∃ items, d.levelList? = some items ∧
        ∀ n : Int64, .int n ∈ items → isDepth n.toInt = false := by
  rw [List.eq_nil_iff_forall_not_mem]
  simp only [mem_listedDepths]
  cases d.levelList? with
  | none =>
    refine iff_of_false (fun h => h 0 rfl) ?_
    rintro ⟨items, hitems, -⟩
    cases hitems
  | some items =>
    constructor
    · intro h
      refine ⟨items, rfl, fun n hn => ?_⟩
      rw [← Bool.not_eq_true]
      exact fun hdepth => h n.toInt ⟨hdepth, n, hn, rfl⟩
    · rintro ⟨_, ⟨⟩, h⟩ z ⟨hdepth, n, hn, rfl⟩
      rw [h n hn] at hdepth
      cases hdepth

theorem Directive.argument?_eq_map_find? (d : Directive) (name : String) :
    d.argument? name = (d.arguments.find? (·.1 == name)).map Prod.snd := by
  rw [argument?]
  induction d.arguments with
  | nil => rfl
  | cons e rest ih =>
    rw [List.lookup_cons, List.find?_cons, BEq.comm, ih]
    cases e.1 == name <;> rfl

namespace Levels

/-! ## What is read of it -/

/-- An integer is a level if it is a depth. -/
theorem map_depth_ofValue?_int (n : Int64) :
    (ofValue? (.int n)).map Level.depth = (some n.toInt).filter isDepth := by
  rw [ofValue?, Option.filter_some]
  by_cases hn : 0 ≤ n.toInt ∧ n.toInt < UInt32.size
  · have hdepth : Level.depth (UInt32.ofNat n.toInt.toNat) = n.toInt := by
      rw [Level.depth, UInt32.toNat_ofNat_of_lt' (by omega), Int.toNat_of_nonneg hn.1]
    rw [if_pos hn, if_pos (isDepth_iff.2 hn), Option.map_some, hdepth]
  · rw [if_neg hn, if_neg (hn ∘ isDepth_iff.1), Option.map_none]

/-- The entries that are levels are the integers among them that are depths. -/
theorem map_depth_filterMap_ofValue? (items : List Value) :
    (items.filterMap ofValue?).map Level.depth = (Value.integers items).filter isDepth := by
  rw [Value.integers, List.map_filterMap, List.filter_filterMap]
  congr 1
  funext v
  cases v with
  | int n => exact map_depth_ofValue?_int n
  | _ => rfl

theorem ofDirective_eq (d : Directive) :
    ofDirective d =
      match d.levelList? with
      | some items => ofList (items.filterMap ofValue?)
      | none => outer := by
  rw [ofDirective, Directive.argument?_eq_map_find?, Directive.levelList?]
  cases d.arguments.find? (·.1 == argumentName) with
  | none => rfl
  | some argument =>
    obtain ⟨_, value⟩ := argument
    cases value <;> rfl

/-- The levels of a directive are the depths that it lists. -/
theorem map_depth_ofDirective (d : Directive) :
    (ofDirective d).toList.map Level.depth = d.listedDepths := by
  rw [ofDirective_eq, Directive.listedDepths]
  cases d.levelList? with
  | none => rfl
  | some items =>
    calc (firstOccurrences (items.filterMap ofValue?)).map Level.depth
        = firstOccurrences ((items.filterMap ofValue?).map Level.depth) :=
          map_firstOccurrences Level.depth_inj _
      _ = ((Value.integers items).filter isDepth).eraseDups := by
          rw [map_depth_filterMap_ofValue?, firstOccurrences_eq_eraseDups]

theorem contains_iff_mem_depths {levels : Levels} {level : Level} :
    levels.contains level = true ↔ level.depth ∈ levels.toList.map Level.depth := by
  rw [contains, List.contains_iff_mem, List.mem_map]
  constructor
  · intro hmem
    exact ⟨level, hmem, rfl⟩
  · rintro ⟨other, hmem, hdepth⟩
    exact Level.depth_inj other level hdepth ▸ hmem

theorem isEmpty_iff_depths_eq_nil {levels : Levels} :
    levels.isEmpty = true ↔ levels.toList.map Level.depth = [] := by
  rw [isEmpty, List.isEmpty_iff, List.map_eq_nil_iff]

/-- **The levels of a directive** are the depths that it lists, in the same order and each of them
once. So a level is among them if it is an entry of the list, or the outer one where there is no list;
and they are empty if there is a list without a depth in it. -/
theorem ofDirective_exact (d : Directive) :
    (ofDirective d).toList.map Level.depth = d.listedDepths ∧
    (ofDirective d).toList.Nodup ∧
    (∀ level, (ofDirective d).contains level = true ↔
      match d.levelList? with
      | some items => ∃ n : Int64, .int n ∈ items ∧ n.toInt = level.depth
      | none => level.depth = 0) ∧
    ((ofDirective d).isEmpty = true ↔
      ∃ items, d.levelList? = some items ∧
        ∀ n : Int64, .int n ∈ items → isDepth n.toInt = false) := by
  refine ⟨map_depth_ofDirective d, (ofDirective d).nodup, fun level => ?_, ?_⟩
  · rw [contains_iff_mem_depths, map_depth_ofDirective, Directive.mem_listedDepths]
    cases d.levelList? with
    | none => exact Iff.rfl
    | some items => exact and_iff_right level.isDepth_depth
  · rw [isEmpty_iff_depths_eq_nil, map_depth_ofDirective, Directive.listedDepths_eq_nil_iff]

/-- A list without a depth in it names no level; what is no list names the outer one. -/
example :
    (ofDirective ⟨"d", [("levels", .list [.int 2, .int (-1), .null, .int 0, .int 2])]⟩).toList =
        [2, 0] ∧
      (ofDirective ⟨"d", [("levels", .list [.null])]⟩).toList = [] ∧
      (ofDirective ⟨"d", [("levels", .null), ("levels", .list [.int 2])]⟩).toList = [0] := by
  decide +kernel

end Levels

end SemanticNullability
