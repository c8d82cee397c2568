import SemanticNullability.Proofs.Walk
/-!
# The walk, one action at a time

`Worklist.visitAll` and `Worklist.drain` take many actions at once, so what lies between two of them
cannot be seen. A `Stage` is a point of the walk at which one action has ended and the next has not
begun: a name has been met, a name has been taken from the queue, or a place has been filled.
`Stage.next` takes the next action, and the walk is the run from `Stage.start`.

`Stage.Inv` holds at the start and every action keeps it (`inv_next`), so it holds at every stage. It
says more than `Worklist.Inv`: what a converted type refers to has been met, and the names that were
queued are those that were taken and those that are pending. The run passes through the worklists
that `Schema.convert` computes (`exists_isOver`), so it ends, and what holds at its stages holds of the
conversion (`walk_isSound`).
-/
namespace SemanticNullability

/-- A point of the walk between two actions. -/
structure Stage where
  /-- What has been met and what is pending. -/
  work : Worklist
  /-- The type that was taken from the queue last, with what its place will be filled with. -/
  held : Option (String × TypeDefinition Field)
  /-- The names to be met before anything else. -/
  ahead : List String
  /-- What is to be met when the queue is empty, one list after the other. -/
  rounds : List (List String)
  /-- The names that were queued. -/
  queued : List String
  /-- The names that were taken from the queue. -/
  taken : List String
  /-- The names whose places were filled. -/
  filled : List String

namespace Stage

/-! ## Actions -/

/-- Meets a name; `ahead` is left. -/
def meet (source : Schema) (c : Stage) (name : String) (ahead : List String) : Stage :=
  { c with
    work := c.work.visit source name
    ahead := ahead
    queued := if c.work.queues source name then c.queued ++ [name] else c.queued }

/-- Takes a name from the queue; `pending` is left. What the type leads to is to be met first. -/
def take (source : Schema) (mode : Mode) (c : Stage) (name : String) (pending : List String) : Stage :=
  let c := { c with work := ⟨c.work.slots, pending⟩, taken := c.taken ++ [name] }
  match source.type? name with
  | none => c
  | some definition =>
    { c with
      held := some (name, definition.convert mode)
      ahead := (definition.convert mode).references }

def fill (c : Stage) (name : String) (definition : TypeDefinition Field) : Stage :=
  { c with
    work := ⟨c.work.slots.insert name (.filled definition), c.work.pending⟩
    held := none
    filled := c.filled ++ [name] }

/-- The next action: names are met as long as there are any, then the type that is held is finished,
then another is taken (one turn of the loop of `drain`). With an empty queue the next round begins,
or the walk is over. -/
def next (source : Schema) (mode : Mode) (c : Stage) : Stage :=
  match c.ahead, c.held, c.work.pending, c.rounds with
  | name :: ahead, _, _, _ => c.meet source name ahead
  | [], some (name, definition), _, _ => c.fill name definition
  | [], none, name :: pending, _ => c.take source mode name pending
  | [], none, [], names :: rounds => { c with ahead := names, rounds := rounds }
  | [], none, [], [] => c

/-- The start (`convert_schema`): the root types are to be met first, then all that is registered. -/
def start (source : Schema) : Stage where
  work := .empty
  held := none
  ahead := []
  rounds := [source.roots.toList.map Prod.snd, source.types.keys]
  queued := []
  taken := []
  filled := []

/-- The stage after a number of actions. -/
def after (source : Schema) (mode : Mode) : Nat → Stage
  | 0 => start source
  | n + 1 => (after source mode n).next source mode

/-- The name of the type that is being converted, if there is one. -/
def converting (c : Stage) : List String := c.held.toList.map Prod.fst

/-- The queue has been emptied and nothing is under way. -/
structure IsDrained (c : Stage) : Prop where
  ahead : c.ahead = []
  held : c.held = none
  pending : c.work.pending = []

/-- Nothing is left to be done. -/
structure IsOver (c : Stage) : Prop extends IsDrained c where
  rounds : c.rounds = []

/-- What can be said of a stage without regard to how it was reached. -/
structure IsSound (source : Schema) (c : Stage) : Prop where
  nodup : c.work.slots.keys.Nodup
  convertible : ∀ name ∈ c.work.slots.keys, Worklist.Convertible source name
  /-- Reserved are the places of the type being converted and of those in the queue. -/
  reserved_iff : ∀ name,
    c.work.slots.find? name = some .reserved ↔ name ∈ c.converting ++ c.work.pending
  nodup_reserved : (c.converting ++ c.work.pending).Nodup
  /-- What a converted type refers to has been met. -/
  closed : ∀ name d, c.work.slots.find? name = some (.filled d) →
    ∀ reference ∈ d.references, Worklist.Convertible source reference →
      reference ∈ c.work.slots.keys
  nodup_queued : c.queued.Nodup
  nodup_taken : c.taken.Nodup
  nodup_filled : c.filled.Nodup
  /-- Where the queue has been emptied no place is reserved. -/
  settled : c.IsDrained → ∀ name, c.work.slots.find? name ≠ some .reserved

/-! ### Equations -/

variable {source : Schema} {mode : Mode} {c : Stage} {name : String} {definition : TypeDefinition Field}
  {ahead pending names : List String} {rounds : List (List String)}

theorem next_of_ahead (hahead : c.ahead = name :: ahead) :
    c.next source mode = c.meet source name ahead := by
  rw [next, hahead]

theorem next_of_held (hahead : c.ahead = []) (hheld : c.held = some (name, definition)) :
    c.next source mode = c.fill name definition := by
  rw [next, hahead, hheld]

theorem next_of_pending (hahead : c.ahead = []) (hheld : c.held = none)
    (hpending : c.work.pending = name :: pending) :
    c.next source mode = c.take source mode name pending := by
  rw [next, hahead, hheld, hpending]

theorem next_of_rounds (h : c.IsDrained) (hrounds : c.rounds = names :: rounds) :
    c.next source mode = { c with ahead := names, rounds := rounds } := by
  rw [next, h.ahead, h.held, h.pending, hrounds]

theorem next_of_isOver (h : c.IsOver) : c.next source mode = c := by
  rw [next, h.ahead, h.held, h.pending, h.rounds]

/-- There is always something to do, until the walk is over. -/
theorem cases_of_stage (c : Stage) :
    (∃ name ahead, c.ahead = name :: ahead) ∨
    (c.ahead = [] ∧ ∃ name definition, c.held = some (name, definition)) ∨
    (c.ahead = [] ∧ c.held = none ∧ ∃ name pending, c.work.pending = name :: pending) ∨
    (c.IsDrained ∧ ∃ names rounds, c.rounds = names :: rounds) ∨
    c.IsOver := by
  cases hahead : c.ahead with
  | cons name ahead => exact Or.inl ⟨name, ahead, rfl⟩
  | nil =>
    cases hheld : c.held with
    | some type => exact Or.inr (Or.inl ⟨rfl, type.1, type.2, rfl⟩)
    | none =>
      cases hpending : c.work.pending with
      | cons name pending => exact Or.inr (Or.inr (Or.inl ⟨rfl, rfl, name, pending, rfl⟩))
      | nil =>
        have hdrained : c.IsDrained := ⟨hahead, hheld, hpending⟩
        cases hrounds : c.rounds with
        | cons names rounds => exact Or.inr (Or.inr (Or.inr (Or.inl ⟨hdrained, names, rounds, rfl⟩)))
        | nil => exact Or.inr (Or.inr (Or.inr (Or.inr ⟨hdrained, hrounds⟩)))

/-! ## The invariant -/

/-- What every action keeps. -/
structure Inv (source : Schema) (mode : Mode) (c : Stage) : Prop where
  walk : Worklist.Inv source mode c.converting c.work
  held : ∀ name d, c.held = some (name, d) →
    (source.type? name).map (TypeDefinition.convert mode) = some d
  led : ∀ name d, c.held = some (name, d) →
    ∀ reference ∈ d.references, Worklist.Convertible source reference →
      reference ∈ c.ahead ∨ reference ∈ c.work.slots.keys
  closed : ∀ name d, c.work.slots.find? name = some (.filled d) →
    ∀ reference ∈ d.references, Worklist.Convertible source reference →
      reference ∈ c.work.slots.keys
  queued_eq : c.queued = c.work.slots.keys
  taken_eq : c.taken = c.filled ++ c.converting
  queued_perm : c.queued.Perm (c.taken ++ c.work.pending)

theorem inv_start (source : Schema) (mode : Mode) : Inv source mode (start source) where
  walk := Worklist.inv_empty
  held _ _ h := by cases h
  led _ _ h := by cases h
  closed _ _ h := by cases h
  queued_eq := rfl
  taken_eq := rfl
  queued_perm := .refl []

theorem converting_of_held (hheld : c.held = some (name, definition)) : c.converting = [name] := by
  rw [converting, hheld]
  rfl

theorem converting_of_none (hheld : c.held = none) : c.converting = [] := by
  rw [converting, hheld]
  rfl

/-- Meeting a name keeps the invariant: if it is convertible, it has been met then. -/
theorem inv_meet (h : Inv source mode c) (hahead : c.ahead = name :: ahead) :
    Inv source mode (c.meet source name ahead) where
  walk := Worklist.inv_visit h.walk name
  held := h.held
  led k d hk reference href hconv := by
    rcases h.led k d hk reference href hconv with hmem | hmem
    · rw [hahead] at hmem
      rcases List.mem_cons.1 hmem with rfl | hmem
      · exact Or.inr (Worklist.mem_keys_visit.2 (Or.inr ⟨rfl, hconv⟩))
      · exact Or.inl hmem
    · exact Or.inr (Worklist.mem_keys_visit.2 (Or.inl hmem))
  closed k d hk reference href hconv := by
    have hmem := h.closed k d (Worklist.find?_of_visit_filled hk) reference href hconv
    exact Worklist.mem_keys_visit.2 (Or.inl hmem)
  queued_eq := by
    rw [meet, Worklist.keys_visit, h.queued_eq]
  taken_eq := h.taken_eq
  queued_perm := by
    simp only [meet, Worklist.visit]
    split
    -- the name comes last among the queued ones and first in the queue
    · have hperm := h.queued_perm.append_right [name]
      rw [List.append_assoc] at hperm
      exact hperm.trans (List.Perm.append_left _ (List.perm_append_singleton name _))
    · exact h.queued_perm

/-- Filling a place keeps the invariant: nothing is ahead, so all that the type leads to has been
met. -/
theorem inv_fill (h : Inv source mode c) (hahead : c.ahead = [])
    (hheld : c.held = some (name, definition)) : Inv source mode (c.fill name definition) := by
  have hwalk := h.walk
  have htaken := h.taken_eq
  rw [converting_of_held hheld] at hwalk htaken
  obtain ⟨registered, hregistered, hconvert⟩ := Option.map_eq_some_iff.1 (h.held name definition hheld)
  have hmet : name ∈ c.work.slots.keys := hwalk.met List.mem_cons_self
  have hkeys : (c.fill name definition).work.slots.keys = c.work.slots.keys := by
    rw [fill, Registry.keys_insert, if_pos hmet]
  have hled : ∀ reference ∈ definition.references, Worklist.Convertible source reference →
      reference ∈ c.work.slots.keys := by
    intro reference href hconv
    refine (h.led name definition hheld reference href hconv).resolve_left ?_
    rw [hahead]
    exact List.not_mem_nil
  refine ⟨?_, ?_, ?_, ?_, ?_, ?_, h.queued_perm⟩
  · -- walk
    subst hconvert
    exact Worklist.inv_fill hwalk hregistered
  · -- held
    intro _ _ hnone
    cases hnone
  · -- led
    intro _ _ hnone
    cases hnone
  · -- closed: the place is the one just filled, or was filled before
    intro k d hk
    rw [fill, Registry.find?_insert] at hk
    rw [hkeys]
    split at hk
    · cases hk
      exact hled
    · exact h.closed k d hk
  · -- queued_eq
    rw [hkeys]
    exact h.queued_eq
  · -- taken_eq
    rw [converting_of_none rfl, List.append_nil]
    exact htaken

/-- Taking a name from the queue keeps the invariant: the name is registered, and what its type leads
to is ahead. -/
theorem inv_take (h : Inv source mode c) (hheld : c.held = none)
    (hpending : c.work.pending = name :: pending) :
    Inv source mode (c.take source mode name pending) := by
  have hwalk : Worklist.Inv source mode [] ⟨c.work.slots, name :: pending⟩ := by
    rw [← hpending, ← converting_of_none hheld]
    exact h.walk
  have htaken := h.taken_eq
  rw [converting_of_none hheld, List.append_nil] at htaken
  have hperm := h.queued_perm
  rw [hpending] at hperm
  obtain ⟨registered, htype⟩ := hwalk.exists_type? List.mem_cons_self
  simp only [take, htype]
  refine ⟨Worklist.inv_taken hwalk, ?_, ?_, h.closed, h.queued_eq, ?_, ?_⟩
  · -- held
    intro k d hk
    cases hk
    rw [htype]
    rfl
  · -- led
    intro k d hk reference href _
    cases hk
    exact Or.inl href
  · -- taken_eq
    rw [htaken]
    rfl
  · -- queued_perm
    rw [List.append_assoc]
    exact hperm

/-- **Every action keeps the invariant.** -/
theorem inv_next (h : Inv source mode c) : Inv source mode (c.next source mode) := by
  rcases cases_of_stage c with ⟨name, ahead, hahead⟩ | ⟨hahead, name, definition, hheld⟩ |
    ⟨hahead, hheld, name, pending, hpending⟩ | ⟨hdrained, names, rounds, hrounds⟩ | hover
  · rw [next_of_ahead hahead]
    exact inv_meet h hahead
  · rw [next_of_held hahead hheld]
    exact inv_fill h hahead hheld
  · rw [next_of_pending hahead hheld hpending]
    exact inv_take h hheld hpending
  · rw [next_of_rounds hdrained hrounds]
    refine ⟨h.walk, h.held, fun k d hk => ?_, h.closed, h.queued_eq, h.taken_eq, h.queued_perm⟩
    rw [hdrained.held] at hk
    cases hk
  · rwa [next_of_isOver hover]

theorem inv_after (source : Schema) (mode : Mode) : ∀ n, Inv source mode (after source mode n)
  | 0 => inv_start source mode
  | n + 1 => inv_next (inv_after source mode n)

theorem Inv.isSound (h : Inv source mode c) : c.IsSound source := by
  have hqueued : c.queued.Nodup := by
    rw [h.queued_eq]
    exact Registry.keys_nodup _
  have htaken : c.taken.Nodup := (List.nodup_append.1 (h.queued_perm.nodup_iff.1 hqueued)).1
  refine ⟨Registry.keys_nodup _, h.walk.convertible, h.walk.reserved_iff, h.walk.nodup, h.closed,
    hqueued, htaken, ?_, ?_⟩
  · -- nodup_filled
    rw [h.taken_eq] at htaken
    exact (List.nodup_append.1 htaken).1
  · -- settled
    intro hdrained k hk
    have hmem := (h.walk.reserved_iff k).1 hk
    rw [converting_of_none hdrained.held, hdrained.pending] at hmem
    cases hmem

/-! ## The run -/

def Reached (source : Schema) (mode : Mode) (c : Stage) : Prop := ∃ n, after source mode n = c

theorem Reached.next (h : Reached source mode c) : Reached source mode (c.next source mode) := by
  obtain ⟨n, rfl⟩ := h
  exact ⟨n + 1, rfl⟩

/-- A stage at which no type is being converted, with its worklist and the rounds to come. -/
structure IsIdle (c : Stage) (w : Worklist) (rounds : List (List String)) : Prop where
  ahead : c.ahead = []
  held : c.held = none
  work : c.work = w
  rounds : c.rounds = rounds

variable {w : Worklist} {slots : Registry Slot}

theorem IsIdle.isDrained (h : c.IsIdle w rounds) (hpending : w.pending = []) : c.IsDrained :=
  ⟨h.ahead, h.held, by rw [h.work, hpending]⟩

/-- What is ahead is met, one name after the other. -/
theorem exists_met (h : Reached source mode c) (hahead : c.ahead = names) :
    ∃ c', Reached source mode c' ∧ c'.ahead = [] ∧ c'.held = c.held ∧
      c'.work = c.work.visitAll source names ∧ c'.rounds = c.rounds := by
  induction names generalizing c with
  | nil => exact ⟨c, h, hahead, rfl, rfl, rfl⟩
  | cons name ahead ih =>
    have hnext := h.next
    rw [next_of_ahead hahead] at hnext
    exact ih hnext rfl

/-- A queued type is converted in the end. -/
theorem exists_converted (h : Reached source mode c) (hidle : c.IsIdle ⟨slots, name :: pending⟩ rounds) :
    ∃ c', Reached source mode c' ∧
      c'.IsIdle (Worklist.convertType source mode ⟨slots, pending⟩ name) rounds := by
  have hslots : c.work.slots = slots := by rw [hidle.work]
  have htake := h.next
  rw [next_of_pending hidle.ahead hidle.held (by rw [hidle.work])] at htake
  cases htype : source.type? name with
  | none =>
    simp only [take, htype, hslots] at htake
    refine ⟨_, htake, hidle.ahead, hidle.held, ?_, hidle.rounds⟩
    rw [Worklist.convertType, htype]
  | some definition =>
    simp only [take, htype, hslots] at htake
    obtain ⟨c', hc', hahead, hheld, hwork, hrounds⟩ := exists_met htake rfl
    have hfill := hc'.next
    rw [next_of_held hahead hheld] at hfill
    refine ⟨_, hfill, hahead, rfl, ?_, hrounds.trans hidle.rounds⟩
    rw [Worklist.convertType, htype, fill, hwork]

/-- The queue is emptied. -/
theorem exists_drained (w : Worklist) (h : Reached source mode c) (hidle : c.IsIdle w rounds) :
    ∃ c', Reached source mode c' ∧ c'.IsIdle (w.drain source mode) rounds := by
  induction w using Worklist.drain.induct source mode generalizing c with
  | case1 slots =>
    rw [Worklist.drain]
    exact ⟨c, h, hidle⟩
  | case2 slots name pending ih =>
    obtain ⟨c', hc', hidle'⟩ := exists_converted h hidle
    rw [Worklist.drain]
    exact ih hc' hidle'

/-- A round meets its names and empties the queue. -/
theorem exists_round (h : Reached source mode c) (hidle : c.IsIdle w (names :: rounds))
    (hpending : w.pending = []) :
    ∃ c', Reached source mode c' ∧ c'.IsIdle ((w.visitAll source names).drain source mode) rounds := by
  have hbegin := h.next
  rw [next_of_rounds (hidle.isDrained hpending) hidle.rounds] at hbegin
  obtain ⟨c', hc', hahead, hheld, hwork, hrounds⟩ := exists_met hbegin rfl
  refine exists_drained _ hc' ⟨hahead, hheld.trans hidle.held, ?_, hrounds⟩
  rw [hwork, hidle.work]

/-- The first round ends with what the root types lead to. -/
theorem exists_reachedFromRoots (source : Schema) (mode : Mode) :
    ∃ c, Reached source mode c ∧
      c.IsIdle ((Worklist.empty.visitAll source (source.roots.toList.map Prod.snd)).drain source mode)
        [source.types.keys] := by
  have hstart : Reached source mode (start source) := ⟨0, rfl⟩
  exact exists_round hstart ⟨rfl, rfl, rfl, rfl⟩ rfl

/-- **The walk ends**, with the worklist that the conversion of a schema computes. -/
theorem exists_isOver (source : Schema) (mode : Mode) :
    ∃ n, (after source mode n).IsOver ∧
      (after source mode n).work = Worklist.complete source mode := by
  obtain ⟨c, hc, hidle⟩ := exists_reachedFromRoots source mode
  obtain ⟨_, ⟨n, rfl⟩, hdone⟩ := exists_round hc hidle (Worklist.pending_drain source mode _)
  exact ⟨n, ⟨hdone.isDrained (Worklist.pending_drain source mode _), hdone.rounds⟩, hdone.work⟩

theorem after_of_isOver {n m : Nat} (h : (after source mode n).IsOver) (hm : n ≤ m) :
    after source mode m = after source mode n := by
  obtain ⟨k, rfl⟩ := Nat.exists_eq_add_of_le hm
  induction k with
  | zero => rfl
  | succ k ih => rw [← Nat.add_assoc, after, ih (Nat.le_add_right n k), next_of_isOver h]

/-- In the end the names that were taken are the convertible ones. -/
theorem taken_perm (h : Inv source mode c) (hdrained : c.IsDrained)
    (hwork : c.work = Worklist.complete source mode) :
    c.taken.Perm (source.types.keys.filter fun key => !isIntrospectionName key) := by
  have htaken : c.work.slots.keys.Perm c.taken := by
    have hperm := h.queued_perm
    rwa [hdrained.pending, List.append_nil, h.queued_eq] at hperm
  refine htaken.symm.trans ?_
  rw [List.perm_ext_iff_of_nodup (Registry.keys_nodup _)
    ((Registry.keys_nodup _).sublist List.filter_sublist)]
  intro key
  rw [hwork, Worklist.mem_keys_complete, List.mem_filter, Bool.not_eq_true']
  exact Iff.rfl

/-- **The walk is sound and ends.** At every stage the names that have been met are registered ones
outside of introspection, each once; the reserved places are those of the names in the queue and of
the one being converted, each once; what a converted type refers to has been met, if it can be
converted; and no name has been queued, taken or filled twice. The walk passes through the first
emptying of the queue and comes to an end, where it stays. In the end as many names have been taken as
there are registered ones outside of introspection, none of them is left out of what is converted,
and that is what the converted schema is assembled from. -/
theorem walk_isSound (source : Schema) (mode : Mode) :
    (∀ n, (after source mode n).IsSound source) ∧
    (∃ k, (after source mode k).IsDrained ∧
      (after source mode k).work =
        (Worklist.empty.visitAll source (source.roots.toList.map Prod.snd)).drain source mode) ∧
    ∃ n, (after source mode n).IsOver ∧
      (∀ m, n ≤ m → after source mode m = after source mode n) ∧
      (after source mode n).taken.length =
        (source.types.keys.filter fun key => !isIntrospectionName key).length ∧
      (after source mode n).work.finish.keys = (after source mode n).work.slots.keys ∧
      source.convert mode = source.assemble (after source mode n).work.finish := by
  refine ⟨fun n => (inv_after source mode n).isSound, ?_, ?_⟩
  · obtain ⟨_, ⟨k, rfl⟩, hidle⟩ := exists_reachedFromRoots source mode
    exact ⟨k, hidle.isDrained (Worklist.pending_drain source mode _), hidle.work⟩
  · obtain ⟨n, hover, hwork⟩ := exists_isOver source mode
    have hinv := inv_after source mode n
    refine ⟨n, hover, fun m hm => after_of_isOver hover hm, ?_, ?_, ?_⟩
    · exact (taken_perm hinv hover.toIsDrained hwork).length_eq
    · exact Worklist.keys_finish (hinv.isSound.settled hover.toIsDrained)
    · rw [hwork]
      exact Worklist.convert_eq_assemble source mode

end Stage

end SemanticNullability
