import Mathlib.Tactic.SplitIfs
import SemanticNullability.Directory
import SemanticNullability.Proofs.Registry
import SemanticNullability.Proofs.Sequence
/-!
# File systems

`FileAccess` leaves open what reading and writing do. A `FileSystem` has states, in which files hold
something and paths can be read and written. What a program may rely on when it writes is
`FileSystem.Replaces`: a write replaces the file that its path names, or fails and changes nothing.
The directory in memory is a file system, and so are all its paths but those to the null device
(`Directory.replaces`).
-/
namespace SemanticNullability

structure FileSystem where
  State : Type
  File : Type
  /-- The file that a path names, whether it exists or not. -/
  file : String → File
  /-- What a file holds, if it exists. -/
  content : State → File → Option ByteArray
  read : State → String → ReadResult
  write : State → String → String → Except SystemError Unit × State

namespace FileSystem

variable (fs : FileSystem)

/-- How a program reaches the files. -/
def access : FileAccess (StateM fs.State) where
  read path := do return fs.read (← get) path
  write path text := do
    let (result, after) := fs.write (← get) path text
    set after
    return result

@[simp] theorem run_read (path : String) (st : fs.State) :
    (fs.access.read path).run st = (fs.read st path, st) := rfl

@[simp] theorem run_write (path text : String) (st : fs.State) :
    (fs.access.write path text).run st = fs.write st path text := rfl

/-- A write to a path replaces the file that the path names and no other, or it fails and changes
none. -/
structure Replaces (path : String) : Prop where
  named : ∀ {st text after}, fs.write st path text = (.ok (), after) →
    fs.content after (fs.file path) = some text.toUTF8
  others : ∀ {st text after}, fs.write st path text = (.ok (), after) →
    ∀ file, file ≠ fs.file path → fs.content after file = fs.content st file
  failed : ∀ {st text error after}, fs.write st path text = (.error error, after) →
    ∀ file, fs.content after file = fs.content st file

/-- A write to a path that reports an error has changed no file. -/
def FailsCleanly (path : String) : Prop :=
  ∀ {st text error after}, fs.write st path text = (.error error, after) →
    ∀ file, fs.content after file = fs.content st file

/-- The schema that a source gives in a state. -/
def load (st : fs.State) (source : String) : Except LoadError Schema :=
  if isUrl source then .error (.fileNotFound source)
  else Schema.ofReadResult source (fs.read st source)

/-- Loading reads and changes nothing. -/
theorem run_load (source : String) (st : fs.State) :
    (Schema.load fs.access source).run st = (fs.load st source, st) := by
  unfold Schema.load load
  split
  · rfl
  · rw [StateT.run_bind, run_read]
    rfl

theorem run_load_bind {α : Type} (source : String) (st : fs.State)
    (next : Except LoadError Schema → StateM fs.State α) :
    (Schema.load fs.access source >>= next).run st = (next (fs.load st source)).run st := by
  rw [StateT.run_bind, run_load]
  rfl

end FileSystem

/-! ## The directory in memory -/

namespace Directory

/-- The place that a component leads to, if it stands in a directory. -/
def follow (place : Place) (component : String) : Place :=
  if component = "." then place
  else if component = ".." then place.up
  else place.child component

/-- The place that a path leads to, if it leads anywhere. -/
def placeOf (path : String) : Place :=
  ((components path.toList).filter (!·.isEmpty)).foldl (fun p c => follow p (String.ofList c))
    (start path.toList)

theorem step_eq_ok {d : Directory} {place next : Place} {component : String}
    (h : d.step place component = .ok next) : next = follow place component := by
  unfold step at h
  obtain ⟨node, -, h⟩ := bind_eq_ok_iff.1 h
  cases node <;> simp only [reduceCtorEq] at h
  unfold follow
  split_ifs at h ⊢ <;> exact (Except.ok.inj h).symm

theorem foldlM_step_eq_ok {d : Directory} {cs : List (List Char)} {origin place : Place}
    (h : cs.foldlM (fun p c => d.step p (String.ofList c)) origin = .ok place) :
    place = cs.foldl (fun p c => follow p (String.ofList c)) origin := by
  induction cs generalizing origin with
  | nil => exact (Except.ok.inj h).symm
  | cons c cs ih =>
    obtain ⟨next, hstep, hrest⟩ := foldlM_cons_eq_ok_iff.1 h
    rw [List.foldl_cons, ← step_eq_ok hstep]
    exact ih hrest

/-- Which place a path leads to does not depend on the directory, only whether it leads there. -/
theorem resolve_eq_ok {d : Directory} {path : String} {place : Place}
    (h : d.resolve path = .ok place) : place = placeOf path := by
  unfold resolve at h
  split_ifs at h
  exact foldlM_step_eq_ok h

def nullDevice : Place := ⟨.root, ["dev", "null"]⟩

theorem eq_nullDevice_of_outside? {place : Place} (h : outside? place = some .nullDevice) :
    place = nullDevice := by
  unfold outside? at h
  split at h
  · split_ifs at h
    cases h
  · cases h
  · split_ifs at h
    cases h
  · split_ifs at h with hnames
    rw [hnames]
    rfl

/-- What is written stays: no null device lies inside the directory. -/
def IsPlain (d : Directory) : Prop := ∀ key, d.nodes.find? key ≠ some .nullDevice

theorem isPlain_empty : empty.IsPlain := by
  intro key
  have hnone : empty.nodes.find? key = none := Registry.find?_empty key
  simp [hnone]

theorem IsPlain.put {d : Directory} (h : d.IsPlain) (place : Place) (text : String) :
    (d.put place text).IsPlain := by
  intro key
  unfold Directory.put
  rw [Registry.find?_insert]
  split_ifs
  · simp
  · exact h key

theorem IsPlain.eq_nullDevice {d : Directory} (h : d.IsPlain) {place : Place}
    (hnode : d.node place = .ok .nullDevice) : place = nullDevice := by
  unfold node at hnode
  split_ifs at hnode
  split at hnode
  · rename_i hout
    exact eq_nullDevice_of_outside? (hout.trans (congrArg some (Except.ok.inj hnode)))
  · split at hnode
    · rename_i hfind
      exact absurd (hfind.trans (congrArg some (Except.ok.inj hnode))) (h _)
    · cases hnode

/-- A write disappears in the null device or puts a file at the place of the path. -/
theorem IsPlain.write_eq_ok {d after : Directory} (h : d.IsPlain) {path text : String}
    (hwrite : d.write path text = .ok after) :
    (placeOf path = nullDevice ∧ after = d) ∨ after = d.put (placeOf path) text := by
  unfold write at hwrite
  obtain ⟨place, hplace, hwrite⟩ := bind_eq_ok_iff.1 hwrite
  rw [← resolve_eq_ok hplace]
  split_ifs at hwrite
  split at hwrite
  · cases hwrite
  · rename_i hnode
    exact .inl ⟨h.eq_nullDevice hnode, (Except.ok.inj hwrite).symm⟩
  · exact .inr (Except.ok.inj hwrite).symm
  · exact .inr (Except.ok.inj hwrite).symm
  · cases hwrite

theorem IsPlain.write {d after : Directory} (h : d.IsPlain) {path text : String}
    (hwrite : d.write path text = .ok after) : after.IsPlain := by
  rcases h.write_eq_ok hwrite with ⟨-, rfl⟩ | rfl
  · exact h
  · exact h.put _ _

def bytesOf (d : Directory) (name : String) : Option ByteArray :=
  match d.nodes.find? name with
  | some (.file bytes) => some bytes
  | _ => none

theorem bytesOf_put (d : Directory) (place : Place) (text name : String) :
    (d.put place text).bytesOf name =
      if name = place.path then some text.toUTF8 else d.bytesOf name := by
  unfold bytesOf put
  rw [Registry.find?_insert]
  split_ifs <;> rfl

/-- The directories that hold what is written to them. -/
abbrev Plain : Type := { d : Directory // d.IsPlain }

/-- The directory with one file in it. -/
def Plain.ofFile (name text : String) : Plain :=
  ⟨empty.put ⟨.workingDirectory, [name]⟩ text, isPlain_empty.put _ _⟩

def Plain.write (d : Plain) (path text : String) : Except SystemError Unit × Plain :=
  match h : d.1.write path text with
  | .ok after => (.ok (), ⟨after, d.2.write h⟩)
  | .error e => (.error e, d)

theorem Plain.write_cases (d : Plain) (path text : String) :
    (∃ after : Plain, d.1.write path text = .ok after.1 ∧ d.write path text = (.ok (), after)) ∨
      ∃ e, d.1.write path text = .error e ∧ d.write path text = (.error e, d) := by
  unfold Plain.write
  split
  · rename_i after h
    exact .inl ⟨⟨after, d.2.write h⟩, h, rfl⟩
  · rename_i e h
    exact .inr ⟨e, h, rfl⟩

/-- The directories as a file system. A file is known by the name of its place. -/
abbrev fileSystem : FileSystem where
  State := Plain
  File := String
  file path := (placeOf path).path
  content d name := d.1.bytesOf name
  read d path := d.1.read path
  write := Plain.write

/-- The file system does what `access` does. -/
theorem run_access_eq (d : Plain) (path text : String) :
    ((fileSystem.access.read path).run d).map id Subtype.val = (access.read path).run d.1 ∧
      ((fileSystem.access.write path text).run d).map id Subtype.val =
        (access.write path text).run d.1 := by
  refine ⟨rfl, ?_⟩
  rw [FileSystem.run_write]
  simp only [access, StateT.run_bind, StateT.run_get, pure_bind]
  rcases d.write_cases path text with ⟨after, h, hwrite⟩ | ⟨e, h, hwrite⟩ <;>
    rw [h, hwrite] <;> rfl

/-- No write to the directory fails half-way, be it to the null device. -/
theorem failsCleanly (path : String) : fileSystem.FailsCleanly path := by
  intro d text e after hwrite name
  rcases d.write_cases path text with ⟨after', -, h'⟩ | ⟨e', -, h'⟩
  · cases hwrite.symm.trans h'
  · cases hwrite.symm.trans h'
    rfl

/-- **Writing in the directory.** A write to any path but one to the null device replaces the file
that the path names, or it changes nothing. -/
theorem replaces {path : String} (hpath : placeOf path ≠ nullDevice) :
    fileSystem.Replaces path := by
  have put : ∀ {d after : Plain} {text : String}, d.write path text = (.ok (), after) →
      after.1 = d.1.put (placeOf path) text := by
    intro d after text hwrite
    rcases d.write_cases path text with ⟨after', h, h'⟩ | ⟨e, -, h'⟩
    · cases hwrite.symm.trans h'
      rcases d.2.write_eq_ok h with ⟨hnull, -⟩ | hput
      · exact absurd hnull hpath
      · exact hput
    · cases hwrite.symm.trans h'
  constructor
  case named =>
    intro d text after hwrite
    show after.1.bytesOf (placeOf path).path = some text.toUTF8
    rw [put hwrite, bytesOf_put, if_pos rfl]
  case others =>
    intro d text after hwrite name hname
    show after.1.bytesOf name = d.1.bytesOf name
    rw [put hwrite, bytesOf_put, if_neg hname]
  case failed => exact failsCleanly path

end Directory

end SemanticNullability
