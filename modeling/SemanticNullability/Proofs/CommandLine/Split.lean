import SemanticNullability.Proofs.CommandLine.Verdict
/-!
# The files that a split leaves

A split of a valid source leaves in its two files what two conversions of the source print before
it, whether or not one of the files is the source or both are one. If a write fails, the split ends
there: `split_leaves`.
-/
namespace SemanticNullability.CommandLine

variable {fs : FileSystem} {st : fs.State} {source : String}

theorem run_writeOutput_ok {path text : String} {after : fs.State}
    (h : fs.write st path text = (.ok (), after)) :
    (writeOutput fs.access path text).run st = (.success "", after) := by
  unfold writeOutput
  rw [StateT.run_bind, FileSystem.run_write, h]
  rfl

theorem run_writeOutput_error {path text : String} {e : SystemError} {after : fs.State}
    (h : fs.write st path text = (.error e, after)) :
    (writeOutput fs.access path text).run st =
      (.failure writeExitCode ("Error writing to " ++ path ++ ": " ++ e.message ++ "\n"),
        after) := by
  unfold writeOutput
  rw [StateT.run_bind, FileSystem.run_write, h]
  rfl

theorem splitTexts_eq (schema : Schema) :
    splitTexts schema = .ok (printed schema .strict, printed schema .nullable) := by
  unfold splitTexts
  rw [convertedText_eq, convertedText_eq]
  rfl

/-- A split of a valid source is a write of the strict text and, if that succeeds, one of the
nullable text. -/
theorem run_runSplit {schema : Schema} (hload : fs.load st source = .ok schema)
    (hcheck : schema.problems = []) (strictOutput nullableOutput : String) :
    (runSplit fs.access source strictOutput nullableOutput).run st =
      (writeOutput fs.access strictOutput (printed schema .strict) >>= fun outcome =>
        if outcome.exitCode = 0 then
          writeOutput fs.access nullableOutput (printed schema .nullable)
        else pure outcome).run st := by
  have htexts : (acceptSchema (.ok schema) >>= splitTexts) =
      .ok (printed schema .strict, printed schema .nullable) := by
    rw [acceptSchema_of_valid hcheck]
    exact splitTexts_eq schema
  unfold runSplit
  rw [FileSystem.run_load_bind, hload, htexts]

section

variable {schema : Schema} {strictOutput nullableOutput : String} {between after : fs.State}
  {e : SystemError}

/-- Behind the strict file the nullable one is written. -/
theorem run_runSplit_of_ok (hload : fs.load st source = .ok schema) (hcheck : schema.problems = [])
    (hwrite : fs.write st strictOutput (printed schema .strict) = (.ok (), between)) :
    (runSplit fs.access source strictOutput nullableOutput).run st =
      (writeOutput fs.access nullableOutput (printed schema .nullable)).run between := by
  rw [run_runSplit hload hcheck, StateT.run_bind, run_writeOutput_ok hwrite]
  rfl

/-- Without the strict file the nullable one is not written. -/
theorem run_runSplit_of_error (hload : fs.load st source = .ok schema)
    (hcheck : schema.problems = [])
    (hwrite : fs.write st strictOutput (printed schema .strict) = (.error e, after)) :
    (runSplit fs.access source strictOutput nullableOutput).run st =
      (writeOutput fs.access strictOutput (printed schema .strict)).run st := by
  rw [run_runSplit hload hcheck, StateT.run_bind, run_writeOutput_error hwrite]
  rfl

end

theorem stdout_conversionOf {schema : Schema} (hload : fs.load st source = .ok schema)
    (hcheck : schema.problems = []) (mode : Mode) :
    (conversionOf fs st source mode).stdout = printed schema mode := by
  rw [conversionOf_eq, hload, conversionOutcome, if_pos hcheck, Outcome.success]

/-- **A split is two conversions.** The strict file gets the text that a strict conversion prints
before the split, the nullable one the text of a nullable conversion, which comes last if the two are
one file, and no other file changes. If the strict file cannot be written nothing changes, and if
only the nullable one cannot be written nothing but the strict one does. -/
theorem split_leaves (fs : FileSystem) (st : fs.State) (source strictOutput nullableOutput : String)
    (hstrict : fs.Replaces strictOutput) (hnullable : fs.Replaces nullableOutput)
    (hvalid : Verdict fs st source 0) :
    let strict := (conversionOf fs st source .strict).stdout
    let nullable := (conversionOf fs st source .nullable).stdout
    let result := (runSplit fs.access source strictOutput nullableOutput).run st
    (∀ between last, fs.write st strictOutput strict = (.ok (), between) →
      fs.write between nullableOutput nullable = (.ok (), last) →
      result.1.exitCode = 0 ∧
        fs.content result.2 (fs.file nullableOutput) = some nullable.toUTF8 ∧
        (fs.file strictOutput ≠ fs.file nullableOutput →
          fs.content result.2 (fs.file strictOutput) = some strict.toUTF8) ∧
        ∀ file, file ≠ fs.file strictOutput → file ≠ fs.file nullableOutput →
          fs.content result.2 file = fs.content st file) ∧
    (∀ e last, fs.write st strictOutput strict = (.error e, last) →
      result.1.exitCode = 3 ∧ ∀ file, fs.content result.2 file = fs.content st file) ∧
    (∀ between e last, fs.write st strictOutput strict = (.ok (), between) →
      fs.write between nullableOutput nullable = (.error e, last) →
      result.1.exitCode = 3 ∧
        fs.content result.2 (fs.file strictOutput) = some strict.toUTF8 ∧
        ∀ file, file ≠ fs.file strictOutput →
          fs.content result.2 file = fs.content st file) := by
  obtain ⟨schema, hload, hcheck⟩ := load_of_exitCodeOf_zero (exitCodeOf_eq_iff.2 hvalid)
  rw [stdout_conversionOf hload hcheck, stdout_conversionOf hload hcheck]
  intro strict nullable result
  refine ⟨?bothWritten, ?noneWritten, ?strictWritten⟩
  case bothWritten =>
    intro between last hfirst hsecond
    have hresult : result = (.success "", last) :=
      (run_runSplit_of_ok hload hcheck hfirst).trans (run_writeOutput_ok hsecond)
    rw [hresult]
    refine ⟨rfl, hnullable.named hsecond, fun hne => ?_, fun file hfirstNe hsecondNe => ?_⟩
    · exact (hnullable.others hsecond _ hne).trans (hstrict.named hfirst)
    · exact (hnullable.others hsecond file hsecondNe).trans (hstrict.others hfirst file hfirstNe)
  case noneWritten =>
    intro e last hfirst
    have hresult : result = (.failure writeExitCode _, last) :=
      (run_runSplit_of_error hload hcheck hfirst).trans (run_writeOutput_error hfirst)
    rw [hresult]
    exact ⟨rfl, hstrict.failed hfirst⟩
  case strictWritten =>
    intro between e last hfirst hsecond
    have hresult : result = (.failure writeExitCode _, last) :=
      (run_runSplit_of_ok hload hcheck hfirst).trans (run_writeOutput_error hsecond)
    rw [hresult]
    refine ⟨rfl, (hnullable.failed hsecond _).trans (hstrict.named hfirst), fun file hne => ?_⟩
    exact (hnullable.failed hsecond file).trans (hstrict.others hfirst file hne)

/-- A field that is marked, so that the two texts differ. -/
def markedField : String :=
  "directive @semanticNonNull on FIELD_DEFINITION type Query \x7b a: Int @semanticNonNull \x7d"

/-- The strict file is the source by another path. The nullable file can be written, or it would lie
in a directory that does not exist. -/
theorem split_leaves_overSource :
    let fs := Directory.fileSystem
    let st := Directory.Plain.ofFile "schema.graphql" markedField
    let result := (runSplit fs.access "schema.graphql" "./schema.graphql" "nullable.graphql").run st
    let half := (runSplit fs.access "schema.graphql" "./schema.graphql" "no/nullable.graphql").run st
    (fs.Replaces "./schema.graphql" ∧ fs.Replaces "nullable.graphql" ∧
      fs.Replaces "no/nullable.graphql" ∧ Verdict fs st "schema.graphql" 0) ∧
      (result.1.exitCode = 0 ∧
        fs.content result.2 "schema.graphql" = some "type Query \x7b\n  a: Int!\n\x7d\n".toUTF8 ∧
        fs.content result.2 "nullable.graphql" =
          some "type Query \x7b\n  a: Int\n\x7d\n".toUTF8) ∧
      half.1.exitCode = 3 ∧
      fs.content half.2 "schema.graphql" =
        some "type Query \x7b\n  a: Int!\n\x7d\n".toUTF8 := by
  intro fs st result half
  have htext : Schema.textPasses markedField (fun s => s.problems.isEmpty &&
      printed s .strict == "type Query \x7b\n  a: Int!\n\x7d\n" &&
      printed s .nullable == "type Query \x7b\n  a: Int\n\x7d\n") = true := by
    decide +kernel
  obtain ⟨schema, hload, htest⟩ := Schema.exists_of_textPasses htext
  simp only [Bool.and_eq_true, List.isEmpty_iff, beq_iff_eq] at htest
  obtain ⟨⟨hcheck, hstrict⟩, hnullable⟩ := htest
  have hold : Holds fs st "schema.graphql" markedField :=
    ⟨by decide, _, rfl, fromUTF8?_toUTF8 _⟩
  have hvalid : Verdict fs st "schema.graphql" 0 := .valid hold hload hcheck
  have hfirst : fs.Replaces "./schema.graphql" := Directory.replaces (by decide)
  have hsecond : fs.Replaces "nullable.graphql" := Directory.replaces (by decide)
  have hastray : fs.Replaces "no/nullable.graphql" := Directory.replaces (by decide)
  have hprinted := stdout_conversionOf ((load_of_holds hold).trans hload) hcheck
  obtain ⟨hboth, -, -⟩ := split_leaves fs st "schema.graphql" "./schema.graphql" "nullable.graphql"
    hfirst hsecond hvalid
  obtain ⟨hcode, hlast, hother, -⟩ := hboth _ _ rfl rfl
  rw [hprinted, hnullable] at hlast
  rw [hprinted, hstrict] at hother
  obtain ⟨-, -, hone⟩ := split_leaves fs st "schema.graphql" "./schema.graphql"
    "no/nullable.graphql" hfirst hastray hvalid
  obtain ⟨hhalf, honly, -⟩ := hone _ _ _ rfl rfl
  rw [hprinted, hstrict] at honly
  exact ⟨⟨hfirst, hsecond, hastray, hvalid⟩, ⟨hcode, hother (by decide), hlast⟩, hhalf, honly⟩

end SemanticNullability.CommandLine
