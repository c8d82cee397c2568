import SemanticNullability.Proofs.CommandLine.Split
/-!
# Rejected sources

A command that gives up before it writes leaves everything as it was. That is so for every source
without a valid schema, since a conversion and a split judge the source before they look at their
outputs, and for a conversion to a file also if the file cannot be written, since it has only one to
write: `rejected_leavesNoTrace`. A split can fail with one of its files written; what it leaves then
is in `split_leaves`.
-/
namespace SemanticNullability.CommandLine

variable {fs : FileSystem} {st : fs.State} {source : String}

/-- A run from `st` fails, and nothing is there to show for it: no output and no change of a file. -/
structure LeavesNoTrace (fs : FileSystem) (st : fs.State) (command : StateM fs.State Outcome) :
    Prop where
  fails : (command.run st).1.exitCode ≠ 0
  silent : (command.run st).1.stdout = ""
  unchanged : ∀ file, fs.content (command.run st).2 file = fs.content st file

/-- A failure prints to the other stream. -/
theorem LeavesNoTrace.of_run_eq {command : StateM fs.State Outcome} {code : UInt8}
    {message : String} {after : fs.State}
    (hrun : command.run st = (.failure code message, after)) (hcode : code ≠ 0)
    (hafter : ∀ file, fs.content after file = fs.content st file) : LeavesNoTrace fs st command where
  fails := by rw [hrun]; exact hcode
  silent := by rw [hrun]; rfl
  unchanged := by rw [hrun]; exact hafter

theorem exitCode_loadError_ne_zero (e : LoadError) : e.exitCode ≠ 0 := by
  cases e <;> simp [LoadError.exitCode]

/-- A source without a valid schema is refused with a failure. -/
theorem acceptSchema_of_rejected (h : ¬Verdict fs st source 0) :
    ∃ code message, code ≠ 0 ∧
      acceptSchema (fs.load st source) = .error (.failure code message) := by
  cases hload : fs.load st source with
  | error e => exact ⟨_, _, exitCode_loadError_ne_zero e, rfl⟩
  | ok schema =>
    have hcheck : schema.problems ≠ [] := by
      intro hcheck
      refine h (exitCodeOf_eq_iff.1 ?_)
      rw [hload, exitCodeOf, if_pos hcheck]
    exact ⟨_, _, by decide, acceptSchema_of_invalid hcheck⟩

/-! ## Refusal of the source -/

theorem runConvert_leavesNoTrace (h : ¬Verdict fs st source 0) (mode : Mode)
    (output : Option String) : LeavesNoTrace fs st (runConvert fs.access mode source output) := by
  obtain ⟨code, message, hcode, hrefused⟩ := acceptSchema_of_rejected h
  have hrun : (runConvert fs.access mode source output).run st = (.failure code message, st) := by
    unfold runConvert
    rw [FileSystem.run_load_bind, hrefused]
    rfl
  exact .of_run_eq hrun hcode fun _ => rfl

theorem runSplit_leavesNoTrace (h : ¬Verdict fs st source 0)
    (strictOutput nullableOutput : String) :
    LeavesNoTrace fs st (runSplit fs.access source strictOutput nullableOutput) := by
  obtain ⟨code, message, hcode, hrefused⟩ := acceptSchema_of_rejected h
  have hrun : (runSplit fs.access source strictOutput nullableOutput).run st =
      (.failure code message, st) := by
    unfold runSplit
    rw [FileSystem.run_load_bind, hrefused]
    rfl
  exact .of_run_eq hrun hcode fun _ => rfl

/-! ## Refusal of the output -/

/-- A conversion of a valid source to a file is one write. -/
theorem run_runConvert_of_valid {schema : Schema} (hload : fs.load st source = .ok schema)
    (hcheck : schema.problems = []) (mode : Mode) (path : String) :
    (runConvert fs.access mode source (some path)).run st =
      (writeOutput fs.access path (printed schema mode)).run st := by
  unfold runConvert
  rw [FileSystem.run_load_bind, hload, convertedText_of_valid hcheck]

theorem runConvert_leavesNoTrace_of_fails {path : String} (hclean : fs.FailsCleanly path)
    {mode : Mode} (hfails : ((runConvert fs.access mode source (some path)).run st).1.exitCode ≠ 0) :
    LeavesNoTrace fs st (runConvert fs.access mode source (some path)) := by
  by_cases hvalid : Verdict fs st source 0
  · obtain ⟨schema, hload, hcheck⟩ := load_of_exitCodeOf_zero (exitCodeOf_eq_iff.2 hvalid)
    have hrun := run_runConvert_of_valid hload hcheck mode path
    cases hwrite : fs.write st path (printed schema mode) with
    | mk result after =>
      cases result with
      | ok =>
        rw [hrun, run_writeOutput_ok hwrite] at hfails
        exact absurd rfl hfails
      | error e =>
        exact .of_run_eq (hrun.trans (run_writeOutput_error hwrite)) (by decide) (hclean hwrite)
  · exact runConvert_leavesNoTrace hvalid mode (some path)

/-- **A rejected input leaves no trace.** If a source has no valid schema, conversions and splits of
it fail, print nothing and change no file, wherever they were to print. A conversion to a file that
fails for whatever reason does the same, as long as a write that fails changes nothing. -/
theorem rejected_leavesNoTrace (fs : FileSystem) (st : fs.State) (source : String) :
    (¬Verdict fs st source 0 →
      (∀ mode output, LeavesNoTrace fs st (runConvert fs.access mode source output)) ∧
      ∀ strictOutput nullableOutput,
        LeavesNoTrace fs st (runSplit fs.access source strictOutput nullableOutput)) ∧
    ∀ mode path, fs.FailsCleanly path →
      ((runConvert fs.access mode source (some path)).run st).1.exitCode ≠ 0 →
      LeavesNoTrace fs st (runConvert fs.access mode source (some path)) :=
  ⟨fun h => ⟨runConvert_leavesNoTrace h, runSplit_leavesNoTrace h⟩,
    fun _ _ hclean hfails => runConvert_leavesNoTrace_of_fails hclean hfails⟩

/-- A source that is not valid, also as the output of its own conversion, and a valid one that would
be converted into a directory that does not exist. -/
theorem rejected_leavesNoTrace_unknownType :
    let fs := Directory.fileSystem
    let invalid := Directory.Plain.ofFile "schema.graphql" unknownType
    let valid := Directory.Plain.ofFile "schema.graphql" markedField
    (¬Verdict fs invalid "schema.graphql" 0 ∧
      LeavesNoTrace fs invalid
        (runConvert fs.access .strict "schema.graphql" (some "schema.graphql")) ∧
      LeavesNoTrace fs invalid
        (runSplit fs.access "schema.graphql" "strict.graphql" "nullable.graphql")) ∧
    (Verdict fs valid "schema.graphql" 0 ∧ fs.FailsCleanly "no/strict.graphql" ∧
      LeavesNoTrace fs valid
        (runConvert fs.access .strict "schema.graphql" (some "no/strict.graphql"))) := by
  intro fs invalid valid
  have hrejected : ¬Verdict fs invalid "schema.graphql" 0 := by
    have htext : Schema.textPasses unknownType (!·.problems.isEmpty) = true := by decide +kernel
    obtain ⟨schema, hload, htest⟩ := Schema.exists_of_textPasses htext
    have hcheck : schema.problems ≠ [] := by simpa using htest
    have hold : Holds fs invalid "schema.graphql" unknownType :=
      ⟨by decide, _, rfl, fromUTF8?_toUTF8 _⟩
    intro hvalid
    have hcode := hvalid.eq_exitCodeOf.trans (Verdict.invalid hold hload hcheck).eq_exitCodeOf.symm
    exact absurd hcode (by decide)
  have hclean : fs.FailsCleanly "no/strict.graphql" := Directory.failsCleanly _
  have htext : Schema.textPasses markedField (·.problems.isEmpty) = true := by decide +kernel
  obtain ⟨schema, hload, htest⟩ := Schema.exists_of_textPasses htext
  have hcheck : schema.problems = [] := List.isEmpty_iff.1 htest
  have hold : Holds fs valid "schema.graphql" markedField :=
    ⟨by decide, _, rfl, fromUTF8?_toUTF8 _⟩
  have hfails : ((runConvert fs.access .strict "schema.graphql"
      (some "no/strict.graphql")).run valid).1.exitCode ≠ 0 := by
    rw [run_runConvert_of_valid ((load_of_holds hold).trans hload) hcheck,
      run_writeOutput_error (show fs.write valid "no/strict.graphql" _ = (.error .notFound, valid)
        from rfl)]
    decide
  obtain ⟨hconvert, hsplit⟩ := (rejected_leavesNoTrace fs invalid "schema.graphql").1 hrejected
  obtain ⟨-, hunwritten⟩ := rejected_leavesNoTrace fs valid "schema.graphql"
  exact ⟨⟨hrejected, hconvert _ _, hsplit _ _⟩, .valid hold hload hcheck, hclean,
    hunwritten _ _ hclean hfails⟩

end SemanticNullability.CommandLine
