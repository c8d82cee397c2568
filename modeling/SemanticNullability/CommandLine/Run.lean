import SemanticNullability.CommandLine.Help
import SemanticNullability.CommandLine.Json
import SemanticNullability.Conversion.Worklist
import SemanticNullability.Loading
import SemanticNullability.Validation
/-!
# Carrying out requests

A request ends in an outcome: the exit code and what is printed. Files are reached through
`FileAccess` only. A schema is loaded and checked before anything is written, and both results of
a split are there before the first is written.
-/
namespace SemanticNullability.CommandLine

/-- How a program ends. -/
structure Outcome where
  exitCode : UInt8
  stdout : String
  stderr : String
  deriving DecidableEq, Inhabited

namespace Outcome

def success (stdout : String) : Outcome := ⟨0, stdout, ""⟩

def failure (exitCode : UInt8) (stderr : String) : Outcome := ⟨exitCode, "", stderr⟩

end Outcome

/-- The exit code for a schema with problems. -/
def invalidExitCode : UInt8 := 1

/-- The exit code for a file that cannot be written. -/
def writeExitCode : UInt8 := 3

/-- The exit code for arguments that make no request. -/
def usageExitCode : UInt8 := 2

def problemLines (problems : List Problem) : String :=
  String.join (problems.map fun p => "  " ++ p.text ++ "\n")

/-! ## Conversion -/

def loadFailure (e : LoadError) : Outcome :=
  .failure e.exitCode ("Error: " ++ e.message ++ "\n")

def invalidFailure (problems : List Problem) : Outcome :=
  .failure invalidExitCode ("Error: " ++ invalidMessage problems ++ "\n" ++ problemLines problems)

def printFailure (u : UnresolvedField) : Outcome :=
  .failure UnresolvedField.exitCode ("Error: " ++ u.message ++ "\n")

/-- A schema without problems, or the outcome that there is none (`load_valid_schema`, once the
schema has been loaded). -/
def acceptSchema : Except LoadError Schema → Except Outcome Schema
  | .error e => .error (loadFailure e)
  | .ok schema => if schema.problems.isEmpty then .ok schema else .error (invalidFailure schema.problems)

/-- The text of a converted schema, or the outcome that it has none (`convert_and_print`). -/
def convertedText (schema : Schema) (mode : Mode) : Except Outcome String :=
  match (schema.convert mode).text with
  | .error u => .error (printFailure u)
  | .ok text => .ok text

variable {m : Type → Type} [Monad m]

/-- Writes a file; a file that cannot be written decides the exit code (`write_output`). -/
def writeOutput (files : FileAccess m) (path text : String) : m Outcome := do
  match ← files.write path text with
  | .ok () => return .success ""
  | .error e =>
    return .failure writeExitCode ("Error writing to " ++ path ++ ": " ++ e.message ++ "\n")

/-- Converts a schema and prints or writes the result (`run_convert`). -/
def runConvert (files : FileAccess m) (mode : Mode) (source : String) (output : Option String) :
    m Outcome := do
  let loaded ← Schema.load files source
  match acceptSchema loaded >>= (convertedText · mode) with
  | .error outcome => return outcome
  | .ok text =>
    match output with
    | none => return .success text
    | some path => writeOutput files path text

/-- The texts of both conversions, or the outcome that one of them is missing. -/
def splitTexts (schema : Schema) : Except Outcome (String × String) := do
  let strict ← convertedText schema .strict
  let nullable ← convertedText schema .nullable
  return (strict, nullable)

/-- Converts a schema both ways and writes the results, the strict one first; the other one is not
written if that fails (`run_split`). -/
def runSplit (files : FileAccess m) (source strictOutput nullableOutput : String) : m Outcome := do
  let loaded ← Schema.load files source
  match acceptSchema loaded >>= splitTexts with
  | .error outcome => return outcome
  | .ok (strict, nullable) =>
    let outcome ← writeOutput files strictOutput strict
    if outcome.exitCode = 0 then writeOutput files nullableOutput nullable else return outcome

/-! ## Checking -/

def problemJson (p : Problem) : Json :=
  .object [("path", .string p.coordinate.text), ("message", .string p.fault.message)]

def reportJson : Except LoadError (List Problem) → Json
  | .error e => .object [("valid", .bool false), ("error", .string e.message)]
  | .ok [] => .object [("valid", .bool true)]
  | .ok problems =>
    .object [("valid", .bool false), ("errors", .array (problems.map problemJson))]

def reportExitCode : Except LoadError (List Problem) → UInt8
  | .error e => e.exitCode
  | .ok [] => 0
  | .ok _ => invalidExitCode

/-- The outcome of a check that is reported in plain words. -/
def plainReport : Except LoadError (List Problem) → Outcome
  | .error e => loadFailure e
  | .ok [] => .success "Valid\n"
  | .ok problems => .failure invalidExitCode ("Invalid schema:\n" ++ problemLines problems)

/-- Checks a schema and reports, in plain words or as JSON (`run_validate`). -/
def runValidate (files : FileAccess m) (source : String) (json : Bool) : m Outcome := do
  let loaded ← Schema.load files source
  let result := loaded.map Schema.problems
  if json then return ⟨reportExitCode result, (reportJson result).text ++ "\n", ""⟩
  else return plainReport result

/-! ## Requests -/

/-- The outcome if the arguments make no request: what is wrong, or the use of the program if
nothing was asked. -/
def usageFailure : UsageError → Outcome
  | .noArguments => .failure usageExitCode (helpText none)
  | e => .failure usageExitCode ("error: " ++ e.message ++ "\n")

def runRequest (files : FileAccess m) : Request → m Outcome
  | .convert mode input output => runConvert files mode input output
  | .split input strictOutput nullableOutput => runSplit files input strictOutput nullableOutput
  | .validate source json => runValidate files source json
  | .version => return .success versionText
  | .help about => return .success (helpText about)

/-- Does what the arguments ask for (`main`, output and exit code aside). -/
def run (files : FileAccess m) (arguments : List String) : m Outcome :=
  match Request.ofArguments arguments with
  | .error e => return usageFailure e
  | .ok request => runRequest files request

end SemanticNullability.CommandLine
