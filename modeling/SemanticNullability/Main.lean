import SemanticNullability.CommandLine.Run
/-!
# The program

Reads and writes real files, prints the outcome of the request and ends with its exit code.
-/
namespace SemanticNullability

/-- Whether an error carries a code of the operating system, whose sign is not settled. -/
def isErrorCode (n code : UInt32) : Bool := code == n || code == 0 - n

/-- The refusal that an error of the operating system is. -/
def SystemError.ofError : IO.Error → SystemError
  | .noFileOrDirectory _ _ _ => .notFound
  | .permissionDenied _ _ _ => .permissionDenied
  | .inappropriateType _ code _ => if isErrorCode 21 code then .isDirectory else .notDirectory
  | e@(.invalidArgument _ code _) =>
    if isErrorCode 36 code then .nameTooLong else .other (toString e)
  | e => .other (toString e)

def systemFiles : FileAccess IO where
  read path := do
    try
      return .content (← IO.FS.readBinFile path)
    catch e =>
      match SystemError.ofError e with
      | .notFound => return .absent
      | .notDirectory => return .absent
      | .nameTooLong => return .absent
      | error => return .refused error
  write path text := do
    try
      IO.FS.writeFile path text
      return .ok ()
    catch e => return .error (SystemError.ofError e)

end SemanticNullability

def main (arguments : List String) : IO UInt32 := do
  let outcome ← SemanticNullability.CommandLine.run SemanticNullability.systemFiles arguments
  IO.print outcome.stdout
  IO.eprint outcome.stderr
  return outcome.exitCode.toUInt32
