import SemanticNullability.Schema.OfDocument
import SemanticNullability.Schema.ToDocument
import SemanticNullability.Sdl.Definition
/-!
# Loading and printing schemas

A schema is loaded from SDL text, which may come from a file, and printed as SDL text, which ends in
a line feed. How files are reached is left open: `FileAccess` is what a program needs of them.
-/
namespace SemanticNullability

/-- What the operating system says when it refuses. -/
inductive SystemError where
  | notFound
  | permissionDenied
  | notDirectory
  | isDirectory
  | nameTooLong
  | other (text : String)
  deriving DecidableEq, Inhabited

def SystemError.message : SystemError → String
  | notFound => "No such file or directory (os error 2)"
  | permissionDenied => "Permission denied (os error 13)"
  | notDirectory => "Not a directory (os error 20)"
  | isDirectory => "Is a directory (os error 21)"
  | nameTooLong => "File name too long (os error 36)"
  | other text => text

/-- What reading a path gives. -/
inductive ReadResult where
  /-- There is nothing at the path. -/
  | absent
  /-- There is something, but it cannot be read. -/
  | refused (error : SystemError)
  | content (bytes : ByteArray)

/-- How a program of the monad `m` reads and writes files, given by their paths. -/
structure FileAccess (m : Type → Type) where
  read : String → m ReadResult
  write : String → String → m (Except SystemError Unit)

/-- Why something that exists could not be read as text. -/
inductive ReadFailure where
  | system (error : SystemError)
  | notUtf8
  deriving DecidableEq, Inhabited

def ReadFailure.message : ReadFailure → String
  | system error => error.message
  | notUtf8 => "stream did not contain valid UTF-8"

/-- Why a schema could not be loaded. -/
inductive LoadError where
  | fileNotFound (path : String)
  | unreadable (path : String) (failure : ReadFailure)
  | invalidSdl
  | document (error : DocumentError)
  deriving DecidableEq, Inhabited

namespace LoadError

def message : LoadError → String
  | fileNotFound path => "file not found: " ++ path
  | unreadable path failure => "cannot read " ++ path ++ ": " ++ failure.message
  | invalidSdl => "invalid SDL"
  | document error => error.message

/-- The exit code of a program that ends with the error (`exit_code`): 3 if the file is to blame, 2
if its content is. -/
def exitCode : LoadError → UInt8
  | fileNotFound _ => 3
  | unreadable _ _ => 3
  | invalidSdl => 2
  | document _ => 2

end LoadError

/-- Whether a source is a web address, which is not loaded (`is_url`). -/
def isUrl (source : String) : Bool :=
  "http://".toList.isPrefixOf source.toList || "https://".toList.isPrefixOf source.toList

namespace Schema

/-- The schema that a text of SDL defines (`load_schema_str`). -/
def ofText (text : String) : Except LoadError Schema :=
  match Document.ofText? text with
  | none => .error .invalidSdl
  | some document =>
    match ofDocument document with
    | .error e => .error (.document e)
    | .ok schema => .ok schema

/-- The schema that the bytes of the file `path` define. -/
def ofBytes (path : String) (bytes : ByteArray) : Except LoadError Schema :=
  match String.fromUTF8? bytes with
  | none => .error (.unreadable path .notUtf8)
  | some text => ofText text

/-- The schema that a file defines, from what reading its path gave (`load_schema`). -/
def ofReadResult (path : String) : ReadResult → Except LoadError Schema
  | .absent => .error (.fileNotFound path)
  | .refused e => .error (.unreadable path (.system e))
  | .content bytes => ofBytes path bytes

/-- Loads a schema. Nothing is read if the source is a web address (`load_schema_auto`). -/
def load {m : Type → Type} [Monad m] (files : FileAccess m) (source : String) :
    m (Except LoadError Schema) :=
  if isUrl source then pure (.error (.fileNotFound source))
  else do
    let result ← files.read source
    return ofReadResult source result

/-- The same text with a line feed at its end. -/
def endLine (text : String) : String :=
  if text.toList.getLast? = some '\n' then text else text.push '\n'

/-- The text of a schema, unless a field stands in the way (`print_schema`). -/
def text (s : Schema) : Except UnresolvedField String :=
  s.toDocument.map fun document => endLine document.text

end Schema

/-- The exit code of a program that ends because a schema cannot be written. -/
def UnresolvedField.exitCode : UInt8 := 2

end SemanticNullability
