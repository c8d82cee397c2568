import SemanticNullability.Conversion.Field
/-!
# Requests

What the arguments of the command line ask for. A value follows its option as the next argument or
is attached to it, behind an equals sign or, for an option of one letter, directly. A value that is
an argument of its own does not begin with a dash, unless it is a dash. Behind two dashes there are
operands only.
-/
namespace SemanticNullability.CommandLine

/-- A command of the program (`Commands`), and the word for help. -/
inductive Command where
  | strict | nullable | split | validate | help
  deriving DecidableEq, Inhabited

namespace Command

def name : Command → String
  | strict => "strict"
  | nullable => "nullable"
  | split => "split"
  | validate => "validate"
  | help => "help"

def all : List Command := [strict, nullable, split, validate, help]

def ofName? (name : String) : Option Command := all.find? (·.name == name)

/-- The command that converts in a mode. -/
def ofMode : Mode → Command
  | .strict => strict
  | .nullable => nullable

end Command

/-- What a program is asked to do. -/
inductive Request where
  /-- Convert a schema; without an output path the result is printed. -/
  | convert (mode : Mode) (input : String) (output : Option String)
  /-- Convert a schema both ways. -/
  | split (input strictOutput nullableOutput : String)
  /-- Check a schema. -/
  | validate (source : String) (json : Bool)
  /-- Name the program's version. -/
  | version
  /-- Describe the use of a command, or of the program. -/
  | help (about : Option Command)
  deriving DecidableEq, Inhabited

/-- An option of the command line. -/
inductive Switch where
  | input | output | strictOutput | nullableOutput | json | help
  deriving DecidableEq, Inhabited

namespace Switch

def long : Switch → String
  | input => "input"
  | output => "output"
  | strictOutput => "strict-output"
  | nullableOutput => "nullable-output"
  | json => "json"
  | help => "help"

def short? : Switch → Option Char
  | input => some 'i'
  | output => some 'o'
  | help => some 'h'
  | _ => none

/-- Whether a value belongs to an option. -/
def takesValue : Switch → Bool
  | json => false
  | help => false
  | _ => true

/-- Whether the value may be empty: a file to write needs a name. -/
def allowsEmpty : Switch → Bool
  | input => true
  | _ => false

end Switch

/-- What is wrong with the arguments. -/
inductive UsageError where
  /-- There is nothing that could be a command, which calls for help. -/
  | noArguments
  | noCommand
  | unknownCommand (name : String)
  | unexpectedArgument (argument : String)
  | missingValue (switch : Switch)
  | unwantedValue (switch : Switch)
  | emptyValue (switch : Switch)
  | repeatedSwitch (switch : Switch)
  | missingSwitch (switch : Switch)
  | missingOperand (name : String)
  deriving DecidableEq, Inhabited

def UsageError.message : UsageError → String
  | noArguments => "arguments are required"
  | noCommand => "a command is required"
  | unknownCommand name => "unrecognized command '" ++ name ++ "'"
  | unexpectedArgument argument => "unexpected argument '" ++ argument ++ "'"
  | missingValue switch => "a value is required for '--" ++ switch.long ++ "'"
  | unwantedValue switch => "no value is expected for '--" ++ switch.long ++ "'"
  | emptyValue switch => "the value of '--" ++ switch.long ++ "' must not be empty"
  | repeatedSwitch switch => "the option '--" ++ switch.long ++ "' cannot be used twice"
  | missingSwitch switch => "the option '--" ++ switch.long ++ "' is required"
  | missingOperand name => "the argument '" ++ name ++ "' is required"

/-! ## Arguments -/

/-- What an argument is by its form. -/
inductive ArgumentForm where
  | endOfOptions
  | long (name : String) (value : Option String)
  | short (letter : Char) (value : Option String)
  | operand

/-- The text behind the letter of an option: its value, with or without an equals sign. -/
def attachedValue : List Char → Option String
  | [] => none
  | '=' :: cs => some (String.ofList cs)
  | cs => some (String.ofList cs)

/-- The form of an argument. A single dash is an operand. -/
def formOf (argument : String) : ArgumentForm :=
  match argument.toList with
  | ['-', '-'] => .endOfOptions
  | '-' :: '-' :: cs =>
    let name := String.ofList (cs.takeWhile (· != '='))
    match cs.dropWhile (· != '=') with
    | [] => .long name none
    | _ :: value => .long name (some (String.ofList value))
  | '-' :: letter :: cs => .short letter (attachedValue cs)
  | _ => .operand

/-- Whether an argument can be the value of the option before it. -/
def isValue (argument : String) : Bool :=
  match formOf argument with
  | .operand => true
  | _ => false

/-- What has been read of the arguments. -/
structure Given where
  values : List (Switch × String)
  operands : List String

namespace Given

def none : Given := ⟨[], []⟩

def value? (g : Given) (switch : Switch) : Option String := g.values.lookup switch

def has (g : Given) (switch : Switch) : Bool := (g.value? switch).isSome

/-- Takes in an option with its value; each option is given once. -/
def add (g : Given) (switch : Switch) (value : String) : Except UsageError Given :=
  if g.has switch then .error (.repeatedSwitch switch)
  else if switch.takesValue && value.isEmpty && !switch.allowsEmpty then
    .error (.emptyValue switch)
  else .ok { g with values := g.values ++ [(switch, value)] }

/-- Takes in an operand, if one more is allowed. -/
def addOperand (g : Given) (limit : Nat) (operand : String) : Except UsageError Given :=
  if g.operands.length < limit then .ok { g with operands := g.operands ++ [operand] }
  else .error (.unexpectedArgument operand)

end Given

/-- What a command accepts: options, and a number of operands. -/
structure Accepted where
  switches : List Switch
  operands : Nat

/-- The option that an argument of a form names. -/
def Accepted.switch? (a : Accepted) : ArgumentForm → Option Switch
  | .long name _ => a.switches.find? (·.long == name)
  | .short letter _ => a.switches.find? (·.short? == some letter)
  | _ => none

/-- The value attached to an argument of a form that names an option. What stands behind a letter
is a value only if the option takes one. -/
def ArgumentForm.attached? (switch : Switch) : ArgumentForm → Option String
  | long _ value => value
  | short _ value => if switch.takesValue then value else none
  | _ => none

/-- Reads the arguments of a command. Help is wanted as soon as it is asked for. -/
def readArguments (a : Accepted) : Given → List String → Except UsageError Given
  | g, [] => .ok g
  | g, argument :: rest =>
    match formOf argument with
    | .endOfOptions => rest.foldlM (fun g operand => g.addOperand a.operands operand) g
    | .operand => do
      let g ← g.addOperand a.operands argument
      readArguments a g rest
    | form =>
      match a.switch? form with
      | none => .error (.unexpectedArgument argument)
      | some switch =>
        match switch.takesValue, form.attached? switch with
        | false, some _ => .error (.unwantedValue switch)
        | false, none => do
          let g ← g.add switch ""
          if switch = .help then return g else readArguments a g rest
        | true, some value => do
          let g ← g.add switch value
          readArguments a g rest
        | true, none =>
          match rest with
          | [] => .error (.missingValue switch)
          | value :: rest =>
            if isValue value then do
              let g ← g.add switch value
              readArguments a g rest
            else .error (.missingValue switch)

/-! ## Commands -/

/-- The value of an option that a command cannot do without. -/
def Given.require (g : Given) (switch : Switch) : Except UsageError String :=
  match g.value? switch with
  | some value => .ok value
  | .none => .error (.missingSwitch switch)

/-- What a command is asked to do, unless it is asked for help. -/
def requestOf (command : Command) (g : Given) (request : Except UsageError Request) :
    Except UsageError Request :=
  if g.has .help then .ok (.help (some command)) else request

def convertRequest (mode : Mode) (arguments : List String) : Except UsageError Request := do
  let g ← readArguments ⟨[.input, .output, .help], 0⟩ .none arguments
  requestOf (.ofMode mode) g do
    let input ← g.require .input
    return .convert mode input (g.value? .output)

def splitRequest (arguments : List String) : Except UsageError Request := do
  let g ← readArguments ⟨[.input, .strictOutput, .nullableOutput, .help], 0⟩ .none arguments
  requestOf .split g do
    let input ← g.require .input
    let strictOutput ← g.require .strictOutput
    let nullableOutput ← g.require .nullableOutput
    return .split input strictOutput nullableOutput

def validateRequest (arguments : List String) : Except UsageError Request := do
  let g ← readArguments ⟨[.json, .help], 1⟩ .none arguments
  requestOf .validate g do
    match g.operands with
    | source :: _ => return .validate source (g.has .json)
    | [] => .error (.missingOperand "SCHEMA")

/-- Reads what help is wanted about: at most one command. A dash has no meaning here. -/
def helpRequest : List String → Except UsageError Request
  | [] => .ok (.help none)
  | name :: rest =>
    match Command.ofName? name, rest with
    | none, _ => .error (.unknownCommand name)
    | some command, [] => .ok (.help (some command))
    | some _, surplus :: _ => .error (.unknownCommand surplus)

def Command.request : Command → List String → Except UsageError Request
  | strict => convertRequest .strict
  | nullable => convertRequest .nullable
  | split => splitRequest
  | validate => validateRequest
  | help => helpRequest

/-- Reads all arguments: a command with its own arguments, or a question about the program. -/
def Request.ofArguments : List String → Except UsageError Request
  | [] => .error .noArguments
  | argument :: rest =>
    match Command.ofName? argument, formOf argument with
    | some command, _ => command.request rest
    | none, .long "version" none => .ok .version
    | none, .long "help" none => .ok (.help none)
    | none, .short 'V' _ => .ok .version
    | none, .short 'h' _ => .ok (.help none)
    | none, .endOfOptions => .error (if rest.isEmpty then .noArguments else .noCommand)
    | none, .operand => .error (.unknownCommand argument)
    | none, _ => .error (.unexpectedArgument argument)

end SemanticNullability.CommandLine
