import SemanticNullability.CommandLine.Request
/-!
# Help

What the program says about itself: its version, and how it and its commands are used.
-/
namespace SemanticNullability.CommandLine

def versionText : String := "graphql-sock 0.1.0\n"

def Command.summary : Command → String
  | strict => "Turn semantic non-null positions into enforced non-null (`!`)"
  | nullable => "Remove semantic non-null annotations, leaving positions nullable"
  | split => "Write both the strict and the nullable schema from one input"
  | validate => "Check a schema without converting it"
  | help => "Print this message or the help of the given subcommand(s)"

/-- The use of the program. -/
def programUsage : String :=
  "Usage: graphql-sock <COMMAND>\n\n" ++
    "Commands:\n" ++
    "  strict    " ++ Command.strict.summary ++ "\n" ++
    "  nullable  " ++ Command.nullable.summary ++ "\n" ++
    "  split     " ++ Command.split.summary ++ "\n" ++
    "  validate  " ++ Command.validate.summary ++ "\n" ++
    "  help      " ++ Command.help.summary ++ "\n\n" ++
    "Options:\n" ++
    "  -h, --help     Print help\n" ++
    "  -V, --version  Print version\n"

/-- The arguments of a command that converts one way. -/
def conversionArguments : String :=
  "[OPTIONS] --input <INPUT>\n\n" ++
    "Options:\n" ++
    "  -i, --input <INPUT>    Input schema: file path or URL (http:// or https://)\n" ++
    "  -o, --output <OUTPUT>  Output file (stdout if not specified)\n" ++
    "  -h, --help             Print help\n"

def Command.arguments : Command → String
  | strict => conversionArguments
  | nullable => conversionArguments
  | split =>
    "--input <INPUT> --strict-output <STRICT_OUTPUT> --nullable-output <NULLABLE_OUTPUT>\n\n" ++
      "Options:\n" ++
      "  -i, --input <INPUT>                      " ++
      "Input schema: file path or URL (http:// or https://)\n" ++
      "      --strict-output <STRICT_OUTPUT>      Output file for the strict schema\n" ++
      "      --nullable-output <NULLABLE_OUTPUT>  Output file for the nullable schema\n" ++
      "  -h, --help                               Print help\n"
  | validate =>
    "[OPTIONS] <SCHEMA>\n\n" ++
      "Arguments:\n" ++
      "  <SCHEMA>  Schema source: file path or URL (http:// or https://)\n\n" ++
      "Options:\n" ++
      "      --json  Output results as JSON (for automation)\n" ++
      "  -h, --help  Print help\n"
  | help =>
    "[COMMAND]...\n\n" ++
      "Arguments:\n" ++
      "  [COMMAND]...  Print help for the subcommand(s)\n"

/-- The use of a command, or of the program. -/
def helpText : Option Command → String
  | none =>
    "Convert semantic-non-null GraphQL schemas to strict or nullable SDL\n\n" ++ programUsage
  | some command =>
    command.summary ++ "\n\nUsage: graphql-sock " ++ command.name ++ " " ++ command.arguments

end SemanticNullability.CommandLine
