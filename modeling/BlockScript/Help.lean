import BlockScript.Text
import BlockScript.Text.Characters

/-! Help texts and the choice of a topic by its name or the beginning of its name. -/

namespace BlockScript.Help

def ofLines (lines : List String) : Bytes :=
  lines.flatMap fun line => Bytes.ofString line ++ [Bytes.lineFeed]

def overview : Bytes :=
  ofLines [
    "StarBird v0.1 quick reference",
    "",
    "  starbird                       start the REPL",
    "  starbird run <file|->          run a program (exit 65 compile error, 70 runtime error, 74 I/O)",
    "  starbird check <file>          lex and parse only",
    "  starbird tokens <file>         dump the token stream",
    "  starbird ast <file>            dump the syntax tree",
    "  starbird fmt <file> [--write]  print canonical source",
    "  starbird trace <file.jsonl>    summarise a trace file",
    "  starbird help [topic]          show this text or a topic",
    "",
    "Flags for run: --pretty (human-readable diagnostics), --trace <path> (JSONL trace).",
    "",
    "Topics: syntax, types, flow, diagnostics, repl, examples"]

structure Topic where
  name : String
  lines : List String

def Topic.content (t : Topic) : Bytes := ofLines t.lines

def syntaxTopic : Topic where
  name := "syntax"
  lines := [
    "Syntax",
    "",
    "  program     := declaration* EOF",
    "  declaration := \"var\" IDENT (\"=\" expression)? \";\" | statement",
    "  statement   := \"print\" expression \";\"",
    "               | \"if\" \"(\" expression \")\" statement (\"else\" statement)?",
    "               | \"\x7b\" declaration* \"\x7d\"",
    "               | expression \";\"",
    "",
    "  Operators, loosest first: = (right-assoc), or, and, == !=, > >= < <=, + -, * /, unary ! -",
    "  Comments start with // and run to the end of the line.",
    "  Reserved for future use: class fun for return super this while"]

def typesTopic : Topic where
  name := "types"
  lines := [
    "Types",
    "",
    "  null        the single null value",
    "  true false  booleans",
    "  1 2.5       numbers (64-bit floating point, printed without a trailing .0)",
    "  \"text\"      strings, may span lines, no escape sequences",
    "",
    "  Only null and false are falsy; 0 and \"\" are truthy.",
    "  == and != never fail: values of different types are simply unequal.",
    "  + adds two numbers or concatenates two strings; other arithmetic needs numbers."]

def flowTopic : Topic where
  name := "flow"
  lines := [
    "Control flow",
    "",
    "  if (cond) stmt else stmt   the else binds to the nearest if",
    "  \x7b ... \x7d                    a block opens a new scope; var inside it shadows outer names",
    "  a or b, a and b            short-circuit and return one of the operands",
    "",
    "  Assigning to a name that was never declared is a runtime error."]

def diagnosticsTopic : Topic where
  name := "diagnostics"
  lines := [
    "Diagnostics",
    "",
    "  E_LEX        unexpected character or unterminated string",
    "  E_PARSE      malformed statement or expression",
    "  E_TYPE       operator applied to the wrong kind of value",
    "  E_UNDEFINED  read or assignment of an undeclared variable",
    "  E_IO         unreadable input file",
    "  E_CONFIG     malformed .starbird.yaml",
    "",
    "  Diagnostics print as JSON unless --pretty or \"pretty: true\" in the config.",
    "  Lexical and parse errors are all reported and nothing runs.",
    "  The first runtime error stops the program."]

def replTopic : Topic where
  name := "repl"
  lines := [
    "REPL",
    "",
    "  Each line runs against the same globals. A line with an open \x7b or string",
    "  keeps reading with the continuation prompt.",
    "",
    "  :env          list global variables",
    "  :env --json   the same, as JSON",
    "  :help [topic] show help",
    "  :quit         leave (Ctrl-D works too)"]

def examplesTopic : Topic where
  name := "examples"
  lines := [
    "Examples",
    "",
    "  var greeting = \"hello\";",
    "  \x7b",
    "    var greeting = \"shadowed\";",
    "    print greeting;        // shadowed",
    "  \x7d",
    "  print greeting + \"!\";    // hello!",
    "",
    "  var n = null;",
    "  print n or \"default\";    // default",
    "  if (n == null) print \"n is null\";"]

def topics : List Topic :=
  [syntaxTopic, typesTopic, flowTopic, diagnosticsTopic, replTopic, examplesTopic]

inductive Miss
  | unknown (query : Bytes)
  | ambiguous (query : Bytes) (candidates : List String)

def Miss.message : Miss → Bytes
  | unknown query => Bytes.ofString "unknown help topic " ++ Text.quote query
  | ambiguous query candidates =>
    Bytes.ofString "ambiguous help topic " ++ Text.quote query ++ Bytes.ofString ": " ++
      Bytes.join (Bytes.ofString ", ") (candidates.map Bytes.ofString)

/-- The topic with the given name, or the only one whose name begins so. White space around the query
and its case do not count. -/
def find (query : Bytes) : Except Miss Topic :=
  let query := Text.lower (Text.trim query)
  match topics.find? fun t => Bytes.ofString t.name = query with
  | some t => .ok t
  | none =>
    match topics.filter fun t => !query.isEmpty && query.isPrefixOf (Bytes.ofString t.name) with
    | [] => .error (.unknown query)
    | [t] => .ok t
    | several => .error (.ambiguous query ((several.map (·.name)).mergeSort (· ≤ ·)))

end BlockScript.Help
