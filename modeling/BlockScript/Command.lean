import BlockScript.Repl
import BlockScript.Trace

/-! The command line. A command reads its arguments in order, a later one replacing an earlier one of
the same kind, and passes over options it does not know. Its result is the exit status. -/

namespace BlockScript.Command

def ioExit : Nat := 74
def compileExit : Nat := 65

/-- What most commands are told: the file, `-` standing for the input, and the form of
diagnostics. -/
structure Options where
  file : Bytes := []
  pretty : Bool := false
  trace : Bytes := []

def isOption (argument : Bytes) : Bool := argument.head? = some 45

def hyphen : Bytes := "-"

def runOptions (o : Options) : List Bytes → Options
  | [] => o
  | argument :: rest =>
    if argument = Bytes.ofString "--pretty" then runOptions { o with pretty := true } rest
    else if argument = Bytes.ofString "--trace" then
      match rest with
      | [] => o
      | path :: rest => runOptions { o with trace := path } rest
    else if argument = hyphen || !isOption argument then runOptions { o with file := argument } rest
    else runOptions o rest

def sourceOptions (o : Options) : List Bytes → Options :=
  List.foldl (fun o argument =>
    if argument = Bytes.ofString "--pretty" then { o with pretty := true }
    else if argument = hyphen || !isOption argument then { o with file := argument }
    else o) o

def lastName (arguments : List Bytes) : Bytes :=
  ((arguments.filter (!isOption ·)).getLast?).getD []

variable {m : Type → Type} [Monad m]

def say (host : Host m) (text : Bytes) : m Unit := host.out (text ++ [Bytes.lineFeed])
def complain (host : Host m) (text : Bytes) : m Unit := host.err (text ++ [Bytes.lineFeed])

def report (host : Host m) (pretty : Bool) (ds : List Diagnostic) : m Unit :=
  complain host (Diagnostic.renderAll pretty ds)

def reportFile (host : Host m) (pretty : Bool) (message : Bytes) : m Unit :=
  report host pretty [⟨.io, 0, [], message⟩]

def usage (host : Host m) (text : String) : m Nat := do
  complain host (Bytes.ofString "usage: starbird " ++ Bytes.ofString text)
  return usageExit

/-- The settings in force. A file that cannot be used is reported, and the defaults hold. -/
def settings (host : Host m) : m Settings := do
  let found ← Settings.load host
  match found.fault with
  | some message => complain host (Diagnostic.render found.settings.pretty ⟨.config, 0, [], message⟩)
  | none => pure ()
  return found.settings

/-- The source in a file or on the input, or the exit status after the report that it cannot be
read. -/
def source (host : Host m) (pretty : Bool) (file : Bytes) : m (Except Nat Bytes) := do
  if file = hyphen then
    match ← host.input with
    | (_, some reason) =>
      reportFile host pretty (Bytes.ofString "cannot read stdin: " ++ reason)
      return .error ioExit
    | (text, none) => return .ok text
  else
    match ← host.read file with
    | .error _ =>
      reportFile host pretty (Bytes.ofString "cannot read file: " ++ file)
      return .error ioExit
    | .ok text => return .ok text

/-- Runs a program, with a trace if there is a file for it. The file is emptied before the program
is compiled. -/
def execute (host : Host m) (pretty : Bool) (trace : Option Bytes) (text : Bytes) : m Nat := do
  let run ← host.runName
  let (result, machine) := Engine.run {} text
  host.out machine.sink.taken
  match trace with
  | some path =>
    let _ ← host.write path (Repl.records (← host.time) run machine.events)
  | none => pure ()
  match result with
  | .ok _ => return 0
  | .error failure =>
    report host pretty failure.report
    return failure.exitCode

def run (host : Host m) (arguments : List Bytes) : m Nat := do
  let s ← settings host
  let o := runOptions { pretty := s.pretty, trace := s.trace } arguments
  if o.file.isEmpty then usage host "run <file|-> [--pretty] [--trace <path>]"
  else
    match ← source host o.pretty o.file with
    | .error exit => return exit
    | .ok text =>
      if o.trace.isEmpty then execute host o.pretty none text
      else
        let path := Path.expandHome host.home o.trace
        match ← host.write path [] with
        | .error _ =>
          reportFile host o.pretty (Bytes.ofString "cannot open trace file: " ++ o.trace)
          return ioExit
        | .ok () => execute host o.pretty (some path) text

def inspect (host : Host m) (name : String) (arguments : List Bytes)
    (look : Bool → Bytes → m Nat) : m Nat := do
  let s ← settings host
  let o := sourceOptions { pretty := s.pretty } arguments
  if o.file.isEmpty then usage host (name ++ " <file|-> [--pretty]")
  else
    match ← source host o.pretty o.file with
    | .error exit => return exit
    | .ok text => look o.pretty text

def check (host : Host m) (arguments : List Bytes) : m Nat :=
  inspect host "check" arguments fun pretty text => do
    match Engine.check text with
    | [] =>
      say host (if pretty then "No errors found." else "[]")
      return 0
    | ds =>
      report host pretty ds
      return compileExit

def tokens (host : Host m) (arguments : List Bytes) : m Nat :=
  inspect host "tokens" arguments fun pretty text => do
    let lexed := Token.lex text
    host.out (Token.listing lexed.tokens)
    match lexed.diagnostics with
    | [] => return 0
    | ds =>
      report host pretty ds
      return compileExit

def tree (host : Host m) (arguments : List Bytes) : m Nat :=
  inspect host "ast" arguments fun pretty text => do
    match Engine.tree text with
    | .error failure =>
      report host pretty failure.report
      return failure.exitCode
    | .ok tree =>
      host.out tree
      return 0

def format (host : Host m) (arguments : List Bytes) : m Nat := do
  let inPlace := arguments.contains (Bytes.ofString "--write")
  let file := lastName arguments
  if file.isEmpty then usage host "fmt <file> [--write]"
  else
    match ← source host false file with
    | .error exit => return exit
    | .ok text =>
      match Engine.format text with
      | .error failure =>
        report host false failure.report
        return failure.exitCode
      | .ok formatted =>
        if hasComment false text then complain host "warning: comments are not preserved by the formatter"
        if inPlace then
          match ← host.write file formatted with
          | .error _ =>
            reportFile host false (Bytes.ofString "cannot write file: " ++ file)
            return ioExit
          | .ok () => return 0
        else
          host.out formatted
          return 0

def asText (arguments : List Bytes) : Bool :=
  arguments.foldl (fun text argument =>
    if argument = Bytes.ofString "--json" then false
    else if argument = Bytes.ofString "--text" then true
    else text) false

/-- Summarises a trace file. A directory can be opened but gives no records. -/
def trace (host : Host m) (arguments : List Bytes) : m Nat := do
  let file := lastName arguments
  if file.isEmpty then usage host "trace <file.jsonl> [--json|--text]"
  else
    let content? ← match ← host.read file with
      | .ok content => pure (some content)
      | .error .isDirectory => pure (some [])
      | .error _ => pure none
    match content? with
    | none =>
      reportFile host false (Bytes.ofString "cannot read file: " ++ file)
      return ioExit
    | some content =>
      let summary := Trace.Summary.ofFile content
      if asText arguments then host.out summary.text else say host summary.toJson.render
      return 0

def help (host : Host m) (arguments : List Bytes) : m Nat := do
  let query := lastName arguments
  if query.isEmpty then
    host.out Help.overview
    return 0
  else
    match Help.find query with
    | .error miss =>
      complain host (miss.message ++ Bytes.ofString "\nAvailable topics: " ++
        Bytes.join (Bytes.ofString ", ") (Help.topics.map fun t => Bytes.ofString t.name))
      return usageExit
    | .ok topic =>
      host.out topic.content
      return 0

def startSession (host : Host m) (arguments : List Bytes) : m Repl := do
  let s ← settings host
  Repl.start host s (s.pretty || arguments.contains (Bytes.ofString "--pretty"))

def session (host : Host m) (arguments : List Bytes) : m Nat := do
  let run ← host.runName
  let r ← startSession host arguments
  let (text, _) ← host.input
  let r ← r.loop host (Repl.pieces (text.length + 1) text)
  r.finish host run
  return 0

def unknown (host : Host m) (name : Bytes) : m Nat := do
  complain host (Bytes.ofString "Unknown command: " ++ name)
  complain host "commands: repl, run, check, tokens, ast, fmt, trace, help"
  return usageExit

def dispatch (host : Host m) : List Bytes → m Nat
  | [] => session host []
  | name :: arguments =>
    let isNamed := fun (s : String) => name = Bytes.ofString s
    if isNamed "repl" then session host arguments
    else if isNamed "run" then run host arguments
    else if isNamed "check" then check host arguments
    else if isNamed "tokens" then tokens host arguments
    else if isNamed "ast" then tree host arguments
    else if isNamed "fmt" then format host arguments
    else if isNamed "trace" then trace host arguments
    else if isNamed "help" || isNamed "--help" || isNamed "-h" then help host arguments
    else unknown host name

end BlockScript.Command
