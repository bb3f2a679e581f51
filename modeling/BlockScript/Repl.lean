import BlockScript.Evaluator
import BlockScript.Help
import BlockScript.Settings
import BlockScript.Text
import BlockScript.Trace

/-! An interactive session: programs run one after the other on the same variables, and lines that
begin with a colon are commands. -/

namespace BlockScript.Session

/-- Whether an input ends inside a string, a block or parentheses, so that more of it must follow. -/
def incomplete (source : Bytes) : Bool :=
  let lexed := Token.lex source
  let count := fun (k : Token.Kind) => lexed.tokens.countP (·.kind = k)
  (lexed.diagnostics.any fun d => d.message = Token.LexFault.unterminatedString.message) ||
    count .rightBrace < count .leftBrace || count .rightParen < count .leftParen

structure Response where
  quit : Bool := false
  out : Bytes := []
  err : Bytes := []

def listing (s : Scope) : Bytes :=
  s.bindings.flatMap fun entry =>
    entry.1 ++ Bytes.ofString " = " ++ entry.2.shown ++ Bytes.ofString " (" ++
      Bytes.ofString entry.2.typeName ++ Bytes.ofString ")\n"

def unknownCommand : Bytes :=
  Bytes.ofString "unknown command. Type :help for commands, :quit to exit.\n"

def command (globals : Scope) : List Bytes → Response
  | [] => { err := unknownCommand }
  | word :: arguments =>
    let word := Text.lower word
    if [":quit", ":q", ":exit"].any fun name => Bytes.ofString name = word then { quit := true }
    else if word = Bytes.ofString ":env" then
      if arguments.head? = some (Bytes.ofString "--json") then
        { out := globals.toJson.render ++ [Bytes.lineFeed] }
      else { out := listing globals }
    else if word = Bytes.ofString ":help" then
      match arguments with
      | [] => { out := Help.replTopic.content }
      | query :: _ =>
        match Help.find query with
        | .ok topic => { out := topic.content }
        | .error miss => { err := miss.message ++ [Bytes.lineFeed] }
    else { err := unknownCommand }

def printedSince (before after : Machine) : Bytes := after.sink.taken.drop before.sink.taken.length

/-- Handles one complete input. A source with diagnostics is skipped; after a fault the variables stay
as they were at that point. -/
def handle (pretty : Bool) (m : Machine) (input : Bytes) : Response × Machine :=
  let trimmed := Text.trim input
  if trimmed.head? = some 58 then (command m.scopes.current (Text.words trimmed), m)
  else
    let (result, after) := Engine.run m input
    let out := printedSince m after
    match result with
    | .ok _ => ({ out := out }, after)
    | .error failure =>
      ({ out := out, err := Diagnostic.renderAll pretty failure.report ++ [Bytes.lineFeed] }, after)

end BlockScript.Session

/-! The interactive loop around a session. Lines are gathered until they form a complete input, inputs
are kept in a history file, and a trace file gets what the runs report. -/

namespace BlockScript

structure Repl where
  settings : Settings := {}
  pretty : Bool := false
  machine : Machine := {}
  /-- The lines of an input that is not complete yet. -/
  pending : Bytes := []
  /-- The inputs so far, the latest first. -/
  history : List Bytes := []
  /-- The trace file, if one could be opened. -/
  trace : Option Bytes := none
  ended : Bool := false

namespace Repl

/-- A history holds this many inputs at most; the oldest ones go. -/
def historyLimit : Nat := 1000

/-- A line of this many bytes does not fit the reader. -/
def pieceLimit : Nat := 4096

/-- The history with one more input, unless it repeats the latest. -/
def remember (history : List Bytes) (input : Bytes) : List Bytes :=
  if history.head? = some input then history else (input :: history).take historyLimit

/-- The lines of a history file up to the first that is too long or no text, the latest first. -/
def readHistory (content : Bytes) : List Bytes :=
  let raw := Text.rawLines content
  let ended := content.getLast? = some Bytes.lineFeed
  let lines := raw.mapIdx fun i line =>
    if ended || i + 1 < raw.length then (line.length, Text.dropReturn line) else (line.length, line)
  let fit := lines.takeWhile fun line => line.1 < pieceLimit && (Bytes.toString? line.2).isSome
  (fit.map (·.2)).reverse.take historyLimit

def writeHistory (history : List Bytes) : Bytes :=
  history.reverse.flatMap fun input => input ++ [Bytes.lineFeed]

/-- Cuts an input into the pieces a line reader gives: lines, or where a line is too long its parts of
`pieceLimit` bytes. A carriage return at the end of such a part is left for the next. -/
def pieces : (fuel : Nat) → Bytes → List Bytes
  | 0, _ => []
  | _ + 1, [] => []
  | fuel + 1, text =>
    let window := text.take pieceLimit
    let line := window.takeWhile (· != Bytes.lineFeed)
    if line.length < window.length then
      Text.dropReturn line :: pieces fuel (text.drop (line.length + 1))
    else if window.length < pieceLimit then [window]
    else
      let part := Text.dropReturn window
      part :: pieces fuel (text.drop part.length)

/-- The prompt for the next line. One with a control character cannot be shown. -/
def prompt? (r : Repl) : Option Bytes :=
  let text := if r.pending.isEmpty then r.settings.prompt else r.settings.continuation
  let isControl := fun (item : Utf8.Item × Bytes) =>
    match item.1 with
    | .char code => Text.isControl code
    | .stray _ => false
  if (Utf8.items text).any isControl then none else some text

/-- Takes a line. The result has what it made the session write. -/
def feed (r : Repl) (line : Bytes) : Session.Response × Repl :=
  let input := if r.pending.isEmpty then line else r.pending ++ Bytes.lineFeed :: line
  let trimmed := Text.trim input
  if trimmed.head? ≠ some 58 && Session.incomplete input then ({}, { r with pending := input })
  else if trimmed.isEmpty then ({}, { r with pending := [] })
  else
    let entry := input.map fun b => if b = Bytes.lineFeed then 32 else b
    let (response, machine) := Session.handle r.pretty r.machine input
    (response, { r with
      pending := [], machine := machine, history := remember r.history entry, ended := response.quit })

def banner : Bytes := "StarBird REPL. Type :help for commands, :quit to exit.\n"

def records (time run : Bytes) (events : Array Trace.Event) : Bytes :=
  events.toList.flatMap fun e => (Trace.Record.ofEvent time run e).render

variable {m : Type → Type} [Monad m]

def historyPath (host : Host m) (settings : Settings) : Bytes :=
  Path.expandHome host.home settings.history

def start (host : Host m) (settings : Settings) (pretty : Bool) : m Repl := do
  host.out banner
  let path := historyPath host settings
  let history ← if path.isEmpty then pure [] else do
    match ← host.read path with
    | .ok content => pure (readHistory content)
    | .error _ => pure []
  let trace ← if settings.trace.isEmpty then pure none else do
    let path := Path.expandHome host.home settings.trace
    match ← host.write path [] with
    | .ok () => pure (some path)
    | .error _ =>
      let message := Bytes.ofString "cannot open trace file: " ++ settings.trace
      host.err (Diagnostic.renderAll pretty [⟨.io, 0, [], message⟩] ++ [Bytes.lineFeed])
      pure none
  return { settings := settings, pretty := pretty, history := history, trace := trace }

def step (host : Host m) (r : Repl) (line : Bytes) : m Repl := do
  let (response, r) := r.feed line
  host.out response.out
  host.err response.err
  return r

def finish (host : Host m) (run : Bytes) (r : Repl) : m Unit := do
  match r.trace with
  | some path =>
    let _ ← host.write path (records (← host.time) run r.machine.events)
  | none => pure ()
  let path := historyPath host r.settings
  if !path.isEmpty then
    let _ ← host.write path (writeHistory r.history)

/-- Reads lines until the session ends, the lines do, or a prompt cannot be shown. -/
def loop (host : Host m) (r : Repl) : List Bytes → m Repl
  | [] => do
    host.out (r.prompt?.getD [] ++ [Bytes.lineFeed])
    return r
  | line :: rest => do
    match r.prompt? with
    | none =>
      host.out [Bytes.lineFeed]
      return r
    | some prompt =>
      host.out prompt
      let r ← r.step host line
      if r.ended then return r else loop host r rest

end Repl

end BlockScript
