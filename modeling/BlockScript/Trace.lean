import BlockScript.Diagnostic
import BlockScript.Json
import BlockScript.Decimal
import BlockScript.Text
import BlockScript.Instant

/-! What a run reports about its own progress. -/

namespace BlockScript.Trace

inductive Event
  | runStart
  | runEnd
  | stmtStart (line : Int) (kind : String)
  | stmtEnd (line : Int)
  | blockEnter (line : Int)
  | blockExit (line : Int)
  | print (line : Int) (text : Bytes) (json : Bytes)
  | runtimeError (line : Int) (code : Diagnostic.Code) (message : Bytes)
  deriving DecidableEq

namespace Event

def name : Event → String
  | runStart => "run_start"
  | runEnd => "run_end"
  | stmtStart .. => "stmt_start"
  | stmtEnd _ => "stmt_end"
  | blockEnter _ => "block_enter"
  | blockExit _ => "block_exit"
  | print .. => "print"
  | runtimeError .. => "runtime_error"

def line : Event → Int
  | runStart | runEnd => 0
  | stmtStart line _ | stmtEnd line | blockEnter line | blockExit line | print line _ _
  | runtimeError line _ _ => line

def data : Event → List (String × Bytes)
  | stmtStart _ kind => [("kind", Bytes.ofString kind)]
  | print _ text json => [("json", json), ("value", text)]
  | runtimeError _ code message => [("code", code.name), ("message", message)]
  | _ => []

end Event

/-! Trace files hold one JSON object a line for each event, with the time and the run it belongs to. -/

structure Record where
  time : Bytes := []
  run : Bytes := []
  event : Bytes := []
  line : Int := 0
  data : List (Bytes × Bytes) := []
  deriving DecidableEq

namespace Record

def ofEvent (time run : Bytes) (e : Event) : Record :=
  ⟨time, run, Bytes.ofString e.name, e.line, e.data.map fun (key, v) => (Bytes.ofString key, v)⟩

/-- A line of zero and empty data are left out. -/
def toJson (r : Record) : Json :=
  .object ([Json.member "ts" (.string r.time), Json.member "runId" (.string r.run),
      Json.member "event" (.string r.event)] ++
    (if r.line = 0 then [] else [Json.member "line" (.int r.line)]) ++
    (if r.data.isEmpty then []
      else [Json.member "data" (.object (r.data.map fun (key, v) => (key, .string v)))]))

def render (r : Record) : Bytes := r.toJson.render ++ [Bytes.lineFeed]

def get (r : Record) (key : String) : Bytes :=
  ((r.data.reverse.find? fun entry => entry.1 = Bytes.ofString key).map (·.2)).getD []

/-- A key in capitals. The long s and the sign for kelvin count as the letters they are forms of. -/
def folded (key : Bytes) : Bytes :=
  (Utf8.items key).flatMap fun
    | (.char code, bytes) =>
      if 97 ≤ code && code ≤ 122 then [(code - 32).toUInt8]
      else if code = 0x17F then [83]
      else if code = 0x212A then [75]
      else bytes
    | (.stray _, bytes) => bytes

/-- The integer a number's text denotes, if it has neither point nor exponent and fits into 64
bits. -/
def integer? (text : Bytes) : Option Int :=
  let (negative, digits) := match text with
    | 45 :: rest => (true, rest)
    | _ => (false, text)
  if digits.all Bytes.isDigit then
    let magnitude : Int := Bytes.digitsValue digits
    let n := if negative then -magnitude else magnitude
    if -0x8000000000000000 ≤ n && n < 0x8000000000000000 then some n else none
  else none

def text? (before : Bytes) : Json → Option Bytes
  | .string s => some s
  | .null => some before
  | _ => none

def entries? : List (Bytes × Json) → Option (List (Bytes × Bytes))
  | [] => some []
  | (key, j) :: rest => do
    let v ← text? [] j
    let more ← entries? rest
    return (key, v) :: more

/-- Takes over one member of an object. Keys are matched without regard to case, unknown ones are
passed over, and a known one with a value of another type is an error. -/
def absorb? (r : Record) (key : Bytes) (j : Json) : Option Record :=
  let key := folded key
  if key = Bytes.ofString "TS" then (text? r.time j).map fun s => { r with time := s }
  else if key = Bytes.ofString "RUNID" then (text? r.run j).map fun s => { r with run := s }
  else if key = Bytes.ofString "EVENT" then (text? r.event j).map fun s => { r with event := s }
  else if key = Bytes.ofString "LINE" then
    match j with
    | .number text => (integer? text).map fun n => { r with line := n }
    | .null => some r
    | _ => none
  else if key = Bytes.ofString "DATA" then
    match j with
    | .object members => (entries? members).map fun more => { r with data := r.data ++ more }
    | .null => some { r with data := [] }
    | _ => none
  else some r

def ofJson? : Json → Option Record
  | .null => some {}
  | .object members => members.foldlM (fun r (key, j) => r.absorb? key j) {}
  | _ => none

def parse? (line : Bytes) : Option Record := (Json.parse? line).bind ofJson?

end Record

/-! Counting the events of a trace. Lines that are no records are passed over, and reading ends at the
first line that is too long. -/

def tally (code : Bytes) (counts : List (Bytes × Nat)) : List (Bytes × Nat) :=
  Entries.alter code (fun n => n.getD 0 + 1) counts

structure Summary where
  run : Bytes := []
  events : Nat := 0
  statements : Nat := 0
  prints : Nat := 0
  depth : Int := 0
  maxDepth : Int := 0
  faults : Nat := 0
  faultsByCode : List (Bytes × Nat) := []
  start : Bytes := []
  finish : Bytes := []
  deriving DecidableEq

namespace Summary

/-- Counts one record. The run is named by the first record that names one, the start is that of the
first run that has a time, and the end that of the last. -/
def step (s : Summary) (r : Record) : Summary :=
  let s := { s with events := s.events + 1, run := if s.run.isEmpty then r.run else s.run }
  if r.event = Bytes.ofString "run_start" then
    { s with start := if s.start.isEmpty then r.time else s.start }
  else if r.event = Bytes.ofString "run_end" then { s with finish := r.time }
  else if r.event = Bytes.ofString "stmt_start" then { s with statements := s.statements + 1 }
  else if r.event = Bytes.ofString "print" then { s with prints := s.prints + 1 }
  else if r.event = Bytes.ofString "block_enter" then
    { s with depth := s.depth + 1, maxDepth := max s.maxDepth (s.depth + 1) }
  else if r.event = Bytes.ofString "block_exit" then { s with depth := s.depth - 1 }
  else if r.event = Bytes.ofString "runtime_error" then
    { s with faults := s.faults + 1, faultsByCode := tally (r.get "code") s.faultsByCode }
  else s

def ofRecords (records : List Record) : Summary := records.foldl step {}

def ofFile (content : Bytes) : Summary :=
  ofRecords ((Text.boundedLines content).1.filterMap fun line => Record.parse? (Text.trim line))

/-- Milliseconds from start to end, zero unless both can be read. -/
def duration (s : Summary) : Float :=
  match Instant.parse? s.start, Instant.parse? s.finish with
  | some start, some finish => Float.ofInt (Instant.microseconds start finish) / 1000
  | _, _ => 0

/-- Times that were never given are left out. -/
def toJson (s : Summary) : Json :=
  .object ([Json.member "runId" (.string s.run), Json.member "totalEvents" (.nat s.events),
      Json.member "statements" (.nat s.statements), Json.member "prints" (.nat s.prints),
      Json.member "maxBlockDepth" (.int s.maxDepth), Json.member "runtimeErrors" (.nat s.faults),
      Json.member "errorsByCode" (.object (s.faultsByCode.map fun (code, n) => (code, .nat n)))] ++
    (if s.start.isEmpty then [] else [Json.member "startTime" (.string s.start)]) ++
    (if s.finish.isEmpty then [] else [Json.member "endTime" (.string s.finish)]) ++
    [Json.member "durationMs" (.number (Decimal.Layout.json.text s.duration))])

/-- For a person. The duration is shown if it is positive. -/
def text (s : Summary) : Bytes :=
  let line := fun (label : String) (content : Bytes) =>
    Bytes.ofString label ++ content ++ [Bytes.lineFeed]
  line "Run: " s.run ++ line "Events: " (Bytes.natural s.events) ++
    line "Statements: " (Bytes.natural s.statements) ++ line "Prints: " (Bytes.natural s.prints) ++
    line "Max block depth: " (Bytes.integer s.maxDepth) ++
    line "Runtime errors: " (Bytes.natural s.faults) ++
    s.faultsByCode.flatMap (fun (code, n) =>
      line "  " (code ++ Bytes.ofString ": " ++ Bytes.natural n)) ++
    if 0 < s.duration then line "Duration: " (Decimal.fixed 3 s.duration ++ Bytes.ofString "ms") else []

end Summary

end BlockScript.Trace
