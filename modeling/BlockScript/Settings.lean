import BlockScript.Files
import BlockScript.Yaml.Reading

/-! Settings of the command line and of interactive sessions. A file in the working directory goes
before one in the home directory; without either the defaults hold. -/

namespace BlockScript

structure Settings where
  pretty : Bool := false
  prompt : Bytes := "> "
  continuation : Bytes := ". "
  history : Bytes := "~/.starbird_history"
  trace : Bytes := []
  deriving DecidableEq

namespace Settings

open Yaml in
def fields : List (Reading.Field Settings) :=
  [Reading.field "pretty" Reading.bool fun b s => { s with pretty := b },
    Reading.field "prompt" Reading.text fun t s => { s with prompt := t },
    Reading.field "continuation" Reading.text fun t s => { s with continuation := t },
    Reading.field "history" Reading.text fun t s => { s with history := t },
    Reading.field "trace" Reading.text fun t s => { s with trace := t }]

/-- The settings a text gives; what it leaves out keeps its default, and a text without a document
leaves out all. -/
def read (text : Bytes) : Except Yaml.Fault Settings :=
  match Yaml.Reading.run (Yaml.Reading.record "config.Config" fields {}) text with
  | .error .empty => .ok {}
  | result => result

def expand (home : Option Bytes) (s : Settings) : Settings :=
  { s with history := Path.expandHome home s.history, trace := Path.expandHome home s.trace }

/-- What a look for settings found: the settings to use, the file they come from, empty if there is
none, and why that file cannot be used. -/
structure Found where
  settings : Settings := {}
  path : Bytes := []
  fault : Option Bytes := none

def candidates (directory : Bytes) (home : Option Bytes) : List Bytes :=
  Path.join directory ".starbird.yaml" ::
    match home with
    | some (b :: bs) => [Path.join (b :: bs) ".starbird/config.yaml"]
    | _ => []

def unusable (path reason : Bytes) : Found :=
  { path := path
    fault := some (Bytes.ofString "config: " ++ path ++ Bytes.ofString ": " ++ reason) }

variable {m : Type → Type} [Monad m]

def firstOf (host : Host m) : List Bytes → m Found
  | [] => return {}
  | path :: rest => do
    match ← host.read path with
    | .error .missing => firstOf host rest
    | .error .isDirectory =>
      return unusable path
        (Bytes.ofString "yaml: input error: " ++ FileFault.onRead path .isDirectory)
    | .error fault => return unusable path (fault.onOpen path)
    | .ok text =>
      match read text with
      | .error fault => return unusable path fault.message
      | .ok settings => return { settings := settings.expand host.home, path := path }

def load (host : Host m) : m Found := firstOf host (candidates host.directory host.home)

end Settings

/-! Conformance scenarios: a program or lines of a session, the command to run it with, and what is
expected of it. -/

/-- What is expected of a run. What is absent is not checked. -/
structure Expectation where
  exitCode : Int := 0
  stdout : Option Bytes := none
  stdoutContains : Bytes := []
  stderr : Option Bytes := none
  stderrContains : Bytes := []
  diagnostics : Option (List Datum) := none
  globals : List Bytes := []

structure Scenario where
  name : Bytes := []
  command : List Bytes := []
  source : Bytes := []
  lines : List Bytes := []
  tags : List Bytes := []
  expect : Expectation := {}

namespace Scenario

open Yaml in
def expectationFields : List (Reading.Field Expectation) :=
  [Reading.field "exitCode" Reading.int fun n e => { e with exitCode := n },
    Reading.field "stdout" Reading.text fun t e => { e with stdout := some t },
    Reading.field "stdoutContains" Reading.text fun t e => { e with stdoutContains := t },
    Reading.field "stderr" Reading.text fun t e => { e with stderr := some t },
    Reading.field "stderrContains" Reading.text fun t e => { e with stderrContains := t },
    Reading.field "stderrJsonSubset" Reading.data fun d e => { e with diagnostics := some d },
    Reading.field "globals" Reading.texts fun ts e => { e with globals := ts }]

open Yaml in
def fields : List (Reading.Field Scenario) :=
  [Reading.field "name" Reading.text fun t s => { s with name := t },
    Reading.field "cmd" Reading.texts fun ts s => { s with command := ts },
    Reading.field "source" Reading.text fun t s => { s with source := t },
    Reading.field "lines" Reading.texts fun ts s => { s with lines := ts },
    Reading.field "tags" Reading.texts fun ts s => { s with tags := ts },
    ⟨"expect", fun node s => do
      let expect ← Reading.record "testutil.ExpectedResult" expectationFields s.expect node
      return { s with expect := expect }⟩]

/-- The subcommand, which is to run unless another is named. -/
def subcommand (s : Scenario) : Bytes := s.command.headD "run"

def hasFlag (s : Scenario) (flag : Bytes) : Bool := s.command.contains flag

inductive Fault
  | file (fault : FileFault)
  | text (fault : Yaml.Fault)
  | sourceAndLines

def Fault.message (path : Bytes) : Fault → Bytes
  | .file .isDirectory =>
    Bytes.ofString "scenario " ++ path ++ Bytes.ofString ": yaml: input error: " ++
      FileFault.onRead path .isDirectory
  | .file fault => fault.onOpen path
  | .text .empty => Bytes.ofString "scenario " ++ path ++ Bytes.ofString " is empty"
  | .text fault => Bytes.ofString "scenario " ++ path ++ Bytes.ofString ": " ++ fault.message
  | .sourceAndLines =>
    Bytes.ofString "scenario " ++ path ++ Bytes.ofString ": source and lines are mutually exclusive"

/-- The scenario a text describes. Without a name it is called by its file. -/
def read (path text : Bytes) : Except Fault Scenario :=
  match Yaml.Reading.run (Yaml.Reading.record "testutil.Scenario" fields {}) text with
  | .error fault => .error (.text fault)
  | .ok s =>
    if !s.source.isEmpty && !s.lines.isEmpty then .error .sourceAndLines
    else .ok (if s.name.isEmpty then { s with name := Path.stem path } else s)

def isScenarioName (name : Bytes) : Bool :=
  Path.extension name = Bytes.ofString ".yaml" || Path.extension name = Bytes.ofString ".yml"

/-- The paths of the scenarios among the entries of a directory, sorted. An entry is a name and
whether it is a directory itself. -/
def paths (root : Bytes) (entries : List (Bytes × Bool)) : List Bytes :=
  let names := entries.filterMap fun e => if !e.2 && isScenarioName e.1 then some e.1 else none
  (names.map (Path.join root)).mergeSort fun a b => decide (a ≤ b)

variable {m : Type → Type} [Monad m]

def load (host : Host m) (path : Bytes) : m (Except Fault Scenario) := do
  match ← host.read path with
  | .error fault => return .error (.file fault)
  | .ok text => return read path text

end Scenario

end BlockScript
