import BlockScript.Command
import BlockScript.Instant
import BlockScript.NodeGrammar
import Std.Time.Format

/-! The programs as they run on a machine: its files, channels and clock. -/

namespace BlockScript

def pathName (path : Bytes) : String := (Bytes.toString? path).getD ""

def ofArray (content : ByteArray) : Bytes := content.data.toList

def toArray (text : Bytes) : ByteArray := ⟨text.toArray⟩

def faultOf (e : IO.Error) : FileFault :=
  match e with
  | .noFileOrDirectory .. => .missing
  | .inappropriateType .. => .isDirectory
  | other => .other (Bytes.ofString (toString other))

def attempt {α : Type} (action : IO α) : IO (Except FileFault α) := do
  match ← action.toBaseIO with
  | .ok a => return .ok a
  | .error e => return .error (faultOf e)

/-- All that a stream has left. -/
partial def readAll (stream : IO.FS.Stream) (done : ByteArray) : IO ByteArray := do
  let chunk ← stream.read 65536
  if chunk.isEmpty then return done else readAll stream (done ++ chunk)

def nanosecondsNow : IO Int := do
  let now ← Std.Time.Timestamp.now
  return now.toNanosecondsSinceUnixEpoch.val

def machineHost : IO (Host IO) := do
  let directory ← IO.currentDir
  let home ← IO.getEnv "HOME"
  let stdin ← IO.getStdin
  let stdout ← IO.getStdout
  let stderr ← IO.getStderr
  return {
    read := fun path => attempt (return ofArray (← IO.FS.readBinFile (pathName path)))
    write := fun path content => attempt (IO.FS.writeBinFile (pathName path) (toArray content))
    directory := Bytes.ofString directory.toString
    home := home.map Bytes.ofString
    input := do
      match ← (readAll stdin ByteArray.empty).toBaseIO with
      | .ok content => return (ofArray content, none)
      | .error e => return ([], some (Bytes.ofString (toString e)))
    out := fun text => do
      stdout.write (toArray text)
      stdout.flush
    err := fun text => do
      stderr.write (toArray text)
      stderr.flush
    time := return Instant.render (Instant.epoch + (← nanosecondsNow))
    runName := return Bytes.ofString "run-" ++ Bytes.integer (← nanosecondsNow) }

/-- Prompts for lines one by one until the session ends. -/
partial def converse (host : Host IO) (r : Repl) : IO Repl := do
  match r.prompt? with
  | none =>
    host.out [Bytes.lineFeed]
    return r
  | some prompt =>
    host.out prompt
    let line ← (← IO.getStdin).getLine
    if line.isEmpty then
      host.out [Bytes.lineFeed]
      return r
    else
      let text := Bytes.ofString line
      let text := if text.getLast? = some Bytes.lineFeed then Text.dropReturn text.dropLast else text
      let r ← r.step host text
      if r.ended then return r else converse host r

/-- A session that answers each line before it reads the next. -/
def interact (host : Host IO) (arguments : List Bytes) : IO Nat := do
  let run ← host.runName
  let r ← Command.startSession host arguments
  let r ← converse host r
  r.finish host run
  return 0

def generateMain (arguments : List String) : IO UInt32 := do
  let exit ← NodeGrammar.command (← machineHost) (arguments.map Bytes.ofString)
  return exit.toUInt32

end BlockScript

open BlockScript in
def main (arguments : List String) : IO UInt32 := do
  let host ← machineHost
  let exit ← match arguments with
    | [] => interact host []
    | "repl" :: rest => interact host (rest.map Bytes.ofString)
    | _ => Command.dispatch host (arguments.map Bytes.ofString)
  return exit.toUInt32
