import BlockScript.Text

/-! Paths as texts. Cleaning a path gives the shortest one with the same meaning where no name in it
is a link: points and doubled slashes go, and a double point takes the name before it away. -/

namespace BlockScript.Path

def slash : UInt8 := 47
def point : UInt8 := 46

def isRooted (path : Bytes) : Bool := path.head? = some slash

/-- Puts a part on a stack of parts. A double point takes the top away; on an empty stack it stays,
unless the path is rooted. -/
def push (rooted : Bool) (stack : List Bytes) (part : Bytes) : List Bytes :=
  if part.isEmpty || part = Bytes.ofString "." then stack
  else if part = Bytes.ofString ".." then
    match stack with
    | [] => if rooted then [] else [part]
    | top :: below => if top = Bytes.ofString ".." then part :: stack else below
  else part :: stack

/-- The empty path is the point. -/
def clean (path : Bytes) : Bytes :=
  let rooted := isRooted path
  let stack := (Bytes.splitAt slash path).foldl (push rooted) []
  let text := Bytes.join [slash] stack.reverse
  if rooted then slash :: text else if text.isEmpty then Bytes.ofString "." else text

def join (front back : Bytes) : Bytes :=
  if front.isEmpty && back.isEmpty then []
  else if front.isEmpty then clean back
  else if back.isEmpty then clean front
  else clean (front ++ slash :: back)

def base (path : Bytes) : Bytes :=
  if path.isEmpty then Bytes.ofString "."
  else
    let kept := (path.reverse.dropWhile (· == slash)).reverse
    if kept.isEmpty then [slash] else (kept.reverse.takeWhile (· != slash)).reverse

/-- The end of the last part from its last point on, empty if it has none. -/
def extension (path : Bytes) : Bytes :=
  let last := (Bytes.splitAt slash path).getLastD []
  if List.elem point last then point :: (last.reverse.takeWhile (· != point)).reverse else []

def stem (path : Bytes) : Bytes :=
  let name := base path
  let ext := extension path
  if ext.isSuffixOf name then name.take (name.length - ext.length) else name

/-- Replaces a leading tilde and slash by the home directory, if there is one. -/
def expandHome (home : Option Bytes) (path : Bytes) : Bytes :=
  match path, home with
  | 126 :: 47 :: rest, some (b :: bs) => join (b :: bs) rest
  | _, _ => path

end BlockScript.Path

/-! Files and directories as a value. A path is followed part by part: every part but the last must be
a directory, and so must the last one if a slash follows it. -/

namespace BlockScript

inductive FileFault
  | missing
  | notDirectory
  | isDirectory
  | nameTooLong
  | badName
  | other (text : Bytes)
  deriving DecidableEq, Repr

def FileFault.message : FileFault → Bytes
  | .missing => "no such file or directory"
  | .notDirectory => "not a directory"
  | .isDirectory => "is a directory"
  | .nameTooLong => "file name too long"
  | .badName => "invalid argument"
  | .other text => text

/-- Why a file cannot be read. A directory can be opened but not read. -/
def FileFault.onRead (path : Bytes) (fault : FileFault) : Bytes :=
  Bytes.ofString (if fault = .isDirectory then "read " else "open ") ++ path ++ Bytes.ofString ": " ++
    fault.message

def FileFault.onOpen (path : Bytes) (fault : FileFault) : Bytes :=
  Bytes.ofString "open " ++ path ++ Bytes.ofString ": " ++ fault.message

abbrev Place := List Bytes

inductive Entry
  | file (content : Bytes)
  | directory
  deriving DecidableEq, Repr

structure FileSystem where
  entries : List (Place × Entry) := []
  deriving DecidableEq, Repr

namespace FileSystem

def entry? (fs : FileSystem) (place : Place) : Option Entry :=
  if place.isEmpty then some .directory else fs.entries.lookup place

def nameLimit : Nat := 255
def pathLimit : Nat := 4095

/-- Follows the parts of a path from a place. The last part need not exist. -/
def walk (fs : FileSystem) (place : Place) : List Bytes → Except FileFault Place
  | [] => .ok place
  | part :: rest =>
    match fs.entry? place with
    | none => .error .missing
    | some (.file _) => .error .notDirectory
    | some .directory =>
      if nameLimit < part.length then .error .nameTooLong
      else if part.isEmpty || part = Bytes.ofString "." then fs.walk place rest
      else if part = Bytes.ofString ".." then fs.walk place.dropLast rest
      else fs.walk (place ++ [part]) rest

def resolve (fs : FileSystem) (directory : Place) (path : Bytes) : Except FileFault Place :=
  if path.isEmpty then .error .missing
  else if List.elem 0 path then .error .badName
  else if pathLimit < path.length then .error .nameTooLong
  else fs.walk (if Path.isRooted path then [] else directory) (Bytes.splitAt Path.slash path)

def read (fs : FileSystem) (directory : Place) (path : Bytes) : Except FileFault Bytes := do
  let place ← fs.resolve directory path
  match fs.entry? place with
  | none => .error .missing
  | some .directory => .error .isDirectory
  | some (.file content) => .ok content

def put (fs : FileSystem) (place : Place) (entry : Entry) : FileSystem :=
  if fs.entries.any (·.1 = place) then
    ⟨fs.entries.map fun e => if e.1 = place then (place, entry) else e⟩
  else ⟨fs.entries ++ [(place, entry)]⟩

/-- The files with one of them created or replaced. A path whose last part cannot name a file is taken
for a directory. -/
def write (fs : FileSystem) (directory : Place) (path content : Bytes) :
    Except FileFault FileSystem := do
  let parts := Bytes.splitAt Path.slash path
  let last := parts.getLastD []
  if path.isEmpty then .error .missing
  else if last.isEmpty || last = Bytes.ofString "." || last = Bytes.ofString ".." then
    let front := path.take (path.length - last.length - 1)
    let _ ← if front.isEmpty then .ok directory else fs.resolve directory front
    .error .isDirectory
  else
    let place ← fs.resolve directory path
    match fs.entry? place with
    | some .directory => .error .isDirectory
    | _ => .ok (fs.put place (.file content))

def list (fs : FileSystem) (directory : Place) (path : Bytes) :
    Except FileFault (List (Bytes × Bool)) := do
  let place ← fs.resolve directory path
  match fs.entry? place with
  | none => .error .missing
  | some (.file _) => .error .notDirectory
  | some .directory =>
    .ok (fs.entries.filterMap fun e =>
      match e.1.getLast? with
      | some name => if e.1.dropLast = place then some (name, e.2 = .directory) else none
      | none => none)

def withParents (fs : FileSystem) (place : Place) : FileSystem :=
  (List.range (place.length - 1)).foldl (fun fs n =>
    let above := place.take (n + 1)
    if (fs.entry? above).isSome then fs else fs.put above .directory) fs

end FileSystem

/-! What a command needs from its surroundings, over any monad: the terminal commands run against the
machine they are started on, and the same commands can be run against files that are a value. -/

structure Host (m : Type → Type) where
  read : Bytes → m (Except FileFault Bytes)
  write : Bytes → Bytes → m (Except FileFault Unit)
  /-- The working directory. -/
  directory : Bytes
  /-- The home directory, if there is one. -/
  home : Option Bytes
  /-- All that can be read from the input, and why reading ended if not at its end. -/
  input : m (Bytes × Option Bytes)
  out : Bytes → m Unit
  err : Bytes → m Unit
  /-- The present time as traces write it. -/
  time : m Bytes
  /-- A name for a run that no other run has. -/
  runName : m Bytes

structure Surroundings where
  files : FileSystem
  input : Bytes := []
  inputFault : Option Bytes := none
  out : Bytes := []
  err : Bytes := []

/-- A host whose files and channels are a value, with a fixed time and run name. -/
def Host.ofPlace (directory : Place) (home : Option Bytes) (time runName : Bytes) :
    Host (StateM Surroundings) where
  read path := return (← get).files.read directory path
  write path content := do
    match (← get).files.write directory path content with
    | .error fault => return .error fault
    | .ok files =>
      modify fun s => { s with files := files }
      return .ok ()
  directory := Path.slash :: Bytes.join [Path.slash] directory
  home := home
  input := do
    let s ← get
    set { s with input := [] }
    return (s.input, s.inputFault)
  out text := modify fun s => { s with out := s.out ++ text }
  err text := modify fun s => { s with err := s.err ++ text }
  time := return time
  runName := return runName

end BlockScript
