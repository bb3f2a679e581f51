import BlockScript.Datum
import BlockScript.Text.Characters
import BlockScript.Yaml.Node

/-! Reading the values of known fields out of a document. A value that does not fit its field is a
complaint with its line; reading goes on and all complaints are reported together. A null leaves its
field as it is. -/

namespace BlockScript.Yaml

inductive Fault
  | malformed
  | empty
  | unfit (complaints : List Bytes)
  deriving DecidableEq, Repr

/-- Only the complaints of this library have their own words. What is malformed is told by one text
that stands for any reader's, without the place and the reason. -/
def Fault.message : Fault → Bytes
  | .malformed => "yaml: <syntax>"
  | .empty => "EOF"
  | .unfit complaints =>
    Bytes.ofString "yaml: unmarshal errors:" ++
      complaints.flatMap fun complaint => Bytes.ofString "\n  " ++ complaint

/-- Reading collects complaints, the latest first. -/
abbrev Reading := StateT (List Bytes) (Except Fault)

namespace Reading

def complain (line : Nat) (text : Bytes) : Reading Unit :=
  modify fun complaints =>
    (Bytes.ofString "line " ++ Bytes.natural (line + 1) ++ Bytes.ofString ": " ++ text) :: complaints

def excerpt (text : Bytes) : Bytes :=
  if 10 < text.length then text.take 7 ++ Bytes.ofString "..." else text

/-- The complaint that a node has no value of the given type. Under the tag of a collection its text
stands bare. -/
def mismatch (line : Nat) (tag text : Bytes) (type : String) : Reading Unit :=
  let shown := if tag = Node.sequenceTag || tag = Node.mappingTag then text
    else Bytes.ofString " \x60" ++ excerpt text ++ Bytes.ofString "\x60"
  complain line (Bytes.ofString "cannot unmarshal " ++ tag ++ shown ++ Bytes.ofString " into " ++
    Bytes.ofString type)

/-- What a scalar stands for; its tag must fit. -/
def meaning (tag text : Bytes) : Reading Plain :=
  match Plain.ofTag? tag text with
  | some plain => return plain
  | none => throw .malformed

/-- What makes two keys of a mapping the same: their kind and their text. -/
def keyIdentity : Node → Nat × Bytes
  | .scalar _ _ text => (0, text)
  | .alias _ name _ => (1, name)
  | .sequence .. => (2, [])
  | .mapping .. => (3, [])

/-- Whether the keys of a mapping differ; each pair of equal ones is a complaint. -/
def distinctKeys : List (Node × Node) → Reading Bool
  | [] => return true
  | (key, _) :: rest => do
    let equals := rest.filter fun entry => keyIdentity entry.1 = keyIdentity key
    for entry in equals do
      complain entry.1.line (Bytes.ofString "mapping key " ++ Text.quote (keyIdentity key).2 ++
        Bytes.ofString " already defined at line " ++ Bytes.natural (key.line + 1))
    let others ← distinctKeys rest
    return equals.isEmpty && others

/-- A value made from a scalar; a collection is a complaint. `none` leaves the field as it is. -/
def scalar {α : Type} (type : String) (make : Plain → Bytes → Option α) (node : Node) :
    Reading (Option α) := do
  match node.target with
  | .scalar line tag text =>
    match ← meaning tag text with
    | .null => return none
    | plain =>
      match make plain text with
      | some a => return some a
      | none =>
        mismatch line tag text type
        return none
  | .sequence line tag _ =>
    mismatch line tag [] type
    return none
  | .mapping line tag entries =>
    if ← distinctKeys entries then mismatch line tag [] type
    return none
  | .alias .. => return none

/-- A text is the scalar as it is written, but for bytes in base 64. -/
def text : Node → Reading (Option Bytes) :=
  scalar "string" fun plain text =>
    match plain with
    | .binary data => some data
    | _ => some text

def boolOfWord? (text : Bytes) : Option Bool :=
  if ["y", "Y", "yes", "on"].any fun word => Bytes.ofString word = text then some true
  else if ["n", "N", "no", "off"].any fun word => Bytes.ofString word = text then some false
  else none

def bool : Node → Reading (Option Bool) :=
  scalar "bool" fun plain _ =>
    match plain with
    | .bool b => some b
    | .text s => boolOfWord? s
    | .binary s => boolOfWord? s
    | _ => none

/-- A double without its fraction, as an integer of 64 bits; what is out of range is the least of
them. -/
def truncate (x : Float) : Int :=
  let size : Int := (Decimal.numeratorAt (Decimal.place x) / Nat.pow 2 Decimal.finest : Nat)
  let n := if Decimal.isNegative x then -size else size
  if -0x8000000000000000 ≤ n && n < 0x8000000000000000 then n else -0x8000000000000000

/-- A number may have a fraction, which is dropped. -/
def int : Node → Reading (Option Int) :=
  scalar "int" fun plain _ =>
    match plain with
    | .int n => if n < 0x8000000000000000 then some n else none
    | .float x => if x ≤ floatOfInt 0x8000000000000000 then some (truncate x) else none
    | _ => none

/-- A sequence of values of one type. Items that are null or do not fit are left out. -/
def list {α : Type} (type : String) (item : Node → Reading (Option α)) (node : Node) :
    Reading (Option (List α)) := do
  match node.target with
  | .sequence _ _ items =>
    let values ← items.mapM item
    return some (values.filterMap id)
  | other => scalar type (fun _ _ => none) other

def texts : Node → Reading (Option (List Bytes)) := list "[]string" text

/-- A field of a record: its name and how its value changes the record. -/
structure Field (σ : Type) where
  name : String
  set : Node → σ → Reading σ

def field {σ α : Type} (name : String) (value : Node → Reading (Option α)) (put : α → σ → σ) :
    Field σ :=
  ⟨name, fun node record => do
    match ← value node with
    | some a => return put a record
    | none => return record⟩

/-- Sets the fields of a record from the entries of a mapping. A name that is no field and a field
named twice are complaints. -/
def setFields {σ : Type} (type : String) (fields : List (Field σ)) (done : List Bytes) (record : σ) :
    List (Node × Node) → Reading σ
  | [] => return record
  | (key, value) :: rest => do
    match ← text key with
    | none => setFields type fields done record rest
    | some name =>
      match fields.find? fun f => Bytes.ofString f.name = name with
      | none =>
        complain key.line (Bytes.ofString "field " ++ name ++ Bytes.ofString " not found in type " ++
          Bytes.ofString type)
        setFields type fields done record rest
      | some f =>
        if done.contains name then
          complain key.line (Bytes.ofString "field " ++ name ++ Bytes.ofString " already set in type " ++
            Bytes.ofString type)
          setFields type fields done record rest
        else
          let changed ← f.set value record
          setFields type fields (name :: done) changed rest

def record {σ : Type} (type : String) (fields : List (Field σ)) (start : σ) (node : Node) :
    Reading σ := do
  match node.target with
  | .mapping _ _ entries =>
    if ← distinctKeys entries then setFields type fields [] start entries
    else return start
  | other =>
    let _ : Option Unit ← scalar type (fun _ _ => none) other
    return start

/-- The name of a member under a key that is a scalar. Null, truth values and floating numbers name
none. -/
def memberName? : Plain → Option Bytes
  | .int n => some (Bytes.integer n)
  | .time t => some t
  | .binary s => some s
  | .text s => some s
  | _ => none

def datumOf : Plain → Datum
  | .null => .null
  | .bool b => .bool b
  | .int n => .number (floatOfInt n)
  | .float x => .number x
  | .time t => .string t
  | .binary s => .string s
  | .text s => .string s

/-- The datum of a mapping's entries. The last of several entries of one name counts. -/
def datumOfEntries (entries : List (Option Bytes × Datum)) : Datum :=
  match entries.mapM fun (name?, d) => name?.map fun name => (name, d) with
  | some members => .object (members.foldl (fun done (name, d) => Entries.insert name d done) [])
  | none => .nameless

mutual

/-- Any value. Only a mapping with equal keys has none. -/
def datum : Node → Reading (Option Datum)
  | .scalar _ tag text => do return some (datumOf (← meaning tag text))
  | .sequence _ _ items => do return some (.array (← datumItems items))
  | .mapping _ _ entries => do
    if ← distinctKeys entries then return some (datumOfEntries (← datumEntries entries))
    else return none
  | .alias _ _ target => datum target

def datumItems : List Node → Reading (List Datum)
  | [] => return []
  | node :: rest => do
    match ← datum node with
    | some d => return d :: (← datumItems rest)
    | none => datumItems rest

/-- The entries of a mapping by the names of their keys. A collection cannot be a key. -/
def datumEntries : List (Node × Node) → Reading (List (Option Bytes × Datum))
  | [] => return []
  | (key, value) :: rest => do
    match key.target with
    | .scalar _ tag text =>
      let name? := memberName? (← meaning tag text)
      let value ← datum value
      let entries ← datumEntries rest
      match value with
      | some d => return (name?, d) :: entries
      | none => return entries
    | _ => throw .malformed

end

def data : Node → Reading (Option (List Datum)) := list "[]interface \x7b\x7d" datum

def run {α : Type} (reading : Node → Reading α) (source : Bytes) : Except Fault α :=
  match Node.read? source with
  | none => .error .malformed
  | some none => .error .empty
  | some (some root) =>
    match StateT.run (reading root) [] with
    | .error fault => .error fault
    | .ok (value, []) => .ok value
    | .ok (_, complaints) => .error (.unfit complaints.reverse)

end Reading

end BlockScript.Yaml
