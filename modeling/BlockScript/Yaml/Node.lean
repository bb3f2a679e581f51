import BlockScript.Yaml.Scalar
import BlockScript.Yaml.Token

/-! The nodes of a YAML document, built from its tokens. Every node has the line it begins on and a
tag; an untagged one gets the tag of its kind, and a plain scalar that of its meaning. -/

namespace BlockScript.Yaml

inductive Node
  | scalar (line : Nat) (tag text : Bytes)
  | sequence (line : Nat) (tag : Bytes) (items : List Node)
  | mapping (line : Nat) (tag : Bytes) (entries : List (Node × Node))
  | alias (line : Nat) (name : Bytes) (target : Node)

namespace Node

def mergeTag : Bytes := "!!merge"

def defaultTag (isPlain : Bool) (text : Bytes) : Bytes :=
  if !isPlain then Bytes.ofString "!!str"
  else if text = Bytes.ofString "<<" then mergeTag
  else (Plain.resolve true text).tag

/-- What is left to read, the anchors seen so far and the handles of tags. An anchor has no node until
its node has ended. -/
structure Source where
  tokens : List Token
  anchors : List (List Char × Option Node) := []
  handles : List (List Char × List Char) := []

abbrev Build := StateT Source Option

def peek : Build Token := do
  match (← get).tokens with
  | [] => failure
  | t :: _ => return t

def advance : Build Unit := modify fun s => { s with tokens := s.tokens.drop 1 }

def skipIf (kind : Token.Kind) : Build Bool := do
  if (← peek).kind = kind then
    advance
    return true
  else return false

def standardTags : List Char := "tag:yaml.org,2002:".toList

/-- The full form of a tag. A handle that was not declared is refused, but for the two that always
stand. -/
def expandTag (handle suffix : List Char) : Build (List Char) := do
  if handle.isEmpty then return suffix
  match (← get).handles.lookup handle with
  | some expansion => return expansion ++ suffix
  | none =>
    if handle = "!".toList then return handle ++ suffix
    else if handle = "!!".toList then return standardTags ++ suffix
    else failure

def shorten (tag : List Char) : Bytes :=
  if standardTags.isPrefixOf tag then
    Bytes.ofString "!!" ++ encodeChars (tag.drop standardTags.length)
  else encodeChars tag

/-- The anchor and the tag in front of a node, in either order. -/
def properties : (fuel : Nat) → Option (List Char) → Option Bytes →
    Build (Option (List Char) × Option Bytes)
  | 0, anchor, tag => return (anchor, tag)
  | fuel + 1, anchor, tag => do
    match (← peek).kind, anchor, tag with
    | .anchor name, none, _ =>
      advance
      properties fuel (some name) tag
    | .tag handle suffix, _, none =>
      advance
      let full ← expandTag handle suffix
      properties fuel anchor (some (shorten full))
    | _, _, _ => return (anchor, tag)

/-- The tag a node was given, where a lone exclamation mark gives none. -/
def given (tag : Option Bytes) : Option Bytes := tag.filter (· != Bytes.ofString "!")

def empty (line : Nat) : Node := .scalar line (defaultTag true []) []

def tagged (line : Nat) (tag : Option Bytes) (isPlain : Bool) (text : List Char) : Node :=
  let text := encodeChars text
  .scalar line ((given tag).getD (defaultTag isPlain text)) text

def mappingTag : Bytes := "!!map"
def sequenceTag : Bytes := "!!seq"

def target : Node → Node
  | .alias _ _ node => node.target
  | node => node

def keyText? (key : Node) : Option Bytes :=
  match key.target with
  | .scalar _ _ text => some text
  | _ => none

def isMergeKey : Node → Bool
  | .scalar _ tag text => tag == mergeTag && text == Bytes.ofString "<<"
  | _ => false

def mergedEntries? (value : Node) : Option (List (List (Node × Node))) :=
  let entries? := fun (node : Node) =>
    match node.target with
    | .mapping _ _ entries => some entries
    | _ => none
  match value with
  | .sequence _ _ items => items.mapM entries?
  | node => (entries? node).map ([·])

/-- Adds the entries of merged mappings behind the entries of a mapping, which go before them. A second
merge key is a key given twice, and nothing is merged. -/
def merge (entries : List (Node × Node)) : Build (List (Node × Node)) :=
  let own := entries.filter fun entry => !isMergeKey entry.1
  match entries.filter fun entry => isMergeKey entry.1 with
  | [] => return own
  | _ :: _ :: _ => return entries
  | [(_, value)] =>
    match mergedEntries? value with
    | none => failure
    | some groups =>
      return groups.foldl (fun done group =>
        let names := done.filterMap fun entry => keyText? entry.1
        done ++ group.filter fun entry => !(keyText? entry.1).any names.contains) own

def setAnchor (name : List Char) (node? : Option Node) : Build Unit :=
  modify fun s => { s with anchors := (name, node?) :: s.anchors }

mutual

/-- A node, which in a block may be a block collection. In a mapping its items may stand at the
column of the key. -/
def build (fuel : Nat) (block indentless : Bool) : Build Node :=
  match fuel with
  | 0 => failure
  | fuel + 1 => do
    let first ← peek
    match first.kind with
    | .alias name =>
      advance
      match (← get).anchors.lookup name with
      | some (some target) => return .alias first.line (encodeChars name) target
      | _ => failure
    | _ =>
      let (anchor, tag) ← properties 3 none none
      match anchor with
      | some name => setAnchor name none
      | none => pure ()
      let node ← content fuel block indentless first.line tag (anchor.isSome || tag.isSome)
      match anchor with
      | some name => setAnchor name (some node)
      | none => pure ()
      return node

def content (fuel : Nat) (block indentless : Bool) (line : Nat) (tag : Option Bytes)
    (hasProperties : Bool) : Build Node :=
  match fuel with
  | 0 => failure
  | fuel + 1 => do
    match (← peek).kind with
    | .scalar isPlain text =>
      advance
      return tagged line tag isPlain text
    | .flowSequenceStart =>
      advance
      return .sequence line ((given tag).getD sequenceTag) (← flowItems fuel true)
    | .flowMappingStart =>
      advance
      return .mapping line ((given tag).getD mappingTag) (← merge (← flowEntries fuel true))
    | kind =>
      if indentless && kind = .blockEntry then
        return .sequence line ((given tag).getD sequenceTag) (← indentlessItems fuel)
      else if block && kind = .blockSequenceStart then
        advance
        return .sequence line ((given tag).getD sequenceTag) (← blockItems fuel)
      else if block && kind = .blockMappingStart then
        advance
        return .mapping line ((given tag).getD mappingTag) (← merge (← blockEntries fuel))
      else if hasProperties then return tagged line tag true []
      else failure

/-- A node unless the next token is one of those that show it is missing. -/
def orEmpty (fuel : Nat) (block indentless : Bool) (missing : List Token.Kind) : Build Node :=
  match fuel with
  | 0 => failure
  | fuel + 1 => do
    let next ← peek
    if missing.contains next.kind then return empty next.line
    else build fuel block indentless

def blockItems (fuel : Nat) : Build (List Node) :=
  match fuel with
  | 0 => failure
  | fuel + 1 => do
    if ← skipIf .blockEntry then
      let item ← orEmpty fuel true false [.blockEntry, .blockEnd]
      return item :: (← blockItems fuel)
    else if ← skipIf .blockEnd then return []
    else failure

def indentlessItems (fuel : Nat) : Build (List Node) :=
  match fuel with
  | 0 => failure
  | fuel + 1 => do
    if ← skipIf .blockEntry then
      let item ← orEmpty fuel true false [.blockEntry, .key, .value, .blockEnd]
      return item :: (← indentlessItems fuel)
    else return []

def blockEntries (fuel : Nat) : Build (List (Node × Node)) :=
  match fuel with
  | 0 => failure
  | fuel + 1 => do
    if ← skipIf .key then
      let key ← orEmpty fuel true true [.key, .value, .blockEnd]
      let line := (← peek).line
      let value ← if ← skipIf .value then orEmpty fuel true true [.key, .value, .blockEnd]
        else pure (empty line)
      return (key, value) :: (← blockEntries fuel)
    else if ← skipIf .blockEnd then return []
    else failure

/-- The items of a sequence in brackets. A key among them makes a mapping with one entry. -/
def flowItems (fuel : Nat) (isFirst : Bool) : Build (List Node) :=
  match fuel with
  | 0 => failure
  | fuel + 1 => do
    if ← skipIf .flowSequenceEnd then return []
    else if !isFirst && !(← skipIf .flowEntry) then failure
    else if ← skipIf .flowSequenceEnd then return []
    else
      let next ← peek
      if next.kind = .key then
        advance
        let after ← peek
        let missing := [Token.Kind.value, .flowEntry, .flowSequenceEnd].contains after.kind
        let key ← if missing then
            advance
            pure (empty after.line)
          else build fuel false false
        let line := (← peek).line
        let value ← if ← skipIf .value then orEmpty fuel false false [.flowEntry, .flowSequenceEnd]
          else pure (empty line)
        return .mapping next.line mappingTag [(key, value)] :: (← flowItems fuel false)
      else
        let item ← build fuel false false
        return item :: (← flowItems fuel false)

def flowEntries (fuel : Nat) (isFirst : Bool) : Build (List (Node × Node)) :=
  match fuel with
  | 0 => failure
  | fuel + 1 => do
    if ← skipIf .flowMappingEnd then return []
    else if !isFirst && !(← skipIf .flowEntry) then failure
    else if ← skipIf .flowMappingEnd then return []
    else if ← skipIf .key then
      let key ← orEmpty fuel false false [.value, .flowEntry, .flowMappingEnd]
      let line := (← peek).line
      let value ← if ← skipIf .value then orEmpty fuel false false [.flowEntry, .flowMappingEnd]
        else pure (empty line)
      return (key, value) :: (← flowEntries fuel false)
    else
      let key ← build fuel false false
      return (key, empty (← peek).line) :: (← flowEntries fuel false)

end

def directives : (fuel : Nat) → (versionSeen : Bool) → Build Unit
  | 0, _ => failure
  | fuel + 1, versionSeen => do
    match (← peek).kind with
    | .version major minor =>
      if versionSeen || major ≠ 1 || minor ≠ 1 then failure
      else
        advance
        directives fuel true
    | .tagHandle handle expansion =>
      if ((← get).handles.lookup handle).isSome then failure
      else
        advance
        modify fun s => { s with handles := (handle, expansion) :: s.handles }
        directives fuel versionSeen
    | _ => return ()

/-- The first document, if there is one. What follows it is not looked at beyond its first token. -/
def document (fuel : Nat) : Build (Option Node) := do
  let first ← peek
  match first.kind with
  | .streamEnd => return none
  | .version .. | .tagHandle .. | .documentStart =>
    directives fuel false
    if !(← skipIf .documentStart) then failure
    else
      let next ← peek
      let root ← match next.kind with
        | .version .. | .tagHandle .. | .documentStart | .documentEnd | .streamEnd =>
          pure (empty next.line)
        | _ => build fuel true false
      let _ ← peek
      return some root
  | _ =>
    let root ← build fuel true false
    let _ ← peek
    return some root

/-- Reads the first document of a text: `none` if the text is malformed, `some none` if it holds no
document. -/
def read? (text : Bytes) : Option (Option Node) := do
  let chars ← characters? text
  let tokens := tokens chars
  let (root, _) ← (document (4 * tokens.length + 8)).run { tokens := tokens }
  return root

def line : Node → Nat
  | .scalar line _ _ => line
  | .sequence line _ _ => line
  | .mapping line _ _ => line
  | .alias line _ _ => line

end Node

end BlockScript.Yaml
