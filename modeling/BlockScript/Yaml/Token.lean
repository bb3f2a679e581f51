import BlockScript.Yaml.Scalar

/-! YAML tokens. Indentation becomes tokens that open and close block collections, and a scalar or
bracket that turns out to be a key gets its key token in front when the colon behind it is reached. -/

namespace BlockScript.Yaml

inductive Token.Kind
  | streamEnd
  | version (major minor : Nat)
  | tagHandle (handle expansion : List Char)
  | documentStart
  | documentEnd
  | blockSequenceStart
  | blockMappingStart
  | blockEnd
  | flowSequenceStart
  | flowSequenceEnd
  | flowMappingStart
  | flowMappingEnd
  | blockEntry
  | flowEntry
  | key
  | value
  | alias (name : List Char)
  | anchor (name : List Char)
  | tag (handle suffix : List Char)
  | scalar (isPlain : Bool) (text : List Char)
  deriving DecidableEq, Repr

structure Token where
  kind : Token.Kind
  line : Nat
  deriving DecidableEq, Repr

/-- A token that may turn out to be a key. If it is `required` to, there is no other way to read it. -/
structure PossibleKey where
  required : Bool
  position : Nat
  line : Nat
  column : Nat
  index : Nat

/-- How far a text has been cut. `depth` counts open brackets, `indent` is the column of the innermost
block collection and `outer` those around it; `keys` has one slot for each bracket and one for the
block, innermost first. -/
structure Scan where
  cursor : Cursor
  depth : Nat := 0
  indent : Int := -1
  outer : List Int := []
  keys : List (Option PossibleKey) := [none]
  keyAllowed : Bool := true
  tokens : Array Token := #[]

namespace Scan

def push (s : Scan) (kind : Token.Kind) (line : Nat) : Scan :=
  { s with tokens := s.tokens.push ⟨kind, line⟩ }

def take (s : Scan) (kind : Token.Kind) (size : Nat) : Scan :=
  { s with tokens := s.tokens.push ⟨kind, s.cursor.line⟩, cursor := s.cursor.skip size }

def insert (s : Scan) (position : Nat) (kind : Token.Kind) (line : Nat) : Scan :=
  { s with tokens := s.tokens.insertIdxIfInBounds position ⟨kind, line⟩ }

def closeBlocks (column : Int) (line : Nat) : List Int → Int → Array Token → Int × List Int × Array Token
  | [], indent, tokens => (indent, [], tokens)
  | next :: outer, indent, tokens =>
    if column < indent then closeBlocks column line outer next (tokens.push ⟨.blockEnd, line⟩)
    else (indent, next :: outer, tokens)

def unroll (s : Scan) (column : Int) : Scan :=
  if 0 < s.depth then s
  else
    let (indent, outer, tokens) := closeBlocks column s.cursor.line s.outer s.indent s.tokens
    { s with indent := indent, outer := outer, tokens := tokens }

def roll (s : Scan) (column : Nat) (position : Nat) (kind : Token.Kind) (line : Nat) : Scan :=
  if s.depth = 0 && s.indent < column then
    { s.insert position kind line with indent := column, outer := s.indent :: s.outer }
  else s

/-- Gives up the possible key of the innermost level, which fails if it had to be one. -/
def dropKey? (s : Scan) : Option Scan :=
  match s.keys with
  | some key :: keys => if key.required then none else some { s with keys := none :: keys }
  | _ => some s

def saveKey? (s : Scan) : Option Scan :=
  if !s.keyAllowed then some s
  else do
    let s ← s.dropKey?
    let c := s.cursor
    let required := s.depth = 0 && s.indent = c.column
    some { s with keys := some ⟨required, s.tokens.size, c.line, c.column, c.index⟩ :: s.keys.drop 1 }

def keyLimit : Nat := 1024

/-- The possible key of the innermost level if the colon at this place can still belong to it. Fails
if a required key has been missed. -/
def liveKey? (s : Scan) : Option (Option PossibleKey) :=
  match s.keys with
  | some key :: _ =>
    if key.line < s.cursor.line || key.index + keyLimit < s.cursor.index then
      (if key.required then none else some none)
    else some (some key)
  | _ => some none

/-- Skips blanks, comments and line breaks. A tab may not stand where a key may begin. -/
def toToken (s : Scan) : (fuel : Nat) → Scan
  | 0 => s
  | fuel + 1 =>
    let c := s.cursor
    let c := if c.column = 0 && c.rest.head? = some byteOrderMark then c.skip 1 else c
    let (_, c) := c.span fun ch => ch == ' ' || ((0 < s.depth || !s.keyAllowed) && ch == '\t')
    let c := if c.rest.head? = some '#' then (c.span (!isBreak ·)).2 else c
    if atBreak c.rest then
      toToken { s with cursor := c.newline, keyAllowed := s.depth = 0 || s.keyAllowed } fuel
    else { s with cursor := c }

def isNameChar (c : Char) : Bool := c.isAlphanum || c == '_' || c == '-'

def name? (s : Scan) (make : List Char → Token.Kind) : Option Scan := do
  let s ← s.saveKey?
  let (name, c) := (s.cursor.skip 1).span isNameChar
  let ends := atGap c.rest ||
    c.rest.head?.any fun ch => ['?', ':', ',', ']', '\x7d', '%', '@', Char.ofNat 96].contains ch
  if name.isEmpty || !ends then none
  else some { s.push (make name) s.cursor.line with cursor := c, keyAllowed := false }

def isAddressChar (verbatim : Bool) (c : Char) : Bool :=
  isNameChar c || ";/?:@&=+$.!~*'()%".toList.contains c || (verbatim && ",[]".toList.contains c)

/-- Replaces the bytes written by their codes in an address. -/
def unescape? : List Char → Option (List UInt8)
  | [] => some []
  | '%' :: a :: b :: rest => do
    let high ← hexValue? a
    let low ← hexValue? b
    return (high * 16 + low).toUInt8 :: (← unescape? rest)
  | '%' :: _ => none
  | c :: rest => do return Utf8.encode c.toNat ++ (← unescape? rest)

def address? (text : List Char) : Option (List Char) := do
  let bytes ← unescape? text
  let s ← Bytes.toString? bytes
  return s.toList

/-- Reads a tag: a verbatim one in angle brackets, or a handle between exclamation marks and a
suffix. -/
def tag? (s : Scan) : Option Scan := do
  let s ← s.saveKey?
  let c := s.cursor.skip 1
  let (handle, suffix, c) ←
    if c.rest.head? = some '<' then do
      let (text, c) := (c.skip 1).span (isAddressChar true)
      if text.isEmpty || c.rest.head? ≠ some '>' then none
      else pure ([], ← address? text, c.skip 1)
    else do
      let (word, after) := c.span isNameChar
      if after.rest.head? = some '!' then do
        let (text, after) := (after.skip 1).span (isAddressChar false)
        if text.isEmpty then none else pure ('!' :: word ++ ['!'], ← address? text, after)
      else do
        let (text, after) := c.span (isAddressChar false)
        pure (['!'], ← address? text, after)
  if !atGap c.rest then none
  else some { s.push (.tag handle suffix) s.cursor.line with cursor := c, keyAllowed := false }

def number? (c : Cursor) : Option (Nat × Cursor) :=
  let (digits, c) := c.span (·.isDigit)
  if digits.isEmpty || 9 < digits.length then none
  else some (Bytes.digitsValue (encodeChars digits), c)

def directive? (s : Scan) : Option Scan := do
  let s ← (s.unroll (-1)).dropKey?
  let (name, c) := (s.cursor.skip 1).span isNameChar
  if name.isEmpty || !atGap c.rest then none
  else
    let (_, c) := c.span isBlank
    let (kind, c) ←
      if name = "YAML".toList then do
        let (major, c) ← number? c
        if c.rest.head? ≠ some '.' then none
        else
          let (minor, c) ← number? (c.skip 1)
          pure (Token.Kind.version major minor, c)
      else if name = "TAG".toList then do
        let (word, after) := (c.skip 1).span isNameChar
        if c.rest.head? ≠ some '!' then none
        else do
          let (handle, after) ←
            if after.rest.head? = some '!' then pure ('!' :: word ++ ['!'], after.skip 1)
            else if word.isEmpty then pure (['!'], after)
            else none
          if !after.rest.head?.any isBlank then none
          else
            let (text, after) := (after.span isBlank).2.span (isAddressChar true)
            if text.isEmpty || !atGap after.rest then none
            else pure (Token.Kind.tagHandle handle (← address? text), after)
      else none
    let (_, c) := c.span isBlank
    let c := if c.rest.head? = some '#' then (c.span (!isBreak ·)).2 else c
    if !c.rest.isEmpty && !atBreak c.rest then none
    else some { s.push kind s.cursor.line with cursor := c.newline, keyAllowed := false }

def value? (s : Scan) : Option Scan := do
  match ← s.liveKey? with
  | some key =>
    let s := s.insert key.position .key key.line
    let s := s.roll key.column key.position .blockMappingStart key.line
    some { s.take .value 1 with keys := none :: s.keys.drop 1, keyAllowed := false }
  | none =>
    if s.depth = 0 && !s.keyAllowed then none
    else
      let s := s.roll s.cursor.column s.tokens.size .blockMappingStart s.cursor.line
      some { s.take .value 1 with keyAllowed := s.depth = 0 }

/-- An item of a block sequence or a key with its own mark. -/
def blockMark? (s : Scan) (kind opening : Token.Kind) : Option Scan :=
  if s.depth = 0 && !s.keyAllowed then none
  else do
    let s := s.roll s.cursor.column s.tokens.size opening s.cursor.line
    let s ← s.dropKey?
    some { s.take kind 1 with keyAllowed := true }

def open? (s : Scan) (kind : Token.Kind) : Option Scan := do
  let s ← s.saveKey?
  some { s.take kind 1 with depth := s.depth + 1, keys := none :: s.keys, keyAllowed := true }

def close? (s : Scan) (kind : Token.Kind) : Option Scan := do
  let s ← s.dropKey?
  let keys := if s.depth = 0 then s.keys else s.keys.drop 1
  some { s.take kind 1 with depth := s.depth - 1, keys := keys, keyAllowed := false }

def quoted? (s : Scan) (double : Bool) : Option Scan := do
  let s ← s.saveKey?
  let c := s.cursor.skip 1
  let (text, c) ← readQuoted double (c.rest.length + 1) c []
  some { s.push (.scalar false text.reverse) s.cursor.line with cursor := c, keyAllowed := false }

def block? (s : Scan) (literal : Bool) : Option Scan := do
  let s ← s.dropKey?
  let (text, c) ← readBlock literal s.indent (s.cursor.skip 1)
  some { s.push (.scalar false text) s.cursor.line with cursor := c, keyAllowed := true }

def plain? (s : Scan) : Option Scan := do
  let s ← s.saveKey?
  let c := s.cursor
  let (text, c, moved) ← readPlain (0 < s.depth) (s.indent + 1) (c.rest.length + 1) c {} []
  some { s.push (.scalar true text.reverse) s.cursor.line with cursor := c, keyAllowed := moved }

def documentMark? (s : Scan) (kind : Token.Kind) : Option Scan := do
  let s ← (s.unroll (-1)).dropKey?
  some { s.take kind 3 with keyAllowed := false }

def isReserved (c : Char) : Bool :=
  ",[]\x7b\x7d#&*!|>'\"%@".toList.contains c || c == Char.ofNat 96

/-- Cuts the next token. The second part of the result says that it is the last. -/
def next? (s : Scan) : Option (Scan × Bool) := do
  let s := s.toToken (s.cursor.rest.length + 1)
  let s := s.unroll s.cursor.column
  let c := s.cursor
  match c.rest with
  | [] =>
    let s ← (s.unroll (-1)).dropKey?
    some (s.push .streamEnd c.line, true)
  | ch :: rest =>
    let flow := 0 < s.depth
    let s ←
      if c.column = 0 && ch == '%' then s.directive?
      else if c.atDocumentMark then
        s.documentMark? (if ch == '-' then .documentStart else .documentEnd)
      else if ch == '[' then s.open? .flowSequenceStart
      else if ch == '\x7b' then s.open? .flowMappingStart
      else if ch == ']' then s.close? .flowSequenceEnd
      else if ch == '\x7d' then s.close? .flowMappingEnd
      else if ch == ',' then do
        let s ← s.dropKey?
        some { s.take .flowEntry 1 with keyAllowed := true }
      else if ch == '-' && atGap rest then s.blockMark? .blockEntry .blockSequenceStart
      else if ch == '?' && (flow || atGap rest) then do
        let s ← s.blockMark? .key .blockMappingStart
        some { s with keyAllowed := !flow }
      else if ch == ':' && (flow || atGap rest) then s.value?
      else if ch == '*' then s.name? .alias
      else if ch == '&' then s.name? .anchor
      else if ch == '!' then s.tag?
      else if ch == '|' && !flow then s.block? true
      else if ch == '>' && !flow then s.block? false
      else if ch == '\'' then s.quoted? false
      else if ch == '"' then s.quoted? true
      else if isReserved ch || isSpace ch then none
      else s.plain?
    some (s, false)

/-- Cuts tokens until the end or until a place that no token can begin at; the second part of the
result tells which. -/
def all : (fuel : Nat) → Scan → Array Token × Bool
  | 0, s => (s.tokens, false)
  | fuel + 1, s =>
    match s.next? with
    | none => (s.tokens, false)
    | some (s, true) => (s.tokens, true)
    | some (s, false) => all fuel s

end Scan

/-- The tokens that can be relied on: all of them, or those that have two more behind them before the
place where the text goes wrong. -/
def tokens (text : List Char) : List Token :=
  let (tokens, complete) := Scan.all (text.length + 1) { cursor := { rest := text } }
  if complete then tokens.toList else tokens.toList.dropLast.dropLast

end BlockScript.Yaml
