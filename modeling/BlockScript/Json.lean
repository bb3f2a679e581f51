import BlockScript.Text

/-! JSON values and their text on one line without blanks. Members keep the order in which they are
given, and a number is kept as the text it is written with. -/

namespace BlockScript

inductive Json
  | null
  | bool (b : Bool)
  | number (text : Bytes)
  | string (s : Bytes)
  | array (items : List Json)
  | object (members : List (Bytes × Json))

namespace Json

/-- How a character is written inside a string. The angle brackets, the ampersand and the two line
separators are escaped so that the text can stand inside markup and scripts. -/
def escapeCode? (code : Nat) : Option Bytes :=
  if code = 34 then some (Bytes.ofString "\\\"")
  else if code = 92 then some (Bytes.ofString "\\\\")
  else if code = 8 then some (Bytes.ofString "\\b")
  else if code = 12 then some (Bytes.ofString "\\f")
  else if code = 10 then some (Bytes.ofString "\\n")
  else if code = 13 then some (Bytes.ofString "\\r")
  else if code = 9 then some (Bytes.ofString "\\t")
  else if code < 0x20 || code == 60 || code == 62 || code == 38 || code == 0x2028 || code == 0x2029 then
    some (Bytes.ofString "\\u" ++ Bytes.hex 4 code)
  else none

/-- A byte that belongs to no character is replaced. -/
def escapeItem : Utf8.Item × Bytes → Bytes
  | (.stray _, _) => Utf8.encode Utf8.replacement
  | (.char code, bytes) => (escapeCode? code).getD bytes

def quoted (s : Bytes) : Bytes := 34 :: (Utf8.items s).flatMap escapeItem ++ [34]

mutual

def render : Json → Bytes
  | null => Bytes.ofString "null"
  | bool true => Bytes.ofString "true"
  | bool false => Bytes.ofString "false"
  | number text => text
  | string s => quoted s
  | array items => 91 :: renderItems items ++ [93]
  | object members => 123 :: renderMembers members ++ [125]

def renderItems : List Json → Bytes
  | [] => []
  | [j] => render j
  | j :: k :: rest => render j ++ 44 :: renderItems (k :: rest)

def renderMembers : List (Bytes × Json) → Bytes
  | [] => []
  | [(name, j)] => quoted name ++ 58 :: render j
  | (name, j) :: m :: rest => quoted name ++ 58 :: render j ++ 44 :: renderMembers (m :: rest)

end

def text (s : String) : Json := .string (Bytes.ofString s)
def int (n : Int) : Json := .number (Bytes.integer n)
def nat (n : Nat) : Json := .number (Bytes.natural n)
def member (name : String) (j : Json) : Bytes × Json := (Bytes.ofString name, j)

end Json

end BlockScript

/-! Reading JSON text. The text must be one value with nothing but blanks around it. Members are kept
in the order and number in which they are written, numbers by their text. Nesting is limited. -/

namespace BlockScript.Json.Reader

def deepest : Nat := 10000

def isBlank (b : UInt8) : Bool := b == 32 || b == 9 || b == 10 || b == 13

def skip (s : Bytes) : Bytes := s.dropWhile isBlank

/-- A part of a string: a byte as it stands, or a sixteen-bit unit given by its digits. -/
inductive Piece
  | byte (b : UInt8)
  | unit (n : Nat)

def hexValue? (b : UInt8) : Option Nat :=
  if 48 ≤ b && b ≤ 57 then some (b.toNat - 48)
  else if 97 ≤ b && b ≤ 102 then some (b.toNat - 87)
  else if 65 ≤ b && b ≤ 70 then some (b.toNat - 55)
  else none

def unit? (a b c d : UInt8) : Option Nat := do
  let w ← hexValue? a
  let x ← hexValue? b
  let y ← hexValue? c
  let z ← hexValue? d
  return ((w * 16 + x) * 16 + y) * 16 + z

def escaped? (b : UInt8) : Option UInt8 :=
  if b = 34 || b = 92 || b = 47 then some b
  else if b = 98 then some 8
  else if b = 102 then some 12
  else if b = 110 then some 10
  else if b = 114 then some 13
  else if b = 116 then some 9
  else none

/-- The pieces up to the closing quote mark, and the text behind it. -/
def pieces (done : List Piece) : Bytes → Option (List Piece × Bytes)
  | [] => none
  | 34 :: rest => some (done.reverse, rest)
  | 92 :: 117 :: a :: b :: c :: d :: rest =>
    match unit? a b c d with
    | some n => pieces (.unit n :: done) rest
    | none => none
  | 92 :: b :: rest =>
    match escaped? b with
    | some c => pieces (.byte c :: done) rest
    | none => none
  | b :: rest => if b < 32 || b = 92 then none else pieces (.byte b :: done) rest

def isHighSurrogate (n : Nat) : Bool := 0xD800 ≤ n && n < 0xDC00
def isLowSurrogate (n : Nat) : Bool := 0xDC00 ≤ n && n < 0xE000

def ofUnit (n : Nat) : Nat := if isHighSurrogate n || isLowSurrogate n then Utf8.replacement else n

/-- Gathers the bytes of a string in reverse in front of `done`. Two surrogates in order make one
character; one alone is replaced. -/
def assembleOnto (done : Bytes) : List Piece → Bytes
  | [] => done.reverse
  | .byte b :: rest => assembleOnto (b :: done) rest
  | .unit n :: .unit m :: rest =>
    if isHighSurrogate n && isLowSurrogate m then
      assembleOnto ((Utf8.encode (0x10000 + (n - 0xD800) * 1024 + (m - 0xDC00))).reverse ++ done) rest
    else assembleOnto ((Utf8.encode (ofUnit n)).reverse ++ done) (.unit m :: rest)
  | .unit n :: rest => assembleOnto ((Utf8.encode (ofUnit n)).reverse ++ done) rest

/-- Replaces the bytes that belong to no character. -/
def sanitize (s : Bytes) : Bytes :=
  (Utf8.items s).flatMap fun
    | (.char _, bytes) => bytes
    | (.stray _, _) => Utf8.encode Utf8.replacement

def string? (s : Bytes) : Option (Bytes × Bytes) :=
  (pieces [] s).map fun (ps, rest) => (sanitize (assembleOnto [] ps), rest)

def digits? (s : Bytes) : Option (Bytes × Bytes) :=
  match s.takeWhile Bytes.isDigit with
  | [] => none
  | ds => some (ds, s.dropWhile Bytes.isDigit)

/-- Digits without a zero in front of others. -/
def whole? (s : Bytes) : Option (Bytes × Bytes) :=
  match s with
  | 48 :: rest => some ([48], rest)
  | _ => digits? s

def fraction? (s : Bytes) : Option (Bytes × Bytes) :=
  match s with
  | 46 :: rest => (digits? rest).map fun (ds, rest) => (46 :: ds, rest)
  | _ => some ([], s)

def exponent? (s : Bytes) : Option (Bytes × Bytes) :=
  match s with
  | e :: rest =>
    if e = 101 || e = 69 then
      match rest with
      | sign :: more =>
        if sign = 43 || sign = 45 then (digits? more).map fun (ds, rest) => (e :: sign :: ds, rest)
        else (digits? rest).map fun (ds, rest) => (e :: ds, rest)
      | [] => none
    else some ([], s)
  | [] => some ([], s)

def unsigned? (s : Bytes) : Option (Bytes × Bytes) := do
  let (w, s) ← whole? s
  let (f, s) ← fraction? s
  let (e, s) ← exponent? s
  return (w ++ f ++ e, s)

def number? (s : Bytes) : Option (Bytes × Bytes) :=
  match s with
  | 45 :: rest => (unsigned? rest).map fun (text, rest) => (45 :: text, rest)
  | _ => unsigned? s

def word? (word : String) (j : Json) (s : Bytes) : Option (Json × Bytes) :=
  if (Bytes.ofString word).isPrefixOf s then some (j, s.drop word.utf8ByteSize) else none

mutual

/-- A value with blanks before it. The first number bounds the steps, the second the nesting left. -/
def value : (steps depth : Nat) → Bytes → Option (Json × Bytes)
  | 0, _, _ => none
  | steps + 1, depth, s =>
    match skip s with
    | [] => none
    | b :: rest =>
      if b = 34 then (string? rest).map fun (t, rest) => (.string t, rest)
      else if b = 91 then
        match depth, skip rest with
        | 0, _ => none
        | _ + 1, 93 :: rest => some (.array [], rest)
        | depth + 1, rest => elements steps depth [] rest
      else if b = 123 then
        match depth, skip rest with
        | 0, _ => none
        | _ + 1, 125 :: rest => some (.object [], rest)
        | depth + 1, rest => members steps depth [] rest
      else if b = 110 then word? "null" .null (b :: rest)
      else if b = 116 then word? "true" (.bool true) (b :: rest)
      else if b = 102 then word? "false" (.bool false) (b :: rest)
      else (number? (b :: rest)).map fun (text, rest) => (.number text, rest)

def elements : (steps depth : Nat) → List Json → Bytes → Option (Json × Bytes)
  | 0, _, _, _ => none
  | steps + 1, depth, done, s =>
    match value steps depth s with
    | none => none
    | some (j, rest) =>
      match skip rest with
      | 44 :: rest => elements steps depth (j :: done) rest
      | 93 :: rest => some (.array (j :: done).reverse, rest)
      | _ => none

def members : (steps depth : Nat) → List (Bytes × Json) → Bytes → Option (Json × Bytes)
  | 0, _, _, _ => none
  | steps + 1, depth, done, s =>
    match skip s with
    | 34 :: rest =>
      match string? rest with
      | none => none
      | some (name, rest) =>
        match skip rest with
        | 58 :: rest =>
          match value steps depth rest with
          | none => none
          | some (j, rest) =>
            match skip rest with
            | 44 :: rest => members steps depth ((name, j) :: done) rest
            | 125 :: rest => some (.object ((name, j) :: done).reverse, rest)
            | _ => none
        | _ => none
    | _ => none

end

end BlockScript.Json.Reader

namespace BlockScript.Json

/-- The value a text denotes, if it is JSON. Every step but the one into a list reads a byte, so twice
the length bounds them. -/
def parse? (s : Bytes) : Option Json :=
  match Reader.value (2 * s.length + 2) Reader.deepest s with
  | some (j, rest) => if (Reader.skip rest).isEmpty then some j else none
  | none => none

end BlockScript.Json
