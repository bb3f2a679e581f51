import BlockScript.Text
import BlockScript.Decimal
import BlockScript.Instant

/-! A place in a YAML text, and the characters that are blanks and line breaks there. -/

namespace BlockScript.Yaml

def isAllowed (code : Nat) : Bool :=
  code == 9 || code == 10 || code == 13 || (0x20 ≤ code && code ≤ 0x7E) || code == 0x85 ||
    (0xA0 ≤ code && code ≤ 0xFFFD) || 0x10000 ≤ code

def byteOrderMark : Char := Char.ofNat 0xFEFF

def allowed? : Utf8.Item × Bytes → Option Char
  | (.char code, _) => if isAllowed code then some (Char.ofNat code) else none
  | (.stray _, _) => none

/-- The characters of a text, less a byte order mark in front, if all are allowed. -/
def characters? (text : Bytes) : Option (List Char) :=
  ((Utf8.items text).mapM allowed?).map fun chars =>
    if chars.head? = some byteOrderMark then chars.drop 1 else chars

def encodeChars (chars : List Char) : Bytes := chars.flatMap fun c => Utf8.encode c.toNat

def isBreak (c : Char) : Bool :=
  c == '\n' || c == '\r' || c.toNat == 0x85 || c.toNat == 0x2028 || c.toNat == 0x2029

def isBlank (c : Char) : Bool := c == ' ' || c == '\t'

def isSpace (c : Char) : Bool := isBlank c || isBreak c

def atGap : List Char → Bool
  | [] => true
  | c :: _ => isSpace c

def atBreak : List Char → Bool
  | [] => false
  | c :: _ => isBreak c

/-- What is left of a text, the position of its first character, and how many characters precede
it. Lines and columns count from zero. -/
structure Cursor where
  rest : List Char
  line : Nat := 0
  column : Nat := 0
  index : Nat := 0

namespace Cursor

def skip (c : Cursor) (n : Nat) : Cursor :=
  { c with rest := c.rest.drop n, column := c.column + n, index := c.index + n }

/-- The place after a line break, which may be a carriage return with a line feed. -/
def newline (c : Cursor) : Cursor :=
  match c.rest with
  | '\r' :: '\n' :: rest => ⟨rest, c.line + 1, 0, c.index + 2⟩
  | _ :: rest => ⟨rest, c.line + 1, 0, c.index + 1⟩
  | [] => c

def lineBreak (c : Cursor) : List Char :=
  match c.rest with
  | ch :: _ => if ch.toNat == 0x2028 || ch.toNat == 0x2029 then [ch] else ['\n']
  | [] => []

def span (c : Cursor) (test : Char → Bool) : List Char × Cursor :=
  let taken := c.rest.takeWhile test
  (taken, c.skip taken.length)

def atDocumentMark (c : Cursor) : Bool :=
  c.column == 0 &&
    match c.rest with
    | a :: b :: d :: rest => a == b && b == d && (a == '-' || a == '.') && atGap rest
    | _ => false

end Cursor

/-! The texts of scalars in their five styles: plain, in single and double quotes, and the literal and
folded blocks. A run of blanks and line breaks inside a plain or quoted scalar is a gap: a single line
break in it becomes a blank, and further line breaks are kept. -/

structure Gap where
  blanks : List Char := []
  first : List Char := []
  more : List Char := []
  broken : Bool := false

def Gap.folded (g : Gap) : List Char :=
  if !g.broken then g.blanks
  else if g.first = ['\n'] then (if g.more.isEmpty then [' '] else g.more)
  else g.more ++ g.first

/-- Reads a gap. Behind a line break a tab left of column `indent` is refused. -/
def readGap (indent : Int) : (fuel : Nat) → Cursor → Gap → Option (Gap × Cursor)
  | 0, c, g => some (g, c)
  | fuel + 1, c, g =>
    match c.rest with
    | [] => some (g, c)
    | ch :: _ =>
      if isBlank ch then
        if !g.broken then readGap indent fuel (c.skip 1) { g with blanks := ch :: g.blanks }
        else if ch == '\t' && c.column < indent then none
        else readGap indent fuel (c.skip 1) g
      else if isBreak ch then
        let g := if g.broken then { g with more := c.lineBreak ++ g.more }
          else { blanks := [], first := c.lineBreak, more := g.more, broken := true }
        readGap indent fuel c.newline g
      else some (g, c)

/-! Plain scalars -/

def isFlowMark (c : Char) : Bool := [',', '?', '[', ']', '\x7b', '\x7d'].contains c

/-- How many characters a plain scalar has before the next blank, line break or mark. -/
def plainLength (flow : Bool) (taken : Nat) : List Char → Nat
  | [] => taken
  | c :: rest =>
    if isSpace c || (c == ':' && atGap rest) || (flow && isFlowMark c) then taken
    else plainLength flow (taken + 1) rest

/-- Reads a plain scalar that must stay right of column `indent - 1` outside brackets. The result has
the text in reverse, the place after it, and whether that place is on a later line. -/
def readPlain (flow : Bool) (indent : Int) :
    (fuel : Nat) → Cursor → Gap → List Char → Option (List Char × Cursor × Bool)
  | 0, _, _, _ => none
  | fuel + 1, c, gap, text =>
    if c.atDocumentMark || c.rest.head? = some '#' then some (text, c, gap.broken)
    else
      let size := plainLength flow 0 c.rest
      let (gap, text) := if size = 0 then (gap, text)
        else ({}, (c.rest.take size).reverse ++ gap.folded ++ text)
      let c := c.skip size
      if c.rest.isEmpty || !atGap c.rest then some (text, c, gap.broken)
      else
        match readGap indent (c.rest.length + 1) c gap with
        | none => none
        | some (gap, c) =>
          if !flow && (c.column : Int) < indent then some (text, c, gap.broken)
          else readPlain flow indent fuel c gap text

/-! Quoted scalars -/

def escaped? (c : Char) : Option Char :=
  match c with
  | '0' => some (Char.ofNat 0)
  | 'a' => some (Char.ofNat 7)
  | 'b' => some (Char.ofNat 8)
  | 't' => some '\t'
  | '\t' => some '\t'
  | 'n' => some '\n'
  | 'v' => some (Char.ofNat 11)
  | 'f' => some (Char.ofNat 12)
  | 'r' => some '\r'
  | 'e' => some (Char.ofNat 27)
  | ' ' => some ' '
  | '"' => some '"'
  | '/' => some '/'
  | '\'' => some '\''
  | '\\' => some '\\'
  | 'N' => some (Char.ofNat 0x85)
  | '_' => some (Char.ofNat 0xA0)
  | 'L' => some (Char.ofNat 0x2028)
  | 'P' => some (Char.ofNat 0x2029)
  | _ => none

def hexValue? (c : Char) : Option Nat :=
  if c.isDigit then some (c.toNat - 48)
  else if 'a' ≤ c && c ≤ 'f' then some (c.toNat - 87)
  else if 'A' ≤ c && c ≤ 'F' then some (c.toNat - 55)
  else none

def escapedCode? (size : Nat) (text : List Char) : Option Char := do
  let digits := text.take size
  if digits.length < size then none
  else
    let values ← digits.mapM hexValue?
    let code := values.foldl (fun n d => n * 16 + d) 0
    if (0xD800 ≤ code && code ≤ 0xDFFF) || 0x10FFFF < code then none else some (Char.ofNat code)

def codeSize? (c : Char) : Option Nat :=
  match c with
  | 'x' => some 2
  | 'u' => some 4
  | 'U' => some 8
  | _ => none

def quoteOf (double : Bool) : Char := if double then '"' else '\''

/-- Reads quoted characters up to the next blank, line break or closing quote. A backslash before a
line break in double quotes removes the break; the last part of the result says so. -/
def readQuotedRun (double : Bool) :
    (fuel : Nat) → Cursor → List Char → Option (List Char × Cursor × Bool)
  | 0, _, _ => none
  | fuel + 1, c, text =>
    match c.rest with
    | [] => some (text, c, false)
    | ch :: rest =>
      if isSpace ch then some (text, c, false)
      else if !double && ch == '\'' && rest.head? = some '\'' then
        readQuotedRun double fuel (c.skip 2) ('\'' :: text)
      else if ch == quoteOf double then some (text, c, false)
      else if double && ch == '\\' then
        match rest with
        | [] => none
        | letter :: digits =>
          if isBreak letter then some (text, (c.skip 1).newline, true)
          else
            match escaped? letter with
            | some value => readQuotedRun double fuel (c.skip 2) (value :: text)
            | none => do
              let size ← codeSize? letter
              let value ← escapedCode? size digits
              readQuotedRun double fuel (c.skip (2 + size)) (value :: text)
      else readQuotedRun double fuel (c.skip 1) (ch :: text)

/-- Reads a quoted scalar from behind its opening quote. The text is in reverse. -/
def readQuoted (double : Bool) : (fuel : Nat) → Cursor → List Char → Option (List Char × Cursor)
  | 0, _, _ => none
  | fuel + 1, c, text =>
    if c.atDocumentMark || c.rest.isEmpty then none
    else do
      let (text, c, joined) ← readQuotedRun double (c.rest.length + 1) c text
      if c.rest.head? = some (quoteOf double) then some (text, c.skip 1)
      else
        let (gap, c) ← readGap (-1) (c.rest.length + 1) c { broken := joined }
        readQuoted double fuel c (gap.folded ++ text)

/-! Blocks -/

/-- What becomes of the line breaks at the end of a block: all are dropped, one is kept, or all are. -/
inductive Chomp
  | strip
  | clip
  | keep
  deriving DecidableEq, Repr

def chomp? (c : Char) : Option Chomp :=
  if c == '+' then some .keep else if c == '-' then some .strip else none

def readIndicators (c : Cursor) : Option (Chomp × Nat × Cursor) :=
  let digit := fun (text : List Char) =>
    match text with
    | d :: _ => if d.isDigit then some (d.toNat - 48) else none
    | [] => none
  let mark := fun (text : List Char) => text.head?.bind chomp?
  match mark c.rest with
  | some m =>
    match digit (c.rest.drop 1) with
    | some n => if n = 0 then none else some (m, n, c.skip 2)
    | none => some (m, 0, c.skip 1)
  | none =>
    match digit c.rest with
    | some n =>
      if n = 0 then none
      else
        match mark (c.rest.drop 1) with
        | some m => some (m, n, c.skip 2)
        | none => some (.clip, n, c.skip 1)
    | none => some (.clip, 0, c)

/-- Skips the indentation of block lines and the empty lines among them. An indentation of zero is not
yet known; `widest` is then the widest seen. A tab in the indentation is refused. -/
def readBlockBreaks (indent : Nat) :
    (fuel : Nat) → (widest : Nat) → Cursor → List Char → Option (Nat × Cursor × List Char)
  | 0, _, _, _ => none
  | fuel + 1, widest, c, breaks =>
    let blanks := (c.rest.takeWhile (· == ' ')).length
    let c := c.skip (if indent = 0 then blanks else min blanks (indent - c.column))
    let widest := max widest c.column
    if (indent = 0 || c.column < indent) && c.rest.head? = some '\t' then none
    else if atBreak c.rest then
      readBlockBreaks indent fuel widest c.newline (c.lineBreak ++ breaks)
    else some (widest, c, breaks)

/-- Reads the lines of a block at a known indentation. `lead` is the break after the line before and
`breaks` are those of empty lines; `wasIndented` says whether that line began with a blank. Texts are
in reverse. -/
def readBlockLines (literal : Bool) (indent : Nat) (fuel : Nat) (c : Cursor)
    (text lead breaks : List Char) (wasIndented : Bool) :
    Option (List Char × List Char × List Char × Cursor) :=
  match fuel with
  | 0 => none
  | fuel + 1 =>
    if c.column ≠ indent || c.rest.isEmpty then some (text, lead, breaks, c)
    else
      let isIndented := c.rest.head?.any isBlank
      let joint := if !literal && !wasIndented && !isIndented && lead = ['\n'] then
          (if breaks.isEmpty then [' '] else [])
        else lead
      let (line, c) := c.span (!isBreak ·)
      let text := line.reverse ++ breaks ++ joint ++ text
      let lead := c.lineBreak
      let c := c.newline
      match readBlockBreaks indent (c.rest.length + 1) 0 c [] with
      | none => none
      | some (_, c, breaks) => readBlockLines literal indent fuel c text lead breaks isIndented

/-- Reads a block from behind its mark, inside a collection indented to column `outer`. -/
def readBlock (literal : Bool) (outer : Int) (c : Cursor) : Option (List Char × Cursor) := do
  let (chomp, increment, c) ← readIndicators c
  let (_, c) := c.span isBlank
  let c := if c.rest.head? = some '#' then (c.span (!isBreak ·)).2 else c
  if !c.rest.isEmpty && !atBreak c.rest then none
  else
    let c := c.newline
    let given := if increment = 0 then 0 else (max outer 0 + increment).toNat
    let (widest, c, breaks) ← readBlockBreaks given (c.rest.length + 1) 0 c []
    let indent := if given = 0 then max 1 (max widest (outer + 1).toNat) else given
    let (text, lead, breaks, c) ← readBlockLines literal indent (c.rest.length + 1) c [] [] breaks false
    let tail := match chomp with
      | .strip => []
      | .clip => lead
      | .keep => breaks ++ lead
    some ((tail ++ text).reverse, c)

/-! Bytes written in base 64: four digits for three bytes, and a last group filled up with equal
signs. Line breaks between the digits do not count. -/

namespace Base64

def digit? (b : UInt8) : Option Nat :=
  if 65 ≤ b && b ≤ 90 then some (b.toNat - 65)
  else if 97 ≤ b && b ≤ 122 then some (b.toNat - 71)
  else if 48 ≤ b && b ≤ 57 then some (b.toNat + 4)
  else if b = 43 then some 62
  else if b = 47 then some 63
  else none

def group? (a b c d : UInt8) : Option Bytes := do
  let n := (((← digit? a) * 64 + (← digit? b)) * 64 + (← digit? c)) * 64 + (← digit? d)
  return [(n / 65536).toUInt8, (n / 256 % 256).toUInt8, (n % 256).toUInt8]

/-- The bytes of digits without line breaks. The bits that fill up the last group are not looked
at. -/
def decodeGroups? : Bytes → Option Bytes
  | [] => some []
  | [a, b, 61, 61] => (group? a b 65 65).map (·.take 1)
  | [a, b, c, 61] => (group? a b c 65).map (·.take 2)
  | a :: b :: c :: d :: rest => do
    let bytes ← group? a b c d
    let more ← decodeGroups? rest
    return bytes ++ more
  | _ => none

def decode? (text : Bytes) : Option Bytes :=
  decodeGroups? (text.filter fun b => b != 10 && b != 13)

end Base64

/-! What a scalar stands for: null, a truth value, a number, a date, bytes in base 64, or else its own
text. -/

inductive Plain
  | null
  | bool (b : Bool)
  | int (n : Int)
  | float (x : Float)
  | time (text : Bytes)
  | binary (data : Bytes)
  | text (s : Bytes)
  deriving DecidableEq

def Plain.tag : Plain → Bytes
  | .null => "!!null"
  | .bool _ => "!!bool"
  | .int _ => "!!int"
  | .float _ => "!!float"
  | .time _ => "!!timestamp"
  | .binary _ => "!!binary"
  | .text _ => "!!str"

def words : List (String × Plain) :=
  [("", .null), ("~", .null), ("null", .null), ("Null", .null), ("NULL", .null),
    ("true", .bool true), ("True", .bool true), ("TRUE", .bool true),
    ("false", .bool false), ("False", .bool false), ("FALSE", .bool false),
    (".nan", .float Decimal.notANumber), (".NaN", .float Decimal.notANumber),
    (".NAN", .float Decimal.notANumber),
    (".inf", .float (Decimal.infinity false)), (".Inf", .float (Decimal.infinity false)),
    (".INF", .float (Decimal.infinity false)), ("+.inf", .float (Decimal.infinity false)),
    ("+.Inf", .float (Decimal.infinity false)), ("+.INF", .float (Decimal.infinity false)),
    ("-.inf", .float (Decimal.infinity true)), ("-.Inf", .float (Decimal.infinity true)),
    ("-.INF", .float (Decimal.infinity true))]

/-- The value of digits in a base, if there is one and all are below the base. -/
def digitsIn? (base : Nat) (text : Bytes) : Option Nat :=
  if text.isEmpty then none
  else text.foldlM (fun n b =>
    let d := if Bytes.isDigit b then b.toNat - 48
      else if 97 ≤ b && b ≤ 102 then b.toNat - 87
      else if 65 ≤ b && b ≤ 70 then b.toNat - 55
      else base
    if d < base then some (n * base + d) else none) 0

def magnitude? : Bytes → Option Nat
  | 48 :: mark :: rest =>
    if mark = 120 || mark = 88 then digitsIn? 16 rest
    else if mark = 98 || mark = 66 then digitsIn? 2 rest
    else if mark = 111 || mark = 79 then digitsIn? 8 rest
    else digitsIn? 8 (mark :: rest)
  | text => digitsIn? 10 text

def cutSign : Bytes → Bool × Bytes
  | 45 :: rest => (true, rest)
  | 43 :: rest => (false, rest)
  | text => (false, text)

/-- An integer of 64 bits. Without a sign it may use all of them. -/
def integer? (text : Bytes) : Option Int := do
  let (negative, digits) := cutSign text
  let n ← magnitude? digits
  if negative then (if n ≤ 0x8000000000000000 then some (-n) else none)
  else if digits.length < text.length then (if n < 0x8000000000000000 then some n else none)
  else if n < 0x10000000000000000 then some n
  else none

/-- A date with an optional time of day. Months, days, hours, minutes and seconds may have one digit;
behind a `T` an offset must follow. The result is the written form with two digits each. -/
def time? (text : Bytes) : Option Bytes := do
  let two := fun (n : Nat) => Bytes.natural (n / 10) ++ Bytes.natural (n % 10)
  let year := text.takeWhile Bytes.isDigit
  if year.length ≠ 4 then none
  else
    let s ← Instant.mark? 45 (text.dropWhile Bytes.isDigit)
    let (month, s) ← Instant.oneOrTwo? s
    let s ← Instant.mark? 45 s
    let (day, s) ← Instant.oneOrTwo? s
    let yearValue ← digitsIn? 10 year
    if month = 0 || 12 < month || day = 0 || Instant.daysIn yearValue month < day then none
    else
      let date := year ++ Bytes.ofString "-" ++ two month ++ Bytes.ofString "-" ++ two day ++
        Bytes.ofString "T"
      match s with
      | [] => some (date ++ Bytes.ofString "00:00:00Z")
      | divider :: s =>
        let (hour, s) ← Instant.oneOrTwo? s
        let s ← Instant.mark? 58 s
        let (minute, s) ← Instant.oneOrTwo? s
        let s ← Instant.mark? 58 s
        let (second, s) ← Instant.oneOrTwo? s
        let (nanoseconds, zone) := Instant.fraction s
        if 24 ≤ hour || 60 ≤ minute || 60 ≤ second then none
        else
          let digits := Bytes.natural (1000000000 + nanoseconds)
          let places := ((digits.drop 1).reverse.dropWhile (· == 48)).reverse
          let clock := two hour ++ Bytes.ofString ":" ++ two minute ++ Bytes.ofString ":" ++
            two second ++ (if places.isEmpty then [] else 46 :: places)
          if divider = 32 then (if zone.isEmpty then some (date ++ clock ++ Bytes.ofString "Z") else none)
          else if divider = 84 || divider = 116 then
            match Instant.offset? zone with
            | some (0, []) => some (date ++ clock ++ Bytes.ofString "Z")
            | some (_, []) => some (date ++ clock ++ zone)
            | _ => none
          else none

/-- A number with digits, an optional point and an optional exponent. -/
def float? (text : Bytes) : Option Float :=
  let (negative, digits) := cutSign text
  (Decimal.readText? digits).map (Decimal.withSign negative)

/-- The meaning of a text that is no word of its own. Underscores between digits do not count. -/
def number? (allowTime : Bool) (text : Bytes) : Option Plain :=
  match text with
  | [] => none
  | first :: _ =>
    if first = 46 then (float? text).map .float
    else if Bytes.isDigit first || first = 43 || first = 45 then
      let bare := text.filter (· != 95)
      match (if allowTime then time? text else none) with
      | some t => some (.time t)
      | none =>
        match integer? bare with
        | some n => some (.int n)
        | none => (float? bare).map .float
    else none

def Plain.resolve (allowTime : Bool) (text : Bytes) : Plain :=
  match words.find? fun entry => Bytes.ofString entry.1 = text with
  | some (_, meaning) => meaning
  | none => (number? allowTime text).getD (.text text)

def floatOfInt (n : Int) : Float :=
  Decimal.withSign (n < 0) ((Decimal.read? n.natAbs 0).getD 0)

/-- The tags of the meanings a text can have by itself. -/
def resolvable : List String := ["!!null", "!!bool", "!!int", "!!float", "!!timestamp"]

/-- The meaning of a text under a tag, unless the two do not fit. An integer fits the tag of floating
numbers, and a tag of no known meaning leaves the text as it is. -/
def Plain.ofTag? (tag text : Bytes) : Option Plain :=
  if tag = Bytes.ofString "!!binary" then (Base64.decode? text).map .binary
  else if !resolvable.any fun known => Bytes.ofString known = tag then some (.text text)
  else
    let meaning := Plain.resolve (tag = Bytes.ofString "!!timestamp") text
    if meaning.tag = tag then some meaning
    else
      match meaning with
      | .int n => if tag = Bytes.ofString "!!float" then some (.float (floatOfInt n)) else none
      | _ => none

end BlockScript.Yaml
