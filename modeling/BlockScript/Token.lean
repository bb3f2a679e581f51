import BlockScript.Decimal
import BlockScript.Text
import BlockScript.Diagnostic

/-! Tokens: what a source text is made of after blanks and comments are gone. -/

namespace BlockScript

/-- The value a token or a tree leaf carries. The language has the first four kinds; an integer
only occurs in trees and tokens built by hand. -/
inductive Literal
  | null
  | bool (b : Bool)
  | number (x : Float)
  | string (s : Bytes)
  | integer (n : Int)
  deriving DecidableEq

namespace Token

/-- The kinds of token. A kind outside the language is known by its code only. -/
inductive Kind
  | leftParen | rightParen | leftBrace | rightBrace | comma | dot | minus | plus | semicolon
  | slash | star
  | bang | bangEqual | equal | equalEqual | greater | greaterEqual | less | lessEqual
  | identifier | string | number
  | andWord | classWord | elseWord | falseWord | funWord | forWord | ifWord | nullWord | orWord
  | printWord | returnWord | superWord | thisWord | trueWord | varWord | whileWord
  | endOfFile
  | unknown (code : Int)
  deriving DecidableEq, Repr

namespace Kind

/-- The kinds of the language in the order of their codes, with their names. -/
def names : List (Kind × String) :=
  [(leftParen, "LEFT_PAREN"), (rightParen, "RIGHT_PAREN"), (leftBrace, "LEFT_BRACE"),
   (rightBrace, "RIGHT_BRACE"), (comma, "COMMA"), (dot, "DOT"), (minus, "MINUS"), (plus, "PLUS"),
   (semicolon, "SEMICOLON"), (slash, "SLASH"), (star, "STAR"), (bang, "BANG"),
   (bangEqual, "BANG_EQUAL"), (equal, "EQUAL"), (equalEqual, "EQUAL_EQUAL"), (greater, "GREATER"),
   (greaterEqual, "GREATER_EQUAL"), (less, "LESS"), (lessEqual, "LESS_EQUAL"),
   (identifier, "IDENTIFIER"), (string, "STRING"), (number, "NUMBER"), (andWord, "AND"),
   (classWord, "CLASS"), (elseWord, "ELSE"), (falseWord, "FALSE"), (funWord, "FUN"),
   (forWord, "FOR"), (ifWord, "IF"), (nullWord, "NULL"), (orWord, "OR"), (printWord, "PRINT"),
   (returnWord, "RETURN"), (superWord, "SUPER"), (thisWord, "THIS"), (trueWord, "TRUE"),
   (varWord, "VAR"), (whileWord, "WHILE"), (endOfFile, "EOF")]

def words : List (String × Kind) :=
  [("and", andWord), ("class", classWord), ("else", elseWord), ("false", falseWord),
   ("for", forWord), ("fun", funWord), ("if", ifWord), ("null", nullWord), ("or", orWord),
   ("print", printWord), ("return", returnWord), ("super", superWord), ("this", thisWord),
   ("true", trueWord), ("var", varWord), ("while", whileWord)]

def name (k : Kind) : Bytes :=
  match k with
  | unknown code => Bytes.ofString "Type(" ++ Bytes.integer code ++ Bytes.ofString ")"
  | _ => (((names.find? fun entry => entry.1 = k).map (·.2)).getD "").toUTF8.data.toList

def ofCode (code : Int) : Kind :=
  match code with
  | .ofNat n => ((names.map (·.1))[n]?).getD (unknown code)
  | .negSucc _ => unknown code

def ofName? (s : String) : Option Kind := (names.find? fun entry => entry.2 = s).map (·.1)

def ofWord (word : Bytes) : Kind :=
  ((words.find? fun entry => Bytes.ofString entry.1 = word).map (·.2)).getD identifier

/-- The words at which reading resumes after a broken statement. -/
def startsStatement : Kind → Bool
  | classWord | funWord | varWord | forWord | ifWord | whileWord | printWord | returnWord => true
  | _ => false

end Kind

end Token

/-- A token with the text it was read from and the line on which that text ends. The literal is
`null` for a token that carries none. -/
structure Token where
  kind : Token.Kind
  lexeme : Bytes
  line : Int
  literal : Literal := .null
  deriving DecidableEq

namespace Token

def finish (line : Int) : Token := ⟨.endOfFile, [], line, .null⟩

def literalText : Literal → Bytes
  | .null => []
  | .bool b => Bytes.ofString (if b then "true" else "false")
  | .number x => Decimal.Layout.listing.text x
  | .string s => s
  | .integer n => Bytes.integer n

def describe (t : Token) : Bytes :=
  t.kind.name ++ 32 :: t.lexeme ++
    match t.literal with
    | .null => []
    | literal => 32 :: literalText literal

def listing (tokens : List Token) : Bytes :=
  tokens.flatMap fun t => Bytes.integer t.line ++ 32 :: t.describe ++ [Bytes.lineFeed]

end Token

end BlockScript

/-! A source text is cut into segments: blanks, comments, tokens and faults, each the longest of its
class. Nothing is lost: the texts of the segments make up the source. -/

namespace BlockScript.Token

inductive LexFault
  | unterminatedString
  | invalidNumber (lexeme : Bytes)
  | strayCharacter (encoding : Bytes)
  | strayByte (b : UInt8)
  deriving DecidableEq, Repr

namespace LexFault

/-- A byte outside printable ASCII is shown by its code. -/
def showByte (b : UInt8) : Bytes :=
  if 0x20 ≤ b && b < 0x7F then [b] else Bytes.ofString "\\x" ++ Bytes.hex 2 b.toNat

def message : LexFault → Bytes
  | unterminatedString => Bytes.ofString "Unterminated string."
  | invalidNumber lexeme => Bytes.ofString "Invalid number '" ++ lexeme ++ Bytes.ofString "'."
  | strayCharacter encoding =>
    Bytes.ofString "Unexpected character '" ++ encoding ++ Bytes.ofString "'."
  | strayByte b => Bytes.ofString "Unexpected character '" ++ showByte b ++ Bytes.ofString "'."

end LexFault

inductive Segment
  | blank (b : UInt8)
  | comment (body : Bytes)
  | token (kind : Kind) (lexeme : Bytes) (literal : Literal)
  | fault (cause : LexFault) (text : Bytes)
  deriving DecidableEq

namespace Segment

/-- A comment's body is what follows its two slashes. -/
def text : Segment → Bytes
  | blank b => [b]
  | comment body => 47 :: 47 :: body
  | token _ lexeme _ => lexeme
  | fault _ text => text

def isBlank (b : UInt8) : Bool := b == 32 || b == 9 || b == 13 || b == 10

def single? (b : UInt8) : Option Kind :=
  if b = 40 then some .leftParen
  else if b = 41 then some .rightParen
  else if b = 123 then some .leftBrace
  else if b = 125 then some .rightBrace
  else if b = 44 then some .comma
  else if b = 46 then some .dot
  else if b = 45 then some .minus
  else if b = 43 then some .plus
  else if b = 59 then some .semicolon
  else if b = 42 then some .star
  else none

/-- The operators that a following `=` extends: the kind alone and the kind extended. -/
def extensible? (b : UInt8) : Option (Kind × Kind) :=
  if b = 33 then some (.bang, .bangEqual)
  else if b = 61 then some (.equal, .equalEqual)
  else if b = 60 then some (.less, .lessEqual)
  else if b = 62 then some (.greater, .greaterEqual)
  else none

/-- A number without its sign: digits, and behind a point more digits if there are any. -/
structure Numeral where
  whole : Bytes
  fraction : Bytes

def Numeral.lexeme (n : Numeral) : Bytes :=
  if n.fraction.isEmpty then n.whole else n.whole ++ 46 :: n.fraction

def Numeral.value? (n : Numeral) : Option Float :=
  Decimal.read? (Bytes.digitsValue (n.whole ++ n.fraction)) n.fraction.length

/-- The longest numeral at the start of a text. A point counts only if a digit follows. -/
def Numeral.take (s : Bytes) : Numeral × Bytes :=
  let whole := s.takeWhile Bytes.isDigit
  let after := s.dropWhile Bytes.isDigit
  match after with
  | 46 :: more =>
    let fraction := more.takeWhile Bytes.isDigit
    if fraction.isEmpty then (⟨whole, []⟩, after)
    else (⟨whole, fraction⟩, more.dropWhile Bytes.isDigit)
  | _ => (⟨whole, []⟩, after)

def cutOperator (b : UInt8) (kinds : Kind × Kind) (rest : Bytes) : Segment × Bytes :=
  match rest with
  | 61 :: after => (token kinds.2 [b, 61] .null, after)
  | _ => (token kinds.1 [b] .null, rest)

def cutSlash (rest : Bytes) : Segment × Bytes :=
  match rest with
  | 47 :: after =>
    (comment (after.takeWhile (· != Bytes.lineFeed)), after.dropWhile (· != Bytes.lineFeed))
  | _ => (token .slash [47] .null, rest)

def cutString (rest : Bytes) : Segment × Bytes :=
  match rest.dropWhile (· != Bytes.quoteMark) with
  | [] => (fault .unterminatedString (Bytes.quoteMark :: rest), [])
  | q :: after =>
    let body := rest.takeWhile (· != Bytes.quoteMark)
    (token .string (Bytes.quoteMark :: body ++ [q]) (.string body), after)

def ofNumeral (lexeme : Bytes) : Option Float → Segment
  | some x => token .number lexeme (.number x)
  | none => fault (.invalidNumber lexeme) lexeme

def cutNumber (s : Bytes) : Segment × Bytes :=
  let numeral := (Numeral.take s).1
  (ofNumeral numeral.lexeme numeral.value?, (Numeral.take s).2)

def cutWord (s : Bytes) : Segment × Bytes :=
  let word := s.takeWhile Bytes.isWordByte
  (token (.ofWord word) word .null, s.dropWhile Bytes.isWordByte)

def cutStray (b : UInt8) (rest : Bytes) : Segment × Bytes :=
  match Utf8.next b rest with
  | (.stray _, bytes, after) => (fault (.strayByte b) bytes, after)
  | (.char _, bytes, after) => (fault (.strayCharacter bytes) bytes, after)

def cut (b : UInt8) (rest : Bytes) : Segment × Bytes :=
  match single? b, extensible? b with
  | some kind, _ => (token kind [b] .null, rest)
  | none, some kinds => cutOperator b kinds rest
  | none, none =>
    if b = 47 then cutSlash rest
    else if isBlank b then (blank b, rest)
    else if b = Bytes.quoteMark then cutString rest
    else if Bytes.isDigit b then cutNumber (b :: rest)
    else if Bytes.isLetter b then cutWord (b :: rest)
    else if Bytes.isAscii b then (fault (.strayByte b) [b], rest)
    else cutStray b rest

theorem cutOperator_text (b : UInt8) (kinds : Kind × Kind) (rest : Bytes) :
    (cutOperator b kinds rest).1.text ++ (cutOperator b kinds rest).2 = b :: rest := by
  unfold cutOperator
  split <;> simp [text]

theorem cutSlash_text (rest : Bytes) :
    (cutSlash rest).1.text ++ (cutSlash rest).2 = 47 :: rest := by
  unfold cutSlash
  split <;> simp [text, List.takeWhile_append_dropWhile]

theorem cutString_text (rest : Bytes) :
    (cutString rest).1.text ++ (cutString rest).2 = Bytes.quoteMark :: rest := by
  have whole := @List.takeWhile_append_dropWhile _ (· != Bytes.quoteMark) rest
  unfold cutString
  split
  · simp [text]
  · next q after h =>
    rw [h] at whole
    simpa [text] using whole

theorem ofNumeral_text (lexeme : Bytes) (value : Option Float) :
    (ofNumeral lexeme value).text = lexeme := by
  cases value <;> rfl

theorem Numeral.take_text (s : Bytes) :
    (Numeral.take s).1.lexeme ++ (Numeral.take s).2 = s := by
  have whole := @List.takeWhile_append_dropWhile _ Bytes.isDigit s
  simp only [Numeral.take]
  split
  · next more h =>
    rw [h] at whole
    split
    · simp [Numeral.lexeme, h, whole]
    · next hf => simpa [Numeral.lexeme, hf, List.takeWhile_append_dropWhile] using whole
  · simp [Numeral.lexeme, whole]

theorem cutNumber_text (s : Bytes) : (cutNumber s).1.text ++ (cutNumber s).2 = s := by
  simp only [cutNumber, ofNumeral_text, Numeral.take_text]

theorem cutStray_text (b : UInt8) (rest : Bytes) :
    (cutStray b rest).1.text ++ (cutStray b rest).2 = b :: rest := by
  have whole := Utf8.next_append b rest
  unfold cutStray
  split <;> (next h => simpa [h, text] using whole)

/-- Cutting loses nothing. -/
theorem cut_text (b : UInt8) (rest : Bytes) : (cut b rest).1.text ++ (cut b rest).2 = b :: rest := by
  unfold cut
  split
  · rfl
  · exact cutOperator_text ..
  · repeat' split
    · next h => rw [h]; exact cutSlash_text rest
    · rfl
    · next h => rw [h]; exact cutString_text rest
    · exact cutNumber_text (b :: rest)
    · simp [cutWord, text, List.takeWhile_append_dropWhile]
    · rfl
    · exact cutStray_text b rest

theorem Numeral.take_whole (s : Bytes) : (Numeral.take s).1.whole = s.takeWhile Bytes.isDigit := by
  unfold Numeral.take
  dsimp only
  split
  · split <;> rfl
  · rfl

theorem Numeral.lexeme_ne_nil {n : Numeral} (h : n.whole ≠ []) : n.lexeme ≠ [] := by
  unfold Numeral.lexeme
  split
  · exact h
  · exact List.append_ne_nil_of_left_ne_nil h _

theorem Numeral.take_nonempty {b : UInt8} (rest : Bytes) (h : Bytes.isDigit b = true) :
    (Numeral.take (b :: rest)).1.lexeme ≠ [] := by
  apply Numeral.lexeme_ne_nil
  rw [Numeral.take_whole, List.takeWhile_cons_of_pos h]
  exact List.cons_ne_nil _ _

theorem cutNumber_nonempty {b : UInt8} (rest : Bytes) (h : Bytes.isDigit b = true) :
    (cutNumber (b :: rest)).1.text ≠ [] := by
  simpa only [cutNumber, ofNumeral_text] using Numeral.take_nonempty rest h

theorem cutOperator_nonempty (b : UInt8) (kinds : Kind × Kind) (rest : Bytes) :
    (cutOperator b kinds rest).1.text ≠ [] := by
  unfold cutOperator
  split <;> simp [text]

theorem cutSlash_nonempty (rest : Bytes) : (cutSlash rest).1.text ≠ [] := by
  unfold cutSlash
  split <;> simp [text]

theorem cutString_nonempty (rest : Bytes) : (cutString rest).1.text ≠ [] := by
  unfold cutString
  split <;> simp [text]

theorem cutStray_nonempty (b : UInt8) (rest : Bytes) : (cutStray b rest).1.text ≠ [] := by
  have shape : (Utf8.next b rest).2.1 ≠ [] := by
    unfold Utf8.next
    split <;> simp
  unfold cutStray
  split <;> (next h => simpa [h, text] using shape)

/-- No segment is empty. -/
theorem cut_nonempty (b : UInt8) (rest : Bytes) : (cut b rest).1.text ≠ [] := by
  unfold cut
  split
  · simp [text]
  · exact cutOperator_nonempty _ _ _
  · repeat' split
    · exact cutSlash_nonempty rest
    · simp [text]
    · exact cutString_nonempty rest
    · next h => exact cutNumber_nonempty rest h
    · next h => simp [cutWord, text, Bytes.isWordByte, h]
    · simp [text]
    · exact cutStray_nonempty b rest

theorem cut_length (b : UInt8) (rest : Bytes) : (cut b rest).2.length ≤ rest.length := by
  have whole := congrArg List.length (cut_text b rest)
  have nonempty := List.length_pos_iff.mpr (cut_nonempty b rest)
  simp only [List.length_append, List.length_cons] at whole
  omega

end Segment

def segments : Bytes → List Segment
  | [] => []
  | b :: rest => (Segment.cut b rest).1 :: segments (Segment.cut b rest).2
termination_by source => source.length
decreasing_by
  have := Segment.cut_length b rest
  simp only [List.length_cons]
  omega

/-- The texts of the segments make up the source. -/
theorem segments_text (source : Bytes) : (segments source).flatMap Segment.text = source := by
  induction source using segments.induct with
  | case1 => simp [segments]
  | case2 b rest ih => simp [segments, ih, Segment.cut_text]

/-! Reading a source: its tokens with their lines and a diagnostic for each fault. A token's line is
the one on which it ends, a diagnostic's the one on which the faulty text begins. -/

structure Lexed where
  tokens : List Token
  diagnostics : List Diagnostic
  deriving DecidableEq

/-- Numbers the segments' lines, given the line on which the first begins. -/
def Lexed.ofSegments (line : Int) : List Segment → Lexed
  | [] => ⟨[Token.finish line], []⟩
  | s :: rest =>
    let next := line + Bytes.lineFeeds s.text
    let lexed := ofSegments next rest
    match s with
    | .token kind lexeme literal => { lexed with tokens := ⟨kind, lexeme, next, literal⟩ :: lexed.tokens }
    | .fault cause _ =>
      { lexed with diagnostics := ⟨.lex, line, [], cause.message⟩ :: lexed.diagnostics }
    | .blank _ | .comment _ => lexed

/-- The tokens of a source, ended by an end marker, and its lexical diagnostics. -/
def lex (source : Bytes) : Lexed := Lexed.ofSegments 1 (segments source)

end BlockScript.Token
