import BlockScript.Text
import BlockScript.Text.Characters
import BlockScript.Files

/-! A description of the kinds of tree nodes, one on a line below the header of its family:

    Expr
    Binary : Expr Left, token.Token Operator, Expr Right

Blank lines and lines that begin with a number sign are ignored. Reading stops at the first line that
is neither ignored, a header, nor a node below some header whose fields have two words each. -/

namespace BlockScript.NodeGrammar

inductive Family
  | expr
  | stmt
  deriving DecidableEq, Repr

def Family.header : Family → Bytes
  | .expr => "Expr"
  | .stmt => "Stmt"

structure Field where
  type : Bytes
  name : Bytes
  deriving DecidableEq, Repr

structure Node where
  name : Bytes
  family : Family
  fields : List Field
  deriving DecidableEq, Repr

inductive Fault
  | unknownHeader (line : Nat) (text : Bytes)
  | nodeBeforeHeader (line : Nat) (name : Bytes)
  | malformedField (line : Nat) (text : Bytes)
  | lineTooLong
  deriving DecidableEq, Repr

def Fault.message : Fault → Bytes
  | .unknownHeader line text =>
    Bytes.ofString "line " ++ Bytes.natural line ++ Bytes.ofString ": unknown base " ++ Text.quote text
  | .nodeBeforeHeader line name =>
    Bytes.ofString "line " ++ Bytes.natural line ++ Bytes.ofString ": node " ++ Text.quote name ++
      Bytes.ofString " before any Expr/Stmt header"
  | .malformedField line text =>
    Bytes.ofString "line " ++ Bytes.natural line ++ Bytes.ofString ": malformed field " ++
      Text.quote text
  | .lineTooLong => "bufio.Scanner: token too long"

inductive Line
  | ignored
  | header (family : Family)
  | unknown (text : Bytes)
  | node (name : Bytes) (fields : List Bytes)
  deriving DecidableEq, Repr

def numberSign : UInt8 := 35
def colon : UInt8 := 58
def comma : UInt8 := 44

/-- Reads a line that has no white space at its ends. The first colon ends the name of a node, and
commas divide its fields. -/
def Line.ofTrimmed (text : Bytes) : Line :=
  if text.isEmpty || text.head? = some numberSign then .ignored
  else
    match text.dropWhile (· != colon) with
    | [] =>
      if text = Family.expr.header then .header .expr
      else if text = Family.stmt.header then .header .stmt
      else .unknown text
    | _ :: fields =>
      .node (Text.trim (text.takeWhile (· != colon))) (Bytes.splitAt comma fields)

def Line.ofText (text : Bytes) : Line := .ofTrimmed (Text.trim text)

def Field.read? (text : Bytes) : Option Field :=
  match Text.words text with
  | [type, name] => some ⟨type, name⟩
  | _ => none

def readFields : List Bytes → Except Bytes (List Field)
  | [] => .ok []
  | text :: rest =>
    match Field.read? text with
    | none => .error (Text.trim text)
    | some field => (readFields rest).map (field :: ·)

/-- Reads lines from the given number on, below the header `family?` if there has been one. -/
def readLines (number : Nat) (family? : Option Family) : List Bytes → Except Fault (List Node)
  | [] => .ok []
  | text :: rest =>
    match Line.ofText text with
    | .ignored => readLines (number + 1) family? rest
    | .header family => readLines (number + 1) (some family) rest
    | .unknown header => .error (.unknownHeader number header)
    | .node name fields =>
      match family? with
      | none => .error (.nodeBeforeHeader number name)
      | some family =>
        match readFields fields with
        | .error field => .error (.malformedField number field)
        | .ok fields => (readLines (number + 1) family? rest).map (⟨name, family, fields⟩ :: ·)

/-- The nodes a text describes. A line that is too long counts only if all lines before it can be
read. -/
def read (text : Bytes) : Except Fault (List Node) :=
  let (lines, tooLong) := Text.boundedLines text
  match readLines 1 none lines with
  | .error fault => .error fault
  | .ok nodes => if tooLong then .error .lineTooLong else .ok nodes

def usesTokens (nodes : List Node) : Bool :=
  nodes.any fun node => node.fields.any fun field => Bytes.contains "token." field.type

/-! Names and types as Go source spells them. A type is read off the front of a text without blanks
and written in its standard layout, which has a blank only where two words would touch and before a
result. -/

def keywords : List Bytes :=
  ["break", "default", "func", "interface", "select", "case", "defer", "go", "map", "struct", "chan",
    "else", "goto", "package", "switch", "const", "fallthrough", "if", "range", "type", "continue",
    "for", "import", "return", "var"].map Bytes.ofString

def isWordItem : Utf8.Item × Bytes → Bool
  | (.char code, _) => Text.isLetter code || Text.isDecimal code
  | (.stray _, _) => false

def startsWord : Utf8.Item × Bytes → Bool
  | (.char code, _) => Text.isLetter code
  | (.stray _, _) => false

/-- The longest word at the front of a text, empty if it begins with no letter, and the rest. -/
def cutWord (text : Bytes) : Bytes × Bytes :=
  let items := Utf8.items text
  if items.head?.any startsWord then
    ((items.takeWhile isWordItem).flatMap (·.2), (items.dropWhile isWordItem).flatMap (·.2))
  else ([], text)

/-- A name is a word that is not reserved. -/
def isName (text : Bytes) : Bool :=
  !text.isEmpty && (cutWord text).1 == text && !keywords.contains text

def cutName? (text : Bytes) : Option (Bytes × Bytes) :=
  let (word, rest) := cutWord text
  if isName word then some (word, rest) else none

def cutQualified? (text : Bytes) : Option (Bytes × Bytes) := do
  let (name, rest) ← cutName? text
  match rest with
  | 46 :: rest =>
    let (member, rest) ← cutName? rest
    some (name ++ Bytes.ofString "." ++ member, rest)
  | _ => some (name, rest)

def after? (beginning : String) (text : Bytes) : Option Bytes :=
  if (Bytes.ofString beginning).isPrefixOf text then
    some (text.drop (Bytes.ofString beginning).length)
  else none

def cutLength? (text : Bytes) : Option (Bytes × Bytes) :=
  match text.takeWhile Bytes.isDigit with
  | [] => cutQualified? text
  | 48 :: _ :: _ => none
  | digits => some (digits, text.dropWhile Bytes.isDigit)

/-- A type at the front of a text, in its standard layout, and the rest. `fuel` bounds the nesting. -/
def cutType? : (fuel : Nat) → Bytes → Option (Bytes × Bytes)
  | 0, _ => none
  | fuel + 1, text =>
    match text with
    | 42 :: rest => do
      let (pointee, rest) ← cutType? fuel rest
      some (Bytes.ofString "*" ++ pointee, rest)
    | 40 :: rest => do
      let (inner, rest) ← cutType? fuel rest
      let rest ← after? ")" rest
      some (if inner.head? = some 40 then inner
        else Bytes.ofString "(" ++ inner ++ Bytes.ofString ")", rest)
    | 91 :: 93 :: rest => do
      let (element, rest) ← cutType? fuel rest
      some (Bytes.ofString "[]" ++ element, rest)
    | 91 :: rest => do
      let (length, rest) ← match after? "..." rest with
        | some rest => some (Bytes.ofString "...", rest)
        | none => cutLength? rest
      let rest ← after? "]" rest
      let (element, rest) ← cutType? fuel rest
      some (Bytes.ofString "[" ++ length ++ Bytes.ofString "]" ++ element, rest)
    | 60 :: _ => do
      let rest ← after? "<-" text
      let (word, rest) := cutWord rest
      if word = Bytes.ofString "chan" then
        let (element, rest) ← cutType? fuel rest
        some (Bytes.ofString "<-chan " ++ element, rest)
      else none
    | _ =>
      let (word, rest) := cutWord text
      if word = Bytes.ofString "map" then do
        let rest ← after? "[" rest
        let (key, rest) ← cutType? fuel rest
        let rest ← after? "]" rest
        let (element, rest) ← cutType? fuel rest
        some (Bytes.ofString "map[" ++ key ++ Bytes.ofString "]" ++ element, rest)
      else if word = Bytes.ofString "chan" then
        match after? "<-" rest with
        | some rest => do
          let (element, rest) ← cutType? fuel rest
          some (Bytes.ofString "chan<- " ++ element, rest)
        | none => do
          let (element, rest) ← cutType? fuel rest
          some (Bytes.ofString "chan " ++ element, rest)
      else if word = Bytes.ofString "interface" || word = Bytes.ofString "struct" then do
        let rest ← after? "\x7b\x7d" rest
        some (word ++ Bytes.ofString "\x7b\x7d", rest)
      else if word = Bytes.ofString "func" then do
        let (parameter, rest) ← cutParameter? fuel rest
        let signature := Bytes.ofString "func(" ++ parameter ++ Bytes.ofString ")"
        match rest with
        | 40 :: 41 :: rest => some (signature, rest)
        | 40 :: _ => do
          let (result, rest) ← cutParameter? fuel rest
          some (signature ++ Bytes.ofString " " ++ result, rest)
        | _ =>
          match cutType? fuel rest with
          | some (result, rest) => some (signature ++ Bytes.ofString " " ++ result, rest)
          | none => some (signature, rest)
      else do
        let (name, rest) ← cutQualified? text
        match rest with
        | 91 :: rest => do
          let (argument, rest) ← cutType? fuel rest
          let rest ← after? "]" rest
          some (name ++ Bytes.ofString "[" ++ argument ++ Bytes.ofString "]", rest)
        | _ => some (name, rest)
where
  /-- At most one type between parentheses; several would need a comma. -/
  cutParameter? (fuel : Nat) (text : Bytes) : Option (Bytes × Bytes) := do
    let rest ← after? "(" text
    match after? ")" rest with
    | some rest => some ([], rest)
    | none =>
      let (dots, rest) := match after? "..." rest with
        | some rest => (Bytes.ofString "...", rest)
        | none => ([], rest)
      let (type, rest) ← cutType? fuel rest
      let rest ← after? ")" rest
      some (dots ++ type, rest)

/-! Go declarations of the described nodes, in the standard layout: field types stand in one column,
and a method stands on one line if that line is short enough. -/

/-- A field in a declaration. A name with an argument in brackets or a member behind a point is a
type of its own, so the field has no name and no column. -/
inductive FieldLine
  | named (name type : Bytes)
  | embedded (type : Bytes)
  deriving DecidableEq, Repr

def layoutType? (text : Bytes) : Option Bytes :=
  match cutType? (text.length + 1) text with
  | some (type, []) => some type
  | _ => none

def FieldLine.of? (field : Field) : Option FieldLine :=
  if !isName field.name then none
  else
    match field.type with
    | 91 :: 46 :: _ => none
    | 46 :: _ => (layoutType? (field.name ++ field.type)).map .embedded
    | _ =>
      match layoutType? field.type with
      | some type => some (.named field.name type)
      | none =>
        if field.type.head? = some 91 then
          (layoutType? (field.name ++ field.type)).map .embedded
        else none

def columns (text : Bytes) : Nat := (Utf8.items text).length

def columnWidth : List FieldLine → Nat
  | .named name _ :: rest => max (columns name) (columnWidth rest)
  | _ => 0

/-- The lines of the fields. Neighbouring fields with names share a column `width`; it is `none` where
a new column begins. -/
def fieldLines (width : Option Nat) : List FieldLine → Bytes
  | [] => []
  | .named name type :: rest =>
    let width := width.getD (columnWidth (.named name type :: rest))
    Bytes.ofString "\t" ++ name ++ List.replicate (width - columns name + 1) 32 ++ type ++
      Bytes.ofString "\n" ++ fieldLines (some width) rest
  | .embedded type :: rest =>
    Bytes.ofString "\t" ++ type ++ Bytes.ofString "\n" ++ fieldLines none rest

/-- A one-line method has at most this many bytes, braces not counted. -/
def methodLimit : Nat := 100

def Family.article : Family → String
  | .expr => "an expression"
  | .stmt => "a statement"

def Family.marker : Family → String
  | .expr => "exprNode"
  | .stmt => "stmtNode"

/-- The two methods of a node. When both stand on one line, their bodies share a column. -/
def methods (node : Node) : Bytes :=
  let receiver := Bytes.ofString "func (n *" ++ node.name ++ Bytes.ofString ") "
  let kind := receiver ++ Bytes.ofString "Kind() string"
  let marker := receiver ++ Bytes.ofString node.family.marker ++ Bytes.ofString "()"
  let body := Bytes.ofString "return " ++ Text.quote node.name
  if kind.length + body.length ≤ methodLimit then
    kind ++ Bytes.ofString " \x7b " ++ body ++ Bytes.ofString " \x7d\n" ++ marker ++
      List.replicate (kind.length - marker.length + 1) 32 ++ Bytes.ofString "\x7b\x7d\n"
  else
    kind ++ Bytes.ofString " \x7b\n\t" ++ body ++ Bytes.ofString "\n\x7d\n" ++ marker ++
      Bytes.ofString (if marker.length ≤ methodLimit then " \x7b\x7d\n" else " \x7b\n\x7d\n")

/-- The declaration of a node with the blank line before it, if all its names and types are valid. -/
def Node.declaration? (node : Node) : Option Bytes :=
  if !isName node.name then none
  else
    (node.fields.mapM FieldLine.of?).map fun fields =>
      Bytes.ofString "\n// " ++ node.name ++ Bytes.ofString " is " ++
        Bytes.ofString node.family.article ++ Bytes.ofString " node.\ntype " ++ node.name ++
        Bytes.ofString " struct \x7b\n" ++ fieldLines none fields ++ Bytes.ofString "\x7d\n\n" ++
        methods node

def fitsComment (text : Bytes) : Bool :=
  (Utf8.items text).all fun item =>
    match item.1 with
    | .char code => code != 0 && code != 10 && code != 0xFEFF
    | .stray _ => false

def tokenImport : Bytes := "\nimport \"github.com/starbird-lang/starbird/pkg/token\"\n"

/-- The source file with the declarations of all nodes, or `none` if it would not be valid. `source`
names where the description came from; a carriage return does not show in a comment. -/
def program? (package source : Bytes) (nodes : List Node) : Option Bytes :=
  if !isName package || !fitsComment source then none
  else
    (nodes.mapM Node.declaration?).map fun declarations =>
      Bytes.ofString "// Code generated by genast from " ++ source.filter (· != 13) ++
        Bytes.ofString "; DO NOT EDIT.\n\npackage " ++ package ++ Bytes.ofString "\n" ++
        (if usesTokens nodes then tokenImport else []) ++ declarations.flatten

/-! The command that reads a description of nodes from a file and writes their declarations to
another. An option has one hyphen or two and its value behind an equals sign or in the next argument;
the first argument that is no option ends them. -/

structure Options where
  input : Bytes := "nodes.txt"
  output : Bytes := "nodes_gen.go"
  package : Bytes := "ast"
  deriving DecidableEq

inductive OptionFault
  | help
  | badForm (argument : Bytes)
  | unknown (name : Bytes)
  | noValue (name : Bytes)
  deriving DecidableEq

def OptionFault.message : OptionFault → Bytes
  | .help => []
  | .badForm argument => Bytes.ofString "bad flag syntax: " ++ argument ++ Bytes.ofString "\n"
  | .unknown name => Bytes.ofString "flag provided but not defined: -" ++ name ++ Bytes.ofString "\n"
  | .noValue name => Bytes.ofString "flag needs an argument: -" ++ name ++ Bytes.ofString "\n"

def OptionFault.exitCode : OptionFault → Nat
  | .help => 0
  | _ => 2

def usage : Bytes :=
  Bytes.ofString "Usage of genast:\n" ++
    Bytes.ofString "  -in string\n    \tgrammar description file (default \"nodes.txt\")\n" ++
    Bytes.ofString "  -out string\n    \toutput Go file (default \"nodes_gen.go\")\n" ++
    Bytes.ofString "  -pkg string\n    \tpackage name of the generated file (default \"ast\")\n"

def setter? (name : Bytes) : Option (Bytes → Options → Options) :=
  if name = Bytes.ofString "in" then some fun value o => { o with input := value }
  else if name = Bytes.ofString "out" then some fun value o => { o with output := value }
  else if name = Bytes.ofString "pkg" then some fun value o => { o with package := value }
  else none

/-- The name in an argument that is an option, without its hyphens; `none` ends the options. -/
def optionName? : Bytes → Option Bytes
  | 45 :: 45 :: name => if name.isEmpty then none else some name
  | 45 :: name => if name.isEmpty then none else some name
  | _ => none

/-- Cuts a name at its first equals sign that is not in front. -/
def cutValue (name : Bytes) : Bytes × Option Bytes :=
  let front := name.take 1 ++ (name.drop 1).takeWhile (· != 61)
  if front.length < name.length then (front, some (name.drop (front.length + 1))) else (name, none)

def readOptions (o : Options) : List Bytes → Except OptionFault Options
  | [] => .ok o
  | argument :: rest =>
    match optionName? argument with
    | none => .ok o
    | some name =>
      if name.head? = some 45 || name.head? = some 61 then .error (.badForm argument)
      else
        let (name, value?) := cutValue name
        match setter? name with
        | none =>
          .error (if name = Bytes.ofString "help" || name = Bytes.ofString "h" then .help
            else .unknown name)
        | some set =>
          match value? with
          | some value => readOptions (set value o) rest
          | none =>
            match rest with
            | [] => .error (.noValue name)
            | value :: rest => readOptions (set value o) rest

variable {m : Type → Type} [Monad m]

def fail (host : Host m) (reason : Bytes) : m Nat := do
  host.err (Bytes.ofString "genast: " ++ reason ++ [Bytes.lineFeed])
  return 1

/-- Reads the description and writes the declarations. The result is the exit status. The text for
declarations that do not parse stands for that of any code formatter, which would name the place. -/
def generate (host : Host m) (o : Options) : m Nat := do
  let within := fun (reason : Bytes) => o.input ++ Bytes.ofString ": " ++ reason
  match ← host.read o.input with
  | .error .isDirectory => fail host (within (FileFault.onRead o.input .isDirectory))
  | .error fault => fail host (fault.onOpen o.input)
  | .ok text =>
    match read text with
    | .error fault => fail host (within fault.message)
    | .ok nodes =>
      match program? o.package o.input nodes with
      | none => fail host "the declarations are not valid source"
      | some code =>
        match ← host.write o.output code with
        | .error fault => fail host (fault.onOpen o.output)
        | .ok () => return 0

def command (host : Host m) (arguments : List Bytes) : m Nat := do
  match readOptions {} arguments with
  | .error fault =>
    host.err (fault.message ++ usage)
    return fault.exitCode
  | .ok o => generate host o

end BlockScript.NodeGrammar
