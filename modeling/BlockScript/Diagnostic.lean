import BlockScript.Json

/-! Diagnostics: what is reported about a program, each with a code, a line, the place where it was
found and a message. -/

namespace BlockScript

namespace Diagnostic

inductive Code
  | lex | parse | type | undefined | io | config
  | other (name : Bytes)
  deriving DecidableEq, Repr

namespace Code

def name : Code → Bytes
  | lex => Bytes.ofString "E_LEX"
  | parse => Bytes.ofString "E_PARSE"
  | type => Bytes.ofString "E_TYPE"
  | undefined => Bytes.ofString "E_UNDEFINED"
  | io => Bytes.ofString "E_IO"
  | config => Bytes.ofString "E_CONFIG"
  | other name => name

def ofName (n : Bytes) : Code :=
  ([lex, parse, type, undefined, io, config].find? fun c => c.name = n).getD (other n)

theorem name_ofName (n : Bytes) : (ofName n).name = n := by
  unfold ofName
  generalize hfound : List.find? _ _ = found
  rcases found with _ | c
  · rfl
  · simpa using List.find?_some hfound

/-- Raised before a program runs; such a program does not run at all. -/
def isCompileTime : Code → Bool
  | lex | parse => true
  | _ => false

def isRuntime : Code → Bool
  | type | undefined => true
  | _ => false

end Code

end Diagnostic

/-- The line is zero when there is none, and `place` is empty when the line says it all. -/
structure Diagnostic where
  code : Diagnostic.Code
  line : Int
  place : Bytes
  message : Bytes
  deriving DecidableEq, Repr

namespace Diagnostic

def toJson (d : Diagnostic) : Json :=
  .object ([Json.member "code" (.string d.code.name), Json.member "line" (.int d.line)] ++
    (if d.place.isEmpty then [] else [Json.member "where" (.string d.place)]) ++
    [Json.member "message" (.string d.message)])

/-- For a person. A line that is not positive is left out. -/
def pretty (d : Diagnostic) : Bytes :=
  (if d.line ≤ 0 then [] else Bytes.ofString "[line " ++ Bytes.integer d.line ++ Bytes.ofString "] ") ++
    Bytes.ofString "Error" ++ d.place ++ Bytes.ofString ": " ++ d.message ++
    Bytes.ofString " (" ++ d.code.name ++ Bytes.ofString ")"

def render (asPretty : Bool) (d : Diagnostic) : Bytes :=
  if asPretty then d.pretty else d.toJson.render

/-- A list of diagnostics: a JSON array, or one line for each. -/
def renderAll (asPretty : Bool) (ds : List Diagnostic) : Bytes :=
  if asPretty then Bytes.join [Bytes.lineFeed] (ds.map pretty)
  else (Json.array (ds.map toJson)).render

def anyCompileTime (ds : List Diagnostic) : Bool := ds.any (·.code.isCompileTime)
def anyRuntime (ds : List Diagnostic) : Bool := ds.any (·.code.isRuntime)

def atLexeme (lexeme : Bytes) : Bytes := Bytes.ofString " at '" ++ lexeme ++ Bytes.ofString "'"

end Diagnostic

end BlockScript
