import BlockScript.Json
import BlockScript.Token

/-! The values of a running program. A host may hand in a variable that was never given a value; it
behaves as null everywhere. -/

namespace BlockScript

inductive Value
  | unset
  | null
  | bool (b : Bool)
  | number (x : Float)
  | string (s : Bytes)
  deriving DecidableEq

namespace Value

/-- A literal that is none of the language's kinds counts as null. -/
def ofLiteral : Literal → Value
  | .bool b => bool b
  | .number x => number x
  | .string s => string s
  | .null | .integer _ => null

/-- Only null and false are falsy. -/
def truthy : Value → Bool
  | unset | null => false
  | bool b => b
  | number _ | string _ => true

/-- Values of different kinds differ. Numbers compare as numbers do, so zero equals minus zero and
the invalid number differs from itself. -/
def equals : Value → Value → Bool
  | unset, unset | unset, null | null, unset | null, null => true
  | bool a, bool b => a == b
  | number a, number b => a == b
  | string a, string b => a == b
  | _, _ => false

def text : Value → Bytes
  | unset | null => Bytes.ofString "null"
  | bool b => Bytes.ofString (if b then "true" else "false")
  | number x => Decimal.Layout.program.text x
  | string s => s

def typeName : Value → String
  | unset | null => "null"
  | bool _ => "boolean"
  | number _ => "number"
  | string _ => "string"

def integer? (x : Float) : Option Int :=
  if Decimal.isFinite x then
    let numerator := Decimal.numeratorAt (Decimal.place x)
    if numerator % Nat.pow 2 Decimal.finest = 0 then
      let magnitude : Int := (numerator / Nat.pow 2 Decimal.finest : Nat)
      some (if Decimal.isNegative x then -magnitude else magnitude)
    else none
  else none

/-- Integers that a double holds exactly with all their neighbours are written without a point, and
what JSON has no number for as a string. -/
def numberJson (x : Float) : Json :=
  if Decimal.isFinite x then
    match integer? x with
    | some n => if n.natAbs < 0x20000000000000 then .int n else .number (Decimal.Layout.json.text x)
    | none => .number (Decimal.Layout.json.text x)
  else .string (Decimal.Layout.program.text x)

def toJson : Value → Json
  | unset | null => .null
  | bool b => .bool b
  | number x => numberJson x
  | string s => .string s

/-- As a session shows it: strings in quotes, so that they can be told from other values. -/
def shown : Value → Bytes
  | string s => 34 :: s ++ [34]
  | v => v.text

end Value

/-! Scopes bind names to values and are nested. Reading and assigning look outward for the nearest
binding; defining always acts on the innermost scope. -/

structure Scope where
  bindings : List (Bytes × Value)
  ordered : Entries.Ordered bindings := by decide
  deriving DecidableEq

namespace Scope

def empty : Scope := { bindings := [] }

def get? (s : Scope) (name : Bytes) : Option Value := s.bindings.lookup name

def binds (s : Scope) (name : Bytes) : Bool := (s.get? name).isSome

def define (s : Scope) (name : Bytes) (v : Value) : Scope where
  bindings := Entries.insert name v s.bindings
  ordered := s.ordered.alter name _

def names (s : Scope) : List Bytes := s.bindings.map (·.1)

@[simp] theorem binds_empty (name : Bytes) : empty.binds name = false := rfl

theorem get?_define_self (s : Scope) (name : Bytes) (v : Value) :
    (s.define name v).get? name = some v := s.ordered.lookup_alter name _

theorem get?_define_of_ne (s : Scope) {name n : Bytes} (v : Value) (h : name ≠ n) :
    (s.define name v).get? n = s.get? n := Entries.lookup_alter_of_ne h.symm

theorem mem_names_iff {s : Scope} {name : Bytes} : name ∈ s.names ↔ s.binds name = true :=
  Entries.mem_names_iff

theorem mem_names_define {s : Scope} {name n : Bytes} {v : Value} :
    n ∈ (s.define name v).names ↔ n = name ∨ n ∈ s.names := Entries.mem_names_alter

theorem binds_define (s : Scope) (name n : Bytes) (v : Value) :
    (s.define name v).binds n = true ↔ name = n ∨ s.binds n = true := by
  rw [← mem_names_iff, ← mem_names_iff, mem_names_define, eq_comm]

def toJson (s : Scope) : Json := .object (s.bindings.map fun entry => (entry.1, entry.2.toJson))

end Scope

/-- The scope in use and those around it, from the inside out. -/
structure Scopes where
  current : Scope := .empty
  enclosing : List Scope := []
  deriving DecidableEq

namespace Scopes

def toList (s : Scopes) : List Scope := s.current :: s.enclosing

def find? (name : Bytes) : List Scope → Option Value
  | [] => none
  | s :: outer => (s.get? name).or (find? name outer)

def get? (s : Scopes) (name : Bytes) : Option Value := find? name s.toList

def replace? (name : Bytes) (v : Value) : List Scope → Option (List Scope)
  | [] => none
  | s :: outer =>
    if s.binds name then some (s.define name v :: outer) else (replace? name v outer).map (s :: ·)

/-- Assigns to the nearest binding; without one nothing changes. -/
def assign? (s : Scopes) (name : Bytes) (v : Value) : Option Scopes :=
  if s.current.binds name then some { s with current := s.current.define name v }
  else (replace? name v s.enclosing).map fun outer => { s with enclosing := outer }

def define (s : Scopes) (name : Bytes) (v : Value) : Scopes :=
  { s with current := s.current.define name v }

def enter (s : Scopes) : Scopes := ⟨.empty, s.toList⟩

/-- Leaves a scope; the outermost one cannot be left. -/
def leave? (s : Scopes) : Option Scopes :=
  match s.enclosing with
  | [] => none
  | outer :: rest => some ⟨outer, rest⟩

def leave (s : Scopes) : Scopes := s.leave?.getD s

end Scopes

end BlockScript
