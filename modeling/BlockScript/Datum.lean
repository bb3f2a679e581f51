import BlockScript.Decimal
import BlockScript.Json

/-! Structured data as expectations state it and as results are decoded, and when a result meets an
expectation: objects may have more members and arrays more items than expected, all else must be
equal. -/

namespace BlockScript

/-- A number is a double, or is kept as the numeral it was written with. The members of an object are
in order of their names. A mapping with a key that names no member is `nameless`. -/
inductive Datum
  | null
  | bool (b : Bool)
  | number (x : Float)
  | numeral (text : Bytes)
  | string (s : Bytes)
  | array (items : List Datum)
  | object (members : List (Bytes × Datum))
  | nameless

namespace Datum

def shown? : Datum → Option Bytes
  | .null => some "<nil>"
  | .bool true => some "true"
  | .bool false => some "false"
  | .number x => some (Decimal.Layout.listing.text x)
  | .numeral text => some text
  | .string s => some s
  | .array _ => none
  | .object _ => none
  | .nameless => none

mutual

/-- Whether an expected datum is met by an actual one. A numeral is met by what is shown alike. -/
def isSubset : Datum → Datum → Bool
  | .null, .null => true
  | .bool a, .bool b => a == b
  | .number x, .number y => x == y
  | .numeral text, actual => actual.shown? == some text
  | .string s, .string t => s == t
  | .array items, .array others => isSubsetItems items others
  | .object members, .object others => isSubsetMembers members others
  | _, _ => false

def isSubsetItems : List Datum → List Datum → Bool
  | [], _ => true
  | _ :: _, [] => false
  | item :: items, other :: others => isSubset item other && isSubsetItems items others

def isSubsetMembers : List (Bytes × Datum) → List (Bytes × Datum) → Bool
  | [], _ => true
  | (name, member) :: members, others =>
    (match others.lookup name with
      | some other => isSubset member other
      | none => false) && isSubsetMembers members others

end

def numberOf (text : Bytes) : Float :=
  match text with
  | 45 :: digits => Decimal.withSign true ((Decimal.readText? digits).getD (Decimal.infinity false))
  | digits => (Decimal.readText? digits).getD (Decimal.infinity false)

mutual

/-- A JSON value as a datum, with its numbers as doubles or as numerals. The last of several members
of one name counts. -/
def ofJson (asNumerals : Bool) : Json → Datum
  | .null => .null
  | .bool b => .bool b
  | .number text => if asNumerals then .numeral text else .number (numberOf text)
  | .string s => .string s
  | .array items => .array (ofJsonItems asNumerals items)
  | .object members => .object (ofJsonMembers asNumerals [] members)

def ofJsonItems (asNumerals : Bool) : List Json → List Datum
  | [] => []
  | j :: rest => ofJson asNumerals j :: ofJsonItems asNumerals rest

def ofJsonMembers (asNumerals : Bool) (done : List (Bytes × Datum)) :
    List (Bytes × Json) → List (Bytes × Datum)
  | [] => done
  | (name, j) :: rest => ofJsonMembers asNumerals (Entries.insert name (ofJson asNumerals j) done) rest

end

mutual

/-- The JSON value of a datum, if all its numbers are finite and all its members have names. -/
def toJson? : Datum → Option Json
  | .null => some .null
  | .bool b => some (.bool b)
  | .number x => if Decimal.isFinite x then some (.number (Decimal.Layout.json.text x)) else none
  | .numeral text => some (.number text)
  | .string s => some (.string s)
  | .array items => (toJsonItems? items).map .array
  | .object members => (toJsonMembers? members).map .object
  | .nameless => none

def toJsonItems? : List Datum → Option (List Json)
  | [] => some []
  | d :: rest => do
    let j ← toJson? d
    return j :: (← toJsonItems? rest)

def toJsonMembers? : List (Bytes × Datum) → Option (List (Bytes × Json))
  | [] => some []
  | (name, d) :: rest => do
    let j ← toJson? d
    return (name, j) :: (← toJsonMembers? rest)

end

end Datum

end BlockScript
