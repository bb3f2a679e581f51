import BlockScript.Text

/-! Doubles as places on a line. The non-negative finite doubles in increasing order are
`m · 2^(k - 1074)`, and the one at place `k · 2^52 + m` is the one whose bits are that number; the
place after the last is infinity. Reading a quotient is finding the place nearest to it. -/

namespace BlockScript.Decimal

/-- The integer nearest to `num / den`; a tie goes to the even one. -/
def roundDiv (num den : Nat) : Nat :=
  let q := num / den
  let r := num % den
  if den < 2 * r || (2 * r == den && q % 2 == 1) then q + 1 else q

/-- Binary digits after the point in the finest double. -/
def finest : Nat := 1074

/-- The number of doubles between two powers of two. -/
def spacing : Nat := 0x10000000000000

def infinityPlace : Nat := 0x7FF * spacing

/-- What the sign adds to the bits of a negative double. -/
def signPlace : Nat := 0x8000000000000000

/-- The place of the double nearest to `num / den`, at or past `infinityPlace` if the quotient is
too large for a double. -/
def nearestPlace (num den : Nat) : Nat :=
  let scaled := num * Nat.pow 2 finest
  let k := (scaled / den).log2 - 52
  k * spacing + roundDiv scaled (den * Nat.pow 2 k)

def ofPlace (place : Nat) : Float := Float.ofBits place.toUInt64

def place (x : Float) : Nat := x.toBits.toNat % signPlace

def isNegative (x : Float) : Bool := signPlace ≤ x.toBits.toNat

def isFinite (x : Float) : Bool := place x < infinityPlace

def isInfinite (x : Float) : Bool := place x == infinityPlace

/-- The numerator over `2^1074` of the double at a place. -/
def numeratorAt (p : Nat) : Nat :=
  if p < spacing then p else (spacing + p % spacing) * Nat.pow 2 (p / spacing - 1)

/-- The double nearest to `coefficient / 10^places`, unless that is infinity. -/
def read? (coefficient places : Nat) : Option Float :=
  let p := nearestPlace coefficient (Nat.pow 10 places)
  if p < infinityPlace then some (ofPlace p) else none

/-! Numbers written with a point and an exponent, read as the nearest double. -/

def infinity (negative : Bool) : Float :=
  Float.ofBits (infinityPlace + if negative then signPlace else 0).toUInt64

def notANumber : Float := Float.ofBits 0x7FF8000000000000

def withSign (negative : Bool) (x : Float) : Float :=
  if negative then Float.ofBits (place x + signPlace).toUInt64 else x

/-- An exponent behind its mark: an optional sign and digits. The empty text is exponent zero. -/
def exponent? : Bytes → Option Int
  | [] => some 0
  | mark :: rest =>
    if mark ≠ 101 && mark ≠ 69 then none
    else
      let (negative, digits) := match rest with
        | 45 :: digits => (true, digits)
        | 43 :: digits => (false, digits)
        | digits => (false, digits)
      if digits.isEmpty || !digits.all Bytes.isDigit then none
      else some (if negative then -(Bytes.digitsValue digits) else Bytes.digitsValue digits)

/-- The double nearest to `coefficient · 10^exponent`, unless that is infinity. Exponents far outside
the range of doubles are settled without the power. -/
def readScaled? (coefficient : Nat) (digits : Nat) (exponent : Int) : Option Float :=
  if coefficient = 0 then some (ofPlace 0)
  else if 400 < exponent + digits then none
  else if exponent + digits < -400 then some (ofPlace 0)
  else
    match exponent with
    | .ofNat e => read? (coefficient * Nat.pow 10 e) 0
    | .negSucc e => read? coefficient (e + 1)

/-- Reads digits with an optional point among them and an optional exponent. -/
def readText? (text : Bytes) : Option Float := do
  let whole := text.takeWhile Bytes.isDigit
  let after := text.dropWhile Bytes.isDigit
  let (fraction, after) := match after with
    | 46 :: rest => (rest.takeWhile Bytes.isDigit, rest.dropWhile Bytes.isDigit)
    | _ => ([], after)
  if whole.isEmpty && fraction.isEmpty then none
  else
    let exponent ← exponent? after
    let digits := (whole ++ fraction).dropWhile (· == 48)
    readScaled? (Bytes.digitsValue digits) digits.length (exponent - fraction.length)

/-! The fewest decimal digits that read back as a given double; of several such numbers the one
nearest to it, and of two equally near the even one. -/

/-- The number `0.digits · 10^point`. -/
structure Digits where
  digits : Bytes
  point : Int
  deriving DecidableEq, Repr

def width (n : Nat) : Nat := (Bytes.natural n).length

/-- The `point` with `10^(point-1) ≤ num / den < 10^point`. -/
def pointOf (num den : Nat) : Int :=
  if den ≤ num then width (num / den)
  else
    let d := width (den / num)
    if den ≤ num * Nat.pow 10 (d - 1) then 2 - (d : Int) else 1 - (d : Int)

/-- `coefficient · 10^grid` as a quotient. -/
def onGrid (coefficient : Nat) (grid : Int) : Nat × Nat :=
  match grid with
  | .ofNat g => (coefficient * Nat.pow 10 g, 1)
  | .negSucc g => (coefficient, Nat.pow 10 (g + 1))

def readsBack (p coefficient : Nat) (grid : Int) : Bool :=
  let (num, den) := onGrid coefficient grid
  nearestPlace num den == p

/-- The better of the two neighbours of `num / den` on a grid among those that read back. -/
def neighbour? (p num den : Nat) (grid : Int) : Option Nat :=
  let (unit, parts) := onGrid 1 grid
  let top := num * parts
  let bottom := den * unit
  let low := top / bottom
  let r := top % bottom
  let preferHigh := bottom < 2 * r || (2 * r == bottom && low % 2 == 1)
  let first := if preferHigh then low + 1 else low
  let second := if preferHigh then low else low + 1
  if readsBack p first grid then some first
  else if readsBack p second grid then some second
  else none

def Digits.ofCoefficient (coefficient : Nat) (grid : Int) : Digits :=
  let text := Bytes.natural coefficient
  ⟨(text.reverse.dropWhile (· == 48)).reverse, text.length + grid⟩

/-- Tries the grids with `used + 1`, `used + 2`, … digits. -/
def shortestFrom? (p num den : Nat) (point : Int) : (left used : Nat) → Option Digits
  | 0, _ => none
  | left + 1, used =>
    let grid := point - (used + 1 : Nat)
    ((neighbour? p num den grid).map (Digits.ofCoefficient · grid)).orElse fun _ =>
      shortestFrom? p num den point left (used + 1)

/-- The digits of a positive double given by its place. Seventeen are always enough; behind them
stands the exact value. -/
def shortest (p : Nat) : Digits :=
  let num := numeratorAt p
  let den := Nat.pow 2 finest
  (shortestFrom? p num den (pointOf num den) 17 0).getD
    (.ofCoefficient (num * Nat.pow 5 finest) (-(finest : Int)))

/-! How the digits of a double are laid out. The three layouts of the program differ in where they
switch to an exponent and in how wide it is. -/

/-- A number whose decimal exponent lies in `plain` is written without one. -/
structure Layout where
  plain : Int → Bool
  exponentWidth : Nat

/-- Programs print numbers without an exponent, however long that makes them. -/
def Layout.program : Layout := ⟨fun _ => true, 0⟩

/-- Listings of tokens keep a number plain up to six digits before the point and four zeros
after it. -/
def Layout.listing : Layout := ⟨fun e => -4 ≤ e && e < 6, 2⟩

/-- JSON keeps a number plain from a millionth up to twenty-one digits before the point. -/
def Layout.json : Layout := ⟨fun e => -6 ≤ e && e < 21, 1⟩

def zeros (n : Nat) : Bytes := List.replicate n 48

def Digits.plain (d : Digits) : Bytes :=
  match d.point with
  | .ofNat n =>
    if d.digits.length ≤ n then
      if n = 0 then [48] else d.digits ++ zeros (n - d.digits.length)
    else if n = 0 then [48, 46] ++ d.digits
    else d.digits.take n ++ [46] ++ d.digits.drop n
  | .negSucc n => [48, 46] ++ zeros (n + 1) ++ d.digits

def Digits.scientific (exponentWidth : Nat) (d : Digits) : Bytes :=
  let e := d.point - 1
  let mantissa := if d.digits.length ≤ 1 then d.digits else d.digits.take 1 ++ [46] ++ d.digits.drop 1
  let size := Bytes.natural e.natAbs
  mantissa ++ [101, if e < 0 then 45 else 43] ++ zeros (exponentWidth - size.length) ++ size

/-- The text of a double. Zero keeps its sign. -/
def Layout.text (layout : Layout) (x : Float) : Bytes :=
  if isInfinite x then (if isNegative x then Bytes.ofString "-Inf" else Bytes.ofString "+Inf")
  else if !isFinite x then Bytes.ofString "NaN"
  else
    let sign : Bytes := if isNegative x then [45] else []
    if place x = 0 then sign ++ [48]
    else
      let d := shortest (place x)
      sign ++ if layout.plain (d.point - 1) then d.plain else d.scientific layout.exponentWidth

/-- A finite double with a fixed number of places; a tie goes to the even neighbour. -/
def fixed (places : Nat) (x : Float) : Bytes :=
  let scaled := roundDiv (numeratorAt (place x) * Nat.pow 10 places) (Nat.pow 2 finest)
  let fraction := Bytes.natural (scaled % Nat.pow 10 places)
  (if isNegative x then [45] else []) ++ Bytes.natural (scaled / Nat.pow 10 places) ++ 46 ::
    zeros (places - fraction.length) ++ fraction

end BlockScript.Decimal
