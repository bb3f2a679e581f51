/-! Source text is a list of bytes, because a program may hold bytes that form no character. Fixed
texts are written as strings and read through `Bytes.ofString`. -/

namespace BlockScript

abbrev Bytes := List UInt8

namespace Bytes

def ofString (s : String) : Bytes := s.toUTF8.data.toList

def ofChar (c : Char) : Bytes := [c.toNat.toUInt8]

def toString? (b : Bytes) : Option String := String.fromUTF8? ⟨b.toArray⟩

def lineFeed : UInt8 := 10
def quoteMark : UInt8 := 34

def isDigit (b : UInt8) : Bool := 48 ≤ b && b ≤ 57

def isLetter (b : UInt8) : Bool := (97 ≤ b && b ≤ 122) || (65 ≤ b && b ≤ 90) || b == 95

def isWordByte (b : UInt8) : Bool := isLetter b || isDigit b

def isAscii (b : UInt8) : Bool := b < 128

def lineFeeds (b : Bytes) : Nat := b.count lineFeed

def natural (n : Nat) : Bytes := (Nat.toDigits 10 n).map fun c => c.toNat.toUInt8

def integer : Int → Bytes
  | .ofNat n => natural n
  | .negSucc n => 45 :: natural (n + 1)

def digitsValue (digits : Bytes) : Nat := digits.foldl (fun n d => n * 10 + (d.toNat - 48)) 0

def hexDigit (n : Nat) : UInt8 := if n < 10 then (48 + n).toUInt8 else (87 + n).toUInt8

/-- The last `width` hexadecimal digits of a number. -/
def hex : (width : Nat) → (n : Nat) → Bytes
  | 0, _ => []
  | width + 1, n => hex width (n / 16) ++ [hexDigit (n % 16)]

def join (separator : Bytes) : List Bytes → Bytes
  | [] => []
  | [b] => b
  | b :: c :: rest => b ++ separator ++ join separator (c :: rest)

/-- The pieces between separator bytes; there is always at least one. -/
def splitAt (separator : UInt8) (b : Bytes) : List Bytes :=
  b.foldr (fun c pieces => if c = separator then [] :: pieces else match pieces with
    | [] => [[c]]
    | piece :: rest => (c :: piece) :: rest) [[]]

def contains (piece : Bytes) : Bytes → Bool
  | [] => piece.isEmpty
  | b :: rest => piece.isPrefixOf (b :: rest) || contains piece rest

/-- ASCII letters in lower case, all other bytes kept. -/
def toLower (b : Bytes) : Bytes := b.map fun c => if 65 ≤ c && c ≤ 90 then c + 32 else c

instance : Coe String Bytes := ⟨ofString⟩

end Bytes

end BlockScript

/-! Lists of values with names, in increasing order of the names, so that a listing needs no sorting and
a name has one entry. -/

namespace BlockScript.Entries

variable {α : Type}

def Ordered (entries : List (Bytes × α)) : Prop := (entries.map (·.1)).Pairwise (· < ·)

instance (entries : List (Bytes × α)) : Decidable (Ordered entries) :=
  inferInstanceAs (Decidable (List.Pairwise _ _))

/-- Gives a name the value that is made of the one it has, if any. -/
def alter (name : Bytes) (change : Option α → α) : List (Bytes × α) → List (Bytes × α)
  | [] => [(name, change none)]
  | entry :: rest =>
    if entry.1 = name then (name, change (some entry.2)) :: rest
    else if name < entry.1 then (name, change none) :: entry :: rest
    else entry :: alter name change rest

def insert (name : Bytes) (v : α) (entries : List (Bytes × α)) : List (Bytes × α) :=
  alter name (fun _ => v) entries

variable {name other : Bytes} {change : Option α → α} {entries : List (Bytes × α)}

theorem mem_names_alter :
    other ∈ (alter name change entries).map (·.1) ↔ other = name ∨ other ∈ entries.map (·.1) := by
  induction entries with
  | nil => simp [alter]
  | cons entry rest ih =>
    rw [alter]
    split
    · next hsame => simp [hsame]
    · split
      · simp
      · rw [List.map_cons, List.mem_cons, ih, List.map_cons, List.mem_cons, or_left_comm]

theorem mem_names_iff : name ∈ entries.map (·.1) ↔ (entries.lookup name).isSome = true := by
  simp only [List.lookup_isSome_iff, List.mem_map, beq_iff_eq, eq_comm (a := name)]

theorem lookup_alter_of_ne (h : other ≠ name) :
    (alter name change entries).lookup other = entries.lookup other := by
  have hother : (other == name) = false := beq_eq_false_iff_ne.2 h
  induction entries with
  | nil => simp [alter, List.lookup_cons, hother]
  | cons entry rest ih =>
    obtain ⟨first, v⟩ := entry
    rw [alter]
    split
    · next hsame =>
      obtain rfl : first = name := hsame
      rw [List.lookup_cons, List.lookup_cons, hother]
    · split
      · rw [List.lookup_cons, hother]
      · rw [List.lookup_cons, List.lookup_cons, ih]

namespace Ordered

/-- The first name is the least. -/
theorem lookup_eq_none {first : Bytes × α} (h : Ordered (first :: entries)) (hname : name < first.1) :
    (first :: entries).lookup name = none := by
  obtain ⟨hfirst, -⟩ := List.pairwise_cons.1 h
  refine List.lookup_eq_none_iff.2 fun entry hentry => ?_
  have hbefore : name < entry.1 := by
    rcases List.mem_cons.1 hentry with rfl | hentry
    · exact hname
    · exact List.lt_trans hname (hfirst entry.1 (List.mem_map_of_mem hentry))
  simpa using fun heq : name = entry.1 => List.lt_irrefl name (heq ▸ hbefore)

theorem lookup_alter (h : Ordered entries) (name : Bytes) (change : Option α → α) :
    (Entries.alter name change entries).lookup name = some (change (entries.lookup name)) := by
  induction entries with
  | nil => simp [Entries.alter]
  | cons entry rest ih =>
    obtain ⟨first, v⟩ := entry
    rw [Entries.alter]
    split
    · next hsame =>
      obtain rfl : first = name := hsame
      rw [List.lookup_cons_self, List.lookup_cons_self]
    · next hsame =>
      split
      · next hbefore => rw [List.lookup_cons_self, h.lookup_eq_none hbefore]
      · have hother : (name == first) = false := beq_eq_false_iff_ne.2 (Ne.symm hsame)
        rw [List.lookup_cons, hother, List.lookup_cons, hother, ih (List.pairwise_cons.1 h).2]

theorem alter (h : Ordered entries) (name : Bytes) (change : Option α → α) :
    Ordered (alter name change entries) := by
  induction entries with
  | nil => exact List.pairwise_singleton _ _
  | cons entry rest ih =>
    obtain ⟨hfirst, hrest⟩ := List.pairwise_cons.1 h
    rw [Entries.alter]
    split
    · next hsame => exact List.pairwise_cons.2 ⟨fun n hn => hsame ▸ hfirst n hn, hrest⟩
    · next hsame =>
      split
      · next hbefore =>
        refine List.pairwise_cons.2 ⟨fun n hn => ?_, h⟩
        rcases List.mem_cons.1 hn with rfl | hn
        · exact hbefore
        · exact List.lt_trans hbefore (hfirst n hn)
      · next hnot =>
        refine List.pairwise_cons.2 ⟨fun n hn => ?_, ih hrest⟩
        rcases mem_names_alter.1 hn with rfl | hn
        · exact Decidable.by_contra fun hafter => hsame (List.le_antisymm hnot hafter)
        · exact hfirst n hn

end Ordered

end BlockScript.Entries

/-! UTF-8 read one character at a time. Every non-empty text starts with one item: a character with
its encoding, or a single byte that begins no character. The shortest encoding is the only one
accepted, and surrogates are no characters. -/

namespace BlockScript.Utf8

/-- A character, or a byte that belongs to none. -/
inductive Item
  | char (code : Nat)
  | stray (byte : UInt8)
  deriving DecidableEq, Repr

def continued (low high : UInt8) (b : UInt8) : Option Nat :=
  if low ≤ b && b ≤ high then some (b.toNat % 64) else none

/-- The code and the byte length of the character that begins with `b`. -/
def first? (b : UInt8) (rest : Bytes) : Option (Nat × Nat) :=
  if b < 0x80 then some (b.toNat, 1)
  else if b < 0xC2 then none
  else if b < 0xE0 then
    match rest with
    | c :: _ => (continued 0x80 0xBF c).map fun x => ((b.toNat % 32) * 64 + x, 2)
    | [] => none
  else if b < 0xF0 then
    match rest with
    | c :: d :: _ => do
      let x ← continued (if b = 0xE0 then 0xA0 else 0x80) (if b = 0xED then 0x9F else 0xBF) c
      let y ← continued 0x80 0xBF d
      some ((b.toNat % 16) * 4096 + x * 64 + y, 3)
    | _ => none
  else if b < 0xF5 then
    match rest with
    | c :: d :: e :: _ => do
      let x ← continued (if b = 0xF0 then 0x90 else 0x80) (if b = 0xF4 then 0x8F else 0xBF) c
      let y ← continued 0x80 0xBF d
      let z ← continued 0x80 0xBF e
      some ((b.toNat % 8) * 262144 + x * 4096 + y * 64 + z, 4)
    | _ => none
  else none

def next (b : UInt8) (rest : Bytes) : Item × Bytes × Bytes :=
  match first? b rest with
  | some (code, size) => (.char code, b :: rest.take (size - 1), rest.drop (size - 1))
  | none => (.stray b, [b], rest)

theorem next_append (b : UInt8) (rest : Bytes) :
    (next b rest).2.1 ++ (next b rest).2.2 = b :: rest := by
  unfold next
  split <;> simp

theorem next_length (b : UInt8) (rest : Bytes) : (next b rest).2.2.length ≤ rest.length := by
  unfold next
  split <;> simp

/-- All items of a text with their bytes, gathered in front of `done` in reverse. -/
def itemsFrom (done : List (Item × Bytes)) : Bytes → List (Item × Bytes)
  | [] => done.reverse
  | b :: rest => itemsFrom (((next b rest).1, (next b rest).2.1) :: done) (next b rest).2.2
termination_by text => text.length
decreasing_by
  have := next_length b rest
  simp
  omega

def items (text : Bytes) : List (Item × Bytes) := itemsFrom [] text

def encode (code : Nat) : Bytes :=
  if code < 0x80 then [code.toUInt8]
  else if code < 0x800 then [(0xC0 + code / 64).toUInt8, (0x80 + code % 64).toUInt8]
  else if code < 0x10000 then
    [(0xE0 + code / 4096).toUInt8, (0x80 + code / 64 % 64).toUInt8, (0x80 + code % 64).toUInt8]
  else
    [(0xF0 + code / 262144).toUInt8, (0x80 + code / 4096 % 64).toUInt8,
      (0x80 + code / 64 % 64).toUInt8, (0x80 + code % 64).toUInt8]

def replacement : Nat := 0xFFFD

end BlockScript.Utf8

/-! Cutting a text into lines of bounded length. A line feed ends a line, a carriage return before it
is dropped, and the last line may lack its end. -/

namespace BlockScript.Text

def lineLimit : Nat := 65536

/-- The raw lines of a text, without their line feeds. A text that ends in a line feed has no empty
line behind it. -/
def rawLines (text : Bytes) : List Bytes :=
  match (Bytes.splitAt Bytes.lineFeed text).reverse with
  | [] :: pieces => pieces.reverse
  | pieces => pieces.reverse

def dropReturn (line : Bytes) : Bytes :=
  if line.getLast? = some 13 then line.dropLast else line

/-- The lines before the first that is too long, and whether there is such a line. -/
def boundedLines (text : Bytes) : List Bytes × Bool :=
  let raw := rawLines text
  let readable := raw.takeWhile (·.length < lineLimit)
  (readable.map dropReturn, readable.length < raw.length)

/-! White space as Unicode defines it, and the two cuts that depend on it: trimming a text and
splitting it into words. A byte that belongs to no character is never white space. -/

def isBlank (code : Nat) : Bool :=
  (9 ≤ code && code ≤ 13) || code == 0x20 || code == 0x85 || code == 0xA0 || code == 0x1680 ||
    (0x2000 ≤ code && code ≤ 0x200A) || code == 0x2028 || code == 0x2029 || code == 0x202F ||
    code == 0x205F || code == 0x3000

def isBlankItem : Utf8.Item × Bytes → Bool
  | (.char code, _) => isBlank code
  | (.stray _, _) => false

def trim (text : Bytes) : Bytes :=
  let kept := (Utf8.items text).dropWhile isBlankItem
  ((kept.reverse.dropWhile isBlankItem).reverse).flatMap (·.2)

/-- The words of a text: its longest runs without white space. -/
def words (text : Bytes) : List Bytes :=
  let pieces := (Utf8.items text).foldr (fun item pieces =>
    if isBlankItem item then [] :: pieces
    else match pieces with
      | [] => [item.2]
      | piece :: rest => (item.2 ++ piece) :: rest) [[]]
  pieces.filter (!·.isEmpty)

end BlockScript.Text
