import BlockScript.Proofs.NumberText
import BlockScript.Token

/-! What the lexer makes of a text, lines aside. A text spells tokens if it is read as them whatever
follows, as long as that begins with a delimiter; so texts can be put together from parts. -/

namespace BlockScript.Token

open Decimal (Writes WellWritten)

/-- The text of the tokens of a kind, for the kinds that have only one. -/
def Kind.spelling (k : Kind) : Bytes :=
  Bytes.ofString <| match k with
    | leftParen => "("
    | rightParen => ")"
    | leftBrace => "\x7b"
    | rightBrace => "\x7d"
    | comma => ","
    | dot => "."
    | minus => "-"
    | plus => "+"
    | semicolon => ";"
    | slash => "/"
    | star => "*"
    | bang => "!"
    | bangEqual => "!="
    | equal => "="
    | equalEqual => "=="
    | greater => ">"
    | greaterEqual => ">="
    | less => "<"
    | lessEqual => "<="
    | k => ((words.find? fun entry => entry.2 = k).map (·.1)).getD ""

def mark (k : Kind) : Token := ⟨k, k.spelling, 0, .null⟩

def unplaced (t : Token) : Token := { t with line := 0 }

/-- A letter and further letters and digits that are no reserved word. -/
structure IsName (word : Bytes) : Prop where
  letter : word.head?.any Bytes.isLetter = true
  bytes : ∀ b ∈ word, Bytes.isWordByte b = true
  free : ∀ entry ∈ Kind.words, Bytes.ofString entry.1 ≠ word

def quoted (s : Bytes) : Bytes := Bytes.quoteMark :: s ++ [Bytes.quoteMark]

/-- The tokens that can be read from a text. -/
inductive Lexical : Token → Prop
  | fixed {k line} (h : k.spelling ≠ []) : Lexical ⟨k, k.spelling, line, .null⟩
  | name {word line} (h : IsName word) : Lexical ⟨.identifier, word, line, .null⟩
  | number {lexeme line x} (h : Writes lexeme x) : Lexical ⟨.number, lexeme, line, .number x⟩
  | string {s line} (h : Bytes.quoteMark ∉ s) : Lexical ⟨.string, quoted s, line, .string s⟩

theorem Lexical.kind_ne_endOfFile {t : Token} (h : Lexical t) : t.kind ≠ .endOfFile := by
  cases h with
  | fixed h => rintro rfl; exact h rfl
  | name _ | number _ | string _ => nofun

/-- Puts what a segment holds in front of the tokens behind it. A fault spoils them all. -/
def Segment.onto : Segment → Option (List Token) → Option (List Token)
  | .token kind lexeme literal, found => found.map (⟨kind, lexeme, 0, literal⟩ :: ·)
  | .fault .., _ => none
  | .blank _, found | .comment _, found => found

/-- The tokens of a text without faults, wherever they stand. -/
def scan? (source : Bytes) : Option (List Token) := (segments source).foldr Segment.onto (some [])

@[simp] theorem scan?_nil : scan? [] = some [] := by
  rw [scan?, segments]
  rfl

theorem scan?_cons (b : UInt8) (rest : Bytes) :
    scan? (b :: rest) = (Segment.cut b rest).1.onto (scan? (Segment.cut b rest).2) := by
  rw [scan?, segments]
  rfl

theorem ofSegments_tokens_ne_nil (line : Int) (pieces : List Segment) :
    (Lexed.ofSegments line pieces).tokens ≠ [] := by
  induction pieces generalizing line with
  | nil => simp [Lexed.ofSegments]
  | cons s rest ih => cases s <;> simp [Lexed.ofSegments, ih]

theorem ofSegments_iff_foldr {line : Int} {pieces : List Segment} {tokens : List Token} :
    pieces.foldr Segment.onto (some []) = some tokens ↔
      (Lexed.ofSegments line pieces).diagnostics = [] ∧
        (Lexed.ofSegments line pieces).tokens.map unplaced = tokens ++ [finish 0] := by
  induction pieces generalizing line tokens with
  | nil => simp [Lexed.ofSegments, unplaced, finish, eq_comm]
  | cons s rest ih =>
    rw [List.foldr_cons]
    cases s with
    | blank b => exact ih
    | comment body => exact ih
    | fault cause text => simp [Segment.onto, Lexed.ofSegments]
    | token kind lexeme literal =>
      simp only [Segment.onto, Option.map_eq_some_iff, Lexed.ofSegments, List.map_cons]
      constructor
      · rintro ⟨found, hfound, rfl⟩
        obtain ⟨hclean, htokens⟩ := ih.1 hfound
        exact ⟨hclean, by rw [htokens]; rfl⟩
      · rintro ⟨hclean, htokens⟩
        cases tokens with
        | nil =>
          have hnil := (List.cons.inj htokens).2
          exact absurd (List.map_eq_nil_iff.1 hnil) (ofSegments_tokens_ne_nil _ rest)
        | cons t found =>
          obtain ⟨rfl, hrest⟩ := List.cons.inj htokens
          exact ⟨found, ih.2 ⟨hclean, hrest⟩, rfl⟩

/-- Scanning is reading without lines. -/
theorem scan?_eq_some_iff {source : Bytes} {tokens : List Token} :
    scan? source = some tokens ↔ (lex source).diagnostics = [] ∧
      (lex source).tokens.map unplaced = tokens ++ [finish 0] :=
  ofSegments_iff_foldr

namespace Segment

/-- Letters and digits begin no other segment than words and numbers. -/
theorem cut_of_wordByte {b : UInt8} (rest : Bytes) (h : Bytes.isWordByte b = true) :
    cut b rest = if Bytes.isDigit b then cutNumber (b :: rest) else cutWord (b :: rest) := by
  have hne (c : UInt8) (hc : Bytes.isWordByte c = false) : (b = c) = False := by
    rw [eq_iff_iff, iff_false]
    rintro rfl
    simp [h] at hc
  have hletter : ¬ Bytes.isDigit b = true → Bytes.isLetter b = true := by
    intro hdigit
    simpa [Bytes.isWordByte, hdigit] using h
  simp (disch := decide) only [cut, single?, extensible?, isBlank, hne, if_false, beq_iff_eq,
    Bool.or_eq_true, or_self]
  split
  · rfl
  · next hdigit => rw [if_pos (hletter hdigit)]

theorem not_isDigit_of_isLetter {b : UInt8} (h : Bytes.isLetter b = true) :
    Bytes.isDigit b = false := by
  simp only [Bytes.isLetter, Bytes.isDigit, Bool.or_eq_true, Bool.and_eq_true, decide_eq_true_eq,
    beq_iff_eq, UInt8.le_iff_toNat_le, Bool.and_eq_false_iff, decide_eq_false_iff_not,
    ← UInt8.toNat_inj, UInt8.reduceToNat] at *
  omega

/-- One step through a table of bytes. -/
theorem holds_of_entry {α : Type} {P : UInt8 → α → Prop} {b c : UInt8} {v k : α} {others : Option α}
    (hentry : P c v) (hothers : others = some k → P b k) :
    (if b = c then some v else others) = some k → P b k := by
  intro h
  split at h
  · next hbyte =>
    obtain rfl := Option.some.inj h
    exact hbyte ▸ hentry
  · exact hothers h

theorem spelling_of_single {b : UInt8} {k : Kind} : single? b = some k → k.spelling = [b] := by
  unfold single?
  iterate 10 refine holds_of_entry (P := fun b (k : Kind) => k.spelling = [b]) rfl ?_
  nofun

theorem spelling_of_extensible {b : UInt8} {k : Kind × Kind} :
    extensible? b = some k → k.1.spelling = [b] ∧ k.2.spelling = [b, 61] := by
  unfold extensible?
  iterate 4
    refine holds_of_entry (P := fun b (k : Kind × Kind) => k.1.spelling = [b] ∧
      k.2.spelling = [b, 61]) ⟨rfl, rfl⟩ ?_
  nofun

theorem spelling_of_word {entry : String × Kind} (h : entry ∈ Kind.words) :
    entry.2.spelling = Bytes.ofString entry.1 := by
  revert entry
  decide

inductive IsLexical : Segment → Prop
  | token {kind lexeme literal} (h : Lexical ⟨kind, lexeme, 0, literal⟩) :
      IsLexical (.token kind lexeme literal)
  | blank {b} : IsLexical (.blank b)
  | comment {body} : IsLexical (.comment body)
  | fault {cause text} : IsLexical (.fault cause text)

theorem isLexical_fixed {k : Kind} {lexeme : Bytes} (h : k.spelling = lexeme) (hne : lexeme ≠ []) :
    IsLexical (.token k lexeme .null) := by
  subst h
  exact .token (.fixed hne)

theorem cutOperator_isLexical {b : UInt8} {kinds : Kind × Kind} (rest : Bytes)
    (h : extensible? b = some kinds) : IsLexical (cutOperator b kinds rest).1 := by
  obtain ⟨hshort, hlong⟩ := spelling_of_extensible h
  unfold cutOperator
  split
  · exact isLexical_fixed hlong (by simp)
  · exact isLexical_fixed hshort (by simp)

theorem cutSlash_isLexical (rest : Bytes) : IsLexical (cutSlash rest).1 := by
  unfold cutSlash
  split
  · exact .comment
  · exact isLexical_fixed rfl (by simp)

theorem cutString_isLexical (rest : Bytes) : IsLexical (cutString rest).1 := by
  unfold cutString
  split
  · exact .fault
  · next q after h =>
    have hquote : q = Bytes.quoteMark := by
      have := List.head_dropWhile_not (· != Bytes.quoteMark) (by rw [h]; simp)
      simpa [h] using this
    subst hquote
    refine .token (.string fun hmem => ?_)
    simpa using List.all_eq_true.1 (List.all_takeWhile (p := (· != Bytes.quoteMark))) _ hmem

theorem Numeral.take_wellWritten {b : UInt8} (rest : Bytes) (h : Bytes.isDigit b = true) :
    WellWritten (Numeral.take (b :: rest)).1 := by
  have hall (text : Bytes) : ∀ c ∈ text.takeWhile Bytes.isDigit, Bytes.isDigit c = true :=
    List.all_eq_true.1 List.all_takeWhile
  refine ⟨by simp [Numeral.take_whole, h], fun c hc => ?_⟩
  rw [List.mem_append, Numeral.take_whole] at hc
  rcases hc with hc | hc
  · exact hall _ c hc
  · unfold Numeral.take at hc
    dsimp only at hc
    split at hc
    · split at hc
      · cases hc
      · exact hall _ c hc
    · cases hc

theorem cutNumber_isLexical {b : UInt8} (rest : Bytes) (h : Bytes.isDigit b = true) :
    IsLexical (cutNumber (b :: rest)).1 := by
  have hwell := Numeral.take_wellWritten rest h
  unfold cutNumber
  dsimp only
  cases hvalue : (Numeral.take (b :: rest)).1.value? with
  | none => exact .fault
  | some x => exact .token (.number ⟨_, hwell, rfl, hvalue⟩)

theorem isLexical_word {b : UInt8} {more : Bytes} (hletter : Bytes.isLetter b = true)
    (hbytes : ∀ c ∈ b :: more, Bytes.isWordByte c = true) :
    IsLexical (.token (.ofWord (b :: more)) (b :: more) .null) := by
  unfold Kind.ofWord
  cases hfind : Kind.words.find? fun entry => Bytes.ofString entry.1 = b :: more with
  | none => exact .token (.name ⟨by simpa using hletter, hbytes, by simpa using hfind⟩)
  | some entry =>
    have htext : Bytes.ofString entry.1 = b :: more := by simpa using List.find?_some hfind
    have hspelling := spelling_of_word (List.mem_of_find?_eq_some hfind)
    exact isLexical_fixed (hspelling.trans htext) (by simp)

theorem cutWord_isLexical {b : UInt8} (rest : Bytes) (h : Bytes.isLetter b = true) :
    IsLexical (cutWord (b :: rest)).1 := by
  have hbytes := List.all_eq_true.1 (List.all_takeWhile (p := Bytes.isWordByte) (l := b :: rest))
  unfold cutWord
  rw [List.takeWhile_cons_of_pos (by simp [Bytes.isWordByte, h])] at hbytes ⊢
  exact isLexical_word h hbytes

/-- Every token that is cut off a text can be read from its lexeme. -/
theorem cut_isLexical (b : UInt8) (rest : Bytes) : IsLexical (cut b rest).1 := by
  unfold cut
  split
  · next h => exact isLexical_fixed (spelling_of_single h) (by simp)
  · next h => exact cutOperator_isLexical rest h
  · split
    · exact cutSlash_isLexical rest
    split
    · exact .blank
    split
    · exact cutString_isLexical rest
    split
    · next h => exact cutNumber_isLexical rest h
    split
    · next h => exact cutWord_isLexical rest h
    split
    · exact .fault
    · unfold cutStray
      split <;> exact .fault

end Segment

theorem lexical_of_scan {source : Bytes} {tokens : List Token} (h : scan? source = some tokens) :
    ∀ t ∈ tokens, Lexical t := by
  induction source using segments.induct generalizing tokens with
  | case1 => simp_all
  | case2 b rest ih =>
    have hcut := Segment.cut_isLexical b rest
    rw [scan?_cons] at h
    generalize (Segment.cut b rest).1 = s at h hcut
    cases hcut with
    | blank => exact ih h
    | comment => exact ih h
    | fault => cases h
    | token hcut =>
      obtain ⟨found, hfound, rfl⟩ := Option.map_eq_some_iff.1 h
      intro t ht
      rcases List.mem_cons.1 ht with rfl | ht
      · exact hcut
      · exact ih hfound t ht

/-- The bytes that end a word, a number or an operator: a blank, a closing parenthesis or a
semicolon. -/
def isDelimiter (b : UInt8) : Bool := Segment.isBlank b || b == 41 || b == 59

def Delimits (rest : Bytes) : Prop := ∀ b ∈ rest.head?, isDelimiter b = true

/-- The text is read as the tokens if what follows begins with a delimiter. -/
def Spells (text : Bytes) (tokens : List Token) : Prop :=
  ∀ rest, Delimits rest → scan? (text ++ rest) = (scan? rest).map (tokens ++ ·)

theorem delimits_cons {b : UInt8} (rest : Bytes) (h : isDelimiter b = true) :
    Delimits (b :: rest) := by
  simpa [Delimits] using h

theorem Delimits.not {p : UInt8 → Bool} (hp : ∀ b, isDelimiter b = true → p b = false)
    {rest : Bytes} (h : Delimits rest) : ∀ b ∈ rest.head?, p b = false := fun b hb => hp b (h b hb)

/-- Whatever holds of each delimiter holds of all. -/
theorem delimiter_cases {P : UInt8 → Prop} (hspace : P 32) (htab : P 9) (hreturn : P 13)
    (hline : P 10) (hparen : P 41) (hsemicolon : P 59) (b : UInt8) (h : isDelimiter b = true) :
    P b := by
  simp only [isDelimiter, Segment.isBlank, Bool.or_eq_true, beq_iff_eq] at h
  rcases h with ((((rfl | rfl) | rfl) | rfl) | rfl) | rfl <;> assumption

theorem takeWhile_append_stop {p : UInt8 → Bool} {text rest : Bytes} (h : ∀ b ∈ text, p b = true)
    (hrest : ∀ b ∈ rest.head?, p b = false) :
    (text ++ rest).takeWhile p = text ∧ (text ++ rest).dropWhile p = rest := by
  rw [List.takeWhile_append_of_pos h, List.dropWhile_append_of_pos h]
  cases rest with
  | nil => simp
  | cons b more => simp [hrest b (by simp)]

theorem spells_nil : Spells [] [] := fun rest _ => by simp

theorem Spells.scan {text : Bytes} {tokens : List Token} (h : Spells text tokens) :
    scan? text = some tokens := by
  simpa using h [] (by simp [Delimits])

theorem Segment.cut_of_isBlank {b : UInt8} (rest : Bytes) (h : isBlank b = true) :
    cut b rest = (.blank b, rest) := by
  simp only [isBlank, Bool.or_eq_true, beq_iff_eq] at h
  rcases h with ((rfl | rfl) | rfl) | rfl <;> rfl

theorem spells_blank {b : UInt8} {text : Bytes} {tokens : List Token}
    (hb : Segment.isBlank b = true) (h : Spells text tokens) : Spells (b :: text) tokens := by
  intro rest hrest
  rw [List.cons_append, scan?_cons, Segment.cut_of_isBlank _ hb]
  exact h rest hrest

theorem spells_single {b : UInt8} {k : Kind} {text : Bytes} {tokens : List Token}
    (hb : Segment.single? b = some k) (h : Spells text tokens) :
    Spells (b :: text) (mark k :: tokens) := by
  intro rest hrest
  have hcut : Segment.cut b (text ++ rest) = (.token k [b] .null, text ++ rest) := by
    simp [Segment.cut, hb]
  rw [List.cons_append, scan?_cons, hcut]
  simp only [Segment.onto, h rest hrest, mark, Segment.spelling_of_single hb, Option.map_map]
  rfl

/-- Text that begins with a delimiter may follow any other. -/
theorem Spells.append {text more : Bytes} {b : UInt8} {tokens others : List Token}
    (h : Spells text tokens) (hb : isDelimiter b = true) (hmore : Spells (b :: more) others) :
    Spells (text ++ b :: more) (tokens ++ others) := by
  intro rest hrest
  rw [List.append_assoc, h (b :: more ++ rest) (delimits_cons _ hb), hmore rest hrest,
    Option.map_map]
  congr 1
  funext found
  simp

theorem spells_of_cut {b : UInt8} {more : Bytes} {k : Kind} {value : Literal}
    (h : ∀ rest, Delimits rest →
      Segment.cut b (more ++ rest) = (.token k (b :: more) value, rest)) :
    Spells (b :: more) [⟨k, b :: more, 0, value⟩] := by
  intro rest hrest
  rw [List.cons_append, scan?_cons, h rest hrest]
  rfl

theorem spells_extensible {b : UInt8} {kinds : Kind × Kind} (hsingle : Segment.single? b = none)
    (hb : Segment.extensible? b = some kinds) :
    Spells [b] [mark kinds.1] ∧ Spells [b, 61] [mark kinds.2] := by
  obtain ⟨hshort, hlong⟩ := Segment.spelling_of_extensible hb
  rw [mark, mark, hshort, hlong]
  constructor
  · refine spells_of_cut fun rest hrest => ?_
    simp only [Segment.cut, hsingle, hb, Segment.cutOperator, List.nil_append]
    split
    · cases hrest 61 rfl
    · rfl
  · refine spells_of_cut fun rest _ => ?_
    simp only [Segment.cut, hsingle, hb, Segment.cutOperator, List.cons_append, List.nil_append]

theorem spells_slash : Spells [47] [mark .slash] := by
  refine spells_of_cut fun rest hrest => ?_
  change Segment.cutSlash rest = _
  unfold Segment.cutSlash
  split
  · cases hrest 47 rfl
  · rfl

theorem spells_word {b : UInt8} {more : Bytes} (hletter : Bytes.isLetter b = true)
    (hbytes : ∀ c ∈ b :: more, Bytes.isWordByte c = true) :
    Spells (b :: more) [⟨.ofWord (b :: more), b :: more, 0, .null⟩] := by
  refine spells_of_cut fun rest hrest => ?_
  have hstop := hrest.not (p := Bytes.isWordByte) (delimiter_cases rfl rfl rfl rfl rfl rfl)
  obtain ⟨htake, hdrop⟩ := takeWhile_append_stop hbytes hstop
  rw [Segment.cut_of_wordByte _ (hbytes b (by simp)), Segment.not_isDigit_of_isLetter hletter,
    if_neg Bool.false_ne_true, Segment.cutWord, ← List.cons_append, htake, hdrop]

theorem spells_quoted {s : Bytes} (h : Bytes.quoteMark ∉ s) :
    Spells (quoted s) [⟨.string, quoted s, 0, .string s⟩] := by
  refine spells_of_cut fun rest _ => ?_
  have hbytes : ∀ c ∈ s, (c != Bytes.quoteMark) = true := by
    intro c hc
    have hne : c ≠ Bytes.quoteMark := fun heq => h (heq ▸ hc)
    simpa using hne
  have hstop : ∀ c ∈ (Bytes.quoteMark :: rest).head?, (c != Bytes.quoteMark) = false := by simp
  obtain ⟨htake, hdrop⟩ := takeWhile_append_stop hbytes hstop
  change Segment.cutString (s ++ [Bytes.quoteMark] ++ rest) = _
  rw [List.append_assoc, List.singleton_append, Segment.cutString, hdrop, htake]
  rfl

theorem Segment.Numeral.take_lexeme {n : Numeral} (hn : WellWritten n) {rest : Bytes}
    (hrest : Delimits rest) : Numeral.take (n.lexeme ++ rest) = (n, rest) := by
  obtain ⟨whole, fraction⟩ := n
  have hwhole : ∀ c ∈ whole, Bytes.isDigit c = true := fun c hc =>
    hn.digits c (List.mem_append_left _ hc)
  have hfraction : ∀ c ∈ fraction, Bytes.isDigit c = true := fun c hc =>
    hn.digits c (List.mem_append_right _ hc)
  have hstop := hrest.not (p := Bytes.isDigit) (delimiter_cases rfl rfl rfl rfl rfl rfl)
  have hpoint : ∀ c ∈ (46 :: (fraction ++ rest)).head?, Bytes.isDigit c = false := by
    simp [Bytes.isDigit]
  unfold Numeral.take Numeral.lexeme
  dsimp only
  cases fraction with
  | nil =>
    obtain ⟨htake, hdrop⟩ := takeWhile_append_stop hwhole hstop
    rw [List.isEmpty_nil, if_pos rfl, htake, hdrop]
    split
    · cases hrest 46 rfl
    · rfl
  | cons c fraction =>
    obtain ⟨htake, hdrop⟩ := takeWhile_append_stop hwhole hpoint
    obtain ⟨htake', hdrop'⟩ := takeWhile_append_stop hfraction hstop
    rw [List.isEmpty_cons, if_neg Bool.false_ne_true, List.append_assoc, List.cons_append, htake,
      hdrop]
    simp only [htake', hdrop', List.isEmpty_cons, Bool.false_eq_true, if_false]

theorem spells_number {lexeme : Bytes} {x : Float} (h : Writes lexeme x) :
    Spells lexeme [⟨.number, lexeme, 0, .number x⟩] := by
  obtain ⟨n, hn, rfl, hvalue⟩ := h
  obtain ⟨b, digits, hwhole⟩ := List.exists_cons_of_ne_nil hn.whole
  have hdigit : Bytes.isDigit b = true := hn.digits b (by simp [hwhole])
  obtain ⟨more, hlexeme⟩ : ∃ more, n.lexeme = b :: more := by
    unfold Segment.Numeral.lexeme
    rw [hwhole]
    split
    · exact ⟨_, rfl⟩
    · exact ⟨_, rfl⟩
  rw [hlexeme]
  refine spells_of_cut fun rest hrest => ?_
  rw [Segment.cut_of_wordByte _ (by simp [Bytes.isWordByte, hdigit]), hdigit, if_pos rfl,
    ← List.cons_append, ← hlexeme]
  unfold Segment.cutNumber
  rw [Segment.Numeral.take_lexeme hn hrest]
  dsimp only
  rw [hvalue]
  rfl

theorem IsName.ofWord_eq {word : Bytes} (h : IsName word) : Kind.ofWord word = .identifier := by
  have hfind : (Kind.words.find? fun entry => Bytes.ofString entry.1 = word) = none := by
    simpa using h.free
  rw [Kind.ofWord, hfind]
  rfl

theorem IsName.spells {word : Bytes} (h : IsName word) :
    Spells word [⟨.identifier, word, 0, .null⟩] := by
  rw [← h.ofWord_eq]
  cases word with
  | nil => cases h.letter
  | cons b more => exact spells_word h.letter h.bytes

theorem spells_mark {k : Kind} (h : k.spelling ≠ []) : Spells k.spelling [mark k] := by
  cases k with
  | leftParen | rightParen | leftBrace | rightBrace | comma | dot | minus | plus | semicolon
  | star =>
    exact spells_single rfl spells_nil
  | slash => exact spells_slash
  | bang => exact (spells_extensible (b := 33) rfl rfl).1
  | bangEqual => exact (spells_extensible (b := 33) rfl rfl).2
  | equal => exact (spells_extensible (b := 61) rfl rfl).1
  | equalEqual => exact (spells_extensible (b := 61) rfl rfl).2
  | less => exact (spells_extensible (b := 60) rfl rfl).1
  | lessEqual => exact (spells_extensible (b := 60) rfl rfl).2
  | greater => exact (spells_extensible (b := 62) rfl rfl).1
  | greaterEqual => exact (spells_extensible (b := 62) rfl rfl).2
  | andWord | classWord | elseWord | falseWord | funWord | forWord | ifWord | nullWord | orWord
  | printWord | returnWord | superWord | thisWord | trueWord | varWord | whileWord =>
    exact spells_word rfl (List.all_eq_true.1 (by decide))
  | identifier | string | number | endOfFile | unknown => exact absurd rfl h

end BlockScript.Token
