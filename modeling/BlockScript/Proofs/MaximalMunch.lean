import Mathlib.Data.List.TakeWhile
import BlockScript.Proofs.Scan
import BlockScript.Proofs.Utf8

/-! The lexer cuts a source into longest pieces. The classes of pieces are described without regard
to what follows; a piece of any class stands in a source only where no longer one begins, and that
alone determines the cut. Where the pieces of each class end is a consequence. -/

namespace BlockScript

def Diagnostic.unplaced (d : Diagnostic) : Diagnostic := { d with line := 0 }

namespace Token

open String (utf8EncodeChar)
open Decimal (Writes WellWritten)

namespace Segment

/-- A byte with which neither a blank nor a token begins. -/
structure IsOther (b : UInt8) : Prop where
  blank : b ∉ [32, 9, 13, 10]
  word : Bytes.isWordByte b = false
  quote : b ≠ Bytes.quoteMark
  mark : ∀ k : Kind, k.spelling ≠ [b]

/-- What a source is cut into. A number is a fault if it is too large for a double, a quote mark if
no other follows before the piece ends, and a character or a byte if it has no place in a token. -/
inductive Piece : Segment → Prop
  | blank {b} (h : b ∈ [32, 9, 13, 10]) : Piece (.blank b)
  | comment {body} (h : Bytes.lineFeed ∉ body) : Piece (.comment body)
  | token {kind lexeme literal} (h : Lexical ⟨kind, lexeme, 0, literal⟩) :
      Piece (.token kind lexeme literal)
  | openString {body} (h : Bytes.quoteMark ∉ body) :
      Piece (.fault .unterminatedString (Bytes.quoteMark :: body))
  | hugeNumber {n : Numeral} (hn : WellWritten n) (h : n.value? = none) :
      Piece (.fault (.invalidNumber n.lexeme) n.lexeme)
  | character {c : Char} (h : 128 ≤ c.toNat) :
      Piece (.fault (.strayCharacter (utf8EncodeChar c)) (utf8EncodeChar c))
  | byte {b} (h : IsOther b) : Piece (.fault (.strayByte b) [b])

/-- No piece at the front of the source is longer. -/
structure Longest (s : Segment) (source : Bytes) : Prop where
  piece : s.Piece
  front : s.text <+: source
  longest : ∀ other : Segment, other.Piece → other.text <+: source →
    other.text.length ≤ s.text.length

theorem isBlank_iff {b : UInt8} : isBlank b = true ↔ b ∈ [32, 9, 13, 10] := by
  simp [isBlank, or_assoc]

theorem piece_numeral {n : Numeral} (hn : WellWritten n) : (ofNumeral n.lexeme n.value?).Piece := by
  cases hvalue : n.value? with
  | none => exact .hugeNumber hn hvalue
  | some x => exact .token (.number ⟨n, hn, rfl, hvalue⟩)

theorem piece_word {b : UInt8} {more : Bytes} (hletter : Bytes.isLetter b = true)
    (hbytes : ∀ c ∈ b :: more, Bytes.isWordByte c = true) :
    (Segment.token (.ofWord (b :: more)) (b :: more) .null).Piece := by
  cases isLexical_word hletter hbytes with
  | token h => exact .token h

theorem byte_of_spelling {k : Kind} {b : UInt8} (h : k.spelling = [b]) :
    (single? b).isSome = true ∨ (extensible? b).isSome = true ∨ b = 47 := by
  have hlength : k.spelling.length = 1 := by rw [h]; rfl
  cases k with
  | leftParen | rightParen | leftBrace | rightBrace | comma | dot | minus | plus | semicolon
  | star =>
    obtain rfl := (List.cons.inj h).1
    exact Or.inl rfl
  | bang | equal | less | greater =>
    obtain rfl := (List.cons.inj h).1
    exact Or.inr (Or.inl rfl)
  | slash =>
    obtain rfl := (List.cons.inj h).1
    exact Or.inr (Or.inr rfl)
  | bangEqual | equalEqual | lessEqual | greaterEqual | andWord | classWord | elseWord | falseWord
  | funWord | forWord | ifWord | nullWord | orWord | printWord | returnWord | superWord | thisWord
  | trueWord | varWord | whileWord =>
    exact absurd hlength (by decide)
  | identifier | string | number | endOfFile | unknown _ =>
    exact absurd (show 0 = 1 from hlength) (by decide)

theorem isOther_of_not_ascii {b : UInt8} (h : ¬ Bytes.isAscii b = true) : IsOther b := by
  have hlarge : 128 ≤ b.toNat := by
    simpa [Bytes.isAscii, UInt8.lt_iff_toNat_lt] using h
  have hne (c : UInt8) (hc : c.toNat < 128) : b ≠ c := by
    rintro rfl
    omega
  refine ⟨?_, ?_, hne _ (by decide), ?_⟩
  · simp [hne 32, hne 9, hne 13, hne 10]
  · simp only [Bytes.isWordByte, Bytes.isLetter, Bytes.isDigit, UInt8.le_iff_toNat_le,
      UInt8.reduceToNat, Bool.or_eq_false_iff, Bool.and_eq_false_iff, decide_eq_false_iff_not,
      beq_eq_false_iff_ne]
    exact ⟨⟨⟨by omega, by omega⟩, hne 95 (by decide)⟩, by omega⟩
  · intro k hk
    have hbyte := byte_of_spelling hk
    simp [single?, extensible?, hne] at hbyte

/-- A byte of none of the other classes is cut off alone unless a character begins with it. -/
theorem cut_of_isOther {b : UInt8} (rest : Bytes) (h : IsOther b) :
    cut b rest =
      if Bytes.isAscii b then (.fault (.strayByte b) [b], rest) else cutStray b rest := by
  have hsingle : single? b = none := by
    cases hfound : single? b with
    | none => rfl
    | some k => exact absurd (spelling_of_single hfound) (h.mark k)
  have hextensible : extensible? b = none := by
    cases hfound : extensible? b with
    | none => rfl
    | some kinds => exact absurd (spelling_of_extensible hfound).1 (h.mark kinds.1)
  have hslash : b ≠ 47 := by
    rintro rfl
    exact h.mark .slash rfl
  have hspace : ¬ isBlank b = true := mt isBlank_iff.1 h.blank
  obtain ⟨hletter, hdigit⟩ := Bool.or_eq_false_iff.1 h.word
  simp [cut, hsingle, hextensible, hslash, hspace, h.quote, hletter, hdigit]

/-- The encoding of a character outside ASCII has a second byte, and its first byte is outside ASCII
too. -/
theorem encode_of_large {c : Char} (h : 128 ≤ c.toNat) :
    ∃ b d more, utf8EncodeChar c = b :: d :: more ∧ ¬ Bytes.isAscii b = true := by
  have hlong : ∃ b d more, utf8EncodeChar c = b :: d :: more := by
    simp only [utf8EncodeChar, show c.val.toNat = c.toNat from rfl]
    rw [if_neg (by omega)]
    split
    · exact ⟨_, _, _, rfl⟩
    split
    · exact ⟨_, _, _, rfl⟩
    · exact ⟨_, _, _, rfl⟩
  obtain ⟨b, d, more, hbytes⟩ := hlong
  have hlarge := Utf8.large_of_mem_encode h b (by simp [hbytes])
  refine ⟨b, d, more, hbytes, ?_⟩
  simp only [Bytes.isAscii, UInt8.lt_iff_toNat_lt, UInt8.reduceToNat, decide_eq_true_eq]
  omega

theorem large_of_encode {c : Char} {b : UInt8} {more : Bytes} (h : utf8EncodeChar c = b :: more)
    (hb : ¬ Bytes.isAscii b = true) : 128 ≤ c.toNat := by
  by_contra hsmall
  have hbyte := Utf8.toNat_byte (n := c.toNat) (by omega)
  simp only [utf8EncodeChar, show c.val.toNat = c.toNat from rfl] at h
  rw [if_pos (by omega)] at h
  obtain ⟨rfl, -⟩ := List.cons.inj h
  simp only [Bytes.isAscii, UInt8.lt_iff_toNat_lt, UInt8.reduceToNat, decide_eq_true_eq] at hb
  omega

theorem cutStray_character {c : Char} {b : UInt8} {rest more : Bytes}
    (h : utf8EncodeChar c ++ more = b :: rest) :
    cutStray b rest = (.fault (.strayCharacter (utf8EncodeChar c)) (utf8EncodeChar c), more) := by
  simp [cutStray, Utf8.next_encode c h]

theorem cutStray_byte {b : UInt8} {rest : Bytes} (h : ∀ c, ¬ utf8EncodeChar c <+: b :: rest) :
    cutStray b rest = (.fault (.strayByte b) [b], rest) := by
  simp [cutStray, Utf8.next_stray h]

theorem cutStray_piece {b : UInt8} (rest : Bytes) (hb : ¬ Bytes.isAscii b = true) :
    (cutStray b rest).1.Piece := by
  by_cases h : ∃ c, utf8EncodeChar c <+: b :: rest
  · obtain ⟨c, more, hc⟩ := h
    rw [cutStray_character hc]
    cases hbytes : utf8EncodeChar c with
    | nil => simp at hbytes
    | cons b' bytes =>
      rw [hbytes] at hc
      obtain ⟨rfl, -⟩ := List.cons.inj hc
      rw [← hbytes]
      exact .character (large_of_encode hbytes hb)
  · rw [cutStray_byte (not_exists.1 h)]
    exact .byte (isOther_of_not_ascii hb)

theorem cutSlash_piece (rest : Bytes) : (cutSlash rest).1.Piece := by
  unfold cutSlash
  split
  · refine .comment fun hmem => ?_
    simpa using List.all_eq_true.1 (List.all_takeWhile (p := (· != Bytes.lineFeed))) _ hmem
  · exact .token (.fixed (k := .slash) (by decide))

theorem cutString_piece (rest : Bytes) : (cutString rest).1.Piece := by
  have hlexical := cutString_isLexical rest
  unfold cutString at hlexical ⊢
  split at hlexical
  · next hnone =>
    refine .openString fun hmem => ?_
    have := List.dropWhile_eq_nil_iff.1 hnone _ hmem
    simp at this
  · cases hlexical with
    | token h => exact .token h

theorem cutOperator_piece {b : UInt8} {kinds : Kind × Kind} (rest : Bytes)
    (h : extensible? b = some kinds) : (cutOperator b kinds rest).1.Piece := by
  have hlexical := cutOperator_isLexical rest h
  unfold cutOperator at hlexical ⊢
  split at hlexical
  · cases hlexical with
    | token h => exact .token h
  · cases hlexical with
    | token h => exact .token h

/-- What is cut off is a piece. -/
theorem cut_piece (b : UInt8) (rest : Bytes) : (cut b rest).1.Piece := by
  unfold cut
  split
  · next h =>
    cases isLexical_fixed (spelling_of_single h) (by simp) with
    | token h => exact .token h
  · next h => exact cutOperator_piece rest h
  · next hsingle hextensible =>
    by_cases hslash : b = 47
    · rw [if_pos hslash]
      exact cutSlash_piece rest
    rw [if_neg hslash]
    by_cases hblank : isBlank b = true
    · rw [if_pos hblank]
      exact .blank (isBlank_iff.1 hblank)
    rw [if_neg hblank]
    by_cases hquote : b = Bytes.quoteMark
    · rw [if_pos hquote]
      exact cutString_piece rest
    rw [if_neg hquote]
    by_cases hdigit : Bytes.isDigit b = true
    · rw [if_pos hdigit]
      simp only [cutNumber]
      exact piece_numeral (Numeral.take_wellWritten rest hdigit)
    rw [if_neg hdigit]
    by_cases hletter : Bytes.isLetter b = true
    · rw [if_pos hletter]
      have hbytes := List.all_eq_true.1
        (List.all_takeWhile (p := Bytes.isWordByte) (l := b :: rest))
      unfold cutWord
      rw [List.takeWhile_cons_of_pos (by simp [Bytes.isWordByte, hletter])] at hbytes ⊢
      exact piece_word hletter hbytes
    rw [if_neg hletter]
    by_cases hascii : Bytes.isAscii b = true
    · rw [if_pos hascii]
      have hword : Bytes.isWordByte b = false := by simp [Bytes.isWordByte, hletter, hdigit]
      refine .byte ⟨mt isBlank_iff.2 hblank, hword, hquote, ?_⟩
      intro k hk
      simpa [hsingle, hextensible, hslash] using byte_of_spelling hk
    · rw [if_neg hascii]
      exact cutStray_piece rest hascii

/-- A piece at the front of a text is what is cut off, or something longer is. -/
def Within (s : Segment) (found : Segment) : Prop := found = s ∨ s.text.length < found.text.length

theorem within_of_takeWhile {p : UInt8 → Bool} {body : Bytes} (build : Bytes → Segment)
    (more : Bytes) (hbody : ∀ c ∈ body, p c = true)
    (hlength : ∀ extra,
      (build body).text.length + extra.length = (build (body ++ extra)).text.length) :
    (build body).Within (build ((body ++ more).takeWhile p)) := by
  rw [List.takeWhile_append_of_pos hbody]
  cases h : more.takeWhile p with
  | nil => exact Or.inl (by simp)
  | cons c extra =>
    refine Or.inr ?_
    rw [← hlength, List.length_cons]
    omega

theorem bne_of_not_mem {mark : UInt8} {body : Bytes} (h : mark ∉ body) :
    ∀ c ∈ body, (c != mark) = true := by
  intro c hc
  simpa using fun heq : c = mark => h (heq ▸ hc)

theorem within_comment {body : Bytes} (more : Bytes) (h : Bytes.lineFeed ∉ body) :
    (Segment.comment body).Within (cutSlash (47 :: (body ++ more))).1 :=
  within_of_takeWhile .comment more (bne_of_not_mem h) (by simp [text]; omega)

theorem within_word {b : UInt8} {word : Bytes} (more : Bytes) (hletter : Bytes.isLetter b = true)
    (hbytes : ∀ c ∈ b :: word, Bytes.isWordByte c = true) :
    (Segment.token (.ofWord (b :: word)) (b :: word) .null).Within (cut b (word ++ more)).1 := by
  rw [cut_of_wordByte _ (hbytes b (by simp)), not_isDigit_of_isLetter hletter,
    if_neg Bool.false_ne_true]
  exact within_of_takeWhile (fun w => .token (.ofWord w) w .null) more hbytes
    (by simp [text]; omega)

theorem Numeral.length_lexeme (n : Numeral) :
    n.lexeme.length = n.whole.length + if n.fraction = [] then 0 else n.fraction.length + 1 := by
  by_cases h : n.fraction = []
  · simp [Numeral.lexeme, h]
  · simp [Numeral.lexeme, h]

theorem Numeral.take_extends {n : Numeral} (hn : WellWritten n) (more : Bytes) :
    (Numeral.take (n.lexeme ++ more)).1 = n ∨
      n.lexeme.length < (Numeral.take (n.lexeme ++ more)).1.lexeme.length := by
  obtain ⟨whole, fraction⟩ := n
  have hwhole : ∀ c ∈ whole, Bytes.isDigit c = true := fun c hc =>
    hn.digits c (List.mem_append_left _ hc)
  have hfraction : ∀ c ∈ fraction, Bytes.isDigit c = true := fun c hc =>
    hn.digits c (List.mem_append_right _ hc)
  by_cases hnone : fraction = []
  · subst hnone
    have htaken := Numeral.take_whole (whole ++ more)
    rw [List.takeWhile_append_of_pos hwhole] at htaken
    rw [show (Numeral.mk whole []).lexeme = whole from rfl]
    generalize (Numeral.take (whole ++ more)).1 = found at htaken ⊢
    obtain ⟨whole', fraction'⟩ := found
    obtain rfl : whole' = whole ++ more.takeWhile Bytes.isDigit := htaken
    by_cases hsame : more.takeWhile Bytes.isDigit = [] ∧ fraction' = []
    · left
      simp [hsame]
    · right
      rw [Numeral.length_lexeme]
      dsimp only
      split
      · next h =>
        have : 0 < (more.takeWhile Bytes.isDigit).length := by
          rw [List.length_pos_iff]
          exact fun h' => hsame ⟨h', h⟩
        simp only [List.length_append]
        omega
      · simp only [List.length_append]
        omega
  · have hpoint : ∀ c ∈ (46 :: (fraction ++ more)).head?, Bytes.isDigit c = false := by
      simp [Bytes.isDigit]
    obtain ⟨htake, hdrop⟩ := takeWhile_append_stop hwhole hpoint
    have hmore : (fraction ++ more).takeWhile Bytes.isDigit =
        fraction ++ more.takeWhile Bytes.isDigit := List.takeWhile_append_of_pos hfraction
    have htaken : (Numeral.take ((Numeral.mk whole fraction).lexeme ++ more)).1 =
        ⟨whole, fraction ++ more.takeWhile Bytes.isDigit⟩ := by
      simp [Numeral.take, Numeral.lexeme, hnone, htake, hdrop, hmore]
    rw [htaken]
    by_cases hsame : more.takeWhile Bytes.isDigit = []
    · left
      simp [hsame]
    · right
      have := List.length_pos_iff.2 hsame
      simp only [Numeral.length_lexeme, List.append_eq_nil_iff, hnone, false_and, if_false,
        List.length_append]
      omega

theorem cut_numeral {n : Numeral} (hn : WellWritten n) {b : UInt8} {rest more : Bytes}
    (hfront : n.lexeme ++ more = b :: rest) : cut b rest = cutNumber (n.lexeme ++ more) := by
  obtain ⟨c, bytes, hlexeme, hdigit⟩ := hn.head_lexeme
  have hbyte : c = b := by
    rw [hlexeme] at hfront
    exact (List.cons.inj hfront).1
  subst hbyte
  rw [cut_of_wordByte _ (by simp [Bytes.isWordByte, hdigit]), if_pos hdigit, hfront]

theorem within_numeral {n : Numeral} (hn : WellWritten n) {b : UInt8} {rest more : Bytes}
    (hfront : n.lexeme ++ more = b :: rest) :
    (ofNumeral n.lexeme n.value?).Within (cut b rest).1 := by
  rw [cut_numeral hn hfront]
  simp only [cutNumber]
  rcases Numeral.take_extends hn more with hsame | hlonger
  · rw [hsame]
    exact Or.inl rfl
  · refine Or.inr ?_
    rwa [ofNumeral_text, ofNumeral_text]

theorem within_openString {body : Bytes} (more : Bytes) (h : Bytes.quoteMark ∉ body) :
    (Segment.fault .unterminatedString (Bytes.quoteMark :: body)).Within
      (cutString (body ++ more)).1 := by
  have hbody := bne_of_not_mem h
  unfold cutString
  rw [List.takeWhile_append_of_pos hbody, List.dropWhile_append_of_pos hbody]
  split
  · cases more with
    | nil => exact Or.inl (by simp)
    | cons c more => exact Or.inr (by simp [text])
  · exact Or.inr (by simp [text])

theorem within_mark {k : Kind} {b : UInt8} {rest more : Bytes}
    (hk : k.spelling ++ more = b :: rest) (h : k.spelling ≠ []) :
    (Segment.token k k.spelling .null).Within (cut b rest).1 := by
  cases k with
  | leftParen | rightParen | leftBrace | rightBrace | comma | dot | minus | plus | semicolon
  | star =>
    obtain ⟨rfl, rfl⟩ := List.cons.inj hk
    exact Or.inl rfl
  | bangEqual | equalEqual | lessEqual | greaterEqual =>
    obtain ⟨rfl, rfl⟩ := List.cons.inj hk
    exact Or.inl rfl
  | bang | equal | less | greater =>
    obtain ⟨rfl, rfl⟩ := List.cons.inj hk
    change Within _ (cutOperator _ _ more).1
    unfold cutOperator
    split
    · exact Or.inr (show 1 < 2 by decide)
    · exact Or.inl rfl
  | slash =>
    obtain ⟨rfl, rfl⟩ := List.cons.inj hk
    change Within _ (cutSlash more).1
    unfold cutSlash
    split
    · next after =>
      exact Or.inr (show 1 < (after.takeWhile _).length + 2 by omega)
    · exact Or.inl rfl
  | andWord | classWord | elseWord | falseWord | funWord | forWord | ifWord | nullWord | orWord
  | printWord | returnWord | superWord | thisWord | trueWord | varWord | whileWord =>
    obtain ⟨rfl, rfl⟩ := List.cons.inj hk
    exact within_word more rfl (List.all_eq_true.1 (by decide))
  | identifier | string | number | endOfFile | unknown => exact absurd rfl h

/-- A string ends at the first quote mark, whatever follows. -/
theorem cut_quoted {body : Bytes} (more : Bytes) (h : Bytes.quoteMark ∉ body) :
    cut Bytes.quoteMark (body ++ Bytes.quoteMark :: more) =
      (.token .string (quoted body) (.string body), more) := by
  have hbody := bne_of_not_mem h
  have hstop : ∀ c ∈ (Bytes.quoteMark :: more).head?, (c != Bytes.quoteMark) = false := by simp
  obtain ⟨htake, hdrop⟩ := takeWhile_append_stop hbody hstop
  change cutString _ = _
  rw [cutString, hdrop, htake]
  rfl

theorem within_byte {b : UInt8} (rest : Bytes) (h : IsOther b) :
    (Segment.fault (.strayByte b) [b]).Within (cut b rest).1 := by
  rw [cut_of_isOther rest h]
  by_cases hascii : Bytes.isAscii b = true
  · rw [if_pos hascii]
    exact Or.inl rfl
  rw [if_neg hascii]
  by_cases hc : ∃ c, utf8EncodeChar c <+: b :: rest
  · obtain ⟨c, more, hc⟩ := hc
    rw [cutStray_character hc]
    cases hbytes : utf8EncodeChar c with
    | nil => simp at hbytes
    | cons b' bytes =>
      have hc' := hc
      rw [hbytes] at hc'
      obtain ⟨rfl, -⟩ := List.cons.inj hc'
      obtain ⟨_, d, more', hlong, -⟩ := encode_of_large (large_of_encode hbytes hascii)
      rw [← hbytes, hlong]
      exact Or.inr (by simp [text])
  · rw [cutStray_byte (not_exists.1 hc)]
    exact Or.inl rfl

/-- A piece at the front of a text is what is cut off, unless something longer is. -/
theorem Piece.within {s : Segment} (h : s.Piece) {b : UInt8} {rest more : Bytes}
    (hfront : s.text ++ more = b :: rest) : s.Within (cut b rest).1 := by
  cases h with
  | @blank c hc =>
    obtain ⟨rfl, rfl⟩ := List.cons.inj hfront
    rw [cut_of_isBlank _ (isBlank_iff.2 hc)]
    exact Or.inl rfl
  | comment h =>
    obtain ⟨rfl, rfl⟩ := List.cons.inj hfront
    exact within_comment more h
  | @token kind lexeme literal h =>
    cases h with
    | fixed h => exact within_mark hfront h
    | @name _ _ h =>
      rw [← h.ofWord_eq]
      cases lexeme with
      | nil => cases h.letter
      | cons c word =>
        obtain ⟨rfl, rfl⟩ := List.cons.inj hfront
        exact within_word more h.letter h.bytes
    | number h =>
      obtain ⟨n, hn, rfl, hvalue⟩ := h
      have hwithin := within_numeral hn hfront
      rwa [hvalue] at hwithin
    | @string body _ h =>
      rw [text, quoted, List.append_assoc, List.cons_append] at hfront
      obtain ⟨rfl, rfl⟩ := List.cons.inj hfront
      exact Or.inl (congrArg Prod.fst (cut_quoted more h))
  | openString h =>
    obtain ⟨rfl, rfl⟩ := List.cons.inj hfront
    exact within_openString more h
  | hugeNumber hn h =>
    have hwithin := within_numeral hn hfront
    rwa [h] at hwithin
  | @character c h =>
    obtain ⟨b', d, more', hlong, hascii⟩ := encode_of_large h
    have hb : b' = b := by
      rw [text, hlong] at hfront
      exact (List.cons.inj hfront).1
    subst hb
    rw [cut_of_isOther rest (isOther_of_not_ascii hascii), if_neg hascii, cutStray_character hfront]
    exact Or.inl rfl
  | byte h =>
    obtain ⟨rfl, rfl⟩ := List.cons.inj hfront
    exact within_byte _ h

theorem cut_longest (b : UInt8) (rest : Bytes) : (cut b rest).1.Longest (b :: rest) := by
  refine ⟨cut_piece b rest, ⟨_, cut_text b rest⟩, ?_⟩
  rintro other hother ⟨more, hmore⟩
  rcases hother.within hmore with hsame | hlonger
  · rw [hsame]
  · omega

theorem Longest.eq_cut {s : Segment} {b : UInt8} {rest : Bytes} (h : s.Longest (b :: rest)) :
    s = (cut b rest).1 := by
  obtain ⟨more, hmore⟩ := h.front
  rcases h.piece.within hmore with hsame | hlonger
  · exact hsame.symm
  · have := h.longest _ (cut_piece b rest) ⟨_, cut_text b rest⟩
    omega

/-- Where a piece ends, class by class. -/
structure Ends (s : Segment) (rest : Bytes) : Prop where
  comment : ∀ body, s = .comment body → rest = [] ∨ rest.head? = some Bytes.lineFeed
  operator : ∀ k ∈ [Kind.bang, .equal, .less, .greater], s.text = k.spelling → rest.head? ≠ some 61
  slash : s.text = Kind.slash.spelling → rest.head? ≠ some 47
  word : ∀ b ∈ s.text.head?, Bytes.isLetter b = true → ∀ c ∈ rest.head?, Bytes.isWordByte c = false
  digits : ∀ b ∈ s.text.head?, Bytes.isDigit b = true → ∀ c ∈ rest.head?, Bytes.isDigit c = false
  point : ∀ b ∈ s.text.head?, (∀ c ∈ s.text, Bytes.isDigit c = true) →
    ∀ d more, rest = 46 :: d :: more → Bytes.isDigit d = false
  openString : ∀ text, s = .fault .unterminatedString text → rest = []
  byte : ∀ b, s = .fault (.strayByte b) [b] → ∀ c : Char, 128 ≤ c.toNat →
    ¬ utf8EncodeChar c <+: b :: rest

/-- A piece is cut whole from its own text. -/
theorem Piece.cut_self {s : Segment} (h : s.Piece) {b : UInt8} {more : Bytes}
    (htext : s.text = b :: more) : (cut b more).1 = s := by
  have hfront : s.text ++ [] = b :: more := by rw [htext, List.append_nil]
  rcases h.within hfront with hsame | hlonger
  · exact hsame
  · have := congrArg List.length (cut_text b more)
    rw [htext] at hlonger
    simp only [List.length_append] at this
    omega

/-- A piece that begins with a letter is a word. -/
theorem Piece.isWord {s : Segment} (h : s.Piece) {b : UInt8} {more : Bytes}
    (htext : s.text = b :: more) (hb : Bytes.isLetter b = true) :
    ∀ c ∈ s.text, Bytes.isWordByte c = true := by
  have hword : Bytes.isWordByte b = true := by simp [Bytes.isWordByte, hb]
  rw [← h.cut_self htext, cut_of_wordByte more hword, not_isDigit_of_isLetter hb,
    if_neg Bool.false_ne_true]
  exact List.all_eq_true.1 List.all_takeWhile

/-- A piece that begins with a digit is a numeral. -/
theorem Piece.isNumeral {s : Segment} (h : s.Piece) {b : UInt8} {more : Bytes}
    (htext : s.text = b :: more) (hb : Bytes.isDigit b = true) :
    ∃ n : Numeral, WellWritten n ∧ n.lexeme = s.text := by
  have hword : Bytes.isWordByte b = true := by simp [Bytes.isWordByte, hb]
  refine ⟨(Numeral.take (b :: more)).1, Numeral.take_wellWritten more hb, ?_⟩
  rw [← h.cut_self htext, cut_of_wordByte more hword, if_pos hb]
  simp only [cutNumber, ofNumeral_text]

section Longest

variable {s other : Segment} {rest : Bytes}

theorem Longest.not_extended (h : s.Longest (s.text ++ rest)) (extra : Bytes) (hother : other.Piece)
    (htext : other.text = s.text ++ extra) (hextra : extra ≠ []) : ¬ extra <+: rest := by
  rintro ⟨more, rfl⟩
  have hlonger := h.longest other hother ⟨more, by rw [htext, List.append_assoc]⟩
  have := List.length_pos_iff.2 hextra
  rw [htext, List.length_append] at hlonger
  omega

theorem Longest.not_operator (h : s.Longest (s.text ++ rest)) {k : Kind} (long : Kind)
    (htext : s.text = k.spelling) (hlong : long.spelling = k.spelling ++ [61]) :
    rest.head? ≠ some 61 := by
  intro hequal
  obtain ⟨more, rfl⟩ := List.head?_eq_some_iff.1 hequal
  have hpiece : (Segment.token long long.spelling .null).Piece := .token (.fixed (by simp [hlong]))
  exact h.not_extended [61] hpiece (by rw [text, hlong, htext]) (by simp) ⟨more, rfl⟩

theorem Longest.not_wordByte (h : s.Longest (s.text ++ rest)) {b : UInt8}
    (hb : b ∈ s.text.head?) (hletter : Bytes.isLetter b = true) :
    ∀ c ∈ rest.head?, Bytes.isWordByte c = false := by
  intro c hc
  obtain ⟨word, htext⟩ := List.head?_eq_some_iff.1 hb
  obtain ⟨more, rfl⟩ := List.head?_eq_some_iff.1 hc
  by_contra hword
  have hbytes := h.piece.isWord htext hletter
  have hlonger : ∀ d ∈ b :: (word ++ [c]), Bytes.isWordByte d = true := by
    intro d hd
    rw [← List.cons_append, ← htext, List.mem_append, List.mem_singleton] at hd
    rcases hd with hd | rfl
    · exact hbytes d hd
    · simpa using hword
  exact h.not_extended [c] (piece_word hletter hlonger) (by rw [text, htext, List.cons_append])
    (by simp) ⟨more, rfl⟩

theorem Longest.not_digit (h : s.Longest (s.text ++ rest)) {b : UInt8}
    (hb : b ∈ s.text.head?) (hdigit : Bytes.isDigit b = true) :
    ∀ c ∈ rest.head?, Bytes.isDigit c = false := by
  intro c hc
  obtain ⟨digits, htext⟩ := List.head?_eq_some_iff.1 hb
  obtain ⟨more, rfl⟩ := List.head?_eq_some_iff.1 hc
  by_contra hmore
  obtain ⟨n, hn, hlexeme⟩ := h.piece.isNumeral htext hdigit
  -- The next digit goes behind the point if there is one.
  obtain ⟨longer, hlonger, htext'⟩ : ∃ m : Numeral, WellWritten m ∧ m.lexeme = n.lexeme ++ [c] := by
    have hall : ∀ d ∈ n.whole ++ n.fraction ++ [c], Bytes.isDigit d = true := by
      intro d hd
      rcases List.mem_append.1 hd with hd | hd
      · exact hn.digits d hd
      · rw [List.mem_singleton.1 hd]
        simpa using hmore
    by_cases hnone : n.fraction = []
    · refine ⟨⟨n.whole ++ [c], []⟩, ⟨by simp, ?_⟩, by simp [Numeral.lexeme, hnone]⟩
      simpa [hnone] using hall
    · refine ⟨⟨n.whole, n.fraction ++ [c]⟩, ⟨hn.whole, ?_⟩, by simp [Numeral.lexeme, hnone]⟩
      simpa using hall
  exact h.not_extended [c] (piece_numeral hlonger) (by rw [ofNumeral_text, htext', hlexeme])
    (by simp) ⟨more, rfl⟩

theorem Longest.not_point (h : s.Longest (s.text ++ rest)) {b : UInt8} (hb : b ∈ s.text.head?)
    (hdigits : ∀ b ∈ s.text, Bytes.isDigit b = true) {d : UInt8} {more : Bytes}
    (hrest : rest = 46 :: d :: more) : Bytes.isDigit d = false := by
  obtain ⟨digits, htext⟩ := List.head?_eq_some_iff.1 hb
  subst hrest
  by_contra hdigit
  have hlonger : WellWritten ⟨s.text, [d]⟩ := by
    refine ⟨by simp [htext], ?_⟩
    intro c hc
    rcases List.mem_append.1 hc with hc | hc
    · exact hdigits c hc
    · rw [List.mem_singleton.1 hc]
      simpa using hdigit
  exact h.not_extended [46, d] (piece_numeral hlonger)
    (by simp [ofNumeral_text, Numeral.lexeme]) (by simp) ⟨more, rfl⟩

theorem Longest.not_character {b : UInt8} {c : Char}
    (h : (Segment.fault (.strayByte b) [b]).Longest (b :: rest)) (hc : 128 ≤ c.toNat) :
    ¬ utf8EncodeChar c <+: b :: rest := by
  intro hfront
  obtain ⟨_, d, more, hlong, -⟩ := encode_of_large hc
  have hlonger := h.longest _ (.character hc) hfront
  rw [text, hlong] at hlonger
  simp [text] at hlonger

theorem Longest.ends (h : s.Longest (s.text ++ rest)) : s.Ends rest where
  comment := by
    rintro body rfl
    cases h.piece with
    | comment hbody =>
      cases rest with
      | nil => exact Or.inl rfl
      | cons c more =>
        right
        by_contra hne
        have hc : Bytes.lineFeed ≠ c := fun heq => hne (by rw [heq]; rfl)
        have hlonger : (Segment.comment (body ++ [c])).Piece := .comment (by simp [hbody, hc])
        exact h.not_extended [c] hlonger rfl (by simp) ⟨more, rfl⟩
  operator := by
    intro k hk htext
    simp only [List.mem_cons, List.not_mem_nil, or_false] at hk
    rcases hk with rfl | rfl | rfl | rfl
    · exact h.not_operator .bangEqual htext rfl
    · exact h.not_operator .equalEqual htext rfl
    · exact h.not_operator .lessEqual htext rfl
    · exact h.not_operator .greaterEqual htext rfl
  slash := by
    intro htext hslash
    obtain ⟨more, rfl⟩ := List.head?_eq_some_iff.1 hslash
    have hlonger : (Segment.comment []).Piece := .comment (by simp)
    refine h.not_extended [47] hlonger ?_ (by simp) ⟨more, rfl⟩
    rw [htext]
    rfl
  word := fun b hb hletter => h.not_wordByte hb hletter
  digits := fun b hb hdigit => h.not_digit hb hdigit
  point := fun b hb hdigits d more hrest => h.not_point hb hdigits hrest
  openString := by
    rintro text rfl
    cases h.piece with
    | @openString body hbody =>
      cases rest with
      | nil => rfl
      | cons c more =>
        by_cases hc : c = Bytes.quoteMark
        · subst hc
          exact absurd ⟨more, rfl⟩
            (h.not_extended [Bytes.quoteMark] (.token (.string hbody)) rfl (by simp))
        · have hopen : Bytes.quoteMark ∉ body ++ [c] := by simp [hbody, Ne.symm hc]
          exact absurd ⟨more, rfl⟩ (h.not_extended [c] (.openString hopen) rfl (by simp))
  byte := by
    rintro b rfl c hc
    exact h.not_character hc

end Longest

theorem Piece.nonempty {s : Segment} (h : s.Piece) : s.text ≠ [] := by
  cases h with
  | blank _ | comment _ | openString _ | byte _ => simp [text]
  | token h =>
    cases h with
    | fixed h => exact h
    | name h =>
      rintro rfl
      cases h.letter
    | number h =>
      obtain ⟨n, hn, rfl, -⟩ := h
      exact Numeral.lexeme_ne_nil hn.whole
    | string _ => simp [text, quoted]
  | hugeNumber hn _ => exact Numeral.lexeme_ne_nil hn.whole
  | character _ => simp [text]

def token? : Segment → Option Token
  | .token kind lexeme literal => some ⟨kind, lexeme, 0, literal⟩
  | _ => none

def diagnostic? : Segment → Option Diagnostic
  | .fault cause _ => some ⟨.lex, 0, [], cause.message⟩
  | _ => none

end Segment

open Segment

/-- The source is made up of the pieces, each of them the longest where it stands. -/
inductive Cuts : Bytes → List Segment → Prop
  | none : Cuts [] []
  | more {s rest pieces} (hs : s.Longest (s.text ++ rest)) (hrest : Cuts rest pieces) :
      Cuts (s.text ++ rest) (s :: pieces)

theorem segments_cuts (source : Bytes) : Cuts source (segments source) := by
  induction source using segments.induct with
  | case1 =>
    rw [segments]
    exact .none
  | case2 b rest ih =>
    have hlongest := cut_longest b rest
    rw [segments]
    rw [← cut_text b rest] at hlongest ⊢
    exact .more hlongest ih

theorem Cuts.eq_segments {source : Bytes} {pieces : List Segment} (h : Cuts source pieces) :
    pieces = segments source := by
  induction h with
  | none => rw [segments]
  | @more s rest pieces hs _ ih =>
    cases htext : s.text with
    | nil => exact absurd htext hs.piece.nonempty
    | cons b text =>
      rw [htext, List.cons_append] at hs
      have hcut := hs.eq_cut
      have hrest : (cut b (text ++ rest)).2 = rest := by
        have hwhole := cut_text b (text ++ rest)
        rw [← hcut, htext, List.cons_append] at hwhole
        exact List.append_cancel_left (List.cons.inj hwhole).2
      rw [List.cons_append, segments, ← hcut, hrest, ih]

theorem Cuts.text_eq {source : Bytes} {pieces : List Segment} (h : Cuts source pieces) :
    pieces.flatMap Segment.text = source := by
  induction h with
  | none => rfl
  | more _ _ ih => rw [List.flatMap_cons, ih]

theorem Cuts.longest {source : Bytes} {before after : List Segment} {s : Segment}
    (h : Cuts source (before ++ s :: after)) :
    s.Longest (s.text ++ after.flatMap Segment.text) := by
  induction before generalizing source with
  | nil =>
    cases h with
    | more hs hrest => rwa [hrest.text_eq]
  | cons first before ih =>
    cases h with
    | more _ hrest => exact ih hrest

theorem ofSegments_tokens (line : Int) (pieces : List Segment) : ∃ body last,
    (Lexed.ofSegments line pieces).tokens = body ++ [finish last] ∧
      body.map unplaced = pieces.filterMap Segment.token? := by
  induction pieces generalizing line with
  | nil => exact ⟨[], line, rfl, rfl⟩
  | cons s rest ih =>
    obtain ⟨body, last, htokens, hbody⟩ := ih (line + Bytes.lineFeeds s.text)
    cases s with
    | blank b => exact ⟨body, last, htokens, hbody⟩
    | comment b => exact ⟨body, last, htokens, hbody⟩
    | fault cause text => exact ⟨body, last, htokens, hbody⟩
    | token kind lexeme literal =>
      let line' := line + Bytes.lineFeeds (Segment.token kind lexeme literal).text
      refine ⟨⟨kind, lexeme, line', literal⟩ :: body, last, ?_, ?_⟩
      · simp only [Lexed.ofSegments, htokens]
        rfl
      · rw [List.map_cons, hbody]
        rfl

theorem ofSegments_diagnostics (line : Int) (pieces : List Segment) :
    (Lexed.ofSegments line pieces).diagnostics.map Diagnostic.unplaced =
      pieces.filterMap Segment.diagnostic? := by
  induction pieces generalizing line with
  | nil => rfl
  | cons s rest ih =>
    have hrest := ih (line + Bytes.lineFeeds s.text)
    cases s with
    | blank b => exact hrest
    | comment b => exact hrest
    | token kind lexeme literal => exact hrest
    | fault cause text =>
      simp only [Lexed.ofSegments, List.map_cons, hrest]
      rfl

/-- There is exactly one way to cut a source into longest pieces, and the lexer finds it. The pieces
make up the whole source, each ends where its class says, and nothing is behind an open string. The
tokens with a mark behind them and the diagnostics are those of the pieces, in order. -/
theorem lex_cuts_longest_pieces (source : Bytes) : ∃ pieces,
    (∀ other, Cuts source other ↔ other = pieces) ∧
      pieces.flatMap Segment.text = source ∧
      (∀ s ∈ pieces, s.Piece ∧ s.text ≠ []) ∧
      (∀ before s after, pieces = before ++ s :: after → s.Ends (after.flatMap Segment.text)) ∧
      (∀ before text after, pieces = before ++ .fault .unterminatedString text :: after →
        after = []) ∧
      (∃ body last, (lex source).tokens = body ++ [finish last] ∧
        body.map unplaced = pieces.filterMap Segment.token? ∧ ∀ t ∈ body, t.kind ≠ .endOfFile) ∧
      (lex source).diagnostics.map Diagnostic.unplaced = pieces.filterMap Segment.diagnostic? := by
  have hcuts := segments_cuts source
  have hends : ∀ before s after, segments source = before ++ s :: after →
      s.Longest (s.text ++ after.flatMap Segment.text) := by
    intro before s after hsplit
    rw [hsplit] at hcuts
    exact hcuts.longest
  have hpiece : ∀ s ∈ segments source, s.Piece := by
    intro s hs
    obtain ⟨before, after, hsplit⟩ := List.append_of_mem hs
    exact (hends before s after hsplit).piece
  refine ⟨segments source, fun other => ⟨Cuts.eq_segments, fun h => h ▸ hcuts⟩,
    segments_text source, fun s hs => ⟨hpiece s hs, (hpiece s hs).nonempty⟩,
    fun before s after hsplit => (hends before s after hsplit).ends, ?_, ?_,
    ofSegments_diagnostics 1 _⟩
  · intro before text after hsplit
    have hrest := (hends _ _ _ hsplit).ends.openString text rfl
    cases after with
    | nil => rfl
    | cons s after =>
      have hmem : s ∈ segments source := by simp [hsplit]
      exact absurd (List.append_eq_nil_iff.1 hrest).1 (hpiece s hmem).nonempty
  · obtain ⟨body, last, htokens, hbody⟩ := ofSegments_tokens 1 (segments source)
    refine ⟨body, last, htokens, hbody, ?_⟩
    intro t ht
    have hmem : t.unplaced ∈ (segments source).filterMap Segment.token? := by
      rw [← hbody]
      exact List.mem_map_of_mem ht
    obtain ⟨s, hs, htoken⟩ := List.mem_filterMap.1 hmem
    cases hpiece s hs with
    | token h =>
      have hkind := congrArg Token.kind (Option.some.inj htoken)
      exact fun hend => h.kind_ne_endOfFile (hkind.trans hend)
    | _ => cases htoken

end Token

end BlockScript
