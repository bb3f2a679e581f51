import BlockScript.Proofs.EventLines

/-! Line numbers. The lexer counts line feeds as it goes, and its count is that of the source read so
far: a token is on the line on which it ends, a fault on the line on which its text begins. A source
below another is therefore read as if it stood alone, only further down. -/

namespace BlockScript

theorem Bytes.lineFeeds_append (a b : Bytes) : lineFeeds (a ++ b) = lineFeeds a + lineFeeds b :=
  List.count_append

theorem Bytes.lineFeeds_mono {a b : Bytes} (h : a <+: b) : lineFeeds a ≤ lineFeeds b :=
  h.sublist.count_le _

/-- A syntax error is on the line of some token, which may be the end marker. -/
theorem Parsed.exists_token_of_diagnostic {tokens : List Token} {mark : Token}
    (hmark : mark ∈ tokens) (hkind : mark.kind = .endOfFile) {d : Diagnostic}
    (h : d ∈ (Parsed.ofTokens tokens).diagnostics) : ∃ t ∈ tokens, d.line = t.line := by
  obtain ⟨f, hf, rfl⟩ := List.mem_map.1 h
  have hfound := (Parser.program_survives (tokens.takeWhile (·.kind ≠ .endOfFile))).found f hf
  obtain ⟨_ | t, cause⟩ := f
  · obtain ⟨last, hlast⟩ : ∃ last, tokens.find? (·.kind = .endOfFile) = some last := by
      rw [← Option.isSome_iff_exists, List.find?_isSome]
      exact ⟨mark, hmark, by simpa using hkind⟩
    refine ⟨last, List.mem_of_find?_eq_some hlast, ?_⟩
    simp only [Parser.Fault.diagnostic, Parser.lastLine, hlast]
  · exact ⟨t, List.takeWhile_subset _ (hfound t rfl), rfl⟩

/-- Every syntax error in a source is on one of its lines. -/
theorem Parsed.line_of_syntax_error {source : Bytes} {d : Diagnostic}
    (h : d ∈ (Parsed.ofTokens (Token.lex source).tokens).diagnostics) :
    1 ≤ d.line ∧ d.line ≤ 1 + Bytes.lineFeeds source := by
  obtain ⟨body, last, hlex, -⟩ := Token.lexical_of_lex source
  have hmark : Token.finish last ∈ (Token.lex source).tokens := by simp [hlex]
  obtain ⟨t, ht, hline⟩ := exists_token_of_diagnostic hmark rfl h
  rw [hline]
  exact Token.line_of_mem_lex ht

def Diagnostic.lower (lines : Nat) (d : Diagnostic) : Diagnostic := { d with line := d.line + lines }

namespace Token

def lower (lines : Nat) (t : Token) : Token := { t with line := t.line + lines }

namespace Segment

def inPlace (front : Bytes) : List Segment → List (Bytes × Segment)
  | [] => []
  | s :: rest => (front, s) :: inPlace (front ++ s.text) rest

/-- The token that a piece behind the given text is, on the line that the line feeds up to its end
give it. -/
def tokenBehind? : Bytes × Segment → Option Token
  | (front, .token kind lexeme literal) =>
    some ⟨kind, lexeme, 1 + Bytes.lineFeeds (front ++ lexeme), literal⟩
  | _ => none

/-- The diagnostic of a piece behind the given text, on the line that the line feeds before it give
it. -/
def diagnosticBehind? : Bytes × Segment → Option Diagnostic
  | (front, .fault cause _) => some ⟨.lex, 1 + Bytes.lineFeeds front, [], cause.message⟩
  | _ => none

theorem inPlace_append (front : Bytes) (before after : List Segment) :
    inPlace front (before ++ after) =
      inPlace front before ++ inPlace (front ++ before.flatMap text) after := by
  induction before generalizing front with
  | nil => simp [inPlace]
  | cons s before ih => simp [inPlace, ih]

theorem split_of_mem_inPlace {front : Bytes} {pieces : List Segment} {place : Bytes × Segment}
    (h : place ∈ inPlace front pieces) : ∃ before after,
      pieces = before ++ place.2 :: after ∧ place.1 = front ++ before.flatMap text := by
  induction pieces generalizing front with
  | nil => cases h
  | cons s rest ih =>
    rcases List.mem_cons.1 h with rfl | h
    · exact ⟨[], rest, rfl, by simp⟩
    · obtain ⟨before, after, rfl, hplace⟩ := ih h
      exact ⟨s :: before, after, rfl, by simp [hplace]⟩

theorem isPrefix_of_mem_inPlace {pieces : List Segment} {place : Bytes × Segment}
    (h : place ∈ inPlace [] pieces) : place.1 ++ place.2.text <+: pieces.flatMap text := by
  obtain ⟨before, after, rfl, hplace⟩ := split_of_mem_inPlace h
  exact ⟨after.flatMap text, by simp [hplace]⟩

/-- A piece ends before the next ones begin. -/
theorem pairwise_inPlace (front : Bytes) (pieces : List Segment) :
    (inPlace front pieces).Pairwise fun p q => p.1 ++ p.2.text <+: q.1 := by
  induction pieces generalizing front with
  | nil => exact .nil
  | cons s rest ih =>
    refine .cons (fun place h => ?_) (ih _)
    obtain ⟨before, -, -, hplace⟩ := split_of_mem_inPlace h
    exact ⟨before.flatMap text, hplace.symm⟩

theorem pairwise_tokens (front : Bytes) (pieces : List Segment) :
    ((inPlace front pieces).filterMap tokenBehind?).Pairwise (·.line ≤ ·.line) := by
  rw [List.pairwise_filterMap]
  apply (pairwise_inPlace front pieces).imp
  rintro ⟨a, s⟩ ⟨b, s'⟩ hplace t ht t' ht'
  cases s with
  | token kind lexeme literal =>
    cases s' with
    | token kind' lexeme' literal' =>
      cases ht
      cases ht'
      have hfeeds := Bytes.lineFeeds_mono (hplace.trans (List.prefix_append b lexeme'))
      simp only [text] at hfeeds ⊢
      omega
    | _ => cases ht'
  | _ => cases ht

theorem pairwise_diagnostics (front : Bytes) (pieces : List Segment) :
    ((inPlace front pieces).filterMap diagnosticBehind?).Pairwise (·.line ≤ ·.line) := by
  rw [List.pairwise_filterMap]
  apply (pairwise_inPlace front pieces).imp
  rintro ⟨a, s⟩ ⟨b, s'⟩ hplace d hd d' hd'
  cases s with
  | fault cause text =>
    cases s' with
    | fault cause' text' =>
      cases hd
      cases hd'
      have hfeeds := Bytes.lineFeeds_mono ((List.prefix_append a _).trans hplace)
      dsimp only at hfeeds ⊢
      omega
    | _ => cases hd'
  | _ => cases hd

end Segment

open Segment

/-- The counter is always one more than the number of line feeds in front. -/
theorem ofSegments_inPlace (front : Bytes) (pieces : List Segment) :
    Lexed.ofSegments (1 + Bytes.lineFeeds front) pieces =
      ⟨(inPlace front pieces).filterMap tokenBehind? ++
          [finish (1 + Bytes.lineFeeds (front ++ pieces.flatMap text))],
        (inPlace front pieces).filterMap diagnosticBehind?⟩ := by
  induction pieces generalizing front with
  | nil => simp [Lexed.ofSegments, inPlace]
  | cons s rest ih =>
    have hcount : 1 + (Bytes.lineFeeds front : Int) + Bytes.lineFeeds s.text =
        1 + Bytes.lineFeeds (front ++ s.text) := by
      rw [Bytes.lineFeeds_append]
      omega
    have hrest := ih (front ++ s.text)
    rw [List.append_assoc] at hrest
    cases s with
    | blank _ | comment _ | fault _ _ | token _ _ _ =>
      simp only [Lexed.ofSegments, hcount, hrest]
      rfl

theorem lex_inPlace (source : Bytes) :
    lex source = ⟨(inPlace [] (segments source)).filterMap tokenBehind? ++
        [finish (1 + Bytes.lineFeeds source)],
      (inPlace [] (segments source)).filterMap diagnosticBehind?⟩ := by
  have h := ofSegments_inPlace [] (segments source)
  rwa [List.nil_append, segments_text] at h

theorem ofSegments_lower (line : Int) (lines : Nat) (pieces : List Segment) :
    Lexed.ofSegments (line + lines) pieces =
      ⟨(Lexed.ofSegments line pieces).tokens.map (lower lines),
        (Lexed.ofSegments line pieces).diagnostics.map (Diagnostic.lower lines)⟩ := by
  induction pieces generalizing line with
  | nil => rfl
  | cons s rest ih =>
    have hcount : line + lines + (Bytes.lineFeeds s.text : Int) =
        line + Bytes.lineFeeds s.text + lines := by omega
    cases s with
    | blank _ | comment _ => simp only [Lexed.ofSegments, hcount, ih]
    | fault _ _ | token _ _ _ =>
      simp only [Lexed.ofSegments, hcount, ih]
      rfl

theorem closed_of_diagnostics {source : Bytes}
    (h : ∀ d ∈ (lex source).diagnostics, d.message ≠ Bytes.ofString "Unterminated string.")
    (text : Bytes) : .fault .unterminatedString text ∉ segments source := by
  intro hmem
  have hdiagnostic : (⟨.lex, 0, [], LexFault.unterminatedString.message⟩ : Diagnostic) ∈
      (lex source).diagnostics.map Diagnostic.unplaced := by
    rw [lex, ofSegments_diagnostics]
    exact List.mem_filterMap.2 ⟨_, hmem, rfl⟩
  obtain ⟨d, hd, hunplaced⟩ := List.mem_map.1 hdiagnostic
  exact h d hd (congrArg Diagnostic.message hunplaced)

/-- A source below another is read as if it stood alone, only further down, unless a string is left
open above it. Whatever else is unfinished or broken above ends with its line. -/
theorem source_below_is_read_alone (above below : Bytes)
    (h : ∀ d ∈ (lex above).diagnostics, d.message ≠ Bytes.ofString "Unterminated string.") :
    let further := 1 + Bytes.lineFeeds above
    ∃ body, (lex above).tokens = body ++ [finish further] ∧
      (lex (above ++ Bytes.lineFeed :: below)).tokens =
        body ++ (lex below).tokens.map (lower further) ∧
      (lex (above ++ Bytes.lineFeed :: below)).diagnostics =
        (lex above).diagnostics ++ (lex below).diagnostics.map (Diagnostic.lower further) := by
  intro further
  have hpieces : segments (above ++ Bytes.lineFeed :: below) =
      segments above ++ .blank Bytes.lineFeed :: segments below :=
    ((segments_cuts above).append_line (closed_of_diagnostics h)
      (segments_cuts below)).eq_segments.symm
  have hfeeds : Bytes.lineFeeds (above ++ [Bytes.lineFeed]) = further := by
    rw [Bytes.lineFeeds_append, Nat.add_comm]
    rfl
  have hbelow := ofSegments_inPlace (above ++ [Bytes.lineFeed]) (segments below)
  rw [hfeeds, ofSegments_lower, ← lex, segments_text, Lexed.mk.injEq] at hbelow
  have habove := lex_inPlace above
  refine ⟨_, congrArg Lexed.tokens habove, ?_⟩
  rw [lex_inPlace (above ++ Bytes.lineFeed :: below), hpieces, inPlace_append, List.nil_append,
    segments_text, List.filterMap_append, List.filterMap_append, hbelow.1, hbelow.2, habove,
    List.append_assoc, List.append_assoc]
  exact ⟨rfl, rfl⟩

/-- A string over two lines, half an operator, half a character and a comment, and below them the
other halves. -/
theorem halves_on_two_lines :
    let above := Bytes.ofString "\"a\nb\" ! " ++ [0xE2, 0x82] ++ Bytes.ofString " //"
    let below := [0xAC] ++ Bytes.ofString "=x"
    (lex above).diagnostics.map Diagnostic.line = [2, 2] ∧
      (∀ d ∈ (lex above).diagnostics, d.message ≠ Bytes.ofString "Unterminated string.") ∧
      (lex (above ++ Bytes.lineFeed :: below)).tokens.map Token.line = [2, 2, 3, 3, 3] := by
  intro above below
  have habove : lex above = ⟨[⟨.string, Bytes.ofString "\"a\nb\"", 2, .string (Bytes.ofString "a\nb")⟩,
      ⟨.bang, [33], 2, .null⟩] ++ [finish 2],
    [0xE2, 0x82].map fun b => ⟨.lex, 2, [], (LexFault.strayByte b).message⟩⟩ := by decide +kernel
  have hbelow : (lex below).tokens = [⟨.equal, [61], 1, .null⟩, ⟨.identifier, [120], 1, .null⟩] ++
      [finish 1] := by decide +kernel
  have hclosed : ∀ d ∈ (lex above).diagnostics,
      d.message ≠ Bytes.ofString "Unterminated string." := by
    rw [habove]
    decide
  obtain ⟨body, hbody, htokens, -⟩ := source_below_is_read_alone above below hclosed
  have hlines : body.map Token.line = [2, 2] := by
    rw [habove] at hbody
    rw [← List.append_cancel_right hbody]
    rfl
  refine ⟨by rw [habove]; rfl, hclosed, ?_⟩
  rw [htokens, hbelow, List.map_append, hlines]
  rfl

/-- An open string is all that follows its quote mark. -/
theorem openString_of_mem_inPlace {source front text : Bytes}
    (h : (front, .fault .unterminatedString text) ∈ inPlace [] (segments source)) :
    text.head? = some Bytes.quoteMark ∧ source = front ++ text := by
  obtain ⟨before, after, hsplit, hfront⟩ := split_of_mem_inPlace h
  have hcuts := segments_cuts source
  rw [hsplit] at hcuts
  have hrest : after.flatMap Segment.text = [] := hcuts.longest.ends.openString text rfl
  refine ⟨?_, ?_⟩
  · cases hcuts.longest.piece with
    | openString _ => rfl
  · rw [← hcuts.text_eq, List.flatMap_append, List.flatMap_cons, hrest, List.append_nil]
    exact congrArg (· ++ text) hfront.symm

theorem line_of_lexical_error {source : Bytes} {d : Diagnostic} (h : d ∈ (lex source).diagnostics) :
    1 ≤ d.line ∧ d.line ≤ 1 + Bytes.lineFeeds source := by
  rw [lex_inPlace] at h
  obtain ⟨⟨front, s⟩, hplace, hd⟩ := List.mem_filterMap.1 h
  have hprefix := isPrefix_of_mem_inPlace hplace
  rw [segments_text] at hprefix
  have hfeeds := Bytes.lineFeeds_mono ((List.prefix_append front _).trans hprefix)
  cases s with
  | fault cause text =>
    cases hd
    dsimp only
    omega
  | _ => cases hd

/-- Lines are exact. The pieces that a source is cut into are taken with the text in front of them:
the line of a token is one more than the number of line feeds up to its end, that of a fault one
more than the number before it, and that of the end marker one more than all of them. So lines never
decrease, and no diagnostic is outside of the source. -/
theorem lines_count_line_feeds (source : Bytes) : ∃ pieces, Cuts source pieces ∧
    (∀ place ∈ inPlace [] pieces, place.1 ++ place.2.text <+: source) ∧
    (lex source).tokens =
      (inPlace [] pieces).filterMap tokenBehind? ++ [finish (1 + Bytes.lineFeeds source)] ∧
    (lex source).diagnostics = (inPlace [] pieces).filterMap diagnosticBehind? ∧
    (∀ front text, (front, .fault .unterminatedString text) ∈ inPlace [] pieces →
      text.head? = some Bytes.quoteMark ∧ source = front ++ text) ∧
    (lex source).tokens.Pairwise (·.line ≤ ·.line) ∧
    (lex source).diagnostics.Pairwise (·.line ≤ ·.line) ∧
    ∀ d ∈ (Parsed.ofSource source).diagnostics,
      1 ≤ d.line ∧ d.line ≤ 1 + Bytes.lineFeeds source := by
  have hlex := lex_inPlace source
  refine ⟨segments source, segments_cuts source, ?_, congrArg Lexed.tokens hlex,
    congrArg Lexed.diagnostics hlex, fun front text => openString_of_mem_inPlace, ?_, ?_, ?_⟩
  · intro place hplace
    have hprefix := isPrefix_of_mem_inPlace hplace
    rwa [segments_text] at hprefix
  · have hmark : ∀ t ∈ (lex source).tokens, t.line ≤ 1 + Bytes.lineFeeds source :=
      fun t ht => (line_of_mem_lex ht).2
    rw [hlex] at hmark ⊢
    rw [List.pairwise_append]
    refine ⟨pairwise_tokens [] _, List.pairwise_singleton _ _, ?_⟩
    intro t ht mark hfinish
    rw [List.mem_singleton.1 hfinish]
    exact hmark t (List.mem_append_left _ ht)
  · rw [hlex]
    exact pairwise_diagnostics [] _
  · intro d hd
    rcases List.mem_append.1 hd with hd | hd
    · exact line_of_lexical_error hd
    · exact Parsed.line_of_syntax_error hd

end Token

end BlockScript
