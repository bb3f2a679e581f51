import BlockScript.Proofs.MaximalMunch
import BlockScript.Proofs.RoundTrip

/-! Sources one below the other. A line feed ends every piece but a string, so a source and another
one below it have the tokens of both. Programs have no unfinished part at their end, so together
they are read as the statements of both, lines aside. -/

namespace BlockScript

open Token Grammar
open String (utf8EncodeChar)

namespace Token.Segment

open Decimal (WellWritten)

theorem lineFeed_not_mem_lexeme {n : Numeral} (hn : WellWritten n) :
    Bytes.lineFeed ∉ n.lexeme := by
  intro h
  rcases hn.mem_lexeme h with hdigit | hpoint
  · exact absurd hdigit (by decide)
  · exact absurd hpoint (by decide)

theorem spelling_line (k : Kind) : k.spelling.head? ≠ some Bytes.quoteMark ∧
    (Bytes.lineFeed ∈ k.spelling → k.spelling = [Bytes.lineFeed]) := by
  cases k with
  | unknown _ => exact ⟨nofun, nofun⟩
  | _ => decide

/-- Only a string can go on beyond a line feed, and it begins with a quote mark. -/
theorem Piece.string_or_line {s : Segment} (h : s.Piece) :
    (∃ body, Bytes.quoteMark ∉ body ∧ s = .token .string (quoted body) (.string body)) ∨
      (∃ body, s = .fault .unterminatedString (Bytes.quoteMark :: body)) ∨
      (s.text.head? ≠ some Bytes.quoteMark ∧
        (Bytes.lineFeed ∈ s.text → s.text = [Bytes.lineFeed])) := by
  have hnumeral {n : Numeral} (hn : WellWritten n) : n.lexeme.head? ≠ some Bytes.quoteMark ∧
      (Bytes.lineFeed ∈ n.lexeme → n.lexeme = [Bytes.lineFeed]) := by
    obtain ⟨b, bytes, hlexeme, hdigit⟩ := hn.head_lexeme
    refine ⟨?_, fun hmem => absurd hmem (lineFeed_not_mem_lexeme hn)⟩
    rw [hlexeme]
    rintro ⟨⟩
    exact absurd hdigit (by decide)
  cases h with
  | openString _ => exact Or.inr (Or.inl ⟨_, rfl⟩)
  | @blank b h =>
    refine Or.inr (Or.inr ⟨?_, ?_⟩)
    · rintro ⟨⟩
      exact absurd h (by decide)
    · intro hmem
      rw [List.mem_singleton.1 hmem]
      rfl
  | @comment body h =>
    refine Or.inr (Or.inr ⟨show some (47 : UInt8) ≠ some Bytes.quoteMark by decide, fun hmem => ?_⟩)
    simp only [text, List.mem_cons] at hmem
    rcases hmem with hmem | hmem | hmem
    · exact absurd hmem (by decide)
    · exact absurd hmem (by decide)
    · exact absurd hmem h
  | token h =>
    cases h with
    | string h => exact Or.inl ⟨_, h, rfl⟩
    | fixed _ => exact Or.inr (Or.inr (spelling_line _))
    | @name word _ h =>
      refine Or.inr (Or.inr ⟨?_, fun hmem => absurd (h.bytes _ hmem) (by decide)⟩)
      intro hhead
      exact absurd (h.bytes _ (List.mem_of_mem_head? hhead)) (by decide)
    | number h =>
      obtain ⟨n, hn, rfl, -⟩ := h
      exact Or.inr (Or.inr (hnumeral hn))
  | hugeNumber hn _ => exact Or.inr (Or.inr (hnumeral hn))
  | @character c h =>
    have hlarge := Utf8.large_of_mem_encode h
    refine Or.inr (Or.inr ⟨?_, fun hmem => absurd (hlarge _ hmem) (by decide)⟩)
    intro hhead
    exact absurd (hlarge _ (List.mem_of_mem_head? hhead)) (by decide)
  | byte h =>
    refine Or.inr (Or.inr ⟨?_, ?_⟩)
    · rintro ⟨⟩
      exact h.quote rfl
    · intro hmem
      rw [← List.mem_singleton.1 hmem] at h
      exact absurd h.blank (by decide)

/-- What is below a line does not make its last piece longer, unless that is an open string. -/
theorem Longest.append_line {s : Segment} {rest : Bytes} (h : s.Longest (s.text ++ rest))
    (hclosed : ∀ text, s ≠ .fault .unterminatedString text) (below : Bytes) :
    s.Longest (s.text ++ (rest ++ Bytes.lineFeed :: below)) := by
  rcases h.piece.string_or_line with ⟨body, hbody, rfl⟩ | ⟨body, rfl⟩ | ⟨hquote, -⟩
  · have hlongest := cut_longest Bytes.quoteMark
      (body ++ Bytes.quoteMark :: (rest ++ Bytes.lineFeed :: below))
    rw [cut_quoted _ hbody] at hlongest
    simpa [text, quoted] using hlongest
  · exact absurd rfl (hclosed _)
  refine ⟨h.piece, ⟨_, rfl⟩, fun other hother hfront => ?_⟩
  rw [← List.append_assoc] at hfront
  by_cases hshort : other.text.length ≤ (s.text ++ rest).length
  · exact h.longest other hother (List.prefix_of_prefix_length_le hfront ⟨_, rfl⟩ hshort)
  -- The other piece reaches beyond the line feed, so it would have to be a string.
  have hline : (s.text ++ rest) ++ [Bytes.lineFeed] <+: other.text := by
    refine List.prefix_of_prefix_length_le ⟨below, by simp⟩ hfront ?_
    simp only [List.length_append, List.length_singleton] at hshort ⊢
    omega
  have hhead : other.text.head? = s.text.head? := by
    obtain ⟨b, bytes, htext⟩ := List.exists_cons_of_ne_nil h.piece.nonempty
    obtain ⟨more, hmore⟩ := hline
    rw [← hmore, htext]
    rfl
  rcases hother.string_or_line with ⟨body, -, rfl⟩ | ⟨body, rfl⟩ | ⟨-, hsingle⟩
  · exact absurd hhead.symm hquote
  · exact absurd hhead.symm hquote
  · rw [hsingle (hline.subset (by simp))]
    exact List.length_pos_iff.2 h.piece.nonempty

end Token.Segment

namespace Token

open Segment

theorem Cuts.append_line {above below : Bytes} {before after : List Segment}
    (habove : Cuts above before) (hclosed : ∀ text, .fault .unterminatedString text ∉ before)
    (hbelow : Cuts below after) :
    Cuts (above ++ Bytes.lineFeed :: below) (before ++ .blank Bytes.lineFeed :: after) := by
  induction habove with
  | none => exact .more (cut_longest Bytes.lineFeed below) hbelow
  | @more s rest pieces hs _ ih =>
    have hlongest := hs.append_line (fun text heq => hclosed text (by simp [heq])) below
    rw [List.append_assoc]
    exact .more hlongest (ih fun text hmem => hclosed text (List.mem_cons_of_mem _ hmem))

theorem foldr_onto_append {pieces : List Segment} {tokens : List Token}
    (h : pieces.foldr Segment.onto (some []) = some tokens) (found : Option (List Token)) :
    pieces.foldr Segment.onto found = found.map (tokens ++ ·) := by
  induction pieces generalizing tokens with
  | nil =>
    obtain rfl := Option.some.inj h
    cases found <;> rfl
  | cons s rest ih =>
    cases s with
    | blank b => exact ih h
    | comment body => exact ih h
    | fault cause text => cases h
    | token kind lexeme literal =>
      obtain ⟨others, hothers, rfl⟩ := Option.map_eq_some_iff.1 h
      rw [List.foldr_cons, ih hothers, Segment.onto, Option.map_map]
      rfl

theorem not_mem_of_foldr_onto {pieces : List Segment} {tokens : List Token}
    (h : pieces.foldr Segment.onto (some []) = some tokens) (cause : LexFault) (text : Bytes) :
    .fault cause text ∉ pieces := by
  induction pieces generalizing tokens with
  | nil => simp
  | cons s rest ih =>
    cases s with
    | blank b => simpa using ih h
    | comment body => simpa using ih h
    | fault cause text => cases h
    | token kind lexeme literal =>
      obtain ⟨others, hothers, -⟩ := Option.map_eq_some_iff.1 h
      simpa using ih hothers

/-- A source with another one below it has the tokens of both. -/
theorem scan_append_line {above below : Bytes} {ts us : List Token} (habove : scan? above = some ts)
    (hbelow : scan? below = some us) :
    scan? (above ++ Bytes.lineFeed :: below) = some (ts ++ us) := by
  have hcuts := (segments_cuts above).append_line
    (fun text => not_mem_of_foldr_onto habove .unterminatedString text) (segments_cuts below)
  rw [scan?, ← hcuts.eq_segments, List.foldr_append, foldr_onto_append habove, List.foldr_cons]
  change Option.map _ (scan? below) = _
  rw [hbelow]
  rfl

end Token

/-! Trees without their lines. -/

theorem Grammar.Derives.unplaced {r : Rank} {ts : List Token} {e : Expr} (h : Derives r ts e) :
    Derives r (ts.map Token.unplaced) (e.mapTokens Token.unplaced) := by
  induction h with
  | falseLiteral h => exact .falseLiteral h
  | trueLiteral h => exact .trueLiteral h
  | nullLiteral h => exact .nullLiteral h
  | @number t h => exact .number (t := t.unplaced) h
  | @string t h => exact .string (t := t.unplaced) h
  | name h => exact .name h
  | grouping hl _ hr ih =>
    rw [List.map_append, List.map_cons]
    exact .grouping hl ih hr
  | primary _ ih => exact .primary ih
  | unary ht _ ih => exact .unary ht ih
  | operand _ ih => exact .operand ih
  | binary hn ht _ _ ihl ihr =>
    rw [List.map_append, List.map_cons]
    exact .binary hn ht ihl ihr
  | logical hn ht _ _ ihl ihr =>
    rw [List.map_append, List.map_cons]
    exact .logical hn ht ihl ihr
  | loosest _ ih => exact .loosest ih
  | assign ht hq _ ih => exact .assign ht hq ih

theorem Grammar.EndsOpen.of_mapTokens {s : Stmt} {f : Token → Token}
    (h : EndsOpen (s.mapTokens f)) : EndsOpen s := by
  generalize hs : s.mapTokens f = again at h
  induction h generalizing s with
  | noElse =>
    cases s with
    | ifElse c t e =>
      obtain ⟨-, -, he⟩ := Stmt.ifElse.inj hs
      cases e with
      | absent => exact .noElse
      | _ => cases he
    | _ => cases hs
  | inElse _ ih =>
    cases s with
    | ifElse c t e => exact .inElse (ih (Stmt.ifElse.inj hs).2.2)
    | _ => cases hs

theorem Grammar.Reads.unplaced {ts : List Token} {p : Phrase} (h : Reads ts p) :
    Reads (ts.map Token.unplaced) (p.mapTokens Token.unplaced) := by
  induction h with
  | expression he hq =>
    rw [List.map_append]
    exact .expression he.unplaced hq
  | print hp he hq =>
    rw [List.map_append, List.map_cons]
    exact .print hp he.unplaced hq
  | block hl _ hr ih =>
    rw [List.map_append, List.map_cons]
    exact .block hl ih hr
  | ifThen hi hl hc hr _ ih =>
    rw [List.map_append, List.map_cons, List.map_cons, List.map_cons]
    exact .ifThen hi hl hc.unplaced hr ih
  | ifElse hi hl hc hr _ hclosed ho _ ihs ihf =>
    rw [List.map_append, List.map_append, List.map_cons, List.map_cons, List.map_cons,
      List.map_cons]
    exact .ifElse hi hl hc.unplaced hr ihs (fun hopen => hclosed hopen.of_mapTokens) ho ihf
  | declare hv hx hq => exact .declare hv hx hq
  | declareWith hv hx ha he hq =>
    rw [List.map_append, List.map_cons, List.map_cons, List.map_cons]
    exact .declareWith hv hx ha he.unplaced hq
  | statement _ ih => exact .statement ih
  | none => exact .none
  | more _ _ ihs ihb =>
    rw [List.map_append]
    exact .more ihs ihb

/-- A source without diagnostics is scanned as tokens of which its statements are read. -/
theorem scan_of_ofSource {source : Bytes} (h : (Parsed.ofSource source).diagnostics = []) :
    ∃ ts, scan? source = some ts ∧
      Program ts (mapTokensOf Token.unplaced (Parsed.ofSource source).statements) := by
  obtain ⟨ts, last, hlex, hlast, -, hprogram⟩ := lexical_program h
  refine ⟨ts.map Token.unplaced, scan?_eq_some_iff.2 ?_, hprogram.unplaced⟩
  rw [hlex]
  exact ⟨rfl, by simp [hlast]⟩

theorem mapTokensOf_append (f : Token → Token) (p q : List Stmt) :
    mapTokensOf f (p ++ q) = mapTokensOf f p ++ mapTokensOf f q := by
  simp only [mapTokensOf_eq_map, List.map_append]

theorem ofSource_append_line {above below : Bytes}
    (habove : (Parsed.ofSource above).diagnostics = [])
    (hbelow : (Parsed.ofSource below).diagnostics = []) :
    (Parsed.ofSource (above ++ Bytes.lineFeed :: below)).diagnostics = [] ∧
      mapTokensOf unplaced (Parsed.ofSource (above ++ Bytes.lineFeed :: below)).statements =
        mapTokensOf unplaced
          ((Parsed.ofSource above).statements ++ (Parsed.ofSource below).statements) := by
  obtain ⟨ts, hts, hp⟩ := scan_of_ofSource habove
  obtain ⟨us, hus, hq⟩ := scan_of_ofSource hbelow
  rw [mapTokensOf_append]
  exact ofSource_of_scan (scan_append_line hts hus) (hp.append hq)

/-- Programs one below the other are read as the statements of all of them. -/
theorem ofSource_join (sources : List Bytes)
    (h : ∀ source ∈ sources, (Parsed.ofSource source).diagnostics = []) :
    (Parsed.ofSource (Bytes.join [Bytes.lineFeed] sources)).diagnostics = [] ∧
      mapTokensOf unplaced (Parsed.ofSource (Bytes.join [Bytes.lineFeed] sources)).statements =
        mapTokensOf unplaced
          (sources.flatMap fun source => (Parsed.ofSource source).statements) := by
  induction sources using Bytes.join.induct with
  | case1 => exact ofSource_of_scan scan?_nil .none
  | case2 source =>
    rw [Bytes.join, List.flatMap_cons, List.flatMap_nil, List.append_nil]
    exact ⟨h source (by simp), rfl⟩
  | case3 source next rest ih =>
    obtain ⟨hclean, hstatements⟩ := ih fun s hs => h s (List.mem_cons_of_mem _ hs)
    have hjoined := ofSource_append_line (h source (by simp)) hclean
    rw [Bytes.join, List.append_assoc, List.flatMap_cons]
    refine ⟨hjoined.1, hjoined.2.trans ?_⟩
    rw [mapTokensOf_append, mapTokensOf_append, hstatements]

end BlockScript
