import BlockScript.Proofs.ParseProgram
import BlockScript.Proofs.ReadTrees

/-! Formatting and reading back. What a source without diagnostics is read as has the tokens of the
source when it is formatted; a tree built by hand is read back as its canonical form. -/

namespace BlockScript

open Token Format Grammar

theorem foldr_onto_of_clean {line : Int} {pieces : List Segment}
    (h : (Lexed.ofSegments line pieces).diagnostics = []) :
    ∃ tokens, pieces.foldr Segment.onto (some []) = some tokens := by
  induction pieces generalizing line with
  | nil => exact ⟨[], rfl⟩
  | cons s rest ih =>
    cases s with
    | blank b => exact ih h
    | comment body => exact ih h
    | fault cause text => cases h
    | token kind lexeme literal =>
      obtain ⟨tokens, htokens⟩ := ih h
      exact ⟨_, by rw [List.foldr_cons, htokens]; rfl⟩

theorem scan_of_clean {source : Bytes} (h : (lex source).diagnostics = []) :
    ∃ tokens, scan? source = some tokens := foldr_onto_of_clean h

theorem lex_of_scan {source : Bytes} {tokens : List Token} (h : scan? source = some tokens) :
    ∃ ts last, lex source = ⟨ts ++ [last], []⟩ ∧ ts.map unplaced = tokens ∧
      last.unplaced = finish 0 ∧ ∀ t ∈ ts, Lexical t := by
  obtain ⟨hclean, htokens⟩ := scan?_eq_some_iff.1 h
  obtain ⟨ts, ends, hsplit, hts, hends⟩ := List.map_eq_append_iff.1 htokens
  obtain ⟨last, rfl, hlast⟩ := List.map_eq_singleton_iff.1 hends
  refine ⟨ts, last, ?_, hts, hlast, fun t ht => ?_⟩
  · rw [← hsplit, ← hclean]
  · have hmem : t.unplaced ∈ tokens := by
      rw [← hts]
      exact List.mem_map_of_mem ht
    exact (lexical_of_scan h _ hmem).of_unplaced rfl

/-- A source is read without diagnostics exactly if it can be scanned and the grammar reads its
tokens. -/
theorem ofSource_eq_iff {source : Bytes} {ts : List Token} {last : Token} {program : List Stmt}
    (hlex : lex source = ⟨ts ++ [last], []⟩) (hlast : last.unplaced = finish 0)
    (hts : ∀ t ∈ ts, Lexical t) :
    (Parsed.ofSource source).diagnostics = [] ∧ (Parsed.ofSource source).statements = program ↔
      Program ts program := by
  have hmark : last.kind = .endOfFile := congrArg Token.kind hlast
  rw [← ofTokens_eq_iff hmark fun t ht => (hts t ht).kind_ne_endOfFile]
  simp only [Parsed.ofSource, hlex, List.nil_append]

theorem lexical_program {source : Bytes} (h : (Parsed.ofSource source).diagnostics = []) :
    ∃ ts last, lex source = ⟨ts ++ [last], []⟩ ∧ last.unplaced = finish 0 ∧ (∀ t ∈ ts, Lexical t) ∧
      Program ts (Parsed.ofSource source).statements := by
  have hclean : (lex source).diagnostics = [] := (List.append_eq_nil_iff.1 h).1
  obtain ⟨tokens, hscan⟩ := scan_of_clean hclean
  obtain ⟨ts, last, hlex, -, hlast, hts⟩ := lex_of_scan hscan
  exact ⟨ts, last, hlex, hlast, hts, (ofSource_eq_iff hlex hlast hts).1 ⟨h, rfl⟩⟩

/-- What is read from a source without diagnostics is well formed. -/
theorem wellFormed_ofSource {source : Bytes} (h : (Parsed.ofSource source).diagnostics = []) :
    WellFormed (Parsed.ofSource source).statements := by
  obtain ⟨ts, last, -, -, hts, hprogram⟩ := lexical_program h
  exact (Reads.readFrom hprogram hts).wellFormed

/-- What the grammar reads from the tokens of a source, lines aside, is read from the source. -/
theorem ofSource_of_scan {source : Bytes} {tokens : List Token} {program : List Stmt}
    (hscan : scan? source = some tokens) (h : Program tokens program) :
    (Parsed.ofSource source).diagnostics = [] ∧
      mapTokensOf unplaced (Parsed.ofSource source).statements = program := by
  obtain ⟨ts, last, hlex, hplace, hlast, hts⟩ := lex_of_scan hscan
  obtain ⟨p, hreads, hp⟩ := Reads.place h hplace
  obtain ⟨again, rfl, hagain⟩ := Phrase.mapTokens_inversion hp
  obtain ⟨hclean, hstatements⟩ := (ofSource_eq_iff hlex hlast hts).2 hreads
  exact ⟨hclean, hstatements ▸ hagain⟩

/-- What is read from a source without diagnostics is its own canonical form, lines aside. -/
theorem canonicalOf_ofSource {source : Bytes} (h : (Parsed.ofSource source).diagnostics = []) :
    canonicalOf (Parsed.ofSource source).statements =
      mapTokensOf unplaced (Parsed.ofSource source).statements := by
  obtain ⟨ts, last, -, -, hts, hprogram⟩ := lexical_program h
  exact Phrase.declarations.inj (Reads.readFrom hprogram hts).canonical

/-- Read back from its source, a well-formed program is its canonical form, lines aside. -/
theorem ofSource_formatProgram {program : List Stmt} (h : WellFormed program) :
    (Parsed.ofSource (formatProgram program)).diagnostics = [] ∧
      mapTokensOf unplaced (Parsed.ofSource (formatProgram program)).statements =
        canonicalOf program :=
  ofSource_of_scan (spells_formatProgram h).scan h.reads

/-- Formatting what was read from a source without diagnostics neither loses nor invents a token:
the formatted source has the same tokens, but for their lines and the spelling of numbers, and is
read as the same program, but for lines. -/
theorem format_keeps_tokens (source : Bytes) (h : (Parsed.ofSource source).diagnostics = []) :
    (lex (formatProgram (Parsed.ofSource source).statements)).diagnostics = [] ∧
      (lex (formatProgram (Parsed.ofSource source).statements)).tokens.map essence =
        (lex source).tokens.map essence ∧
      (Parsed.ofSource (formatProgram (Parsed.ofSource source).statements)).diagnostics = [] ∧
      mapTokensOf unplaced
          (Parsed.ofSource (formatProgram (Parsed.ofSource source).statements)).statements =
        mapTokensOf unplaced (Parsed.ofSource source).statements := by
  obtain ⟨ts, last, hlex, hlast, hts, hprogram⟩ := lexical_program h
  obtain ⟨hwell, hcanonical, htokens⟩ := Reads.readFrom hprogram hts
  obtain ⟨ts', last', hlex', hplace, hlast', -⟩ := lex_of_scan (spells_formatProgram hwell).scan
  obtain ⟨hclean, hagain⟩ := ofSource_formatProgram hwell
  have hessence (us : List Token) : (us.map unplaced).map essence = us.map essence := by
    rw [List.map_map]
    rfl
  have hmarks : last'.essence = last.essence := by
    rw [← essence_unplaced, hlast', ← hlast, essence_unplaced]
  refine ⟨by rw [hlex'], ?_, hclean, hagain.trans (Phrase.declarations.inj hcanonical)⟩
  rw [hlex', hlex, List.map_append, List.map_append, ← hessence ts', hplace]
  exact congrArg₂ (· ++ ·) htokens (congrArg (fun t => [t]) hmarks)

/-- A comment, a blank before the semicolon and a zero at the end of a number are not kept. -/
theorem comment_and_zero_are_no_tokens :
    let source := Bytes.ofString "// half\nprint 1.50 ;"
    (Parsed.ofSource source).diagnostics = [] ∧
      (lex (formatProgram (Parsed.ofSource source).statements)).tokens.map essence =
        (lex source).tokens.map essence := by
  intro source
  let half : Token := ⟨.number, Bytes.ofString "1.50", 0, .number 1.5⟩
  have hnumber : Spells (Bytes.ofString "1.50") [half] :=
    spells_number ⟨⟨[49], [53, 48]⟩, ⟨by simp, List.all_eq_true.1 (by decide)⟩, by decide,
      by decide +kernel⟩
  have hprint := spells_reserved (k := .printWord) (by decide) rfl
    (spells_space (hnumber.append rfl (spells_space (spells_single (b := 59) rfl spells_nil))))
  have hscan : scan? source = some [mark .printWord, half, mark .semicolon] := by
    rw [show source = 47 :: Bytes.ofString "/ half\nprint 1.50 ;" from rfl, scan?_cons]
    exact (spells_newLine hprint).scan
  have hhalf : Derives .expression [half] (.literal (.number 1.5)) :=
    (Derives.primary (.number rfl)).toExpression (by omega)
  have hclean := (ofSource_of_scan hscan (.more (.statement (.print rfl hhalf rfl)) .none)).1
  exact ⟨hclean, (format_keeps_tokens source hclean).2.1⟩

def Expr.ungrouped : Expr → Expr
  | .absent => .absent
  | .literal v => .literal v
  | .name t => .name t
  | .grouping e => e.ungrouped
  | .assign t e => .assign t e.ungrouped
  | .binary l t r => .binary l.ungrouped t r.ungrouped
  | .logical l t r => .logical l.ungrouped t r.ungrouped
  | .unary t e => .unary t e.ungrouped

mutual

def Stmt.ungrouped : Stmt → Stmt
  | .absent => .absent
  | .expression e => .expression e.ungrouped
  | .print e => .print e.ungrouped
  | .declare x e => .declare x e.ungrouped
  | .block body => .block (ungroupedOf body)
  | .ifElse c s f => .ifElse c.ungrouped s.ungrouped f.ungrouped

def ungroupedOf : List Stmt → List Stmt
  | [] => []
  | s :: rest => s.ungrouped :: ungroupedOf rest

end

def Expr.explicit : Expr → Expr
  | .absent => .absent
  | .literal v => v.unsigned
  | .name t => .name t
  | .grouping e => .grouping e.explicit
  | .assign t e => .assign t e.explicit
  | .binary l t r => .binary l.explicit t r.explicit
  | .logical l t r => .logical l.explicit t r.explicit
  | .unary t e => .unary t e.explicit

instance (s : Stmt) : Decidable (EndsOpen s) := decidable_of_iff (dangles s = true) dangles_iff

mutual

/-- The tree with a block around every first branch that would take the `else` behind it, and with
every signed number as the negation of its absolute value. -/
def Stmt.explicit : Stmt → Stmt
  | .absent => .absent
  | .expression e => .expression e.explicit
  | .print e => .print e.explicit
  | .declare x e => .declare x e.explicit
  | .block body => .block (explicitOf body)
  | .ifElse c s .absent => .ifElse c.explicit s.explicit .absent
  | .ifElse c s f =>
    .ifElse c.explicit (if EndsOpen s then .block [s.explicit] else s.explicit) f.explicit

def explicitOf : List Stmt → List Stmt
  | [] => []
  | s :: rest => s.explicit :: explicitOf rest

end

theorem Expr.ungrouped_groupedIf (f : Token → Token) (wanted : Bool) (e : Expr) :
    ((e.groupedIf wanted).mapTokens f).ungrouped = (e.mapTokens f).ungrouped := by
  cases wanted <;> rfl

theorem Expr.ungrouped_canonical (e : Expr) :
    (e.canonical.mapTokens bare).ungrouped = (e.explicit.mapTokens bare).ungrouped := by
  induction e with
  | absent | literal v | name t => rfl
  | grouping e ih => exact ih
  | assign t e ih => simp only [canonical, explicit, mapTokens, ungrouped, bare_bare, ih]
  | binary l t r ihl ihr | logical l t r ihl ihr =>
    simp only [canonical, explicit, mapTokens, ungrouped, ungrouped_groupedIf, bare_bare, ihl, ihr]
  | unary t e ih =>
    simp only [canonical, explicit, mapTokens, ungrouped, ungrouped_groupedIf, bare_bare, ih]

namespace Stmt

theorem explicit_ifElse {c : Expr} {s f : Stmt} (hf : f ≠ .absent) : (ifElse c s f).explicit =
    .ifElse c.explicit (if EndsOpen s then .block [s.explicit] else s.explicit) f.explicit := by
  rw [explicit]
  exact hf

mutual

theorem ungrouped_canonical : (s : Stmt) →
    (s.canonical.mapTokens bare).ungrouped = (s.explicit.mapTokens bare).ungrouped
  | .absent => rfl
  | .expression e => by simp only [canonical, explicit, mapTokens, ungrouped, e.ungrouped_canonical]
  | .print e => by simp only [canonical, explicit, mapTokens, ungrouped, e.ungrouped_canonical]
  | .declare x e => by
    simp only [canonical, explicit, mapTokens, ungrouped, e.ungrouped_canonical, bare_bare]
  | .block body => by
    simp only [canonical, explicit, mapTokens, ungrouped, ungroupedOf_canonicalOf body]
  | .ifElse c s f => by
    have hc := c.ungrouped_canonical
    have hs := ungrouped_canonical s
    have hf := ungrouped_canonical f
    by_cases habsent : f = .absent
    · simp only [habsent, canonical, explicit, mapTokens, ungrouped, hc, hs]
    · rw [canonical_ifElse habsent, explicit_ifElse habsent]
      by_cases hopen : EndsOpen s
      · simp only [if_pos hopen, if_pos (dangles_iff.2 hopen), mapTokens, mapTokensOf, ungrouped,
          ungroupedOf, hc, hs, hf]
      · simp only [if_neg hopen, if_neg (mt dangles_iff.1 hopen), mapTokens, ungrouped, hc, hs, hf]

theorem ungroupedOf_canonicalOf : (body : List Stmt) →
    ungroupedOf (mapTokensOf bare (canonicalOf body)) =
      ungroupedOf (mapTokensOf bare (explicitOf body))
  | [] => rfl
  | s :: rest => by
    simp only [canonicalOf, explicitOf, mapTokensOf, ungroupedOf, ungrouped_canonical s,
      ungroupedOf_canonicalOf rest]

end

end Stmt

theorem Expr.mapTokens_mapTokens (f g : Token → Token) (e : Expr) :
    (e.mapTokens f).mapTokens g = e.mapTokens (g ∘ f) := by
  induction e with
  | absent | literal v | name t => rfl
  | grouping e ih | assign t e ih | unary t e ih => simp only [mapTokens, ih, Function.comp_apply]
  | binary l t r ihl ihr | logical l t r ihl ihr =>
    simp only [mapTokens, ihl, ihr, Function.comp_apply]

namespace Stmt

mutual

theorem mapTokens_mapTokens (f g : Token → Token) : (s : Stmt) →
    (s.mapTokens f).mapTokens g = s.mapTokens (g ∘ f)
  | .absent => rfl
  | .expression e => by simp only [mapTokens, e.mapTokens_mapTokens]
  | .print e => by simp only [mapTokens, e.mapTokens_mapTokens]
  | .declare x e => by simp only [mapTokens, e.mapTokens_mapTokens, Function.comp_apply]
  | .block body => by simp only [mapTokens, mapTokensOf_mapTokensOf f g body]
  | .ifElse c s s' => by
    simp only [mapTokens, c.mapTokens_mapTokens, mapTokens_mapTokens f g s,
      mapTokens_mapTokens f g s']

theorem mapTokensOf_mapTokensOf (f g : Token → Token) : (body : List Stmt) →
    mapTokensOf g (mapTokensOf f body) = mapTokensOf (g ∘ f) body
  | [] => rfl
  | s :: rest => by
    simp only [mapTokensOf, mapTokens_mapTokens f g s, mapTokensOf_mapTokensOf f g rest]

end

end Stmt

/-- A well-formed program that is formatted is read back without diagnostics. What is read back is
the program itself, but for grouping nodes, blocks around dangling branches and the signs of
numbers, and it is formatted in the same way. -/
theorem format_reads_back (program : List Stmt) (h : WellFormed program) :
    (Parsed.ofSource (formatProgram program)).diagnostics = [] ∧
      ungroupedOf (mapTokensOf bare (Parsed.ofSource (formatProgram program)).statements) =
        ungroupedOf (mapTokensOf bare (explicitOf program)) ∧
      formatProgram (Parsed.ofSource (formatProgram program)).statements =
        formatProgram program := by
  obtain ⟨hclean, hagain⟩ := ofSource_formatProgram h
  refine ⟨hclean, ?_, ?_⟩
  · have hbare (body : List Stmt) :
        mapTokensOf bare (mapTokensOf unplaced body) = mapTokensOf bare body :=
      Stmt.mapTokensOf_mapTokensOf unplaced bare body
    rw [← hbare, hagain, Stmt.ungroupedOf_canonicalOf]
  · rw [← formatProgram_canonical (wellFormed_ofSource hclean), canonicalOf_ofSource hclean, hagain,
      formatProgram_canonical h]

/-- The number, the sum and the inner condition each need something that the tree has no node for:
a minus sign, parentheses and braces. -/
theorem dangling_branch_reads_back :
    let a : Token := ⟨.identifier, Bytes.ofString "a", 7, .null⟩
    let plus : Token := ⟨.plus, Bytes.ofString "+", 7, .null⟩
    let star : Token := ⟨.star, Bytes.ofString "*", 7, .null⟩
    let minusZero : Expr := .literal (.number (Float.ofBits 0x8000000000000000))
    let product : Expr := .binary (.binary (.name a) plus minusZero) star (.name a)
    let program : List Stmt :=
      [.ifElse (.name a) (.ifElse (.name a) (.print product) .absent) (.expression product)]
    WellFormed program ∧
      ungroupedOf (mapTokensOf bare (Parsed.ofSource (formatProgram program)).statements) =
        ungroupedOf (mapTokensOf bare (explicitOf program)) := by
  intro a plus star minusZero product program
  have ha : (Expr.name a).WellFormed :=
    .name ⟨rfl, by decide, List.all_eq_true.1 (by decide), by decide⟩
  have hzero : minusZero.WellFormed := .literal (.number (by decide +kernel))
  have hsum : (Expr.binary (.name a) plus minusZero).WellFormed :=
    .binary (n := 1) (by omega) (by decide) rfl ha hzero
  have hproduct : product.WellFormed := .binary (n := 0) (by omega) (by decide) rfl hsum ha
  have hprogram : WellFormed program :=
    .more (.statement (.ifElse ha (.ifThen ha (.print hproduct)) (.expression hproduct))) .none
  exact ⟨hprogram, (format_reads_back program hprogram).2.1⟩

def printing (text : Bytes) : Bytes := Bytes.ofString "print \"" ++ text ++ Bytes.ofString "\";\n"

theorem formatProgram_print (text : Bytes) :
    formatProgram [.print (.literal (.string text))] = printing text := by
  have hopen : Bytes.ofString "print \"" = Bytes.ofString "print " ++ [34] := rfl
  have hclose : Bytes.ofString "\";\n" = [34, 59, 10] := rfl
  rw [printing, hopen, hclose]
  simp [formatProgram, sourceLines, Format.margin, Format.indent, Stmt.isAbsent, Bytes.join,
    Stmt.source, Expr.source, Literal.source]

theorem ofSource_printing {text : Bytes} (h : Bytes.quoteMark ∉ text) :
    (Parsed.ofSource (printing text)).diagnostics = [] ∧
      (Parsed.ofSource (printing text)).statements = [.print (.literal (.string text))] := by
  have hwell : WellFormed [.print (.literal (.string text))] :=
    .more (.statement (.print (.literal (.string h)))) .none
  obtain ⟨hclean, hsame⟩ := ofSource_formatProgram hwell
  rw [formatProgram_print] at hclean hsame
  refine ⟨hclean, ?_⟩
  -- The statement holds no token, so that there are no lines to forget.
  have hcanonical : canonicalOf [.print (.literal (.string text))] =
      [.print (.literal (.string text))] := by
    simp [canonicalOf, Stmt.canonical, Expr.canonical, Literal.unsigned]
  rw [hcanonical, mapTokensOf_eq_map] at hsame
  obtain ⟨s, hstatements, hs⟩ := List.map_eq_singleton_iff.1 hsame
  rw [hstatements]
  cases s with
  | print e =>
    cases e with
    | literal v => exact congrArg (fun s => [s]) hs
    | _ => simp [Stmt.mapTokens, Expr.mapTokens] at hs
  | _ => simp [Stmt.mapTokens] at hs

end BlockScript
