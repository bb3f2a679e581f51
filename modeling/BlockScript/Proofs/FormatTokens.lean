import BlockScript.Proofs.Canonical

/-! The source of a tree is read as the tokens of its canonical form, and has the same source as
that form. -/

namespace BlockScript

open Token Format Grammar

theorem spells_space {text : Bytes} {tokens : List Token} (h : Spells text tokens) :
    Spells (32 :: text) tokens := spells_blank rfl h

theorem spells_newLine {text : Bytes} {tokens : List Token} (h : Spells text tokens) :
    Spells (10 :: text) tokens := spells_blank rfl h

theorem spells_parenthesizedIf (wanted : Bool) {text : Bytes} {e : Expr}
    (h : Spells text e.tokens) :
    Spells (parenthesizedIf wanted text) (e.groupedIf wanted).tokens := by
  cases wanted with
  | false => exact h
  | true => exact spells_single rfl (h.append rfl (spells_single rfl spells_nil))

theorem spells_infixed {l operator r : Bytes} {t : Token} {ls rs : List Token} (hl : Spells l ls)
    (ht : Spells operator [t]) (hr : Spells r rs) :
    Spells (infixed l operator r) (ls ++ t :: rs) := by
  rw [infixed, List.append_assoc]
  exact hl.append rfl (spells_blank rfl (ht.append rfl (spells_blank rfl hr)))

/-- Text that is read as an expression does not extend a `!` before it. -/
theorem head_ne_equal {text : Bytes} {r : Rank} {tokens : List Token} {e : Expr}
    (h : Spells text tokens) (he : Derives r tokens e) : text.head? ≠ some 61 := by
  intro hhead
  obtain ⟨more, rfl⟩ : ∃ more, text = 61 :: more := by
    cases text with
    | nil => cases hhead
    | cons b more => exact ⟨more, by rw [Option.some.inj hhead]⟩
  obtain ⟨t, us, rfl, ht⟩ := he.starts
  have hscan := h.scan
  rw [scan?_cons] at hscan
  change (Segment.cutOperator 61 (.equal, .equalEqual) more).1.onto _ = _ at hscan
  unfold Segment.cutOperator at hscan
  split at hscan
  all_goals
    obtain ⟨found, -, heq⟩ := Option.map_eq_some_iff.1 hscan
    obtain ⟨rfl, rfl⟩ := List.cons.inj heq
    simp [expressionStarts] at ht

theorem spells_bang {text : Bytes} {tokens : List Token} (h : Spells text tokens)
    (hhead : text.head? ≠ some 61) : Spells (33 :: text) (mark .bang :: tokens) := by
  intro rest hrest
  have hcut : Segment.cut 33 (text ++ rest) = (.token .bang [33] .null, text ++ rest) := by
    change Segment.cutOperator 33 (.bang, .bangEqual) (text ++ rest) = _
    unfold Segment.cutOperator
    split
    · next after heq =>
      cases text with
      | nil => cases hrest 61 (by rw [← List.nil_append rest, heq]; rfl)
      | cons b more => exact absurd (by rw [(List.cons.inj heq).1]; rfl) hhead
    · rfl
  rw [List.cons_append, scan?_cons, hcut]
  simp only [Segment.onto, h rest hrest, Option.map_map]
  rfl

theorem spells_unary {t : Token} {text : Bytes} {r : Rank} {tokens : List Token} {e : Expr}
    (ht : t.kind ∈ [.bang, .minus]) (htext : t.lexeme = t.kind.spelling) (h : Spells text tokens)
    (he : Derives r tokens e) : Spells (t.lexeme ++ text) (t.bare :: tokens) := by
  simp only [List.mem_cons, List.not_mem_nil, or_false] at ht
  rw [Token.bare, htext]
  rcases ht with ht | ht <;> rw [ht]
  · exact spells_bang h (head_ne_equal h he)
  · exact spells_single rfl h

theorem spells_operator {n : Nat} {t : Token} (ht : t.kind ∈ operators n)
    (htext : t.lexeme = t.kind.spelling) : Spells t.lexeme [t.bare] := by
  rw [Token.bare, htext]
  exact spells_mark (operator_spelling_ne_nil ht)

theorem Token.Names.spells {t : Token} (h : t.Names) : Spells t.lexeme [t.bare] := by
  rw [Token.bare, h.kind]
  exact h.lexeme.spells

theorem spells_literal {v : Literal} (h : v.WellFormed) : Spells v.source v.unsigned.tokens := by
  cases h with
  | null => exact spells_mark (k := .nullWord) (by decide)
  | @bool b =>
    cases b
    · exact spells_mark (k := .falseWord) (by decide)
    · exact spells_mark (k := .trueWord) (by decide)
  | @number x hfin =>
    unfold Literal.source Literal.unsigned
    dsimp only
    by_cases hsign : Decimal.isNegative x = true
    · have hplace := Decimal.place_lt_of_isFinite hfin
      rw [if_pos hsign, Decimal.text_of_isNegative hsign hfin]
      exact spells_single rfl (spells_number (Decimal.writes_text
        (Decimal.isNegative_ofPlace hplace) (Decimal.isFinite_ofPlace hplace)))
    · rw [if_neg hsign]
      exact spells_number (Decimal.writes_text (by simpa using hsign) hfin)
  | string hquote => exact spells_quoted hquote

/-- The source of an expression is read as the tokens of its canonical form. -/
theorem Expr.WellFormed.spells {e : Expr} (h : e.WellFormed) :
    Spells e.source e.canonical.tokens := by
  induction h with
  | literal hv => exact spells_literal hv
  | name ht => exact ht.spells
  | grouping _ ih => exact spells_parenthesizedIf true ih
  | assign ht _ ih => exact spells_infixed ht.spells (spells_mark (k := .equal) (by decide)) ih
  | binary _ ht htext _ _ ihl ihr =>
    exact spells_infixed (spells_parenthesizedIf _ ihl) (spells_operator ht htext)
      (spells_parenthesizedIf _ ihr)
  | logical _ ht htext _ _ ihl ihr =>
    exact spells_infixed (spells_parenthesizedIf _ ihl) (spells_operator ht htext)
      (spells_parenthesizedIf _ ihr)
  | unary ht htext he ih =>
    exact spells_unary ht htext (spells_parenthesizedIf _ ih) he.standsFor.prefixed

theorem spells_indent (depth : Nat) {text : Bytes} {tokens : List Token} (h : Spells text tokens) :
    Spells (indent depth ++ text) tokens := by
  unfold indent
  induction 2 * depth with
  | zero => exact h
  | succ n ih =>
    rw [List.replicate_succ, List.cons_append]
    exact spells_blank rfl ih

theorem spells_margin (depth : Nat) (s : Stmt) {text : Bytes} {tokens : List Token}
    (h : Spells text tokens) : Spells (margin depth s ++ text) tokens := by
  unfold margin
  split
  · exact h
  · exact spells_indent depth h

/-- A reserved word is followed by a delimiter. -/
theorem spells_reserved {k : Kind} (hk : k.spelling ≠ []) {b : UInt8} {text : Bytes}
    {tokens : List Token} (hb : isDelimiter b = true) (h : Spells (b :: text) tokens) :
    Spells (k.spelling ++ b :: text) (mark k :: tokens) :=
  (spells_mark hk).append hb h

def FollowsWord (text : Bytes) : Prop := ∃ b more, text = b :: more ∧ isDelimiter b = true

theorem Token.Spells.followed {text more : Bytes} {tokens others : List Token}
    (h : Spells text tokens) (hfollows : FollowsWord more) (hmore : Spells more others) :
    Spells (text ++ more) (tokens ++ others) := by
  obtain ⟨b, after, rfl, hb⟩ := hfollows
  exact h.append hb hmore

namespace Stmt

/-- A branch on its own line, or on the line of the word before it. -/
def branch (sameLine : Bool) (depth : Nat) (s : Stmt) : Bytes :=
  if sameLine then 32 :: s.source depth else 10 :: margin (depth + 1) s ++ s.source (depth + 1)

theorem branch_followsWord (sameLine : Bool) (depth : Nat) (s : Stmt) :
    FollowsWord (branch sameLine depth s) := by
  unfold branch
  split
  · exact ⟨32, _, rfl, rfl⟩
  · exact ⟨10, _, rfl, rfl⟩

theorem spells_branch {s : Stmt} {tokens : List Token} (h : ∀ depth, Spells (s.source depth) tokens)
    (sameLine : Bool) (depth : Nat) : Spells (branch sameLine depth s) tokens := by
  unfold branch
  split
  · exact spells_blank rfl (h depth)
  · exact spells_blank rfl (spells_margin _ _ (h (depth + 1)))

/-- A first branch with the `else` behind it. Braces keep a dangling branch from taking it. -/
def closedBranch (depth : Nat) (s : Stmt) : Bytes :=
  if dangles s then
    [32, 123, 10] ++ indent (depth + 1) ++ s.source (depth + 1) ++ 10 :: indent depth ++
      Bytes.ofString "\x7d else"
  else if isBlock s then 32 :: s.source depth ++ Bytes.ofString " else"
  else
    10 :: margin (depth + 1) s ++ s.source (depth + 1) ++ 10 :: indent depth ++
      Bytes.ofString "else"

theorem spells_closedBranch {s : Stmt} (h : ∀ depth, Spells (s.source depth) s.canonical.tokens)
    (depth : Nat) : Spells (closedBranch depth s)
      ((if dangles s then .block [s.canonical] else s.canonical).tokens ++ [mark .elseWord]) := by
  have helse : Spells (Bytes.ofString "else") [mark .elseWord] :=
    spells_mark (k := .elseWord) (by decide)
  unfold closedBranch
  split
  · have hbrace : Spells (Bytes.ofString "\x7d else") [mark .rightBrace, mark .elseWord] :=
      spells_single rfl (spells_blank rfl helse)
    have := (h (depth + 1)).append rfl (spells_newLine (spells_indent depth hbrace))
    simpa [tokens, tokensOf] using
      spells_space (spells_single rfl (spells_newLine (spells_indent (depth + 1) this)))
  split
  · exact spells_blank rfl ((h depth).append rfl (spells_blank rfl helse))
  · have := (h (depth + 1)).append rfl (spells_newLine (spells_indent depth helse))
    simpa using spells_newLine (spells_margin (depth + 1) s this)

theorem source_ifThen (depth : Nat) (c : Expr) (s : Stmt) : (ifElse c s .absent).source depth =
    Bytes.ofString "if (" ++ c.source ++ [41] ++ branch (isBlock s) depth s := by
  rw [source]
  rfl

theorem source_ifElse (depth : Nat) (c : Expr) (s : Stmt) {f : Stmt} (hf : f ≠ .absent) :
    (ifElse c s f).source depth = Bytes.ofString "if (" ++ c.source ++ [41] ++
      closedBranch depth s ++ branch (isBlock f || isCondition f) depth f := by
  rw [source]
  · rfl
  · exact hf

theorem source_declare (depth : Nat) (x : Token) {e : Expr} (he : e ≠ .absent) :
    (declare x e).source depth =
      Bytes.ofString "var " ++ infixed x.lexeme (Bytes.ofString "=") e.source ++ [59] := by
  rw [source]
  exact he

theorem spells_condition {c : Expr} {body : Bytes} {tokens : List Token} (hc : c.WellFormed)
    (hbody : Spells body tokens) : Spells (Bytes.ofString "if (" ++ c.source ++ [41] ++ body)
      (mark .ifWord :: mark .leftParen :: c.canonical.tokens ++ mark .rightParen :: tokens) := by
  have hopen : Spells (40 :: (c.source ++ 41 :: body))
      (mark .leftParen :: (c.canonical.tokens ++ mark .rightParen :: tokens)) :=
    spells_single rfl (hc.spells.append rfl (spells_single rfl hbody))
  have hword := spells_reserved (k := .ifWord) (by decide) rfl (spells_space hopen)
  have htext : Bytes.ofString "if (" = Kind.ifWord.spelling ++ [32, 40] := by decide
  simpa [htext] using hword

end Stmt

def Grammar.Phrase.source (depth : Nat) : Phrase → Bytes
  | .statement s | .declaration s => s.source depth
  | .declarations body => Bytes.join [10] (sourceLines depth body)

theorem spells_lines {depth : Nat} {s : Stmt} {body : List Stmt} {tokens others : List Token}
    (hs : Spells (s.source depth) tokens)
    (hbody : Spells (Bytes.join [10] (sourceLines depth body)) others) :
    Spells (Bytes.join [10] (sourceLines depth (s :: body))) (tokens ++ others) := by
  have hline := spells_margin depth s hs
  cases body with
  | nil =>
    obtain rfl : others = [] := by simpa [sourceLines, Bytes.join, eq_comm] using hbody.scan
    simpa [sourceLines, Bytes.join] using hline
  | cons next rest => simpa [sourceLines, Bytes.join] using hline.append rfl (spells_newLine hbody)

theorem spells_block {depth : Nat} {body : List Stmt} {tokens : List Token}
    (h : Spells (Bytes.join [10] (sourceLines (depth + 1) body)) tokens) :
    Spells ((Stmt.block body).source depth) (mark .leftBrace :: tokens ++ [mark .rightBrace]) := by
  have hclose : Spells [125] [mark .rightBrace] := spells_single rfl spells_nil
  cases body with
  | nil =>
    obtain rfl : tokens = [] := by simpa [sourceLines, Bytes.join, eq_comm] using h.scan
    rw [Stmt.source]
    exact spells_single rfl hclose
  | cons s rest =>
    have := h.append rfl (spells_newLine (spells_indent depth hclose))
    rw [Stmt.source]
    simpa using spells_single (b := 123) rfl (spells_newLine this)

/-- The source of a phrase is read as the tokens of its canonical form. -/
theorem Grammar.Phrase.WellFormed.spells {p : Phrase} (h : p.WellFormed) (depth : Nat) :
    Spells (p.source depth) p.canonical.tokens := by
  have hend : Spells [59] [mark .semicolon] := spells_single rfl spells_nil
  induction h generalizing depth with
  | @expression e he =>
    change Spells ((Stmt.expression e).source depth) _
    rw [Stmt.source]
    exact he.spells.append rfl hend
  | @print e he =>
    have := spells_reserved (k := .printWord) (by decide) rfl
      (spells_space (he.spells.append rfl hend))
    have htext : Bytes.ofString "print " = Kind.printWord.spelling ++ [32] := by decide
    change Spells ((Stmt.print e).source depth) _
    rw [Stmt.source, htext]
    simpa [canonical, tokens, Stmt.canonical, Stmt.tokens] using this
  | block _ ih => exact spells_block (ih (depth + 1))
  | @ifThen c s hc _ ih =>
    change Spells ((Stmt.ifElse c s .absent).source depth) _
    rw [Stmt.source_ifThen]
    exact Stmt.spells_condition hc (Stmt.spells_branch ih _ depth)
  | @ifElse c s f hc _ hf ihs ihf =>
    have hf := hf.ne_absent
    change Spells ((Stmt.ifElse c s f).source depth) (Stmt.ifElse c s f).canonical.tokens
    rw [Stmt.source_ifElse depth c s hf, Stmt.canonical_ifElse hf,
      Stmt.tokens_ifElse (Stmt.canonical_ne_absent hf), List.append_assoc]
    have hbranch := Stmt.spells_branch ihf (isBlock f || isCondition f) depth
    have := Stmt.spells_condition hc ((Stmt.spells_closedBranch ihs depth).followed
      (Stmt.branch_followsWord _ depth f) hbranch)
    simpa [canonical, tokens] using this
  | @declare x hx =>
    have := spells_reserved (k := .varWord) (by decide) rfl
      (spells_space (hx.spells.append rfl hend))
    have htext : Bytes.ofString "var " = Kind.varWord.spelling ++ [32] := by decide
    change Spells ((Stmt.declare x .absent).source depth) _
    rw [Stmt.source, htext]
    simpa [canonical, tokens, Stmt.canonical, Stmt.tokens, Expr.canonical] using this
  | @declareWith x e hx he =>
    have hvalue := spells_infixed hx.spells (spells_mark (k := .equal) (by decide)) he.spells
    have := spells_reserved (k := .varWord) (by decide) rfl (spells_space (hvalue.append rfl hend))
    have htext : Bytes.ofString "var " = Kind.varWord.spelling ++ [32] := by decide
    change Spells ((Stmt.declare x e).source depth) (Stmt.declare x e).canonical.tokens
    rw [Stmt.source_declare depth x he.ne_absent, htext, Stmt.canonical,
      Stmt.tokens_declare (Expr.canonical_ne_absent he.ne_absent)]
    simpa [show Bytes.ofString "=" = Kind.equal.spelling from rfl] using this
  | statement _ ih => exact ih depth
  | none => exact spells_nil
  | more _ _ ihs ihb => exact spells_lines (ihs depth) (ihb depth)

/-- A formatted program is read as the tokens of its canonical form. -/
theorem spells_formatProgram {program : List Stmt} (h : WellFormed program) :
    Spells (formatProgram program) (tokensOf (canonicalOf program)) := by
  have hlines := h.spells 0
  cases program with
  | nil => exact spells_nil
  | cons s rest =>
    have hended := hlines.append rfl (spells_newLine spells_nil)
    rw [List.append_nil] at hended
    exact hended

section Canonical

variable {e : Expr} {s : Stmt}

theorem looseness_canonical (e : Expr) : looseness? e.canonical = looseness? e := by
  cases e with
  | literal v =>
    rw [Expr.canonical]
    unfold Literal.unsigned
    split
    · split <;> rfl
    · rfl
  | _ => rfl

theorem needsParens_grouped (e : Expr) (own : Nat) (onRight : Bool) :
    needsParens (e.canonical.groupedIf (needsParens e own onRight)) own onRight = false := by
  cases h : needsParens e own onRight with
  | true => rfl
  | false => simpa [needsParens, Expr.groupedIf, looseness_canonical] using h

theorem source_grouped (wanted : Bool) (e : Expr) :
    (e.groupedIf wanted).source = parenthesizedIf wanted e.source := by
  cases wanted with
  | false => rfl
  | true => rw [Expr.groupedIf, if_pos rfl, Expr.source]

theorem not_isSignedNumber_canonical (h : e.WellFormed) : isSignedNumber e.canonical = false := by
  cases h with
  | literal hv =>
    cases hv with
    | @number x hfin =>
      rw [Expr.canonical]
      unfold Literal.unsigned
      dsimp only
      split
      · rfl
      · next hsign => simpa [isSignedNumber] using hsign
    | _ => rfl
  | _ => rfl

theorem source_unsigned {v : Literal} (h : v.WellFormed) : v.unsigned.source = v.source := by
  cases h with
  | @number x hfin =>
    unfold Literal.unsigned
    dsimp only
    split
    · next hsign =>
      have hplace := Decimal.place_lt_of_isFinite hfin
      have hmagnitude : isSignedNumber (.literal (.number (Decimal.magnitude x))) = false :=
        Decimal.isNegative_ofPlace hplace
      rw [Expr.source, hmagnitude]
      exact (Decimal.text_of_isNegative hsign hfin).symm
    · rfl
  | _ => rfl

/-- An expression and its canonical form have the same source. -/
theorem Expr.WellFormed.source_canonical (h : e.WellFormed) : e.canonical.source = e.source := by
  induction h with
  | literal hv => exact source_unsigned hv
  | name _ => rfl
  | grouping _ ih => rw [canonical, source, source, ih]
  | assign _ _ ih => rw [canonical, source, source, ih]; rfl
  | binary _ _ _ _ _ ihl ihr | logical _ _ _ _ _ ihl ihr =>
    simp only [canonical, source, Token.bare_kind, Token.bare_lexeme, needsParens_grouped,
      source_grouped, ihl, ihr]
    rfl
  | @unary t e _ _ he ih =>
    have hplain (wanted : Bool) (h : wanted = false → looseness? e = none) :
        ((looseness? (e.canonical.groupedIf wanted)).isSome ||
          isSignedNumber (e.canonical.groupedIf wanted)) = false := by
      cases wanted with
      | true => rfl
      | false => simp [groupedIf, looseness_canonical, h rfl, not_isSignedNumber_canonical he]
    rw [canonical, source, hplain _ (by simp_all), source_grouped, ih]
    rfl

theorem Stmt.canonical_shape (s : Stmt) : isBlock s.canonical = isBlock s ∧
    isCondition s.canonical = isCondition s ∧ s.canonical.isAbsent = s.isAbsent := by
  cases s with
  | ifElse c s f => cases f <;> simp [canonical, isBlock, isCondition, isAbsent]
  | _ => simp [canonical, isBlock, isCondition, isAbsent]

theorem margin_canonical (depth : Nat) (s : Stmt) : margin depth s.canonical = margin depth s := by
  rw [margin, margin, s.canonical_shape.2.2]

theorem Stmt.branch_canonical (h : ∀ depth, s.canonical.source depth = s.source depth)
    (sameLine : Bool) (depth : Nat) :
    branch sameLine depth s.canonical = branch sameLine depth s := by
  rw [branch, branch, h, h, margin_canonical]

theorem Stmt.closedBranch_canonical (h : ∀ depth, s.canonical.source depth = s.source depth)
    (hs : s ≠ .absent) (depth : Nat) :
    closedBranch depth (if dangles s then .block [s.canonical] else s.canonical) =
      closedBranch depth s := by
  have hmargin : margin (depth + 1) s = indent (depth + 1) := by
    cases s with
    | absent => exact absurd rfl hs
    | _ => rfl
  by_cases hdangles : dangles s = true
  · have hclosed : dangles (.block [s.canonical]) = false := rfl
    simp only [closedBranch, hdangles, hclosed, if_true, Bool.false_eq_true, if_false, isBlock,
      source, sourceLines, Bytes.join, margin_canonical, hmargin, h]
    simp [show Bytes.ofString "\x7d else" = 125 :: Bytes.ofString " else" from rfl]
  · simp only [closedBranch, hdangles, dangles_canonical, s.canonical_shape.1, margin_canonical, h,
      Bool.false_eq_true, if_false]

/-- A phrase and its canonical form have the same source. -/
theorem Grammar.Phrase.WellFormed.source_canonical {p : Phrase} (h : p.WellFormed) (depth : Nat) :
    p.canonical.source depth = p.source depth := by
  induction h generalizing depth with
  | expression he => simp only [canonical, source, Stmt.canonical, Stmt.source, he.source_canonical]
  | print he => simp only [canonical, source, Stmt.canonical, Stmt.source, he.source_canonical]
  | @block body _ ih =>
    cases body with
    | nil => rfl
    | cons s rest =>
      have hlines := ih (depth + 1)
      simp only [canonical, source, canonicalOf] at hlines
      simp only [canonical, source, Stmt.canonical, canonicalOf, Stmt.source, hlines]
  | @ifThen c s hc _ ih =>
    simp only [canonical, source, Stmt.canonical, Stmt.source_ifThen, hc.source_canonical,
      s.canonical_shape.1, Stmt.branch_canonical ih]
  | @ifElse c s f hc hs hf ihs ihf =>
    have hf := hf.ne_absent
    simp only [canonical, source, Stmt.canonical_ifElse hf, Stmt.source_ifElse depth _ _ hf,
      Stmt.source_ifElse depth _ _ (Stmt.canonical_ne_absent hf), hc.source_canonical,
      Stmt.closedBranch_canonical ihs hs.ne_absent, f.canonical_shape.1, f.canonical_shape.2.1,
      Stmt.branch_canonical ihf]
  | declare hx => rfl
  | declareWith hx he =>
    have hne := he.ne_absent
    simp only [canonical, source, Stmt.canonical, Stmt.source_declare depth _ hne,
      Stmt.source_declare depth _ (Expr.canonical_ne_absent hne), he.source_canonical,
      Token.bare_lexeme]
  | statement _ ih => exact ih depth
  | none => rfl
  | @more s body _ _ ihs ihb =>
    have hfirst : s.canonical.source depth = s.source depth := ihs depth
    have hlines := ihb depth
    cases body with
    | nil => simp only [canonical, source, canonicalOf, sourceLines, margin_canonical, hfirst]
    | cons next rest =>
      simp only [canonical, source, canonicalOf, sourceLines, margin_canonical] at hlines
      simp only [canonical, source, canonicalOf, sourceLines, Bytes.join, margin_canonical, hfirst,
        hlines]

/-- A program and its canonical form are formatted alike. -/
theorem formatProgram_canonical {program : List Stmt} (h : WellFormed program) :
    formatProgram (canonicalOf program) = formatProgram program := by
  have hlines := h.source_canonical 0
  cases program with
  | nil => rfl
  | cons s rest => exact congrArg (· ++ [10]) hlines

end Canonical

end BlockScript
