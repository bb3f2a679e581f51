import BlockScript.Proofs.FormatTokens

/-! Trees that were read from the tokens of a source. Such a tree is well formed, it is its own
canonical form, and its tokens are those it was read from. Lines play no part in reading. -/

namespace BlockScript

open Token Format Grammar

namespace Token

/-- All of a token but its line and the spelling of a number. -/
def essence (t : Token) : Token :=
  { t with line := 0, lexeme := if t.kind = .number then [] else t.lexeme }

variable {t : Token}

theorem Lexical.of_unplaced {u : Token} (h : Lexical u) (hu : t.unplaced = u) : Lexical t := by
  obtain ⟨kind, lexeme, line, literal⟩ := t
  cases h <;> simp only [unplaced, Token.mk.injEq] at hu <;> obtain ⟨rfl, rfl, -, rfl⟩ := hu
  · next h => exact .fixed h
  · next h => exact .name h
  · next h => exact .number h
  · next h => exact .string h

/-- A token of a kind with only one text has that text and no literal. -/
theorem Lexical.unplaced_eq_mark (h : Lexical t) {k : Kind} (hk : t.kind = k)
    (hne : k.spelling ≠ []) : t.unplaced = mark k := by
  cases h with
  | fixed _ => cases hk; rfl
  | name _ | number _ | string _ => cases hk; exact absurd rfl hne

theorem Lexical.text_of_fixed (h : Lexical t) (hne : t.kind.spelling ≠ []) :
    t.lexeme = t.kind.spelling ∧ t.bare = t.unplaced := by
  have hmark := h.unplaced_eq_mark rfl hne
  have htext : t.lexeme = t.kind.spelling := congrArg Token.lexeme hmark
  exact ⟨htext, by rw [hmark, mark, Token.bare, htext]⟩

theorem Lexical.names (h : Lexical t) (hk : t.kind = .identifier) :
    t.Names ∧ t.bare = t.unplaced := by
  cases h with
  | fixed h => cases hk; exact absurd rfl h
  | name h => exact ⟨⟨rfl, h⟩, rfl⟩
  | number _ | string _ => cases hk

theorem Lexical.of_number (h : Lexical t) (hk : t.kind = .number) :
    ∃ x, Decimal.Writes t.lexeme x ∧ t.literal = .number x := by
  cases h with
  | fixed h => cases hk; exact absurd rfl h
  | number h => exact ⟨_, h, rfl⟩
  | name _ | string _ => cases hk

theorem Lexical.of_string (h : Lexical t) (hk : t.kind = .string) :
    ∃ s, Bytes.quoteMark ∉ s ∧ t.unplaced = ⟨.string, quoted s, 0, .string s⟩ := by
  cases h with
  | fixed h => cases hk; exact absurd rfl h
  | string h => exact ⟨_, h, rfl⟩
  | name _ | number _ => cases hk

end Token

theorem Decimal.Writes.unsigned {text : Bytes} {x : Float} (h : Writes text x) :
    isNegative x = false ∧ isFinite x = true := by
  obtain ⟨n, -, -, hvalue⟩ := h
  unfold Segment.Numeral.value? read? at hvalue
  dsimp only at hvalue
  split at hvalue
  · next hplace =>
    obtain rfl := Option.some.inj hvalue
    exact ⟨isNegative_ofPlace hplace, isFinite_ofPlace hplace⟩
  · cases hvalue

def Expr.mapTokens (f : Token → Token) : Expr → Expr
  | .absent => .absent
  | .literal v => .literal v
  | .name t => .name (f t)
  | .grouping e => .grouping (e.mapTokens f)
  | .assign t e => .assign (f t) (e.mapTokens f)
  | .binary l t r => .binary (l.mapTokens f) (f t) (r.mapTokens f)
  | .logical l t r => .logical (l.mapTokens f) (f t) (r.mapTokens f)
  | .unary t e => .unary (f t) (e.mapTokens f)

mutual

def Stmt.mapTokens (f : Token → Token) : Stmt → Stmt
  | .absent => .absent
  | .expression e => .expression (e.mapTokens f)
  | .print e => .print (e.mapTokens f)
  | .declare x e => .declare (f x) (e.mapTokens f)
  | .block body => .block (mapTokensOf f body)
  | .ifElse c s s' => .ifElse (c.mapTokens f) (s.mapTokens f) (s'.mapTokens f)

def mapTokensOf (f : Token → Token) : List Stmt → List Stmt
  | [] => []
  | s :: rest => s.mapTokens f :: mapTokensOf f rest

end

theorem mapTokensOf_eq_map (f : Token → Token) (program : List Stmt) :
    mapTokensOf f program = program.map (Stmt.mapTokens f) := by
  induction program with
  | nil => rfl
  | cons s rest ih => exact congrArg (s.mapTokens f :: ·) ih

def Grammar.Phrase.mapTokens (f : Token → Token) : Phrase → Phrase
  | .statement s => .statement (s.mapTokens f)
  | .declaration s => .declaration (s.mapTokens f)
  | .declarations body => .declarations (mapTokensOf f body)

def Grammar.Rank.Admits : Rank → Expr → Prop
  | .primary, e => looseness? e = none
  | .level n, e => e.Fits n
  | .expression, _ => True

theorem Grammar.Derives.admits {r : Rank} {ts : List Token} {e : Expr} (h : Derives r ts e) :
    r.Admits e := by
  induction h with
  | falseLiteral _ | trueLiteral _ | nullLiteral _ | number _ | string _ | name _ => rfl
  | grouping _ _ _ _ => rfl
  | primary _ ih =>
    intro k hk
    rw [show looseness? _ = none from ih] at hk
    cases hk
  | unary _ _ _ => nofun
  | @operand n _ _ _ ih =>
    intro k hk
    have := ih k hk
    omega
  | binary _ ht _ _ _ _ | logical _ ht _ _ _ _ =>
    rintro k ⟨⟩
    exact (strength_of_mem ht).1.ge
  | loosest _ _ => trivial
  | assign _ _ _ _ => trivial

/-- A tree that was read from tokens: it is well formed and its own canonical form, lines aside, and
has the tokens it was read from. -/
structure Expr.ReadFrom (ts : List Token) (e : Expr) : Prop where
  wellFormed : e.WellFormed
  canonical : e.canonical = e.mapTokens unplaced
  tokens : e.canonical.tokens.map essence = ts.map essence

theorem Token.essence_unplaced (t : Token) : t.unplaced.essence = t.essence := rfl

theorem Token.essence_bare {t : Token} (h : t.bare = t.unplaced) : t.bare.essence = t.essence := by
  rw [h, essence_unplaced]

theorem Token.Lexical.essence_mark {t : Token} (h : Lexical t) {k : Kind} (hk : t.kind = k)
    (hne : k.spelling ≠ []) : (mark k).essence = t.essence := by
  rw [← h.unplaced_eq_mark hk hne, essence_unplaced]

theorem readFrom_literal {t : Token} {v : Literal} (hv : v.WellFormed)
    (hunsigned : v.unsigned = .literal v) (ht : v.token.essence = t.essence) :
    (Expr.literal v).ReadFrom [t] :=
  ⟨.literal hv, hunsigned, by simp [Expr.canonical, hunsigned, Expr.tokens, ht]⟩

theorem Expr.mapTokens_isSignedNumber (f : Token → Token) (e : Expr) :
    isSignedNumber (e.mapTokens f) = isSignedNumber e := by
  cases e <;> rfl

theorem looseness_le {e : Expr} {k : Nat} (h : looseness? e = some k) (he : e.WellFormed) :
    k ≤ 6 := by
  cases he with
  | assign _ _ => cases h; omega
  | binary _ ht _ _ _ | logical _ ht _ _ _ =>
    cases h
    have := (strength_of_mem ht).1
    omega
  | _ => cases h

theorem Expr.ReadFrom.unary {t : Token} {ts : List Token} {e : Expr} (ht : t.kind ∈ [.bang, .minus])
    (hlexical : Lexical t) (he : e.ReadFrom ts) (hfits : e.Fits 0) :
    (Expr.unary t e).ReadFrom (t :: ts) := by
  have hne : t.kind.spelling ≠ [] := by
    simp only [List.mem_cons, List.not_mem_nil, or_false] at ht
    rcases ht with ht | ht <;> rw [ht] <;> decide
  obtain ⟨htext, hbare⟩ := hlexical.text_of_fixed hne
  have hloose : looseness? e = none := by
    cases h : looseness? e with
    | none => rfl
    | some k =>
      have := hfits k h
      have := looseness_le h he.wellFormed
      omega
  have hsign : isSignedNumber e = false := by
    rw [← e.mapTokens_isSignedNumber unplaced, ← he.canonical]
    exact not_isSignedNumber_canonical he.wellFormed
  have hshape : (Expr.unary t e).canonical = .unary t.bare e.canonical := by
    rw [Expr.canonical, hloose, hsign]
    rfl
  refine ⟨.unary ht htext he.wellFormed, ?_, ?_⟩
  · rw [hshape, he.canonical, hbare, Expr.mapTokens]
  · rw [hshape, Expr.tokens, List.map_cons, he.tokens, Token.bare_bare, hbare, essence_unplaced,
      List.map_cons]

/-- The operands of a chain need no parentheses. -/
theorem readFrom_operands {n : Nat} {t : Token} {ls rs : List Token} {l r : Expr}
    (ht : t.kind ∈ operators (n + 1)) (hlexical : Lexical t)
    (hl : l.ReadFrom ls) (hr : r.ReadFrom rs) (hlfits : l.Fits (n + 1)) (hrfits : r.Fits n) :
    t.lexeme = t.kind.spelling ∧ t.bare = t.unplaced ∧
      l.canonical.groupedIf (needsParens l (strength t.kind) false) = l.canonical ∧
      r.canonical.groupedIf (needsParens r (strength t.kind) true) = r.canonical ∧
      (l.canonical.tokens ++ t.bare :: r.canonical.tokens).map essence =
        (ls ++ t :: rs).map essence := by
  obtain ⟨htext, hbare⟩ := hlexical.text_of_fixed (operator_spelling_ne_nil ht)
  refine ⟨htext, hbare, ?_, ?_, ?_⟩
  · rw [(needsParens_eq_false_iff l false ht).2 hlfits]
    rfl
  · rw [(needsParens_eq_false_iff r true ht).2 hrfits]
    rfl
  · simp only [List.map_append, List.map_cons, hl.tokens, hr.tokens, hbare, essence_unplaced]

/-- An expression read from the tokens of a source keeps them all. -/
theorem Grammar.Derives.readFrom {r : Rank} {ts : List Token} {e : Expr} (h : Derives r ts e)
    (hts : ∀ t ∈ ts, Lexical t) : e.ReadFrom ts := by
  induction h with
  | falseLiteral h | trueLiteral h | nullLiteral h =>
    exact readFrom_literal (by constructor) rfl ((hts _ (by simp)).essence_mark h (by decide))
  | @number t h =>
    obtain ⟨x, hwrites, hx⟩ := (hts t (by simp)).of_number h
    obtain ⟨hsign, hfin⟩ := hwrites.unsigned
    rw [hx]
    refine readFrom_literal (.number hfin) (by simp [Literal.unsigned, hsign]) ?_
    simp [Literal.token, essence, h, hx]
  | @string t h =>
    obtain ⟨s, hquote, hs⟩ := (hts t (by simp)).of_string h
    rw [show t.literal = .string s from congrArg Token.literal hs]
    refine readFrom_literal (.string hquote) rfl ?_
    rw [← essence_unplaced t, hs]
    rfl
  | @name t h =>
    obtain ⟨hnames, hbare⟩ := (hts t (by simp)).names h
    refine ⟨.name hnames, by rw [Expr.canonical, Expr.mapTokens, hbare], ?_⟩
    simp [Expr.canonical, Expr.tokens, essence_bare hbare]
  | @grouping l r ts e hl he hr ih =>
    obtain ⟨hwell, hcanonical, htokens⟩ := ih fun t h => hts t (by simp [h])
    refine ⟨.grouping hwell, by rw [Expr.canonical, Expr.mapTokens, hcanonical], ?_⟩
    simp [Expr.canonical, Expr.tokens, htokens, (hts l (by simp)).essence_mark hl (by decide),
      (hts r (by simp)).essence_mark hr (by decide)]
  | primary _ ih | operand _ ih | loosest _ ih => exact ih hts
  | unary ht he ih =>
    exact .unary ht (hts _ (by simp)) (ih fun t h => hts t (by simp [h])) he.admits
  | binary hn ht hl hr ihl ihr =>
    have hleft := ihl fun t h => hts t (by simp [h])
    have hright := ihr fun t h => hts t (by simp [h])
    obtain ⟨htext, hbare, hlc, hrc, htokens⟩ :=
      readFrom_operands ht (hts _ (by simp)) hleft hright hl.admits hr.admits
    refine ⟨.binary hn ht htext hleft.wellFormed hright.wellFormed, ?_, ?_⟩
    · rw [Expr.canonical, hlc, hrc, hleft.canonical, hright.canonical, hbare, Expr.mapTokens]
    · rw [Expr.canonical, hlc, hrc]
      exact htokens
  | logical hn ht hl hr ihl ihr =>
    have hleft := ihl fun t h => hts t (by simp [h])
    have hright := ihr fun t h => hts t (by simp [h])
    obtain ⟨htext, hbare, hlc, hrc, htokens⟩ :=
      readFrom_operands ht (hts _ (by simp)) hleft hright hl.admits hr.admits
    refine ⟨.logical hn ht htext hleft.wellFormed hright.wellFormed, ?_, ?_⟩
    · rw [Expr.canonical, hlc, hrc, hleft.canonical, hright.canonical, hbare, Expr.mapTokens]
    · rw [Expr.canonical, hlc, hrc]
      exact htokens
  | @assign t q ts e ht hq he ih =>
    obtain ⟨hnames, hbare⟩ := (hts t (by simp)).names ht
    obtain ⟨hwell, hcanonical, htokens⟩ := ih fun t h => hts t (by simp [h])
    refine ⟨.assign hnames hwell, by rw [Expr.canonical, Expr.mapTokens, hcanonical, hbare], ?_⟩
    simp [Expr.canonical, Expr.tokens, htokens, essence_bare hbare,
      (hts q (by simp)).essence_mark hq (by decide)]

structure Grammar.Phrase.ReadFrom (ts : List Token) (p : Phrase) : Prop where
  wellFormed : p.WellFormed
  canonical : p.canonical = p.mapTokens unplaced
  tokens : p.canonical.tokens.map essence = ts.map essence

namespace Grammar

theorem Phrase.readFrom_statement {ts : List Token} {s : Stmt} :
    (Phrase.statement s).ReadFrom ts ↔ (Phrase.statement s).WellFormed ∧
      s.canonical = s.mapTokens unplaced ∧ s.canonical.tokens.map essence = ts.map essence :=
  ⟨fun ⟨hwell, hcanonical, htokens⟩ => ⟨hwell, Phrase.statement.inj hcanonical, htokens⟩,
    fun ⟨hwell, hcanonical, htokens⟩ => ⟨hwell, congrArg Phrase.statement hcanonical, htokens⟩⟩

theorem Phrase.readFrom_declaration {ts : List Token} {s : Stmt} :
    (Phrase.declaration s).ReadFrom ts ↔ (Phrase.declaration s).WellFormed ∧
      s.canonical = s.mapTokens unplaced ∧ s.canonical.tokens.map essence = ts.map essence :=
  ⟨fun ⟨hwell, hcanonical, htokens⟩ => ⟨hwell, Phrase.declaration.inj hcanonical, htokens⟩,
    fun ⟨hwell, hcanonical, htokens⟩ => ⟨hwell, congrArg Phrase.declaration hcanonical, htokens⟩⟩

theorem Phrase.readFrom_declarations {ts : List Token} {body : List Stmt} :
    (Phrase.declarations body).ReadFrom ts ↔ (Phrase.declarations body).WellFormed ∧
      canonicalOf body = mapTokensOf unplaced body ∧
      (tokensOf (canonicalOf body)).map essence = ts.map essence :=
  ⟨fun ⟨hwell, hcanonical, htokens⟩ => ⟨hwell, Phrase.declarations.inj hcanonical, htokens⟩,
    fun ⟨hwell, hcanonical, htokens⟩ => ⟨hwell, congrArg Phrase.declarations hcanonical, htokens⟩⟩

/-- A phrase read from the tokens of a source keeps them all. -/
theorem Reads.readFrom {ts : List Token} {p : Phrase} (h : Reads ts p)
    (hts : ∀ t ∈ ts, Lexical t) : p.ReadFrom ts := by
  induction h with
  | @expression ts e q he hq =>
    obtain ⟨hwell, hcanonical, htokens⟩ := he.readFrom fun t h => hts t (by simp [h])
    have hend := (hts q (by simp)).essence_mark hq (by decide)
    refine Phrase.readFrom_statement.2 ⟨.expression hwell, ?_, ?_⟩
    · rw [Stmt.canonical, Stmt.mapTokens, hcanonical]
    · simp [Stmt.canonical, Stmt.tokens, htokens, hend]
  | @print p ts e q hp he hq =>
    obtain ⟨hwell, hcanonical, htokens⟩ := he.readFrom fun t h => hts t (by simp [h])
    have hword := (hts p (by simp)).essence_mark hp (by decide)
    have hend := (hts q (by simp)).essence_mark hq (by decide)
    refine Phrase.readFrom_statement.2 ⟨.print hwell, ?_, ?_⟩
    · rw [Stmt.canonical, Stmt.mapTokens, hcanonical]
    · simp [Stmt.canonical, Stmt.tokens, htokens, hword, hend]
  | @block l r ts body hl _ hr ih =>
    obtain ⟨hwell, hcanonical, htokens⟩ :=
      Phrase.readFrom_declarations.1 (ih fun t h => hts t (by simp [h]))
    have hopen := (hts l (by simp)).essence_mark hl (by decide)
    have hclose := (hts r (by simp)).essence_mark hr (by decide)
    refine Phrase.readFrom_statement.2 ⟨.block hwell, ?_, ?_⟩
    · rw [Stmt.canonical, Stmt.mapTokens, hcanonical]
    · simp [Stmt.canonical, Stmt.tokens, htokens, hopen, hclose]
  | @ifThen i l cs r ts c s hi hl hc hr _ ih =>
    obtain ⟨hcwell, hccanonical, hctokens⟩ := hc.readFrom fun t h => hts t (by simp [h])
    obtain ⟨hwell, hcanonical, htokens⟩ :=
      Phrase.readFrom_statement.1 (ih fun t h => hts t (by simp [h]))
    have hword := (hts i (by simp)).essence_mark hi (by decide)
    have hopen := (hts l (by simp)).essence_mark hl (by decide)
    have hclose := (hts r (by simp)).essence_mark hr (by decide)
    refine Phrase.readFrom_statement.2 ⟨.ifThen hcwell hwell, ?_, ?_⟩
    · rw [Stmt.canonical, Stmt.mapTokens, Stmt.mapTokens, hccanonical, hcanonical]
    · simp [Stmt.canonical, Stmt.tokens, hctokens, htokens, hword, hopen, hclose]
  | @ifElse i l cs r ts o us c s f hi hl hc hr _ hclosed ho _ ihs ihf =>
    obtain ⟨hcwell, hccanonical, hctokens⟩ := hc.readFrom fun t h => hts t (by simp [h])
    obtain ⟨hswell, hscanonical, hstokens⟩ :=
      Phrase.readFrom_statement.1 (ihs fun t h => hts t (by simp [h]))
    obtain ⟨hfwell, hfcanonical, hftokens⟩ :=
      Phrase.readFrom_statement.1 (ihf fun t h => hts t (by simp [h]))
    have hword := (hts i (by simp)).essence_mark hi (by decide)
    have hopen := (hts l (by simp)).essence_mark hl (by decide)
    have hclose := (hts r (by simp)).essence_mark hr (by decide)
    have helse := (hts o (by simp)).essence_mark ho (by decide)
    -- The grammar keeps the `else` from an open first branch, so no block is put around it.
    have hshape : (Stmt.ifElse c s f).canonical =
        .ifElse c.canonical s.canonical f.canonical := by
      rw [Stmt.canonical_ifElse hfwell.ne_absent, if_neg (mt dangles_iff.1 hclosed)]
    refine Phrase.readFrom_statement.2 ⟨.ifElse hcwell hswell hfwell, ?_, ?_⟩
    · rw [hshape, Stmt.mapTokens, hccanonical, hscanonical, hfcanonical]
    · rw [hshape, Stmt.tokens_ifElse (Stmt.canonical_ne_absent hfwell.ne_absent)]
      simp [hctokens, hstokens, hftokens, hword, hopen, hclose, helse]
  | @declare v x q hv hx hq =>
    obtain ⟨hnames, hbare⟩ := (hts x (by simp)).names hx
    have hword := (hts v (by simp)).essence_mark hv (by decide)
    have hend := (hts q (by simp)).essence_mark hq (by decide)
    refine Phrase.readFrom_declaration.2 ⟨.declare hnames, ?_, ?_⟩
    · rw [Stmt.canonical, Stmt.mapTokens, hbare, Expr.canonical, Expr.mapTokens]
    · simp [Stmt.canonical, Stmt.tokens, Expr.canonical, essence_bare hbare, hword, hend]
  | @declareWith v x a ts e q hv hx ha he hq =>
    obtain ⟨hnames, hbare⟩ := (hts x (by simp)).names hx
    obtain ⟨hwell, hcanonical, htokens⟩ := he.readFrom fun t h => hts t (by simp [h])
    have hword := (hts v (by simp)).essence_mark hv (by decide)
    have hequal := (hts a (by simp)).essence_mark ha (by decide)
    have hend := (hts q (by simp)).essence_mark hq (by decide)
    refine Phrase.readFrom_declaration.2 ⟨.declareWith hnames hwell, ?_, ?_⟩
    · rw [Stmt.canonical, Stmt.mapTokens, hbare, hcanonical]
    · rw [Stmt.canonical, Stmt.tokens_declare (Expr.canonical_ne_absent hwell.ne_absent)]
      simp [essence_bare hbare, htokens, hword, hequal, hend]
  | statement _ ih =>
    obtain ⟨hwell, hcanonical, htokens⟩ := Phrase.readFrom_statement.1 (ih hts)
    exact Phrase.readFrom_declaration.2 ⟨.statement hwell, hcanonical, htokens⟩
  | none => exact ⟨.none, rfl, rfl⟩
  | more _ _ ihs ihb =>
    obtain ⟨hswell, hscanonical, hstokens⟩ :=
      Phrase.readFrom_declaration.1 (ihs fun t h => hts t (by simp [h]))
    obtain ⟨hbwell, hbcanonical, hbtokens⟩ :=
      Phrase.readFrom_declarations.1 (ihb fun t h => hts t (by simp [h]))
    refine Phrase.readFrom_declarations.2 ⟨.more hswell hbwell, ?_, ?_⟩
    · rw [canonicalOf, mapTokensOf, hscanonical, hbcanonical]
    · simp [canonicalOf, tokensOf, hstokens, hbtokens]

end Grammar

/-- What is derived from tokens without their lines is derived from the tokens. -/
theorem Grammar.Derives.place {r : Rank} {us : List Token} {e : Expr} (h : Derives r us e)
    {ts : List Token} (hts : ts.map unplaced = us) :
    ∃ e', Derives r ts e' ∧ e'.mapTokens unplaced = e := by
  induction h generalizing ts with
  | falseLiteral h =>
    obtain ⟨t, rfl, rfl⟩ := List.map_eq_singleton_iff.1 hts
    exact ⟨_, .falseLiteral h, rfl⟩
  | trueLiteral h =>
    obtain ⟨t, rfl, rfl⟩ := List.map_eq_singleton_iff.1 hts
    exact ⟨_, .trueLiteral h, rfl⟩
  | nullLiteral h =>
    obtain ⟨t, rfl, rfl⟩ := List.map_eq_singleton_iff.1 hts
    exact ⟨_, .nullLiteral h, rfl⟩
  | number h =>
    obtain ⟨t, rfl, rfl⟩ := List.map_eq_singleton_iff.1 hts
    exact ⟨_, .number h, rfl⟩
  | string h =>
    obtain ⟨t, rfl, rfl⟩ := List.map_eq_singleton_iff.1 hts
    exact ⟨_, .string h, rfl⟩
  | name h =>
    obtain ⟨t, rfl, rfl⟩ := List.map_eq_singleton_iff.1 hts
    exact ⟨_, .name h, rfl⟩
  | grouping hl _ hr ih =>
    obtain ⟨l, more, rfl, rfl, hmore⟩ := List.map_eq_cons_iff.1 hts
    obtain ⟨inner, last, rfl, hinner, hlast⟩ := List.map_eq_append_iff.1 hmore
    obtain ⟨r, rfl, rfl⟩ := List.map_eq_singleton_iff.1 hlast
    obtain ⟨e', he, rfl⟩ := ih hinner
    exact ⟨_, .grouping hl he hr, rfl⟩
  | primary _ ih =>
    obtain ⟨e', he, rfl⟩ := ih hts
    exact ⟨e', .primary he, rfl⟩
  | unary ht _ ih =>
    obtain ⟨t, more, rfl, rfl, hmore⟩ := List.map_eq_cons_iff.1 hts
    obtain ⟨e', he, rfl⟩ := ih hmore
    exact ⟨_, .unary ht he, rfl⟩
  | operand _ ih =>
    obtain ⟨e', he, rfl⟩ := ih hts
    exact ⟨e', .operand he, rfl⟩
  | binary hn ht _ _ ihl ihr =>
    obtain ⟨ls, others, rfl, hls, hothers⟩ := List.map_eq_append_iff.1 hts
    obtain ⟨t, rs, rfl, rfl, hrs⟩ := List.map_eq_cons_iff.1 hothers
    obtain ⟨l', hl, rfl⟩ := ihl hls
    obtain ⟨r', hr, rfl⟩ := ihr hrs
    exact ⟨_, .binary hn ht hl hr, rfl⟩
  | logical hn ht _ _ ihl ihr =>
    obtain ⟨ls, others, rfl, hls, hothers⟩ := List.map_eq_append_iff.1 hts
    obtain ⟨t, rs, rfl, rfl, hrs⟩ := List.map_eq_cons_iff.1 hothers
    obtain ⟨l', hl, rfl⟩ := ihl hls
    obtain ⟨r', hr, rfl⟩ := ihr hrs
    exact ⟨_, .logical hn ht hl hr, rfl⟩
  | loosest _ ih =>
    obtain ⟨e', he, rfl⟩ := ih hts
    exact ⟨e', .loosest he, rfl⟩
  | assign ht hq _ ih =>
    obtain ⟨t, more, rfl, rfl, hmore⟩ := List.map_eq_cons_iff.1 hts
    obtain ⟨q, rest, rfl, rfl, hrest⟩ := List.map_eq_cons_iff.1 hmore
    obtain ⟨e', he, rfl⟩ := ih hrest
    exact ⟨_, .assign ht hq he, rfl⟩

theorem Grammar.EndsOpen.mapTokens {s : Stmt} (h : EndsOpen s) (f : Token → Token) :
    EndsOpen (s.mapTokens f) := by
  induction h with
  | noElse => exact .noElse
  | inElse _ ih => exact .inElse ih

theorem Grammar.Phrase.mapTokens_inversion {f : Token → Token} {p q : Phrase}
    (h : p.mapTokens f = q) : match q with
      | .statement s => ∃ s', p = .statement s' ∧ s'.mapTokens f = s
      | .declaration s => ∃ s', p = .declaration s' ∧ s'.mapTokens f = s
      | .declarations body => ∃ body', p = .declarations body' ∧ mapTokensOf f body' = body := by
  subst h
  cases p with
  | statement s => exact ⟨s, rfl, rfl⟩
  | declaration s => exact ⟨s, rfl, rfl⟩
  | declarations body => exact ⟨body, rfl, rfl⟩

/-- What is read from tokens without their lines is read from the tokens. -/
theorem Grammar.Reads.place {us : List Token} {p : Phrase} (h : Reads us p) {ts : List Token}
    (hts : ts.map unplaced = us) : ∃ p', Reads ts p' ∧ p'.mapTokens unplaced = p := by
  induction h generalizing ts with
  | expression he hq =>
    obtain ⟨body, last, rfl, hbody, hlast⟩ := List.map_eq_append_iff.1 hts
    obtain ⟨q, rfl, rfl⟩ := List.map_eq_singleton_iff.1 hlast
    obtain ⟨e', he', rfl⟩ := he.place hbody
    exact ⟨_, .expression he' hq, rfl⟩
  | print hp he hq =>
    obtain ⟨p, more, rfl, rfl, hmore⟩ := List.map_eq_cons_iff.1 hts
    obtain ⟨body, last, rfl, hbody, hlast⟩ := List.map_eq_append_iff.1 hmore
    obtain ⟨q, rfl, rfl⟩ := List.map_eq_singleton_iff.1 hlast
    obtain ⟨e', he', rfl⟩ := he.place hbody
    exact ⟨_, .print hp he' hq, rfl⟩
  | block hl _ hr ih =>
    obtain ⟨l, more, rfl, rfl, hmore⟩ := List.map_eq_cons_iff.1 hts
    obtain ⟨inner, last, rfl, hinner, hlast⟩ := List.map_eq_append_iff.1 hmore
    obtain ⟨r, rfl, rfl⟩ := List.map_eq_singleton_iff.1 hlast
    obtain ⟨p', hp, hbody⟩ := ih hinner
    obtain ⟨body', rfl, rfl⟩ := Phrase.mapTokens_inversion hbody
    exact ⟨_, .block hl hp hr, rfl⟩
  | ifThen hi hl hc hr _ ih =>
    obtain ⟨before, after, rfl, hbefore, hafter⟩ := List.map_eq_append_iff.1 hts
    obtain ⟨i, more, rfl, rfl, hmore⟩ := List.map_eq_cons_iff.1 hbefore
    obtain ⟨l, cs, rfl, rfl, hcs⟩ := List.map_eq_cons_iff.1 hmore
    obtain ⟨r, rest, rfl, rfl, hrest⟩ := List.map_eq_cons_iff.1 hafter
    obtain ⟨c', hc', rfl⟩ := hc.place hcs
    obtain ⟨p', hp, hstmt⟩ := ih hrest
    obtain ⟨s', rfl, rfl⟩ := Phrase.mapTokens_inversion hstmt
    exact ⟨_, .ifThen hi hl hc' hr hp, rfl⟩
  | ifElse hi hl hc hr _ hclosed ho _ ihs ihf =>
    obtain ⟨first, second, rfl, hfirst, hsecond⟩ := List.map_eq_append_iff.1 hts
    obtain ⟨before, after, rfl, hbefore, hafter⟩ := List.map_eq_append_iff.1 hfirst
    obtain ⟨i, more, rfl, rfl, hmore⟩ := List.map_eq_cons_iff.1 hbefore
    obtain ⟨l, cs, rfl, rfl, hcs⟩ := List.map_eq_cons_iff.1 hmore
    obtain ⟨r, rest, rfl, rfl, hrest⟩ := List.map_eq_cons_iff.1 hafter
    obtain ⟨o, others, rfl, rfl, hothers⟩ := List.map_eq_cons_iff.1 hsecond
    obtain ⟨c', hc', rfl⟩ := hc.place hcs
    obtain ⟨p', hs, hstmt⟩ := ihs hrest
    obtain ⟨s', rfl, rfl⟩ := Phrase.mapTokens_inversion hstmt
    obtain ⟨p'', hf, hstmt'⟩ := ihf hothers
    obtain ⟨f', rfl, rfl⟩ := Phrase.mapTokens_inversion hstmt'
    exact ⟨_, .ifElse hi hl hc' hr hs (fun hopen => hclosed (hopen.mapTokens _)) ho hf, rfl⟩
  | declare hv hx hq =>
    obtain ⟨v, more, rfl, rfl, hmore⟩ := List.map_eq_cons_iff.1 hts
    obtain ⟨x, rest, rfl, rfl, hrest⟩ := List.map_eq_cons_iff.1 hmore
    obtain ⟨q, rfl, rfl⟩ := List.map_eq_singleton_iff.1 hrest
    exact ⟨_, .declare hv hx hq, rfl⟩
  | declareWith hv hx ha he hq =>
    obtain ⟨v, more, rfl, rfl, hmore⟩ := List.map_eq_cons_iff.1 hts
    obtain ⟨x, rest, rfl, rfl, hrest⟩ := List.map_eq_cons_iff.1 hmore
    obtain ⟨a, others, rfl, rfl, hothers⟩ := List.map_eq_cons_iff.1 hrest
    obtain ⟨body, last, rfl, hbody, hlast⟩ := List.map_eq_append_iff.1 hothers
    obtain ⟨q, rfl, rfl⟩ := List.map_eq_singleton_iff.1 hlast
    obtain ⟨e', he', rfl⟩ := he.place hbody
    exact ⟨_, .declareWith hv hx ha he' hq, rfl⟩
  | statement _ ih =>
    obtain ⟨p', hp, hstmt⟩ := ih hts
    obtain ⟨s', rfl, rfl⟩ := Phrase.mapTokens_inversion hstmt
    exact ⟨_, .statement hp, rfl⟩
  | none =>
    obtain rfl := List.map_eq_nil_iff.1 hts
    exact ⟨_, .none, rfl⟩
  | more _ _ ihs ihb =>
    obtain ⟨first, second, rfl, hfirst, hsecond⟩ := List.map_eq_append_iff.1 hts
    obtain ⟨p', hs, hdecl⟩ := ihs hfirst
    obtain ⟨s', rfl, rfl⟩ := Phrase.mapTokens_inversion hdecl
    obtain ⟨p'', hb, hdecls⟩ := ihb hsecond
    obtain ⟨body', rfl, rfl⟩ := Phrase.mapTokens_inversion hdecls
    exact ⟨_, .more hs hb, rfl⟩

end BlockScript
