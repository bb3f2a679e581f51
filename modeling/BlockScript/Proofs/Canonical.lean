import BlockScript.Proofs.Grammar
import BlockScript.Proofs.Scan
import BlockScript.Tree

/-! Well-formed trees and their canonical form. A tree built by hand may need parentheses, braces
and minus signs that it has no nodes for; its canonical form has a node for each of them, so the
tokens of its source are those of its own nodes and the grammar derives it from them. -/

namespace BlockScript

open Token Format Grammar

def Token.bare (t : Token) : Token := ⟨t.kind, t.lexeme, 0, .null⟩

@[simp] theorem Token.bare_kind (t : Token) : t.bare.kind = t.kind := rfl

@[simp] theorem Token.bare_lexeme (t : Token) : t.bare.lexeme = t.lexeme := rfl

@[simp] theorem Token.bare_bare (t : Token) : t.bare.bare = t.bare := rfl

structure Token.Names (t : Token) : Prop where
  kind : t.kind = .identifier
  lexeme : IsName t.lexeme

inductive Literal.WellFormed : Literal → Prop
  | null : WellFormed .null
  | bool {b} : WellFormed (.bool b)
  | number {x} (h : Decimal.isFinite x = true) : WellFormed (.number x)
  | string {s} (h : Bytes.quoteMark ∉ s) : WellFormed (.string s)

/-- No child is absent, and every operator is one of its node's kind with its own text. -/
inductive Expr.WellFormed : Expr → Prop
  | literal {v} (hv : v.WellFormed) : WellFormed (.literal v)
  | name {t} (ht : t.Names) : WellFormed (.name t)
  | grouping {e} (he : WellFormed e) : WellFormed (.grouping e)
  | assign {t e} (ht : t.Names) (he : WellFormed e) : WellFormed (.assign t e)
  | binary {n l t r} (hn : n + 1 ≤ 4) (ht : t.kind ∈ operators (n + 1))
      (htext : t.lexeme = t.kind.spelling) (hl : WellFormed l) (hr : WellFormed r) :
      WellFormed (.binary l t r)
  | logical {n l t r} (hn : 5 ≤ n + 1) (ht : t.kind ∈ operators (n + 1))
      (htext : t.lexeme = t.kind.spelling) (hl : WellFormed l) (hr : WellFormed r) :
      WellFormed (.logical l t r)
  | unary {t e} (ht : t.kind ∈ [.bang, .minus]) (htext : t.lexeme = t.kind.spelling)
      (he : WellFormed e) : WellFormed (.unary t e)

/-- Only a variable's initial value and a condition's second branch may be absent. A branch is a
statement, so it declares no variable. -/
inductive Grammar.Phrase.WellFormed : Phrase → Prop
  | expression {e} (he : e.WellFormed) : WellFormed (.statement (.expression e))
  | print {e} (he : e.WellFormed) : WellFormed (.statement (.print e))
  | block {body} (hb : WellFormed (.declarations body)) : WellFormed (.statement (.block body))
  | ifThen {c s} (hc : c.WellFormed) (hs : WellFormed (.statement s)) :
      WellFormed (.statement (.ifElse c s .absent))
  | ifElse {c s f} (hc : c.WellFormed) (hs : WellFormed (.statement s))
      (hf : WellFormed (.statement f)) : WellFormed (.statement (.ifElse c s f))
  | declare {x} (hx : x.Names) : WellFormed (.declaration (.declare x .absent))
  | declareWith {x e} (hx : x.Names) (he : e.WellFormed) : WellFormed (.declaration (.declare x e))
  | statement {s} (hs : WellFormed (.statement s)) : WellFormed (.declaration s)
  | none : WellFormed (.declarations [])
  | more {s body} (hs : WellFormed (.declaration s)) (hb : WellFormed (.declarations body)) :
      WellFormed (.declarations (s :: body))

def WellFormed (program : List Stmt) : Prop := (Phrase.declarations program).WellFormed

def Literal.token : Literal → Token
  | .null | .integer _ => mark .nullWord
  | .bool false => mark .falseWord
  | .bool true => mark .trueWord
  | .number x => ⟨.number, Decimal.Layout.program.text x, 0, .number x⟩
  | .string s => ⟨.string, quoted s, 0, .string s⟩

/-- The tokens of a tree that has a node for every parenthesis and every minus sign. -/
def Expr.tokens : Expr → List Token
  | .absent => []
  | .literal v => [v.token]
  | .name t => [t.bare]
  | .grouping e => mark .leftParen :: e.tokens ++ [mark .rightParen]
  | .assign t e => t.bare :: mark .equal :: e.tokens
  | .binary l t r => l.tokens ++ t.bare :: r.tokens
  | .logical l t r => l.tokens ++ t.bare :: r.tokens
  | .unary t e => t.bare :: e.tokens

mutual

def Stmt.tokens : Stmt → List Token
  | .absent => []
  | .expression e => e.tokens ++ [mark .semicolon]
  | .print e => mark .printWord :: e.tokens ++ [mark .semicolon]
  | .declare x .absent => [mark .varWord, x.bare, mark .semicolon]
  | .declare x e => mark .varWord :: x.bare :: mark .equal :: e.tokens ++ [mark .semicolon]
  | .block body => mark .leftBrace :: tokensOf body ++ [mark .rightBrace]
  | .ifElse c s .absent =>
    mark .ifWord :: mark .leftParen :: c.tokens ++ mark .rightParen :: s.tokens
  | .ifElse c s f =>
    mark .ifWord :: mark .leftParen :: c.tokens ++ mark .rightParen :: s.tokens ++
      mark .elseWord :: f.tokens

def tokensOf : List Stmt → List Token
  | [] => []
  | s :: rest => s.tokens ++ tokensOf rest

end

def Expr.groupedIf (wanted : Bool) (e : Expr) : Expr := if wanted then .grouping e else e

def Decimal.magnitude (x : Float) : Float := ofPlace (place x)

/-- A number with a sign is the negation of one without. -/
def Literal.unsigned : Literal → Expr
  | .number x =>
    if Decimal.isNegative x then .unary (mark .minus) (.literal (.number (Decimal.magnitude x)))
    else .literal (.number x)
  | v => .literal v

/-- The tree with a node for every parenthesis and every minus sign of its source. -/
def Expr.canonical : Expr → Expr
  | .absent => .absent
  | .literal v => v.unsigned
  | .name t => .name t.bare
  | .grouping e => .grouping e.canonical
  | .assign t e => .assign t.bare e.canonical
  | .binary l t r =>
    .binary (groupedIf (needsParens l (strength t.kind) false) l.canonical) t.bare
      (groupedIf (needsParens r (strength t.kind) true) r.canonical)
  | .logical l t r =>
    .logical (groupedIf (needsParens l (strength t.kind) false) l.canonical) t.bare
      (groupedIf (needsParens r (strength t.kind) true) r.canonical)
  | .unary t e => .unary t.bare (groupedIf ((looseness? e).isSome || isSignedNumber e) e.canonical)

mutual

/-- The tree with a block where its source has braces around a dangling branch. -/
def Stmt.canonical : Stmt → Stmt
  | .absent => .absent
  | .expression e => .expression e.canonical
  | .print e => .print e.canonical
  | .declare x e => .declare x.bare e.canonical
  | .block body => .block (canonicalOf body)
  | .ifElse c s .absent => .ifElse c.canonical s.canonical .absent
  | .ifElse c s f =>
    .ifElse c.canonical (if dangles s then .block [s.canonical] else s.canonical) f.canonical

def canonicalOf : List Stmt → List Stmt
  | [] => []
  | s :: rest => s.canonical :: canonicalOf rest

end

namespace Grammar.Phrase

def tokens : Phrase → List Token
  | .statement s | .declaration s => s.tokens
  | .declarations body => tokensOf body

def canonical : Phrase → Phrase
  | .statement s => .statement s.canonical
  | .declaration s => .declaration s.canonical
  | .declarations body => .declarations (canonicalOf body)

end Grammar.Phrase

theorem strength_of_mem {n : Nat} {k : Kind} (h : k ∈ operators n) : strength k + n = 7 ∧ n ≤ 6 :=
  operators_cases (P := fun n k => strength k + n = 7 ∧ n ≤ 6) (by decide) (by decide) (by decide)
    (by decide) (by decide) (by decide) (by decide) (by decide) (by decide) (by decide) (by decide)
    (by decide) h

theorem operator_spelling_ne_nil {n : Nat} {k : Kind} (h : k ∈ operators n) : k.spelling ≠ [] :=
  operators_cases (P := fun _ k => k.spelling ≠ []) (by decide) (by decide) (by decide) (by decide)
    (by decide) (by decide) (by decide) (by decide) (by decide) (by decide) (by decide) (by decide)
    h

/-- Not too loose to be an operand at a level. -/
def Expr.Fits (n : Nat) (e : Expr) : Prop := ∀ k, looseness? e = some k → 7 ≤ k + n

/-- The formatter's test for parentheses is the grammar's: an operand is bare exactly if it may
stand at the level that the grammar has for its side. -/
theorem needsParens_eq_false_iff {n : Nat} {k : Kind} (e : Expr) (onRight : Bool)
    (hk : k ∈ operators (n + 1)) :
    needsParens e (strength k) onRight = false ↔ e.Fits (if onRight then n else n + 1) := by
  have hlevel := (strength_of_mem hk).1
  unfold needsParens Expr.Fits
  cases looseness? e with
  | none => simp
  | some own => cases onRight <;> simp <;> omega

theorem derives_groupedIf {n : Nat} {wanted : Bool} {e : Expr}
    (hexpr : Derives .expression e.tokens e)
    (hlevel : wanted = false → Derives (.level n) e.tokens e) :
    Derives (.level n) (e.groupedIf wanted).tokens (e.groupedIf wanted) := by
  cases wanted with
  | false => exact hlevel rfl
  | true => exact (Derives.primary (.grouping rfl hexpr rfl)).raise (Nat.zero_le n)

theorem derives_unsigned {v : Literal} (h : v.WellFormed) :
    Derives (.level 0) v.unsigned.tokens v.unsigned := by
  cases h with
  | null => exact .primary (.nullLiteral rfl)
  | @bool b =>
    cases b
    · exact .primary (.falseLiteral rfl)
    · exact .primary (.trueLiteral rfl)
  | @number x =>
    unfold Literal.unsigned
    dsimp only
    split
    · exact .unary (by decide) (.primary (.number rfl))
    · exact .primary (.number rfl)
  | string => exact .primary (.string rfl)

/-- The grammar derives a tree from its own tokens, at every level that `e` is not too loose for. -/
structure Expr.StandsFor (e tree : Expr) : Prop where
  level : ∀ n, n ≤ 6 → e.Fits n → Derives (.level n) tree.tokens tree
  expression : Derives .expression tree.tokens tree

theorem standsFor_of_tight {e tree : Expr} (h : Derives (.level 0) tree.tokens tree) :
    e.StandsFor tree :=
  ⟨fun n _ _ => h.raise (Nat.zero_le n), h.toExpression (by omega)⟩

theorem standsFor_of_chain {n : Nat} {k : Kind} {e tree : Expr} (hk : k ∈ operators (n + 1))
    (he : looseness? e = some (strength k)) (h : Derives (.level (n + 1)) tree.tokens tree) :
    e.StandsFor tree := by
  obtain ⟨hlevel, hn⟩ := strength_of_mem hk
  refine ⟨fun m _ hfits => h.raise ?_, h.toExpression hn⟩
  have := hfits _ he
  omega

theorem Expr.StandsFor.operand {n : Nat} {k : Kind} {e tree : Expr} (h : e.StandsFor tree)
    (onRight : Bool) (hk : k ∈ operators (n + 1)) :
    Derives (.level (if onRight then n else n + 1))
      (tree.groupedIf (needsParens e (strength k) onRight)).tokens
      (tree.groupedIf (needsParens e (strength k) onRight)) := by
  have hn := (strength_of_mem hk).2
  refine derives_groupedIf h.expression fun hbare => ?_
  exact h.level _ (by split <;> omega) ((needsParens_eq_false_iff e onRight hk).1 hbare)

theorem Expr.StandsFor.prefixed {e tree : Expr} (h : e.StandsFor tree) :
    Derives (.level 0) (tree.groupedIf ((looseness? e).isSome || isSignedNumber e)).tokens
      (tree.groupedIf ((looseness? e).isSome || isSignedNumber e)) := by
  refine derives_groupedIf h.expression fun hbare => ?_
  rw [Bool.or_eq_false_iff] at hbare
  exact h.level 0 (by omega) fun k hk => by simp [hk] at hbare

/-- The canonical form of an expression is derived from its own tokens. -/
theorem Expr.WellFormed.standsFor {e : Expr} (h : e.WellFormed) : e.StandsFor e.canonical := by
  induction h with
  | literal hv => exact standsFor_of_tight (derives_unsigned hv)
  | name ht => exact standsFor_of_tight (.primary (.name ht.kind))
  | grouping _ ih => exact standsFor_of_tight (.primary (.grouping rfl ih.expression rfl))
  | assign ht _ ih =>
    refine ⟨fun n hn hfits => ?_, .assign ht.kind rfl ih.expression⟩
    have := hfits 0 rfl
    omega
  | binary hn ht _ _ _ ihl ihr =>
    exact standsFor_of_chain ht rfl
      (.binary hn ht (ihl.operand false ht) (ihr.operand true ht))
  | logical hn ht _ _ _ ihl ihr =>
    exact standsFor_of_chain ht rfl
      (.logical hn ht (ihl.operand false ht) (ihr.operand true ht))
  | unary ht _ _ ih => exact standsFor_of_tight (.unary ht ih.prefixed)

theorem Grammar.Phrase.WellFormed.ne_absent {s : Stmt} (h : (Phrase.statement s).WellFormed) :
    s ≠ .absent := by
  rintro rfl
  cases h

theorem Expr.WellFormed.ne_absent {e : Expr} (h : e.WellFormed) : e ≠ .absent := by
  rintro rfl
  cases h

theorem Expr.canonical_ne_absent {e : Expr} (h : e ≠ .absent) : e.canonical ≠ .absent := by
  cases e with
  | absent => exact absurd rfl h
  | literal v =>
    rw [canonical]
    unfold Literal.unsigned
    split
    · split <;> nofun
    · nofun
  | _ => simp [canonical]

namespace Stmt

variable {c : Expr} {s f : Stmt}

theorem canonical_ifElse (hf : f ≠ .absent) : (ifElse c s f).canonical =
    .ifElse c.canonical (if dangles s then .block [s.canonical] else s.canonical) f.canonical := by
  rw [canonical]
  exact hf

theorem canonical_ne_absent (h : s ≠ .absent) : s.canonical ≠ .absent := by
  cases s with
  | absent => exact absurd rfl h
  | ifElse c s f => cases f <;> simp [canonical]
  | _ => simp [canonical]

theorem tokens_ifElse (hf : f ≠ .absent) : (ifElse c s f).tokens =
    mark .ifWord :: mark .leftParen :: c.tokens ++ mark .rightParen :: s.tokens ++
      mark .elseWord :: f.tokens := by
  rw [tokens]
  exact hf

theorem tokens_declare {x : Token} {e : Expr} (he : e ≠ .absent) : (declare x e).tokens =
    mark .varWord :: x.bare :: mark .equal :: e.tokens ++ [mark .semicolon] := by
  rw [tokens]
  exact he

theorem dangles_ifElse (hf : f ≠ .absent) : dangles (ifElse c s f) = dangles f := by
  rw [dangles]
  exact hf

end Stmt

theorem dangles_iff {s : Stmt} : dangles s = true ↔ EndsOpen s := by
  constructor
  · intro h
    fun_induction dangles s with
    | case1 => exact .noElse
    | case2 c s f hf ih => exact .inElse (ih h)
    | case3 => cases h
  · intro h
    induction h with
    | noElse => rfl
    | inElse h ih => rw [Stmt.dangles_ifElse (by rintro rfl; cases h), ih]

theorem dangles_canonical (s : Stmt) : dangles s.canonical = dangles s := by
  fun_induction dangles s with
  | case1 c s => simp [Stmt.canonical, dangles]
  | case2 c s f hf ih =>
    rw [Stmt.canonical_ifElse hf, Stmt.dangles_ifElse (Stmt.canonical_ne_absent hf), ih]
  | case3 s h h' =>
    cases s with
    | ifElse c s f => exact absurd rfl (h' c s f)
    | _ => simp [Stmt.canonical, dangles]

/-- The canonical form is read from its own tokens. -/
theorem Grammar.Phrase.WellFormed.reads {p : Phrase} (h : p.WellFormed) :
    Reads p.canonical.tokens p.canonical := by
  induction h with
  | expression he => exact .expression he.standsFor.expression rfl
  | print he => exact .print rfl he.standsFor.expression rfl
  | block _ ih => exact .block rfl ih rfl
  | ifThen hc _ ih => exact .ifThen rfl rfl hc.standsFor.expression rfl ih
  | @ifElse c s f hc hs hf ihs ihf =>
    have hf := hf.ne_absent
    simp only [canonical, tokens, Stmt.canonical_ifElse hf,
      Stmt.tokens_ifElse (Stmt.canonical_ne_absent hf)]
    by_cases hdangles : dangles s = true
    · rw [if_pos hdangles]
      exact .ifElse rfl rfl hc.standsFor.expression rfl
        (.block rfl (.more (.statement ihs) .none) rfl)
        nofun rfl ihf
    · rw [if_neg hdangles]
      refine .ifElse rfl rfl hc.standsFor.expression rfl ihs (fun hopen => ?_) rfl ihf
      exact hdangles (by rw [← dangles_canonical, dangles_iff.2 hopen])
  | declare hx => exact .declare rfl hx.kind rfl
  | declareWith hx he =>
    simp only [canonical, tokens, Stmt.canonical,
      Stmt.tokens_declare (Expr.canonical_ne_absent he.ne_absent)]
    exact .declareWith rfl hx.kind rfl he.standsFor.expression rfl
  | statement _ ih => exact .statement ih
  | none => exact .none
  | more _ _ ihs ihb => exact .more ihs ihb

end BlockScript
