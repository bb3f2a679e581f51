import BlockScript.Tree

/-! The grammar of programs as a relation between token lists and trees. A derivation covers all of
its tokens, so nothing is left over on either side. The end marker is no part of a program. -/

namespace BlockScript.Grammar

/-- Primaries bind tightest. Level zero adds the prefix operators, each level above is a chain of
operands of the level below, and an expression adds assignment. -/
inductive Rank
  | primary
  | level (n : Nat)
  | expression
  deriving DecidableEq

/-- The operators of a chain, by level: products, sums, comparisons, equalities, `and`, `or`. -/
def operators : Nat → List Token.Kind
  | 1 => [.slash, .star]
  | 2 => [.minus, .plus]
  | 3 => [.greater, .greaterEqual, .less, .lessEqual]
  | 4 => [.bangEqual, .equalEqual]
  | 5 => [.andWord]
  | 6 => [.orWord]
  | _ => []

/-- Whatever holds of each operator at its level holds of all operators. -/
theorem operators_cases {P : Nat → Token.Kind → Prop} (hslash : P 1 .slash) (hstar : P 1 .star)
    (hminus : P 2 .minus) (hplus : P 2 .plus) (hgreater : P 3 .greater)
    (hgreaterEqual : P 3 .greaterEqual) (hless : P 3 .less) (hlessEqual : P 3 .lessEqual)
    (hbangEqual : P 4 .bangEqual) (hequalEqual : P 4 .equalEqual) (hand : P 5 .andWord)
    (hor : P 6 .orWord) {n : Nat} {k : Token.Kind} (h : k ∈ operators n) : P n k := by
  unfold operators at h
  split at h <;> simp only [List.mem_cons, List.not_mem_nil, or_false] at h
  · rcases h with rfl | rfl <;> assumption
  · rcases h with rfl | rfl <;> assumption
  · rcases h with rfl | rfl | rfl | rfl <;> assumption
  · rcases h with rfl | rfl <;> assumption
  · subst h; assumption
  · subst h; assumption

inductive Derives : Rank → List Token → Expr → Prop
  | falseLiteral {t} (h : t.kind = .falseWord) : Derives .primary [t] (.literal (.bool false))
  | trueLiteral {t} (h : t.kind = .trueWord) : Derives .primary [t] (.literal (.bool true))
  | nullLiteral {t} (h : t.kind = .nullWord) : Derives .primary [t] (.literal .null)
  | number {t} (h : t.kind = .number) : Derives .primary [t] (.literal t.literal)
  | string {t} (h : t.kind = .string) : Derives .primary [t] (.literal t.literal)
  | name {t} (h : t.kind = .identifier) : Derives .primary [t] (.name t)
  | grouping {l r ts e} (hl : l.kind = .leftParen) (he : Derives .expression ts e)
      (hr : r.kind = .rightParen) : Derives .primary (l :: ts ++ [r]) (.grouping e)
  | primary {ts e} (h : Derives .primary ts e) : Derives (.level 0) ts e
  | unary {t ts e} (ht : t.kind ∈ [.bang, .minus]) (he : Derives (.level 0) ts e) :
      Derives (.level 0) (t :: ts) (.unary t e)
  | operand {n ts e} (h : Derives (.level n) ts e) : Derives (.level (n + 1)) ts e
  | binary {n t ls rs l r} (hn : n + 1 ≤ 4) (ht : t.kind ∈ operators (n + 1))
      (hl : Derives (.level (n + 1)) ls l) (hr : Derives (.level n) rs r) :
      Derives (.level (n + 1)) (ls ++ t :: rs) (.binary l t r)
  | logical {n t ls rs l r} (hn : 5 ≤ n + 1) (ht : t.kind ∈ operators (n + 1))
      (hl : Derives (.level (n + 1)) ls l) (hr : Derives (.level n) rs r) :
      Derives (.level (n + 1)) (ls ++ t :: rs) (.logical l t r)
  | loosest {ts e} (h : Derives (.level 6) ts e) : Derives .expression ts e
  | assign {t q ts e} (ht : t.kind = .identifier) (hq : q.kind = .equal)
      (he : Derives .expression ts e) : Derives .expression (t :: q :: ts) (.assign t e)

/-- The statement ends in a condition without a second branch. An `else` behind it would belong to
that condition, the nearest one that has none. -/
inductive EndsOpen : Stmt → Prop
  | noElse {c s} : EndsOpen (.ifElse c s .absent)
  | inElse {c s f} (h : EndsOpen f) : EndsOpen (.ifElse c s f)

inductive Phrase
  | statement (s : Stmt)
  | declaration (s : Stmt)
  | declarations (body : List Stmt)

inductive Reads : List Token → Phrase → Prop
  | expression {ts e q} (he : Derives .expression ts e) (hq : q.kind = .semicolon) :
      Reads (ts ++ [q]) (.statement (.expression e))
  | print {p ts e q} (hp : p.kind = .printWord) (he : Derives .expression ts e)
      (hq : q.kind = .semicolon) : Reads (p :: ts ++ [q]) (.statement (.print e))
  | block {l r ts body} (hl : l.kind = .leftBrace) (hb : Reads ts (.declarations body))
      (hr : r.kind = .rightBrace) : Reads (l :: ts ++ [r]) (.statement (.block body))
  | ifThen {i l cs r ts c s} (hi : i.kind = .ifWord) (hl : l.kind = .leftParen)
      (hc : Derives .expression cs c) (hr : r.kind = .rightParen) (hs : Reads ts (.statement s)) :
      Reads (i :: l :: cs ++ r :: ts) (.statement (.ifElse c s .absent))
  | ifElse {i l cs r ts o us c s f} (hi : i.kind = .ifWord) (hl : l.kind = .leftParen)
      (hc : Derives .expression cs c) (hr : r.kind = .rightParen) (hs : Reads ts (.statement s))
      (hclosed : ¬ EndsOpen s) (ho : o.kind = .elseWord) (hf : Reads us (.statement f)) :
      Reads (i :: l :: cs ++ r :: ts ++ o :: us) (.statement (.ifElse c s f))
  | declare {v x q} (hv : v.kind = .varWord) (hx : x.kind = .identifier)
      (hq : q.kind = .semicolon) : Reads [v, x, q] (.declaration (.declare x .absent))
  | declareWith {v x a ts e q} (hv : v.kind = .varWord) (hx : x.kind = .identifier)
      (ha : a.kind = .equal) (he : Derives .expression ts e) (hq : q.kind = .semicolon) :
      Reads (v :: x :: a :: ts ++ [q]) (.declaration (.declare x e))
  | statement {ts s} (h : Reads ts (.statement s)) : Reads ts (.declaration s)
  | none : Reads [] (.declarations [])
  | more {ts us s body} (hs : Reads ts (.declaration s)) (hb : Reads us (.declarations body)) :
      Reads (ts ++ us) (.declarations (s :: body))

theorem Derives.raise {m n : Nat} {ts : List Token} {e : Expr} (h : Derives (.level m) ts e)
    (hmn : m ≤ n) : Derives (.level n) ts e := by
  induction hmn with
  | refl => exact h
  | step _ ih => exact .operand ih

theorem Derives.toExpression {n : Nat} {ts : List Token} {e : Expr}
    (h : Derives (.level n) ts e) (hn : n ≤ 6) : Derives .expression ts e := .loosest (h.raise hn)

def expressionStarts : List Token.Kind :=
  [.falseWord, .trueWord, .nullWord, .number, .string, .identifier, .leftParen, .bang, .minus]

def declarationStarts : List Token.Kind :=
  [.varWord, .printWord, .ifWord, .leftBrace] ++ expressionStarts

theorem Derives.starts {r : Rank} {ts : List Token} {e : Expr} (h : Derives r ts e) :
    ∃ t us, ts = t :: us ∧ t.kind ∈ expressionStarts := by
  induction h with
  | falseLiteral h | trueLiteral h | nullLiteral h | number h | string h | name h =>
    exact ⟨_, _, rfl, by simp [h, expressionStarts]⟩
  | grouping hl _ _ _ => exact ⟨_, _, rfl, by simp [hl, expressionStarts]⟩
  | unary ht _ _ =>
    refine ⟨_, _, rfl, ?_⟩
    simp only [List.mem_cons, List.not_mem_nil, or_false] at ht
    rcases ht with ht | ht <;> simp [ht, expressionStarts]
  | primary _ ih | operand _ ih | loosest _ ih => exact ih
  | binary _ _ _ _ ihl _ | logical _ _ _ _ ihl _ =>
    obtain ⟨t, us, rfl, ht⟩ := ihl
    exact ⟨t, _, rfl, ht⟩
  | assign ht _ _ _ => exact ⟨_, _, rfl, by simp [ht, expressionStarts]⟩

/-- What stands at the front of a phrase. Only a list of declarations may be empty. -/
theorem Reads.starts {ts : List Token} {p : Phrase} (h : Reads ts p) :
    (ts = [] ∧ p = .declarations []) ∨ ∃ t us, ts = t :: us ∧ t.kind ∈ declarationStarts := by
  induction h with
  | expression he _ =>
    obtain ⟨t, us, rfl, ht⟩ := he.starts
    exact Or.inr ⟨t, _, rfl, List.mem_append_right _ ht⟩
  | print hp _ _ => exact Or.inr ⟨_, _, rfl, by simp [hp, declarationStarts]⟩
  | block hl _ _ _ => exact Or.inr ⟨_, _, rfl, by simp [hl, declarationStarts]⟩
  | ifThen hi _ _ _ _ _ => exact Or.inr ⟨_, _, rfl, by simp [hi, declarationStarts]⟩
  | ifElse hi _ _ _ _ _ _ _ _ _ => exact Or.inr ⟨_, _, rfl, by simp [hi, declarationStarts]⟩
  | declare hv _ _ => exact Or.inr ⟨_, _, rfl, by simp [hv, declarationStarts]⟩
  | declareWith hv _ _ _ _ => exact Or.inr ⟨_, _, rfl, by simp [hv, declarationStarts]⟩
  | statement _ ih => exact Or.inr (ih.resolve_left (by simp))
  | none => exact Or.inl ⟨rfl, rfl⟩
  | more _ _ ihs _ =>
    obtain ⟨t, us, rfl, ht⟩ := ihs.resolve_left (by simp)
    exact Or.inr ⟨t, _, rfl, ht⟩

def Program (tokens : List Token) (program : List Stmt) : Prop :=
  Reads tokens (.declarations program)

theorem Program.append {ts us : List Token} {p q : List Stmt} (hp : Program ts p)
    (hq : Program us q) : Program (ts ++ us) (p ++ q) := by
  induction p generalizing ts with
  | nil =>
    cases hp
    exact hq
  | cons s rest ih =>
    cases hp with
    | more hs hb =>
      rw [List.append_assoc]
      exact .more hs (ih hb)

inductive Leaf
  | token (t : Token)
  | literal (value : Literal)
  deriving DecidableEq

/-- Names and operators are kept whole, literals by their values. Brackets, punctuation and the
words that shape a statement are not kept. -/
def keeps : Token.Kind → Option (Token → Leaf)
  | .falseWord => some fun _ => .literal (.bool false)
  | .trueWord => some fun _ => .literal (.bool true)
  | .nullWord => some fun _ => .literal .null
  | .number | .string => some fun t => .literal t.literal
  | .identifier | .bang | .minus | .plus | .slash | .star | .greater | .greaterEqual | .less
  | .lessEqual | .bangEqual | .equalEqual | .andWord | .orWord => some .token
  | _ => none

def leaf? (t : Token) : Option Leaf := (keeps t.kind).map (· t)

end Grammar

open Grammar

def Expr.leaves : Expr → List Leaf
  | .absent => []
  | .assign target value => .token target :: value.leaves
  | .binary left operator right => left.leaves ++ .token operator :: right.leaves
  | .grouping inner => inner.leaves
  | .literal value => [.literal value]
  | .logical left operator right => left.leaves ++ .token operator :: right.leaves
  | .unary operator operand => .token operator :: operand.leaves
  | .name token => [.token token]

mutual

def Stmt.leaves : Stmt → List Leaf
  | .absent => []
  | .block body => leavesOf body
  | .expression e => e.leaves
  | .ifElse condition onTrue onFalse => condition.leaves ++ onTrue.leaves ++ onFalse.leaves
  | .print e => e.leaves
  | .declare name initial => .token name :: initial.leaves

def leavesOf : List Stmt → List Leaf
  | [] => []
  | s :: rest => s.leaves ++ leavesOf rest

end

namespace Grammar

def Phrase.leaves : Phrase → List Leaf
  | .statement s | .declaration s => s.leaves
  | .declarations body => leavesOf body

theorem keeps_operator {n : Nat} {k : Token.Kind} (h : k ∈ operators n) : keeps k = some .token :=
  operators_cases (P := fun _ k => keeps k = some .token)
    rfl rfl rfl rfl rfl rfl rfl rfl rfl rfl rfl rfl h

theorem Derives.leaves {r : Rank} {ts : List Token} {e : Expr} (h : Derives r ts e) :
    ts.filterMap leaf? = e.leaves := by
  induction h with
  | falseLiteral h | trueLiteral h | nullLiteral h | number h | string h | name h =>
    simp [leaf?, keeps, h, Expr.leaves]
  | grouping hl _ hr ih => simp [leaf?, keeps, hl, hr, ih, Expr.leaves]
  | primary _ ih | operand _ ih | loosest _ ih => exact ih
  | unary ht _ ih =>
    simp only [List.mem_cons, List.not_mem_nil, or_false] at ht
    rcases ht with ht | ht <;> simp [leaf?, keeps, ht, ih, Expr.leaves]
  | binary _ ht _ _ ihl ihr | logical _ ht _ _ ihl ihr =>
    simp [leaf?, keeps_operator ht, ihl, ihr, Expr.leaves]
  | assign ht hq _ ih => simp [leaf?, keeps, ht, hq, ih, Expr.leaves]

/-- Nothing that a tree should keep is lost, invented or moved. -/
theorem Reads.leaves {ts : List Token} {p : Phrase} (h : Reads ts p) :
    ts.filterMap leaf? = p.leaves := by
  induction h with
  | expression he hq => simp [leaf?, keeps, hq, he.leaves, Phrase.leaves, Stmt.leaves]
  | print hp he hq => simp [leaf?, keeps, hp, hq, he.leaves, Phrase.leaves, Stmt.leaves]
  | block hl _ hr ih => simp [leaf?, keeps, hl, hr, ih, Phrase.leaves, Stmt.leaves]
  | ifThen hi hl hc hr _ ih =>
    simp [leaf?, keeps, hi, hl, hr, hc.leaves, ih, Phrase.leaves, Stmt.leaves]
  | ifElse hi hl hc hr _ _ ho _ ihs ihf =>
    simp [leaf?, keeps, hi, hl, hr, ho, hc.leaves, ihs, ihf, Phrase.leaves, Stmt.leaves]
  | declare hv hx hq => simp [leaf?, keeps, hv, hx, hq, Phrase.leaves, Stmt.leaves, Expr.leaves]
  | declareWith hv hx ha he hq =>
    simp [leaf?, keeps, hv, hx, ha, hq, he.leaves, Phrase.leaves, Stmt.leaves]
  | statement _ ih => exact ih
  | none => rfl
  | more _ _ ihs ihb =>
    rw [List.filterMap_append, ihs, ihb]
    simp [Phrase.leaves, leavesOf]

end BlockScript.Grammar
