import BlockScript.Proofs.DumpParts
import BlockScript.Proofs.RoundTrip

/-! The dump of a program determines it: equal dumps have the same parts, and the head and the
number of the parts tell what node they belong to. -/

namespace BlockScript

open Token Grammar

section Expressions

def Literal.shape : Literal → Shape
  | .null => .word (Bytes.ofString "null")
  | .bool b => .word (Bytes.ofString (if b then "true" else "false"))
  | .number x => .word (Decimal.Layout.program.text x)
  | .string s => .quote s
  | .integer _ => .word (Bytes.ofString "?")

def Expr.shape : Expr → Shape
  | .absent => .word absentText
  | .assign target value => .list (Bytes.ofString "=") [target.lexeme, value.dump]
  | .binary left operator right => .list operator.lexeme [left.dump, right.dump]
  | .logical left operator right => .list operator.lexeme [left.dump, right.dump]
  | .grouping inner => .list (Bytes.ofString "group") [inner.dump]
  | .unary operator operand => .list operator.lexeme [operand.dump]
  | .name token => .word token.lexeme
  | .literal value => value.shape

theorem Literal.text_shape (v : Literal) : v.shape.text = v.dump := by
  cases v <;> rfl

theorem Expr.text_shape (e : Expr) : e.shape.text = e.dump := by
  cases e with
  | literal v => exact v.text_shape
  | assign t e =>
    have hhead : Bytes.ofString "= " = Bytes.ofString "=" ++ [32] := by decide
    simp [shape, dump, Shape.text, parenthesized, hhead]
  | _ => rfl

theorem Literal.WellFormed.sound {v : Literal} (h : v.WellFormed) : v.shape.Sound := by
  cases h with
  | null => exact (IsWord.ofAll (by decide) rfl).sound
  | @bool b => cases b <;> exact (IsWord.ofAll (by decide) rfl).sound
  | number h => exact (Decimal.isWord_text h).sound
  | string _ =>
    refine ⟨trivial, ?_⟩
    intro part hpart
    cases hpart

/-- The expressions with parts, by what stands in front of the parts. -/
inductive Node
  | assign
  | grouping
  | unary (operator : Kind)
  | binary (operator : Kind)
  | logical (operator : Kind)
  deriving DecidableEq

namespace Node

def head : Node → Bytes
  | assign => Bytes.ofString "="
  | grouping => Bytes.ofString "group"
  | unary operator | binary operator | logical operator => operator.spelling

def arity : Node → Nat
  | grouping | unary _ => 1
  | assign | binary _ | logical _ => 2

def all : List Node :=
  [assign, grouping, unary .bang, unary .minus, binary .slash, binary .star, binary .minus,
    binary .plus, binary .greater, binary .greaterEqual, binary .less, binary .lessEqual,
    binary .bangEqual, binary .equalEqual, logical .andWord, logical .orWord]

/-- A minus stands before one part or before two; all other heads stand for one node. -/
theorem head_inj {a b : Node} (ha : a ∈ all) (hb : b ∈ all) (hhead : a.head = b.head)
    (harity : a.arity = b.arity) : a = b := by
  have hall : ∀ a ∈ all, ∀ b ∈ all, a.head = b.head → a.arity = b.arity → a = b := by decide
  exact hall a ha b hb hhead harity

theorem isWord_head {a : Node} (h : a ∈ all) : IsWord a.head := by
  have hall : (all.all fun a => !a.head.isEmpty && a.head.all fun b => !endsWord b) = true := rfl
  have hword := List.all_eq_true.1 hall a h
  rw [Bool.and_eq_true, Bool.not_eq_true', List.isEmpty_eq_false_iff] at hword
  exact .ofAll hword.1 hword.2

theorem unary_mem {k : Kind} (h : k ∈ [.bang, .minus]) : unary k ∈ all := by
  have hall : ∀ k ∈ [Kind.bang, .minus], unary k ∈ all := by decide
  exact hall k h

/-- The four tightest levels have the operators that read both operands. -/
theorem operator_mem {n : Nat} {k : Kind} (h : k ∈ operators n) :
    (if n ≤ 4 then binary k else logical k) ∈ all :=
  operators_cases (P := fun n k => (if n ≤ 4 then binary k else logical k) ∈ all) (by decide)
    (by decide) (by decide) (by decide) (by decide) (by decide) (by decide) (by decide) (by decide)
    (by decide) (by decide) (by decide) h

end Node

def Expr.node? : Expr → Option Node
  | .absent | .name _ | .literal _ => none
  | .assign .. => some .assign
  | .grouping _ => some .grouping
  | .unary operator _ => some (.unary operator.kind)
  | .binary _ operator _ => some (.binary operator.kind)
  | .logical _ operator _ => some (.logical operator.kind)

theorem Expr.WellFormed.shape_of_node {e : Expr} (h : e.WellFormed) {node : Node}
    (hnode : e.node? = some node) :
    node ∈ Node.all ∧ ∃ parts, parts.length = node.arity ∧ e.shape = .list node.head parts := by
  cases h with
  | literal _ | name _ => cases hnode
  | grouping _ | assign _ _ =>
    obtain rfl := Option.some.inj hnode
    exact ⟨by decide, _, rfl, rfl⟩
  | unary ht htext _ =>
    obtain rfl := Option.some.inj hnode
    exact ⟨Node.unary_mem ht, _, rfl, by rw [shape, htext]; rfl⟩
  | binary hn ht htext _ _ =>
    obtain rfl := Option.some.inj hnode
    have hmem := Node.operator_mem ht
    rw [if_pos hn] at hmem
    exact ⟨hmem, _, rfl, by rw [shape, htext]; rfl⟩
  | logical hn ht htext _ _ =>
    obtain rfl := Option.some.inj hnode
    have hmem := Node.operator_mem ht
    rw [if_neg (by omega)] at hmem
    exact ⟨hmem, _, rfl, by rw [shape, htext]; rfl⟩

theorem Expr.shape_of_leaf {e : Expr} (hnode : e.node? = none) (head : Bytes)
    (parts : List Bytes) : e.shape ≠ .list head parts := by
  intro hshape
  cases e with
  | absent | name t => cases hshape
  | literal v => cases v <;> cases hshape
  | _ => cases hnode

/-- The shape of an expression tells its node. -/
theorem Expr.WellFormed.node_eq {e e' : Expr} (h : e.WellFormed) (h' : e'.WellFormed)
    (hshape : e.shape = e'.shape) : e.node? = e'.node? := by
  cases hnode : e.node? with
  | none =>
    cases hnode' : e'.node? with
    | none => rfl
    | some node' =>
      obtain ⟨-, parts', -, hlist'⟩ := h'.shape_of_node hnode'
      exact absurd (hshape.trans hlist') (Expr.shape_of_leaf hnode _ _)
  | some node =>
    obtain ⟨hmem, parts, hlength, hlist⟩ := h.shape_of_node hnode
    cases hnode' : e'.node? with
    | none => exact absurd (hshape.symm.trans hlist) (Expr.shape_of_leaf hnode' _ _)
    | some node' =>
      obtain ⟨hmem', parts', hlength', hlist'⟩ := h'.shape_of_node hnode'
      rw [hlist, hlist'] at hshape
      obtain ⟨hhead, rfl⟩ := Shape.list.inj hshape
      rw [Node.head_inj hmem hmem' hhead (hlength.symm.trans hlength')]

theorem Expr.WellFormed.hasWords {e : Expr} (h : e.WellFormed) : e.shape.HasWords := by
  cases hnode : e.node? with
  | some node =>
    obtain ⟨hmem, parts, -, hlist⟩ := h.shape_of_node hnode
    rw [hlist]
    exact Node.isWord_head hmem
  | none =>
    cases h with
    | literal hv => exact hv.sound.words
    | name ht => exact ht.lexeme.isWord
    | _ => cases hnode

theorem Expr.isPart {e : Expr} (h : e.shape.Sound) : IsPart e.dump := by
  have hpart := h.isPart
  rwa [e.text_shape] at hpart

theorem Expr.WellFormed.sound {e : Expr} (h : e.WellFormed) : e.shape.Sound := by
  refine ⟨h.hasWords, ?_⟩
  induction h with
  | literal hv => exact hv.sound.parts
  | name ht => exact ht.lexeme.isWord.sound.parts
  | grouping he ih | unary _ _ he ih =>
    exact List.forall_mem_singleton.2 (Expr.isPart ⟨he.hasWords, ih⟩)
  | assign ht he ih =>
    refine List.forall_mem_cons.2 ⟨ht.lexeme.isWord.isPart, ?_⟩
    exact List.forall_mem_singleton.2 (Expr.isPart ⟨he.hasWords, ih⟩)
  | binary _ _ _ hl hr ihl ihr | logical _ _ _ hl hr ihl ihr =>
    refine List.forall_mem_cons.2 ⟨Expr.isPart ⟨hl.hasWords, ihl⟩, ?_⟩
    exact List.forall_mem_singleton.2 (Expr.isPart ⟨hr.hasWords, ihr⟩)

/-- The dump of an expression tells its shape and its node. -/
theorem Expr.WellFormed.shape_eq {e e' : Expr} (h : e.WellFormed) (h' : e'.WellFormed)
    (hdump : e.dump = e'.dump) : e.shape = e'.shape ∧ e.node? = e'.node? := by
  have hshape : e.shape = e'.shape := by
    refine h.sound.text_inj h'.sound ?_
    rw [e.text_shape, e'.text_shape, hdump]
  exact ⟨hshape, h.node_eq h' hshape⟩

/-- A word that begins with a letter is no number. -/
theorem Decimal.text_ne_word {x : Float} (h : isFinite x = true) {word : Bytes}
    (hword : word.head?.any Bytes.isLetter = true) : Layout.program.text x ≠ word := by
  rintro rfl
  rw [head_text h] at hword
  cases hword

theorem Literal.WellFormed.shape_inj {v v' : Literal} (h : v.WellFormed) (h' : v'.WellFormed)
    (hshape : v.shape = v'.shape) : v = v' := by
  cases h with
  | null =>
    cases h' with
    | null => rfl
    | @bool b =>
      have hword := Shape.word.inj hshape
      cases b <;> exact absurd hword (by decide)
    | number hx => exact absurd (Shape.word.inj hshape).symm (Decimal.text_ne_word hx rfl)
    | string _ => cases hshape
  | @bool b =>
    cases h' with
    | null =>
      have hword := Shape.word.inj hshape
      cases b <;> exact absurd hword (by decide)
    | @bool c =>
      have hword := Shape.word.inj hshape
      cases b <;> cases c
      · rfl
      · exact absurd hword (by decide)
      · exact absurd hword (by decide)
      · rfl
    | number hx =>
      cases b <;> exact absurd (Shape.word.inj hshape).symm (Decimal.text_ne_word hx rfl)
    | string _ => cases hshape
  | number hx =>
    cases h' with
    | null => exact absurd (Shape.word.inj hshape) (Decimal.text_ne_word hx rfl)
    | @bool b => cases b <;> exact absurd (Shape.word.inj hshape) (Decimal.text_ne_word hx rfl)
    | number hy => rw [Decimal.text_inj hx hy (Shape.word.inj hshape)]
    | string _ => cases hshape
  | string _ =>
    cases h' with
    | string _ => rw [Shape.quote.inj hshape]
    | null | bool | number _ => cases hshape

theorem Literal.WellFormed.shape_ne_name {v : Literal} {t : Token} (h : v.WellFormed)
    (ht : t.Names) : v.shape ≠ .word t.lexeme := by
  intro hshape
  have hfree := ht.lexeme.free
  cases h with
  | null => exact hfree ("null", .nullWord) (by decide) (Shape.word.inj hshape)
  | @bool b =>
    cases b with
    | false => exact hfree ("false", .falseWord) (by decide) (Shape.word.inj hshape)
    | true => exact hfree ("true", .trueWord) (by decide) (Shape.word.inj hshape)
  | number hx => exact Decimal.text_ne_word hx ht.lexeme.letter (Shape.word.inj hshape)
  | string _ => cases hshape

theorem Token.bare_eq {t t' : Token} (hkind : t.kind = t'.kind) (hlexeme : t.lexeme = t'.lexeme) :
    t.bare = t'.bare := by
  rw [bare, bare, hkind, hlexeme]

theorem Token.Names.bare_eq {t t' : Token} (h : t.Names) (h' : t'.Names)
    (hlexeme : t.lexeme = t'.lexeme) : t.bare = t'.bare :=
  Token.bare_eq (h.kind.trans h'.kind.symm) hlexeme

/-- Expressions with the same dump are the same, lines aside. -/
theorem Expr.WellFormed.dump_inj {e e' : Expr} (h : e.WellFormed) (h' : e'.WellFormed)
    (hdump : e.dump = e'.dump) : e.mapTokens bare = e'.mapTokens bare := by
  induction h generalizing e' with
  -- Literals and names have no node: both may be words, and only the text tells them apart.
  | literal hv =>
    obtain ⟨hshape, hnode⟩ := (WellFormed.literal hv).shape_eq h' hdump
    cases h' with
    | literal hv' => rw [hv.shape_inj hv' hshape]
    | name ht' => exact absurd hshape (hv.shape_ne_name ht')
    | _ => cases hnode
  | name ht =>
    obtain ⟨hshape, hnode⟩ := (WellFormed.name ht).shape_eq h' hdump
    cases h' with
    | literal hv' => exact absurd hshape.symm (hv'.shape_ne_name ht)
    | name ht' => rw [mapTokens, mapTokens, ht.bare_eq ht' (Shape.word.inj hshape)]
    | _ => cases hnode
  | grouping he ih =>
    obtain ⟨hshape, hnode⟩ := (WellFormed.grouping he).shape_eq h' hdump
    cases h' with
    | grouping he' =>
      obtain ⟨-, hparts⟩ := Shape.list.inj hshape
      rw [mapTokens, mapTokens, ih he' (List.cons.inj hparts).1]
    | _ => cases hnode
  | assign ht he ih =>
    obtain ⟨hshape, hnode⟩ := (WellFormed.assign ht he).shape_eq h' hdump
    cases h' with
    | assign ht' he' =>
      obtain ⟨-, hparts⟩ := Shape.list.inj hshape
      obtain ⟨hname, hvalue⟩ := List.cons.inj hparts
      rw [mapTokens, mapTokens, ht.bare_eq ht' hname, ih he' (List.cons.inj hvalue).1]
    | _ => cases hnode
  | binary hn ht htext hl hr ihl ihr =>
    obtain ⟨hshape, hnode⟩ := (WellFormed.binary hn ht htext hl hr).shape_eq h' hdump
    cases h' with
    | binary hn' ht' htext' hl' hr' =>
      have hkind := Node.binary.inj (Option.some.inj hnode)
      obtain ⟨hhead, hparts⟩ := Shape.list.inj hshape
      obtain ⟨hleft, hright⟩ := List.cons.inj hparts
      rw [mapTokens, mapTokens, Token.bare_eq hkind hhead, ihl hl' hleft,
        ihr hr' (List.cons.inj hright).1]
    | _ => cases hnode
  | logical hn ht htext hl hr ihl ihr =>
    obtain ⟨hshape, hnode⟩ := (WellFormed.logical hn ht htext hl hr).shape_eq h' hdump
    cases h' with
    | logical hn' ht' htext' hl' hr' =>
      have hkind := Node.logical.inj (Option.some.inj hnode)
      obtain ⟨hhead, hparts⟩ := Shape.list.inj hshape
      obtain ⟨hleft, hright⟩ := List.cons.inj hparts
      rw [mapTokens, mapTokens, Token.bare_eq hkind hhead, ihl hl' hleft,
        ihr hr' (List.cons.inj hright).1]
    | _ => cases hnode
  | unary ht htext he ih =>
    obtain ⟨hshape, hnode⟩ := (WellFormed.unary ht htext he).shape_eq h' hdump
    cases h' with
    | unary ht' htext' he' =>
      have hkind := Node.unary.inj (Option.some.inj hnode)
      obtain ⟨hhead, hparts⟩ := Shape.list.inj hshape
      rw [mapTokens, mapTokens, Token.bare_eq hkind hhead, ih he' (List.cons.inj hparts).1]
    | _ => cases hnode

end Expressions

section Statements

def Stmt.shape : Stmt → Shape
  | .absent => .word absentText
  | .block body => .list (Bytes.ofString "block") (dumpEach body)
  | .expression e => .list (Bytes.ofString ";") [e.dump]
  | .print e => .list (Bytes.ofString "print") [e.dump]
  | .declare name .absent => .list (Bytes.ofString "var") [name.lexeme]
  | .declare name initial => .list (Bytes.ofString "var") [name.lexeme, initial.dump]
  | .ifElse condition onTrue .absent =>
    .list (Bytes.ofString "if") [condition.dump, onTrue.dump]
  | .ifElse condition onTrue onFalse =>
    .list (Bytes.ofString "if") [condition.dump, onTrue.dump, onFalse.dump]

theorem Stmt.shape_declare {t : Token} {e : Expr} (h : e ≠ .absent) :
    (declare t e).shape = .list (Bytes.ofString "var") [t.lexeme, e.dump] := by
  rw [shape]
  exact h

theorem Stmt.shape_ifElse {c : Expr} {s f : Stmt} (h : f ≠ .absent) :
    (ifElse c s f).shape = .list (Bytes.ofString "if") [c.dump, s.dump, f.dump] := by
  rw [shape]
  exact h

theorem Stmt.text_shape (s : Stmt) : s.shape.text = s.dump := by
  have hvar : Bytes.ofString "var " = Bytes.ofString "var" ++ [32] := by decide
  cases s with
  | declare t e =>
    by_cases he : e = .absent
    · subst he
      simp [shape, dump, Shape.text, parenthesized, hvar]
    · rw [shape_declare he, dump]
      · simp [Shape.text, parenthesized, hvar]
      · exact he
  | ifElse c s f =>
    by_cases hf : f = .absent
    · subst hf
      simp only [shape, dump, Shape.text]
    · rw [shape_ifElse hf, dump, Shape.text]
      exact hf
  | _ => simp only [shape, dump, Shape.text]

mutual

/-- Only a variable's initial value and a condition's second branch may be absent. -/
def Stmt.Complete : Stmt → Prop
  | .absent => False
  | .block body => CompleteAll body
  | .expression e => e.WellFormed
  | .print e => e.WellFormed
  | .declare name initial => name.Names ∧ (initial = .absent ∨ initial.WellFormed)
  | .ifElse condition onTrue onFalse =>
    condition.WellFormed ∧ onTrue.Complete ∧ (onFalse = .absent ∨ onFalse.Complete)

def CompleteAll : List Stmt → Prop
  | [] => True
  | s :: rest => s.Complete ∧ CompleteAll rest

end

def Grammar.Phrase.Complete : Phrase → Prop
  | .statement s => s.Complete
  | .declaration s => s.Complete
  | .declarations body => CompleteAll body

theorem Grammar.Phrase.WellFormed.complete {p : Phrase} (h : p.WellFormed) : p.Complete := by
  induction h with
  | expression he => simpa [Complete, Stmt.Complete] using he
  | print he => simpa [Complete, Stmt.Complete] using he
  | block _ ih => simpa [Complete, Stmt.Complete] using ih
  | ifThen hc _ ih =>
    have h : Stmt.Complete _ := ih
    simpa [Complete, Stmt.Complete] using ⟨hc, h⟩
  | ifElse hc _ _ ihs ihf =>
    have hs : Stmt.Complete _ := ihs
    have hf : Stmt.Complete _ := ihf
    simp [Complete, Stmt.Complete, hc, hs, hf]
  | declare hx => simpa [Complete, Stmt.Complete] using hx
  | declareWith hx he => simp [Complete, Stmt.Complete, hx, he]
  | statement _ ih => exact ih
  | none => simp [Complete, CompleteAll]
  | more _ _ ihs ihb =>
    have hs : Stmt.Complete _ := ihs
    have hb : CompleteAll _ := ihb
    simp [Complete, CompleteAll, hs, hb]

theorem Expr.WellFormed.isPart {e : Expr} (h : e.WellFormed) : IsPart e.dump :=
  Expr.isPart h.sound

theorem Stmt.isPart {s : Stmt} (h : s.shape.Sound) : IsPart s.dump := by
  have hpart := h.isPart
  rwa [s.text_shape] at hpart

mutual

theorem Stmt.sound : (s : Stmt) → s.Complete → s.shape.Sound
  | .absent, h => by simp [Stmt.Complete] at h
  | .block body, h => by
    rw [Stmt.shape]
    exact ⟨.ofAll (by decide) rfl, dumpEach_isPart body (by simpa [Stmt.Complete] using h)⟩
  | .expression e, h => by
    have he : e.WellFormed := by simpa [Stmt.Complete] using h
    rw [Stmt.shape]
    exact ⟨.ofAll (by decide) rfl, List.forall_mem_singleton.2 he.isPart⟩
  | .print e, h => by
    have he : e.WellFormed := by simpa [Stmt.Complete] using h
    rw [Stmt.shape]
    exact ⟨.ofAll (by decide) rfl, List.forall_mem_singleton.2 he.isPart⟩
  | .declare t e, h => by
    rw [Stmt.Complete] at h
    have hname : IsPart t.lexeme := h.1.lexeme.isWord.isPart
    rcases h.2 with rfl | he
    · rw [Stmt.shape]
      exact ⟨.ofAll (by decide) rfl, List.forall_mem_singleton.2 hname⟩
    · rw [Stmt.shape_declare he.ne_absent]
      exact ⟨.ofAll (by decide) rfl,
        List.forall_mem_cons.2 ⟨hname, List.forall_mem_singleton.2 he.isPart⟩⟩
  | .ifElse c s f, h => by
    rw [Stmt.Complete] at h
    obtain ⟨hc, hs, hf⟩ := h
    have htrue := Stmt.isPart (Stmt.sound s hs)
    by_cases habsent : f = .absent
    · subst habsent
      rw [Stmt.shape]
      exact ⟨.ofAll (by decide) rfl,
        List.forall_mem_cons.2 ⟨hc.isPart, List.forall_mem_singleton.2 htrue⟩⟩
    · have hfalse := Stmt.isPart (Stmt.sound f (hf.resolve_left habsent))
      rw [Stmt.shape_ifElse habsent]
      exact ⟨.ofAll (by decide) rfl, List.forall_mem_cons.2 ⟨hc.isPart,
        List.forall_mem_cons.2 ⟨htrue, List.forall_mem_singleton.2 hfalse⟩⟩⟩

theorem dumpEach_isPart : (body : List Stmt) → CompleteAll body →
    ∀ part ∈ dumpEach body, IsPart part
  | [], _ => by simp [dumpEach]
  | s :: rest, h => by
    rw [CompleteAll] at h
    rw [dumpEach]
    exact List.forall_mem_cons.2 ⟨Stmt.isPart (Stmt.sound s h.1), dumpEach_isPart rest h.2⟩

end

def statementHeads : List (String × Bytes) :=
  [("Block", Bytes.ofString "block"), ("Expression", Bytes.ofString ";"),
    ("If", Bytes.ofString "if"), ("Print", Bytes.ofString "print"), ("Var", Bytes.ofString "var")]

theorem Stmt.exists_head {s : Stmt} (h : s ≠ .absent) :
    ∃ head parts, (s.kind, head) ∈ statementHeads ∧ s.shape = .list head parts := by
  cases s with
  | absent => exact absurd rfl h
  | block body =>
    refine ⟨Bytes.ofString "block", dumpEach body, ?_, ?_⟩
    · simp [kind, statementHeads]
    · rw [shape]
  | expression e =>
    refine ⟨Bytes.ofString ";", [e.dump], ?_, ?_⟩
    · simp [kind, statementHeads]
    · rw [shape]
  | print e =>
    refine ⟨Bytes.ofString "print", [e.dump], ?_, ?_⟩
    · simp [kind, statementHeads]
    · rw [shape]
  | declare t e =>
    have hmem : (kind (declare t e), Bytes.ofString "var") ∈ statementHeads := by
      simp [kind, statementHeads]
    by_cases he : e = .absent
    · exact ⟨_, _, hmem, by rw [he, shape]⟩
    · exact ⟨_, _, hmem, shape_declare he⟩
  | ifElse c s f =>
    have hmem : (kind (ifElse c s f), Bytes.ofString "if") ∈ statementHeads := by
      simp [kind, statementHeads]
    by_cases hf : f = .absent
    · exact ⟨_, _, hmem, by rw [hf, shape]⟩
    · exact ⟨_, _, hmem, shape_ifElse hf⟩

/-- The head of a statement's dump tells its kind. -/
theorem Stmt.kind_eq {s s' : Stmt} (h : s ≠ .absent) (h' : s' ≠ .absent)
    (hshape : s.shape = s'.shape) : s.kind = s'.kind := by
  have hall : ∀ a ∈ statementHeads, ∀ b ∈ statementHeads, a.2 = b.2 → a.1 = b.1 := by decide
  obtain ⟨head, parts, hmem, hlist⟩ := exists_head h
  obtain ⟨head', parts', hmem', hlist'⟩ := exists_head h'
  rw [hlist, hlist'] at hshape
  exact hall _ hmem _ hmem' (Shape.list.inj hshape).1

theorem Stmt.Complete.ne_absent {s : Stmt} (h : s.Complete) : s ≠ .absent := by
  rintro rfl
  simp [Complete] at h

theorem Stmt.Complete.shape_eq {s s' : Stmt} (h : s.Complete) (h' : s'.Complete)
    (hdump : s.dump = s'.dump) : s.shape = s'.shape := by
  refine (s.sound h).text_inj (s'.sound h') ?_
  rw [s.text_shape, s'.text_shape, hdump]

theorem Stmt.declare_inj {t t' : Token} {e e' : Expr} (h : (declare t e).Complete)
    (h' : (declare t' e').Complete) (hshape : (declare t e).shape = (declare t' e').shape) :
    (declare t e).mapTokens bare = (declare t' e').mapTokens bare := by
  rw [Complete] at h h'
  obtain ⟨ht, he⟩ := h
  obtain ⟨ht', he'⟩ := h'
  rcases he with rfl | he
  · rcases he' with rfl | he'
    · rw [shape, shape] at hshape
      obtain ⟨-, hparts⟩ := Shape.list.inj hshape
      rw [mapTokens, mapTokens, ht.bare_eq ht' (List.cons.inj hparts).1]
    · rw [shape, shape_declare he'.ne_absent] at hshape
      cases (List.cons.inj (Shape.list.inj hshape).2).2
  · rcases he' with rfl | he'
    · rw [shape, shape_declare he.ne_absent] at hshape
      cases (List.cons.inj (Shape.list.inj hshape).2).2
    · rw [shape_declare he.ne_absent, shape_declare he'.ne_absent] at hshape
      obtain ⟨hname, hvalue⟩ := List.cons.inj (Shape.list.inj hshape).2
      rw [mapTokens, mapTokens, ht.bare_eq ht' hname, he.dump_inj he' (List.cons.inj hvalue).1]

/-- The number of the parts tells whether a condition has a second branch. -/
theorem Stmt.ifElse_parts {c c' : Expr} {s s' f f' : Stmt}
    (hshape : (ifElse c s f).shape = (ifElse c' s' f').shape) :
    c.dump = c'.dump ∧ s.dump = s'.dump ∧
      (f = .absent ∧ f' = .absent ∨ f ≠ .absent ∧ f' ≠ .absent ∧ f.dump = f'.dump) := by
  by_cases habsent : f = .absent
  · by_cases habsent' : f' = .absent
    · rw [habsent, habsent', shape, shape] at hshape
      obtain ⟨hcondition, hbranch⟩ := List.cons.inj (Shape.list.inj hshape).2
      exact ⟨hcondition, (List.cons.inj hbranch).1, Or.inl ⟨habsent, habsent'⟩⟩
    · rw [habsent, shape, shape_ifElse habsent'] at hshape
      cases (List.cons.inj (List.cons.inj (Shape.list.inj hshape).2).2).2
  · by_cases habsent' : f' = .absent
    · rw [habsent', shape, shape_ifElse habsent] at hshape
      cases (List.cons.inj (List.cons.inj (Shape.list.inj hshape).2).2).2
    · rw [shape_ifElse habsent, shape_ifElse habsent'] at hshape
      obtain ⟨hcondition, hbranches⟩ := List.cons.inj (Shape.list.inj hshape).2
      obtain ⟨htrue, hfalse⟩ := List.cons.inj hbranches
      exact ⟨hcondition, htrue, Or.inr ⟨habsent, habsent', (List.cons.inj hfalse).1⟩⟩

mutual

/-- Statements with the same dump are the same, lines aside. -/
theorem Stmt.dump_inj : (s s' : Stmt) → s.Complete → s'.Complete → s.dump = s'.dump →
    s.mapTokens bare = s'.mapTokens bare
  | .absent, _, h, _, _ => absurd rfl h.ne_absent
  | .block body, s', h, h', hdump => by
    have hshape := h.shape_eq h' hdump
    have hkind := Stmt.kind_eq h.ne_absent h'.ne_absent hshape
    cases s' with
    | block body' =>
      rw [Stmt.Complete] at h h'
      rw [Stmt.shape, Stmt.shape] at hshape
      rw [Stmt.mapTokens, Stmt.mapTokens, dumpEach_inj body body' h h' (Shape.list.inj hshape).2]
    | _ => simp [Stmt.kind] at hkind
  | .expression e, s', h, h', hdump => by
    have hshape := h.shape_eq h' hdump
    have hkind := Stmt.kind_eq h.ne_absent h'.ne_absent hshape
    cases s' with
    | expression e' =>
      rw [Stmt.Complete] at h h'
      rw [Stmt.shape, Stmt.shape] at hshape
      rw [Stmt.mapTokens, Stmt.mapTokens, h.dump_inj h' (List.cons.inj (Shape.list.inj hshape).2).1]
    | _ => simp [Stmt.kind] at hkind
  | .print e, s', h, h', hdump => by
    have hshape := h.shape_eq h' hdump
    have hkind := Stmt.kind_eq h.ne_absent h'.ne_absent hshape
    cases s' with
    | print e' =>
      rw [Stmt.Complete] at h h'
      rw [Stmt.shape, Stmt.shape] at hshape
      rw [Stmt.mapTokens, Stmt.mapTokens, h.dump_inj h' (List.cons.inj (Shape.list.inj hshape).2).1]
    | _ => simp [Stmt.kind] at hkind
  | .declare t e, s', h, h', hdump => by
    have hshape := h.shape_eq h' hdump
    have hkind := Stmt.kind_eq h.ne_absent h'.ne_absent hshape
    cases s' with
    | declare t' e' => exact Stmt.declare_inj h h' hshape
    | _ => simp [Stmt.kind] at hkind
  | .ifElse c s f, s', h, h', hdump => by
    have hshape := h.shape_eq h' hdump
    have hkind := Stmt.kind_eq h.ne_absent h'.ne_absent hshape
    cases s' with
    | ifElse c' s' f' =>
      rw [Stmt.Complete] at h h'
      obtain ⟨hc, hs, hf⟩ := h
      obtain ⟨hc', hs', hf'⟩ := h'
      obtain ⟨hcondition, htrue, hfalse⟩ := Stmt.ifElse_parts hshape
      rcases hfalse with ⟨habsent, habsent'⟩ | ⟨hne, hne', hfalse⟩
      · simp only [habsent, habsent', Stmt.mapTokens]
        rw [hc.dump_inj hc' hcondition, Stmt.dump_inj s s' hs hs' htrue]
      · rw [Stmt.mapTokens, Stmt.mapTokens, hc.dump_inj hc' hcondition,
          Stmt.dump_inj s s' hs hs' htrue,
          Stmt.dump_inj f f' (hf.resolve_left hne) (hf'.resolve_left hne') hfalse]
    | _ => simp [Stmt.kind] at hkind

theorem dumpEach_inj : (body body' : List Stmt) → CompleteAll body → CompleteAll body' →
    dumpEach body = dumpEach body' → mapTokensOf bare body = mapTokensOf bare body'
  | [], [], _, _, _ => rfl
  | [], _ :: _, _, _, hdump => by simp [dumpEach] at hdump
  | _ :: _, [], _, _, hdump => by simp [dumpEach] at hdump
  | s :: rest, s' :: rest', h, h', hdump => by
    rw [CompleteAll] at h h'
    rw [dumpEach, dumpEach] at hdump
    obtain ⟨hfirst, hmore⟩ := List.cons.inj hdump
    rw [mapTokensOf, mapTokensOf, Stmt.dump_inj s s' h.1 h'.1 hfirst,
      dumpEach_inj rest rest' h.2 h'.2 hmore]

end

end Statements

section Programs

/-- Complete programs with the same dump are the same, lines aside. -/
theorem dumpProgram_inj {program program' : List Stmt} (h : CompleteAll program)
    (h' : CompleteAll program') (hdump : dumpProgram program = dumpProgram program') :
    mapTokensOf bare program = mapTokensOf bare program' :=
  dumpEach_inj program program' h h'
    (join_inj (dumpEach_isPart program h) (dumpEach_isPart program' h') hdump)

theorem Expr.dump_mapTokens {f : Token → Token} (hf : ∀ t, (f t).lexeme = t.lexeme) (e : Expr) :
    (e.mapTokens f).dump = e.dump := by
  induction e with
  | absent | literal v => rfl
  | name t => exact hf t
  | grouping e ih | assign t e ih | unary t e ih => simp only [mapTokens, dump, hf, ih]
  | binary l t r ihl ihr | logical l t r ihl ihr => simp only [mapTokens, dump, hf, ihl, ihr]

theorem Stmt.mapTokens_ne_absent (f : Token → Token) {s : Stmt} (h : s ≠ .absent) :
    s.mapTokens f ≠ .absent := by
  cases s with
  | absent => exact absurd rfl h
  | _ => simp [mapTokens]

mutual

/-- The dump shows nothing of a token but its text. -/
theorem Stmt.dump_mapTokens {f : Token → Token} (hf : ∀ t, (f t).lexeme = t.lexeme) : (s : Stmt) →
    (s.mapTokens f).dump = s.dump
  | .absent => rfl
  | .block body => by simp only [Stmt.mapTokens, Stmt.dump, dumpEach_mapTokensOf hf body]
  | .expression e => by simp only [Stmt.mapTokens, Stmt.dump, e.dump_mapTokens hf]
  | .print e => by simp only [Stmt.mapTokens, Stmt.dump, e.dump_mapTokens hf]
  | .declare t e => by
    have he := e.dump_mapTokens hf
    cases e <;> simp only [Stmt.mapTokens, Expr.mapTokens, Stmt.dump, hf] at he ⊢ <;> rw [he]
  | .ifElse c s s' => by
    have hc := c.dump_mapTokens hf
    have hs := Stmt.dump_mapTokens hf s
    have hs' := Stmt.dump_mapTokens hf s'
    by_cases habsent : s' = .absent
    · simp only [habsent, Stmt.mapTokens, Stmt.dump, hc, hs]
    · rw [Stmt.mapTokens, ← Stmt.text_shape, ← Stmt.text_shape, Stmt.shape_ifElse habsent,
        Stmt.shape_ifElse (Stmt.mapTokens_ne_absent f habsent), hc, hs, hs']

theorem dumpEach_mapTokensOf {f : Token → Token} (hf : ∀ t, (f t).lexeme = t.lexeme) :
    (body : List Stmt) → dumpEach (mapTokensOf f body) = dumpEach body
  | [] => rfl
  | s :: rest => by
    simp only [mapTokensOf, dumpEach, Stmt.dump_mapTokens hf s, dumpEach_mapTokensOf hf rest]

end

theorem Expr.mapTokens_groupedIf (f : Token → Token) (wanted : Bool) (e : Expr) :
    (e.groupedIf wanted).mapTokens f = (e.mapTokens f).groupedIf wanted := by
  cases wanted <;> rfl

theorem Expr.bare_canonical (e : Expr) : e.canonical.mapTokens bare = e.canonical := by
  induction e with
  | absent | name t => rfl
  | literal v =>
    cases v with
    | number x =>
      simp only [canonical, Literal.unsigned]
      split <;> rfl
    | _ => rfl
  | grouping e ih | assign t e ih => simp only [canonical, mapTokens, ih, bare_bare]
  | binary l t r ihl ihr | logical l t r ihl ihr =>
    simp only [canonical, mapTokens, mapTokens_groupedIf, ihl, ihr, bare_bare]
  | unary t e ih => simp only [canonical, mapTokens, mapTokens_groupedIf, ih, bare_bare]

mutual

theorem Stmt.bare_canonical : (s : Stmt) → s.canonical.mapTokens bare = s.canonical
  | .absent => rfl
  | .expression e => by simp only [Stmt.canonical, Stmt.mapTokens, e.bare_canonical]
  | .print e => by simp only [Stmt.canonical, Stmt.mapTokens, e.bare_canonical]
  | .declare t e => by simp only [Stmt.canonical, Stmt.mapTokens, e.bare_canonical, bare_bare]
  | .block body => by simp only [Stmt.canonical, Stmt.mapTokens, bare_canonicalOf body]
  | .ifElse c s s' => by
    have hc := c.bare_canonical
    have hs := Stmt.bare_canonical s
    have hs' := Stmt.bare_canonical s'
    by_cases habsent : s' = .absent
    · simp only [habsent, Stmt.canonical, Stmt.mapTokens, hc, hs]
    · rw [Stmt.canonical_ifElse habsent]
      split <;> simp only [Stmt.mapTokens, mapTokensOf, hc, hs, hs']

theorem bare_canonicalOf : (body : List Stmt) →
    mapTokensOf bare (canonicalOf body) = canonicalOf body
  | [] => rfl
  | s :: rest => by
    simp only [canonicalOf, mapTokensOf, Stmt.bare_canonical s, bare_canonicalOf rest]

end

/-- A token that was read without a value of its own says nothing but its kind, text and line. -/
theorem bare_ofSource {source : Bytes} (h : (Parsed.ofSource source).diagnostics = []) :
    mapTokensOf bare (Parsed.ofSource source).statements =
      mapTokensOf unplaced (Parsed.ofSource source).statements := by
  have hbare (body : List Stmt) :
      mapTokensOf bare (mapTokensOf unplaced body) = mapTokensOf bare body :=
    Stmt.mapTokensOf_mapTokensOf unplaced bare body
  rw [← hbare, ← canonicalOf_ofSource h, bare_canonicalOf]

theorem dumpProgram_unplaced (program : List Stmt) :
    dumpProgram (mapTokensOf unplaced program) = dumpProgram program :=
  congrArg (Bytes.join [Bytes.lineFeed])
    (dumpEach_mapTokensOf (f := unplaced) (fun _ => rfl) program)

/-- The dump of a program that was read without diagnostics determines the program, lines aside, and
shows nothing of the lines. -/
theorem dump_determines_program (a b : Bytes) (ha : (Parsed.ofSource a).diagnostics = [])
    (hb : (Parsed.ofSource b).diagnostics = []) :
    dumpProgram (Parsed.ofSource a).statements = dumpProgram (Parsed.ofSource b).statements ↔
      mapTokensOf unplaced (Parsed.ofSource a).statements =
        mapTokensOf unplaced (Parsed.ofSource b).statements := by
  constructor
  · intro hdump
    rw [← bare_ofSource ha, ← bare_ofSource hb]
    exact dumpProgram_inj (wellFormed_ofSource ha).complete (wellFormed_ofSource hb).complete hdump
  · intro hsame
    rw [← dumpProgram_unplaced, hsame, dumpProgram_unplaced]

/-- A difference on one line, and on two with a comment between them. -/
theorem dump_of_difference_on_two_lines :
    let a := Bytes.ofString "x- -x;"
    let b := Bytes.ofString "x // less\n--x;"
    (Parsed.ofSource a).diagnostics = [] ∧ (Parsed.ofSource b).diagnostics = [] ∧
      dumpProgram (Parsed.ofSource b).statements = Bytes.ofString "(; (- x (- x)))" ∧
      mapTokensOf unplaced (Parsed.ofSource a).statements =
        mapTokensOf unplaced (Parsed.ofSource b).statements := by
  intro a b
  let x : Token := ⟨.identifier, Bytes.ofString "x", 0, .null⟩
  let difference : Expr := .binary (.name x) (mark .minus) (.unary (mark .minus) (.name x))
  have hx : x.Names := ⟨rfl, by decide, List.all_eq_true.1 (by decide), by decide⟩
  have hprogram : WellFormed [.expression difference] :=
    .more (.statement (.expression (.binary (n := 1) (by omega) (by decide) rfl (.name hx)
      (.unary (by decide) rfl (.name hx))))) .none
  have hscan : scan? a = some (tokensOf (canonicalOf [.expression difference])) := by decide +kernel
  have hscan' : scan? b = some (tokensOf (canonicalOf [.expression difference])) := by decide +kernel
  obtain ⟨ha, hread⟩ := ofSource_of_scan hscan hprogram.reads
  obtain ⟨hb, hread'⟩ := ofSource_of_scan hscan' hprogram.reads
  have hdump : dumpProgram (canonicalOf [.expression difference]) =
      Bytes.ofString "(; (- x (- x)))" := by decide +kernel
  rw [← hread, dumpProgram_unplaced] at hdump
  have hdump' := hdump
  rw [← dumpProgram_unplaced, hread, ← hread', dumpProgram_unplaced] at hdump'
  exact ⟨ha, hb, hdump', (dump_determines_program a b ha hb).1 (hdump.trans hdump'.symm)⟩

end Programs

end BlockScript
