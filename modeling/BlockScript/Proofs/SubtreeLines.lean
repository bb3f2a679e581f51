import BlockScript.Proofs.EventLines

/-! Which line a part of a program is on. It is the line of the first name or operator in source
order, as long as no condition is in the way: of a condition only the tested expression counts, so
one that tests literals only has no line although its branches have names. -/

namespace BlockScript

open Token Grammar

def Grammar.Leaf.token? : Leaf → Option Token
  | .token t => some t
  | .literal _ => none

/-- A node of a program together with all that is below it. -/
inductive Subtree
  | expression (e : Expr)
  | statement (s : Stmt)

/-- The names and operators that the nodes of an expression hold, in source order. -/
def Expr.stored (e : Expr) : List Token := e.leaves.filterMap Leaf.token?

def Stmt.stored (s : Stmt) : List Token := s.leaves.filterMap Leaf.token?

def Expr.operands : Expr → List Expr
  | .absent | .literal _ | .name _ => []
  | .assign _ e | .grouping e | .unary _ e => [e]
  | .binary l _ r | .logical l _ r => [l, r]

namespace Subtree

def line : Subtree → Int
  | expression e => e.line
  | statement s => s.line

def leaves : Subtree → List Leaf
  | expression e => e.leaves
  | statement s => s.leaves

def stored : Subtree → List Token
  | expression e => e.stored
  | statement s => s.stored

theorem stored_eq_filterMap (n : Subtree) : n.stored = n.leaves.filterMap Leaf.token? := by
  cases n <;> rfl

/-- An absent child counts as one that holds nothing. -/
def children : Subtree → List Subtree
  | expression e => e.operands.map expression
  | statement .absent => []
  | statement (.block body) => body.map statement
  | statement (.expression e) | statement (.print e) | statement (.declare _ e) => [expression e]
  | statement (.ifElse c s f) => [expression c, statement s, statement f]

inductive Within (program : List Stmt) : Subtree → Prop
  | root {s} (h : s ∈ program) : Within program (statement s)
  | child {n c} (h : Within program n) (hc : c ∈ n.children) : Within program c

theorem leaves_infix_of_mem {s : Stmt} {body : List Stmt} (h : s ∈ body) :
    s.leaves <:+: leavesOf body := by
  induction body with
  | nil => cases h
  | cons first rest ih =>
    rw [leavesOf]
    rcases List.mem_cons.1 h with rfl | h
    · exact (List.prefix_append _ _).isInfix
    · exact (ih h).trans (List.suffix_append _ _).isInfix

theorem leaves_infix_of_operand {e operand : Expr} (h : operand ∈ e.operands) :
    operand.leaves <:+: e.leaves := by
  cases e with
  | absent | literal _ | name _ => cases h
  | grouping _ =>
    obtain rfl := List.mem_singleton.1 h
    rw [Expr.leaves]
  | assign _ _ | unary _ _ =>
    obtain rfl := List.mem_singleton.1 h
    rw [Expr.leaves]
    exact (List.suffix_cons _ _).isInfix
  | binary l t r | logical l t r =>
    rw [Expr.leaves]
    rcases List.mem_cons.1 h with rfl | h
    · exact (List.prefix_append _ _).isInfix
    · obtain rfl := List.mem_singleton.1 h
      exact ((List.suffix_cons _ _).trans (List.suffix_append _ _)).isInfix

/-- What a child holds stands together in what its parent holds. -/
theorem leaves_infix_of_child {n c : Subtree} (h : c ∈ n.children) : c.leaves <:+: n.leaves := by
  cases n with
  | expression e =>
    obtain ⟨operand, hoperand, rfl⟩ := List.mem_map.1 h
    exact leaves_infix_of_operand hoperand
  | statement s =>
    cases s with
    | absent => cases h
    | block body =>
      obtain ⟨s, hs, rfl⟩ := List.mem_map.1 h
      rw [leaves, leaves, Stmt.leaves]
      exact leaves_infix_of_mem hs
    | expression e | print e =>
      obtain rfl := List.mem_singleton.1 h
      rw [leaves, leaves, Stmt.leaves]
    | declare x e =>
      obtain rfl := List.mem_singleton.1 h
      rw [leaves, leaves, Stmt.leaves]
      exact (List.suffix_cons _ _).isInfix
    | ifElse c s f =>
      have hleaves : (statement (.ifElse c s f)).leaves = c.leaves ++ s.leaves ++ f.leaves := by
        rw [leaves, Stmt.leaves]
      simp only [children, List.mem_cons, List.not_mem_nil, or_false] at h
      rw [hleaves]
      rcases h with rfl | rfl | rfl
      · rw [List.append_assoc]
        exact (List.prefix_append _ _).isInfix
      · exact List.infix_append _ _ _
      · exact (List.suffix_append _ _).isInfix

theorem Within.leaves_infix {program : List Stmt} {n : Subtree} (h : Within program n) :
    n.leaves <:+: leavesOf program := by
  induction h with
  | root hs => exact leaves_infix_of_mem hs
  | child _ hc ih => exact (leaves_infix_of_child hc).trans ih

end Subtree

/-- The names and operators held by a program are some of its tokens, in their order. -/
theorem stored_sublist (ts : List Token) :
    ((ts.filterMap leaf?).filterMap Leaf.token?).Sublist ts := by
  have hsame {t u : Token} (h : (leaf? t).bind Leaf.token? = some u) : u = t := by
    obtain ⟨leaf, hleaf, hu⟩ := Option.bind_eq_some_iff.1 h
    obtain ⟨keep, hkeep, rfl⟩ := Option.map_eq_some_iff.1 hleaf
    unfold keeps at hkeep
    split at hkeep <;> cases hkeep <;> cases hu <;> rfl
  rw [List.filterMap_filterMap]
  induction ts with
  | nil => exact .slnil
  | cons t ts ih =>
    rw [List.filterMap_cons]
    split
    · exact ih.cons t
    · next u hu =>
      rw [hsame hu]
      exact ih.cons_cons t

/-- The line of the first of some tokens, zero if there is none. -/
def lineOfFirst (ts : List Token) : Int := (ts.head?.map Token.line).getD 0

theorem lineOfFirst_eq_zero_iff {ts : List Token} (h : ∀ t ∈ ts, 0 < t.line) :
    lineOfFirst ts = 0 ↔ ts = [] := by
  cases ts with
  | nil => exact iff_of_true rfl rfl
  | cons t ts =>
    have := h t List.mem_cons_self
    simp only [lineOfFirst, List.head?_cons, Option.map_some, Option.getD_some, reduceCtorEq,
      iff_false]
    omega

/-- Lines are positive, so zero tells that there was no token. -/
theorem lineOfFirst_append {ts : List Token} (h : ∀ t ∈ ts, 0 < t.line) (us : List Token) :
    lineOfFirst (ts ++ us) = Expr.firstLine (lineOfFirst ts) (lineOfFirst us) := by
  cases ts with
  | nil => rfl
  | cons t ts => exact (if_pos (h t List.mem_cons_self)).symm

theorem Expr.line_eq_first {e : Expr} (h : ∀ t ∈ e.stored, 0 < t.line) :
    e.line = lineOfFirst e.stored := by
  induction e with
  | absent | literal _ | name _ | assign _ _ _ | unary _ _ _ => rfl
  | grouping e ih => exact ih h
  | binary l t r ihl _ | logical l t r ihl _ =>
    rw [stored, leaves, List.filterMap_append, List.forall_mem_append] at h
    rw [stored, leaves, List.filterMap_append, lineOfFirst_append h.1, line, ihl h.1]
    rfl

mutual

/-- The names and operators of a statement that are in no branch of a condition. -/
def Stmt.seen : Stmt → List Token
  | .absent => []
  | .block body => seenOf body
  | .expression e | .print e => e.stored
  | .ifElse condition _ _ => condition.stored
  | .declare name initial => name :: initial.stored

def seenOf : List Stmt → List Token
  | [] => []
  | s :: rest => s.seen ++ seenOf rest

end

mutual

theorem Stmt.line_eq_first {s : Stmt} (h : ∀ t ∈ s.seen, 0 < t.line) :
    s.line = lineOfFirst s.seen := by
  cases s with
  | absent =>
    rw [Stmt.line, Stmt.seen]
    rfl
  | declare name initial =>
    rw [Stmt.line, Stmt.seen]
    rfl
  | expression e | print e | ifElse e _ _ =>
    rw [Stmt.seen] at h
    rw [Stmt.line, Stmt.seen, e.line_eq_first h]
  | block body =>
    rw [Stmt.seen] at h
    rw [Stmt.line, Stmt.seen, firstLineOf_eq_first h]

theorem firstLineOf_eq_first {body : List Stmt} (h : ∀ t ∈ seenOf body, 0 < t.line) :
    Stmt.firstLineOf body = lineOfFirst (seenOf body) := by
  cases body with
  | nil =>
    rw [Stmt.firstLineOf, seenOf]
    rfl
  | cons s rest =>
    rw [seenOf, List.forall_mem_append] at h
    rw [Stmt.firstLineOf, seenOf, lineOfFirst_append h.1, Stmt.line_eq_first h.1,
      firstLineOf_eq_first h.2]
    rfl

end

def storedOf (body : List Stmt) : List Token := (leavesOf body).filterMap Leaf.token?

theorem storedOf_cons (s : Stmt) (rest : List Stmt) :
    storedOf (s :: rest) = s.stored ++ storedOf rest := by
  rw [storedOf, leavesOf, List.filterMap_append]
  rfl

theorem Stmt.stored_ifElse (c : Expr) (s f : Stmt) :
    (ifElse c s f).stored = c.stored ++ (s.stored ++ f.stored) := by
  rw [stored, leaves, List.filterMap_append, List.filterMap_append, List.append_assoc]
  rfl

theorem Stmt.stored_block (body : List Stmt) : (block body).stored = storedOf body := by
  rw [stored, leaves, storedOf]

mutual

theorem Stmt.seen_sublist (s : Stmt) : s.seen.Sublist s.stored := by
  cases s with
  | absent | expression e | print e | declare name initial =>
    rw [Stmt.seen, Stmt.stored, Stmt.leaves]
    exact List.Sublist.refl _
  | ifElse c s f =>
    rw [Stmt.seen, Stmt.stored_ifElse]
    exact List.sublist_append_left _ _
  | block body =>
    rw [Stmt.seen, Stmt.stored_block]
    exact seenOf_sublist body

theorem seenOf_sublist (body : List Stmt) : (seenOf body).Sublist (storedOf body) := by
  cases body with
  | nil =>
    rw [seenOf]
    exact List.nil_sublist _
  | cons s rest =>
    rw [seenOf, storedOf_cons]
    exact s.seen_sublist.append (seenOf_sublist rest)

end

mutual

/-- No condition in the statement, branches of others aside, has names or operators in its branches
only. -/
def Stmt.Tested : Stmt → Prop
  | .absent | .expression _ | .print _ | .declare _ _ => True
  | .block body => TestedAll body
  | .ifElse condition onTrue onFalse =>
    condition.stored = [] → onTrue.stored = [] ∧ onFalse.stored = []

def TestedAll : List Stmt → Prop
  | [] => True
  | s :: rest => s.Tested ∧ TestedAll rest

end

mutual

theorem Stmt.Tested.head_seen {s : Stmt} (h : s.Tested) : s.seen.head? = s.stored.head? := by
  cases s with
  | absent | expression e | print e | declare name initial =>
    rw [Stmt.seen, Stmt.stored, Stmt.leaves]
    rfl
  | ifElse c s f =>
    rw [Stmt.Tested] at h
    rw [Stmt.seen, Stmt.stored_ifElse, List.head?_append]
    cases hc : c.stored with
    | nil =>
      obtain ⟨hs, hf⟩ := h hc
      rw [hs, hf]
      rfl
    | cons t ts => rfl
  | block body =>
    rw [Stmt.Tested] at h
    rw [Stmt.seen, Stmt.stored_block]
    exact head_seenOf h

theorem head_seenOf {body : List Stmt} (h : TestedAll body) :
    (seenOf body).head? = (storedOf body).head? := by
  cases body with
  | nil => rw [seenOf, storedOf, leavesOf]; rfl
  | cons s rest =>
    rw [TestedAll] at h
    rw [seenOf, storedOf_cons, List.head?_append, List.head?_append, h.1.head_seen,
      head_seenOf h.2]

end

namespace Subtree

def seen : Subtree → List Token
  | expression e => e.stored
  | statement s => s.seen

def Tested : Subtree → Prop
  | expression _ => True
  | statement s => s.Tested

variable {n : Subtree} {program : List Stmt}

theorem seen_sublist (n : Subtree) : n.seen.Sublist n.stored := by
  cases n with
  | expression e => exact .refl _
  | statement s => exact s.seen_sublist

theorem line_eq_first (h : ∀ t ∈ n.stored, 0 < t.line) : n.line = lineOfFirst n.seen := by
  cases n with
  | expression e => exact e.line_eq_first h
  | statement s => exact s.line_eq_first fun t ht => h t (s.seen_sublist.subset ht)

theorem Tested.head_seen (h : n.Tested) : n.seen.head? = n.stored.head? := by
  cases n with
  | expression e => rfl
  | statement s => exact Stmt.Tested.head_seen h

/-- Every condition of a program that has names or operators has one in what it tests. -/
def NamesTested (program : List Stmt) : Prop :=
  ∀ c s f, Within program (statement (.ifElse c s f)) → c.stored = [] →
    s.stored = [] ∧ f.stored = []

mutual

theorem NamesTested.statement (h : NamesTested program) {s : Stmt}
    (hs : Within program (.statement s)) : s.Tested := by
  cases s with
  | absent | expression _ | print _ | declare _ _ =>
    rw [Stmt.Tested]
    trivial
  | ifElse c s f =>
    rw [Stmt.Tested]
    exact h c s f hs
  | block body =>
    rw [Stmt.Tested]
    exact h.body fun s hmem => .child hs (List.mem_map_of_mem hmem)

theorem NamesTested.body (h : NamesTested program) {body : List Stmt}
    (hbody : ∀ s ∈ body, Within program (.statement s)) : TestedAll body := by
  cases body with
  | nil =>
    rw [TestedAll]
    trivial
  | cons s rest =>
    rw [TestedAll]
    exact ⟨h.statement (hbody s List.mem_cons_self),
      h.body fun s hmem => hbody s (List.mem_cons_of_mem _ hmem)⟩

end

theorem NamesTested.subtree (h : NamesTested program) (hn : Within program n) : n.Tested := by
  cases n with
  | expression _ => trivial
  | statement s => exact h.statement hn

/-- The names and operators of a subtree are tokens of the source, in their order. -/
theorem Within.stored_sublist {source : Bytes} (h : Within (Parsed.ofSource source).statements n) :
    n.stored.Sublist (lex source).tokens := by
  obtain ⟨ts, hts, -, hprogram⟩ := Parsed.survives source
  have hleaves : ts.filterMap leaf? = leavesOf (Parsed.ofSource source).statements :=
    Reads.leaves hprogram
  have hall := BlockScript.stored_sublist ts
  rw [hleaves] at hall
  rw [stored_eq_filterMap]
  exact ((h.leaves_infix.sublist.filterMap _).trans hall).trans hts

theorem ofSource_of_lex {source : Bytes} {body : List Token} {last : Int}
    (hlex : lex source = ⟨body ++ [finish last], []⟩) (hbody : ∀ t ∈ body, t.kind ≠ .endOfFile)
    (h : Program body program) :
    (Parsed.ofSource source).diagnostics = [] ∧ (Parsed.ofSource source).statements = program := by
  have hread := (ofTokens_eq_iff (show (finish last).kind = .endOfFile from rfl) hbody).2 h
  simpa only [Parsed.ofSource, hlex, List.nil_append] using hread

/-- In what is read of any source, a subtree is on the line of the first name or operator that it
holds in source order, the branches of conditions left aside; the line is zero if there is none. The
first of all it holds gives the line wherever no condition has names or operators in its branches
only. Such a condition itself has no line, so this is so everywhere in exactly the programs without
one. -/
theorem line_is_first_outside_branches (source : Bytes) :
    let program := (Parsed.ofSource source).statements
    (∀ n : Subtree, Within program n →
      n.stored.Sublist (lex source).tokens ∧ (∀ t ∈ n.stored, 0 < t.line) ∧
      n.seen.Sublist n.stored ∧ n.line = lineOfFirst n.seen ∧ (n.line = 0 ↔ n.seen = []) ∧
      (n.Tested → n.line = lineOfFirst n.stored ∧ (n.line = 0 ↔ n.stored = []))) ∧
    ((∀ n : Subtree, Within program n → n.line = lineOfFirst n.stored) ↔ NamesTested program) := by
  intro program
  have hpositive {n : Subtree} (hn : Within program n) : ∀ t ∈ n.stored, 0 < t.line := by
    intro t ht
    have := (line_of_mem_lex (hn.stored_sublist.subset ht)).1
    omega
  have htested {n : Subtree} (hn : Within program n) (h : n.Tested) :
      n.line = lineOfFirst n.stored := by
    rw [line_eq_first (hpositive hn), lineOfFirst, lineOfFirst, h.head_seen]
  refine ⟨?_, ?_, ?_⟩
  · intro n hn
    have hline := line_eq_first (hpositive hn)
    have hseen : ∀ t ∈ n.seen, 0 < t.line := fun t ht => hpositive hn t (n.seen_sublist.subset ht)
    refine ⟨hn.stored_sublist, hpositive hn, n.seen_sublist, hline, ?_, ?_⟩
    · rw [hline, lineOfFirst_eq_zero_iff hseen]
    · intro h
      rw [htested hn h, lineOfFirst_eq_zero_iff (hpositive hn)]
      exact ⟨rfl, Iff.rfl⟩
  · intro hall c s f hn hc
    -- Nothing is seen of this condition, so its line is zero.
    have hzero : (statement (.ifElse c s f)).line = 0 := by
      rw [line_eq_first (hpositive hn), seen, Stmt.seen, hc]
      rfl
    have hnone : (statement (.ifElse c s f)).stored = [] := by
      rw [← lineOfFirst_eq_zero_iff (hpositive hn), ← hall _ hn, hzero]
    rw [stored, Stmt.stored_ifElse, hc] at hnone
    exact List.append_eq_nil_iff.1 hnone
  · intro h n hn
    exact htested hn (h.subtree hn)

/-- A block is on the line of its second statement if the first has neither name nor operator. -/
theorem block_is_on_line_of_first_operator :
    let source := Bytes.ofString "\x7b null;\n!x; \x7d"
    let bang : Token := ⟨.bang, [33], 2, .null⟩
    let x : Token := ⟨.identifier, [120], 2, .null⟩
    let block := statement (.block
      [.expression (.literal .null), .expression (.unary bang (.name x))])
    Within (Parsed.ofSource source).statements block ∧ block.Tested ∧ block.stored = [bang, x] ∧
      block.line = 2 := by
  intro source bang x block
  let at1 (kind : Kind) : Token := ⟨kind, kind.spelling, 1, .null⟩
  let at2 (kind : Kind) : Token := ⟨kind, kind.spelling, 2, .null⟩
  have hlex : lex source = ⟨[at1 .leftBrace, at1 .nullWord, at1 .semicolon, bang, x, at2 .semicolon,
      at2 .rightBrace] ++ [finish 2], []⟩ := by decide +kernel
  have hnull : Reads ([at1 .nullWord] ++ [at1 .semicolon])
      (.declaration (.expression (.literal .null))) :=
    .statement (.expression ((Derives.primary (.nullLiteral rfl)).toExpression (by omega)) rfl)
  have hname : Derives (.level 0) [x] (.name x) := .primary (.name rfl)
  have hbang : Reads ([bang, x] ++ [at2 .semicolon])
      (.declaration (.expression (.unary bang (.name x)))) :=
    .statement (.expression ((Derives.unary (by decide) hname).toExpression (by omega)) rfl)
  have hblock := Reads.block (l := at1 .leftBrace) (r := at2 .rightBrace) rfl
    (.more hnull (.more hbang .none)) rfl
  have hstatements := (ofSource_of_lex hlex (by decide) (.more (.statement hblock) .none)).2
  have hwithin : Within (Parsed.ofSource source).statements block := by
    rw [hstatements]
    exact .root List.mem_cons_self
  have htested : block.Tested := by simp [block, Tested, Stmt.Tested, TestedAll]
  have hstored : block.stored = [bang, x] := by
    simp only [block, stored, Stmt.stored, Stmt.leaves, leavesOf]
    rfl
  obtain ⟨-, -, -, -, -, hline⟩ := (line_is_first_outside_branches source).1 block hwithin
  refine ⟨hwithin, htested, hstored, ?_⟩
  rw [(hline htested).1, hstored]
  rfl

/-- A condition that tests a literal has no line, although its branch has a name. -/
theorem condition_on_literal_has_no_line :
    let source := Bytes.ofString "if (null) x;"
    let x : Token := ⟨.identifier, [120], 1, .null⟩
    (Parsed.ofSource source).diagnostics = [] ∧
      ∃ n, Within (Parsed.ofSource source).statements n ∧ n.stored = [x] ∧ n.line = 0 := by
  intro source x
  let word (kind : Kind) : Token := ⟨kind, kind.spelling, 1, .null⟩
  have hlex : lex source = ⟨[word .ifWord, word .leftParen, word .nullWord, word .rightParen, x,
      word .semicolon] ++ [finish 1], []⟩ := by decide +kernel
  have htest : Derives .expression [word .nullWord] (.literal .null) :=
    (Derives.primary (.nullLiteral rfl)).toExpression (by omega)
  have hname : Derives .expression [x] (.name x) :=
    (Derives.primary (.name rfl)).toExpression (by omega)
  have hbranch := Reads.expression (q := word .semicolon) hname rfl
  have hif := Reads.ifThen (i := word .ifWord) (l := word .leftParen) (r := word .rightParen)
    rfl rfl htest rfl hbranch
  obtain ⟨hclean, hstatements⟩ := ofSource_of_lex hlex (by decide) (.more (.statement hif) .none)
  refine ⟨hclean, statement (.ifElse (.literal .null) (.expression (.name x)) .absent), ?_, ?_, ?_⟩
  · rw [hstatements]
    exact .root List.mem_cons_self
  · simp only [stored, Stmt.stored, Stmt.leaves]
    rfl
  · simp [line, Stmt.line, Expr.line]

end Subtree

end BlockScript
