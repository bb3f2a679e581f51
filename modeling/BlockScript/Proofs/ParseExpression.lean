import BlockScript.Parser
import BlockScript.Proofs.Grammar

/-! The expression parser accepts exactly the derivations of the grammar, and as much of its input
as a derivation can cover. What it gives for any tokens at all, faults included, is one invariant
with a rule for each way in which productions are put together. -/

namespace BlockScript.Parser

open Grammar

variable {α β : Type} {tokens : List Token}

/-- Reading fewer tokens is progress. -/
theorem progress_of_lt {a b c d : Nat} (h : a < c) : Prod.Lex (· < ·) (· < ·) (a, b) (c, d) :=
  .left _ _ h

/-- Going on with a tighter rule is progress even where nothing was read. -/
theorem progress_of_le {a b c d : Nat} (h : a ≤ c) (k : b < d) :
    Prod.Lex (· < ·) (· < ·) (a, b) (c, d) := by
  cases Nat.lt_or_eq_of_le h with
  | inl h => exact .left _ _ h
  | inr h => exact h ▸ .right _ k

def Reply.accept (a : α) (rest : List Token) : Reply α := ⟨.ok a, rest, []⟩

def Reply.behind (reports : List Fault) (r : Reply α) : Reply α :=
  { r with reports := reports ++ r.reports }

theorem andThen_of_ok {first : Step α tokens}
    {next : (a : α) → (rest : List Token) → rest.length ≤ tokens.length → Step β rest}
    {a : α} {mid : List Token} {reports : List Fault} (h : first.val = ⟨.ok a, mid, reports⟩) :
    (first.andThen next).val = (next a mid (h ▸ first.property :)).val.behind reports := by
  obtain ⟨reply, hlen⟩ := first
  obtain rfl : reply = ⟨.ok a, mid, reports⟩ := h
  rfl

theorem andThen_of_accept {first : Step α tokens}
    {next : (a : α) → (rest : List Token) → rest.length ≤ tokens.length → Step β rest}
    {a : α} {mid : List Token} (h : first.val = .accept a mid) :
    (first.andThen next).val = (next a mid (h ▸ first.property :)).val :=
  andThen_of_ok h

@[simp] theorem after_val {ts : List Token} (s : Step α ts) (h : ts.length ≤ tokens.length) :
    (s.after h).val = s.val := rfl

@[simp] theorem expect_eq_accept {kind : Token.Kind} {cause : Cause} {t : Token}
    {rest : List Token} :
    (expect kind cause tokens).val = .accept t rest ↔ tokens = t :: rest ∧ t.kind = kind := by
  unfold expect
  split
  · simp [Reply.accept]
  · split <;> simp [Reply.accept] <;> grind

def lookahead (tokens : List Token) : Option Token.Kind := tokens.head?.map (·.kind)

@[simp] theorem lookahead_nil : lookahead [] = none := rfl

@[simp] theorem lookahead_cons (t : Token) (ts : List Token) :
    lookahead (t :: ts) = some t.kind := rfl

theorem joins_iff (level : Nat) (kind : Token.Kind) :
    joins level kind = true ↔ kind ∈ operators level := by
  constructor
  · intro h
    unfold joins at h
    split at h
    case h_13 => cases h
    all_goals simp [operators]
  · exact operators_cases (P := fun n k => joins n k = true) rfl rfl rfl rfl rfl rfl rfl rfl rfl rfl
      rfl rfl

def joinLevel : Token.Kind → Nat
  | .slash | .star => 1
  | .minus | .plus => 2
  | .greater | .greaterEqual | .less | .lessEqual => 3
  | .bangEqual | .equalEqual => 4
  | .andWord => 5
  | .orWord => 6
  | _ => 0

theorem joinLevel_of_mem {n : Nat} {k : Token.Kind} (h : k ∈ operators n) : joinLevel k = n :=
  operators_cases (P := fun n k => joinLevel k = n)
    rfl rfl rfl rfl rfl rfl rfl rfl rfl rfl rfl rfl h

theorem climb_zero (tokens : List Token) : climb 0 tokens = unary tokens := by rw [climb]

/-- A bare name is a single token. -/
theorem derives_name {r : Rank} {ts : List Token} {target : Token}
    (h : Derives r ts (.name target)) : ts = [target] ∧ target.kind = .identifier := by
  generalize he : Expr.name target = e at h
  induction h with
  | name h => cases he; exact ⟨rfl, h⟩
  | primary _ ih => exact ih he
  | operand _ ih => exact ih he
  | loosest _ ih => exact ih he
  | _ => cases he

theorem derives_join {n : Nat} {t : Token} {ls rs : List Token} {l r : Expr}
    (ht : t.kind ∈ operators (n + 1)) (hl : Derives (.level (n + 1)) ls l)
    (hr : Derives (.level n) rs r) :
    Derives (.level (n + 1)) (ls ++ t :: rs) (join (n + 1) l t r) := by
  unfold join
  split
  · next hn => exact .logical hn ht hl hr
  · exact .binary (by omega) ht hl hr

def Reply.faults (r : Reply α) : List Fault :=
  match r.outcome with
  | .ok _ => r.reports
  | .error f => r.reports ++ [f]

theorem faults_behind (r : Reply α) (reports : List Fault) :
    (r.behind reports).faults = reports ++ r.faults := by
  obtain ⟨outcome, rest, more⟩ := r
  cases outcome with
  | ok a => rfl
  | error f => exact List.append_assoc ..

/-- What a production makes of some tokens. It reads a front part of them, and a fault is found at
one of them or at the end. A result is made of some of the tokens read, in their order, and of all
of them if there is nothing to report; `P` knows these and the tokens not yet read. -/
structure Reply.Yields (r : Reply α) (tokens : List Token)
    (P : List Token → α → List Token → Prop) : Prop where
  found : ∀ f ∈ r.faults, ∀ t ∈ f.found, t ∈ tokens
  result : ∃ read, tokens = read ++ r.rest ∧ ∀ a, r.outcome = .ok a →
    ∃ ts, ts.Sublist read ∧ (r.reports = [] → ts = read) ∧ P ts a r.rest

namespace Reply.Yields

variable {P Q : List Token → α → List Token → Prop} {R : List Token → β → List Token → Prop}
  {r : Reply α} {after : List Token}

theorem done {a : α} (h : P [] a tokens) : (Step.done a tokens).val.Yields tokens P := by
  refine ⟨List.forall_mem_nil _, [], rfl, ?_⟩
  intro b hb
  obtain rfl := Except.ok.inj hb
  exact ⟨[], .slnil, fun _ => rfl, h⟩

/-- A fault at the next token has no result. -/
theorem refused {f : Fault} (h : f.found = tokens.head?) :
    (Reply.mk (.error f) tokens []).Yields tokens P := by
  refine ⟨?_, [], rfl, ?_⟩
  · intro g hg t ht
    obtain rfl := List.mem_singleton.1 hg
    rw [h] at ht
    exact List.mem_of_mem_head? ht
  · intro a ha
    cases ha

theorem fail {cause : Cause} : (Step.fail cause tokens).val.Yields tokens P := refused rfl

theorem keep (t : Token) (h : r.Yields after fun ts => P (t :: ts)) :
    r.Yields (t :: after) P := by
  obtain ⟨hfound, read, rfl, hread⟩ := h
  refine ⟨fun f hf u hu => List.mem_cons_of_mem t (hfound f hf u hu), t :: read, rfl, ?_⟩
  intro a ha
  obtain ⟨ts, hts, hall, hP⟩ := hread a ha
  exact ⟨t :: ts, hts.cons_cons t, fun hnone => congrArg (t :: ·) (hall hnone), hP⟩

theorem expect (kind : Token.Kind) (cause : Cause) (tokens : List Token) :
    (expect kind cause tokens).val.Yields tokens fun ts t _ => ts = [t] ∧ t.kind = kind := by
  unfold Parser.expect
  split
  · exact refused rfl
  · next t rest =>
    split
    · next hkind => exact .keep t (.done ⟨rfl, hkind⟩)
    · exact refused rfl

theorem mono (h : r.Yields tokens P) (hPQ : ∀ ts a rest, P ts a rest → Q ts a rest) :
    r.Yields tokens Q := by
  obtain ⟨hfound, read, htokens, hread⟩ := h
  refine ⟨hfound, read, htokens, ?_⟩
  intro a ha
  obtain ⟨ts, hts, hall, hP⟩ := hread a ha
  exact ⟨ts, hts, hall, hPQ ts a _ hP⟩

theorem andThen {first : Step α tokens}
    {next : (a : α) → (rest : List Token) → rest.length ≤ tokens.length → Step β rest}
    (hfirst : first.val.Yields tokens P)
    (hnext : ∀ ts a mid hmid, P ts a mid →
      (next a mid hmid).val.Yields mid fun us => R (ts ++ us)) :
    (first.andThen next).val.Yields tokens R := by
  obtain ⟨⟨outcome, mid, reports⟩, hlen⟩ := first
  obtain ⟨hfound, read, htokens, hread⟩ := hfirst
  cases outcome with
  | error f =>
    refine ⟨hfound, read, htokens, ?_⟩
    intro b hb
    cases hb
  | ok a =>
    obtain ⟨ts, hts, hall, hP⟩ := hread a rfl
    obtain ⟨hfound', more, hmore, hlast⟩ := hnext ts a mid hlen hP
    rw [andThen_of_ok rfl]
    refine ⟨?_, read ++ more, ?_, ?_⟩
    · intro f hf t ht
      rw [faults_behind] at hf
      rcases List.mem_append.1 hf with hf | hf
      · exact hfound f hf t ht
      · rw [htokens]
        exact List.mem_append_right _ (hfound' f hf t ht)
    · rw [List.append_assoc]
      exact htokens.trans (congrArg (read ++ ·) hmore)
    · intro b hb
      obtain ⟨us, hus, hall', hR⟩ := hlast b hb
      refine ⟨ts ++ us, hts.append hus, ?_, hR⟩
      intro hnone
      obtain ⟨hfirst, hsecond⟩ := List.append_eq_nil_iff.1 hnone
      rw [hall hfirst, hall' hsecond]

/-- What is read behind a token and then given up is reported at that token. -/
theorem unused {t : Token} {first : Step α (t :: after)} (hfirst : first.val.Yields after P)
    (cause : Cause) {b : β} (hb : ∀ rest, R [] b rest) :
    (first.andThen fun _ rest _ => (Step.done b rest).report ⟨some t, cause⟩).val.Yields
      (t :: after) R := by
  obtain ⟨⟨outcome, mid, reports⟩, hlen⟩ := first
  obtain ⟨hfound, read, hread, -⟩ := hfirst
  have hall : t :: after = (t :: read) ++ mid := congrArg (t :: ·) hread
  have hbehind := fun g hg u hu => List.mem_cons_of_mem t (hfound g hg u hu)
  cases outcome with
  | error f =>
    refine ⟨hbehind, t :: read, hall, ?_⟩
    intro c hc
    cases hc
  | ok a =>
    refine ⟨?_, t :: read, hall, ?_⟩
    · intro g hg u hu
      rcases List.mem_append.1 hg with hg | hg
      · exact hbehind g hg u hu
      · obtain rfl := List.mem_singleton.1 hg
        obtain rfl := Option.some.inj hu
        exact List.mem_cons_self
    · intro c hc
      obtain rfl := Except.ok.inj hc
      refine ⟨[], List.nil_sublist _, ?_, hb mid⟩
      intro hnone
      cases (List.append_eq_nil_iff.1 hnone).2

end Reply.Yields

/-! What each production makes of its tokens. The recursion is the parser's own: fewer tokens, or a
tighter rule on the same ones. -/

mutual

theorem expression_yields (tokens : List Token) :
    (expression tokens).val.Yields tokens fun ts e _ => Derives .expression ts e := by
  rw [expression]
  apply (climb_yields loosest tokens).andThen
  intro ls left mid hmid hleft
  cases mid with
  | nil => exact .done (by simpa using hleft.loosest)
  | cons t after =>
    dsimp only
    split
    · next ht =>
      split
      · next target =>
        obtain ⟨rfl, htarget⟩ := derives_name hleft
        have hright := (expression_yields after).mono fun ts e _ => Derives.assign htarget ht
        let P ts e (_ : List Token) := Derives .expression (target :: ts) (.assign target e)
        apply (hright.keep t (P := P)).andThen
        intro ts value rest _ hvalue
        exact .done (by simpa using hvalue)
      · -- The left side stays as the expression.
        exact (expression_yields after).unused _ fun _ => by simpa using hleft.loosest
    · exact .done (by simpa using hleft.loosest)
termination_by (tokens.length, loosest + 3)
decreasing_by
  · exact progress_of_le (Nat.le_refl _) (by omega)
  · exact progress_of_lt hmid
  · exact progress_of_lt hmid

theorem climb_yields (n : Nat) (tokens : List Token) :
    (climb n tokens).val.Yields tokens fun ts e _ => Derives (.level n) ts e := by
  cases n with
  | zero =>
    rw [climb_zero]
    exact unary_yields tokens
  | succ n =>
    rw [climb]
    apply (climb_yields n tokens).andThen
    intro ls left mid hmid hleft
    exact climbOn_yields hleft.operand mid
termination_by (tokens.length, n + 2)
decreasing_by
  · exact progress_of_le (Nat.le_refl _) (by omega)
  · exact progress_of_le (Nat.le_refl _) (by omega)
  · exact progress_of_le hmid (by omega)

theorem climbOn_yields {n : Nat} {left : Expr} {ls : List Token}
    (hleft : Derives (.level (n + 1)) ls left) (tokens : List Token) :
    (climbOn n left tokens).val.Yields tokens fun ts e _ =>
      Derives (.level (n + 1)) (ls ++ ts) e := by
  cases tokens with
  | nil =>
    rw [climbOn]
    exact .done (by simpa using hleft)
  | cons t after =>
    rw [climbOn]
    split
    · next ht =>
      apply Reply.Yields.keep t
      apply (climb_yields n after).andThen
      intro rs right mid hmid hright
      have hjoin := derives_join ((joins_iff _ _).1 ht) hleft hright
      simpa using climbOn_yields hjoin mid
    · exact .done (by simpa using hleft)
termination_by (tokens.length, n + 2)
decreasing_by
  · exact progress_of_lt (Nat.lt_succ_self _)
  · exact progress_of_lt (Nat.lt_succ_of_le hmid)

theorem unary_yields (tokens : List Token) :
    (unary tokens).val.Yields tokens fun ts e _ => Derives (.level 0) ts e := by
  cases tokens with
  | nil =>
    rw [unary]
    exact .fail
  | cons t after =>
    rw [unary]
    split
    · next ht =>
      apply Reply.Yields.keep t
      apply (unary_yields after).andThen
      intro ts operand rest _ hoperand
      exact .done (by simpa using Derives.unary (by simpa using ht) hoperand)
    · exact (primary_yields t after).mono fun _ _ _ => .primary
termination_by (tokens.length, 1)
decreasing_by
  · exact progress_of_le (Nat.le_refl _) (by omega)
  · exact progress_of_lt (Nat.lt_succ_self _)

theorem primary_yields (t : Token) (after : List Token) :
    (primary t after).val.Yields (t :: after) fun ts e _ => Derives .primary ts e := by
  rw [primary]
  split
  · next ht => exact .keep t (.done (.falseLiteral ht))
  · next ht => exact .keep t (.done (.trueLiteral ht))
  · next ht => exact .keep t (.done (.nullLiteral ht))
  · next ht => exact .keep t (.done (.number ht))
  · next ht => exact .keep t (.done (.string ht))
  · next ht => exact .keep t (.done (.name ht))
  · next ht =>
    apply Reply.Yields.keep t
    apply (expression_yields after).andThen
    intro ts inner mid _ hinner
    apply (Reply.Yields.expect .rightParen .parenAfterExpression mid).andThen
    rintro _ r rest _ ⟨rfl, hr⟩
    exact .done (Derives.grouping ht hinner hr)
  · exact .fail
termination_by (after.length + 1, 0)
decreasing_by
  exact progress_of_lt (Nat.lt_succ_self _)

end

def Stops (n : Nat) (rest : List Token) : Prop := ∀ k ∈ lookahead rest, ∀ m ≤ n, k ∉ operators m

theorem Stops.mono {m n : Nat} {rest : List Token} (h : Stops n rest) (hmn : m ≤ n) :
    Stops m rest := fun k hk i hi => h k hk i (Nat.le_trans hi hmn)

theorem Stops.of_operator {n : Nat} {t : Token} {ts : List Token}
    (ht : t.kind ∈ operators (n + 1)) : Stops n (t :: ts) := by
  intro k hk m hm hop
  cases hk
  have hlevel := joinLevel_of_mem ht
  rw [joinLevel_of_mem hop] at hlevel
  omega

theorem Stops.of_joinLevel {n : Nat} {t : Token} {ts : List Token}
    (ht : joinLevel t.kind = 0) : Stops n (t :: ts) := by
  intro k hk m _ hop
  cases hk
  obtain rfl := ht.symm.trans (joinLevel_of_mem hop)
  cases hop

theorem climbOn_stops {n : Nat} {left : Expr} (h : Stops (n + 1) tokens) :
    (climbOn n left tokens).val = .accept left tokens := by
  cases tokens with
  | nil => rw [climbOn]; rfl
  | cons t after =>
    have ht : ¬ joins (n + 1) t.kind = true := by
      rw [joins_iff]
      exact h t.kind rfl (n + 1) (Nat.le_refl _)
    rw [climbOn, if_neg ht]
    rfl

theorem climbOn_joins {n : Nat} {left right : Expr} {t : Token} {after mid : List Token}
    (ht : t.kind ∈ operators (n + 1)) (hright : (climb n after).val = .accept right mid) :
    (climbOn n left (t :: after)).val = (climbOn n (join (n + 1) left t right) mid).val := by
  rw [climbOn, if_pos ((joins_iff _ _).2 ht), after_val, andThen_of_accept hright]

theorem climb_continues {n : Nat} {left : Expr} {mid : List Token}
    (hleft : (climb n tokens).val = .accept left mid) :
    (climb (n + 1) tokens).val = (climbOn n left mid).val := by
  rw [climb, andThen_of_accept hleft]

/-- What a derivation promises about the parser on its tokens and any others behind them. A chain
may go on, so that there the promise is where the parser stands and not where it stops. -/
def Covered : Rank → List Token → Expr → Prop
  | .primary, ts, e | .level 0, ts, e => ∀ rest, (unary (ts ++ rest)).val = .accept e rest
  | .level (n + 1), ts, e =>
    ∀ rest, Stops n rest → (climb (n + 1) (ts ++ rest)).val = (climbOn n e rest).val
  | .expression, ts, e =>
    ∀ rest, Stops loosest rest → lookahead rest ≠ some .equal →
      (expression (ts ++ rest)).val = .accept e rest

theorem Covered.climb {n : Nat} {ts rest : List Token} {e : Expr} (h : Covered (.level n) ts e)
    (hrest : Stops n rest) : (climb n (ts ++ rest)).val = .accept e rest := by
  cases n with
  | zero => rw [climb_zero]; exact h rest
  | succ n =>
    rw [h rest (hrest.mono (Nat.le_succ n))]
    exact climbOn_stops hrest

theorem expression_plain {e : Expr} {rest : List Token}
    (h : (climb loosest tokens).val = .accept e rest) (hrest : lookahead rest ≠ some .equal) :
    (expression tokens).val = .accept e rest := by
  rw [expression, andThen_of_accept h]
  cases rest with
  | nil => rfl
  | cons t after =>
    have ht : t.kind ≠ .equal := by simpa using hrest
    simp only [if_neg ht]
    rfl

theorem expression_assigns {target q : Token} {after rest : List Token} {value : Expr}
    (h : (climb loosest tokens).val = .accept (.name target) (q :: after)) (hq : q.kind = .equal)
    (hvalue : (expression after).val = .accept value rest) :
    (expression tokens).val = .accept (.assign target value) rest := by
  rw [expression, andThen_of_accept h]
  simp only [if_pos hq]
  rw [andThen_of_accept (by rwa [after_val])]
  rfl

theorem unary_of_primary {t : Token} {after : List Token} (h : t.kind ∉ [.bang, .minus]) :
    (unary (t :: after)).val = (primary t after).val := by
  rw [unary, if_neg (by simpa using h)]

theorem primary_groups {l r : Token} {after rest : List Token} {e : Expr}
    (hl : l.kind = .leftParen) (he : (expression after).val = .accept e (r :: rest))
    (hr : r.kind = .rightParen) : (primary l after).val = .accept (.grouping e) rest := by
  rw [primary]
  simp only [hl]
  rw [after_val, andThen_of_accept he, andThen_of_accept (expect_eq_accept.2 ⟨rfl, hr⟩)]
  rfl

theorem covered_join {n : Nat} {t : Token} {ls rs : List Token} {l r : Expr}
    (ht : t.kind ∈ operators (n + 1)) (hl : Covered (.level (n + 1)) ls l)
    (hr : Covered (.level n) rs r) :
    Covered (.level (n + 1)) (ls ++ t :: rs) (join (n + 1) l t r) := by
  intro rest hrest
  rw [List.append_assoc, List.cons_append, hl _ (.of_operator ht),
    climbOn_joins ht (hr.climb hrest)]

theorem covered_lift {ts : List Token} {e : Expr} (h : Covered (.level 0) ts e) :
    ∀ n, Covered (.level n) ts e
  | 0 => h
  | n + 1 => fun _ hrest => climb_continues ((covered_lift h n).climb hrest)

theorem covered_name {t : Token} (h : t.kind = .identifier) (n : Nat) :
    Covered (.level n) [t] (.name t) := by
  refine covered_lift (fun rest => ?_) n
  rw [List.singleton_append, unary_of_primary (by simp [h]), primary]
  simp only [h]
  rfl

theorem derives_covered {rank : Rank} {ts : List Token} {e : Expr} (h : Derives rank ts e) :
    Covered rank ts e := by
  induction h with
  | falseLiteral h | trueLiteral h | nullLiteral h | number h | string h =>
    intro rest
    rw [List.singleton_append, unary_of_primary (by simp [h]), primary]
    simp only [h]
    rfl
  | name h => exact covered_name h 0
  | grouping hl he hr ih =>
    intro rest
    rw [List.cons_append, List.cons_append, unary_of_primary (by simp [hl]), List.append_assoc]
    exact primary_groups hl (ih _ (.of_joinLevel (by simp [hr, joinLevel])) (by simp [hr])) hr
  | primary h ih => exact ih
  | unary ht he ih =>
    intro rest
    rw [List.cons_append, unary, if_pos (by simpa using ht), after_val, andThen_of_accept (ih rest)]
    rfl
  | operand h ih =>
    intro rest hrest
    exact climb_continues (ih.climb hrest)
  | binary hn ht hl hr ihl ihr =>
    have := covered_join ht ihl ihr
    rwa [join, if_neg (by omega)] at this
  | logical hn ht hl hr ihl ihr =>
    have := covered_join ht ihl ihr
    rwa [join, if_pos hn] at this
  | loosest h ih =>
    intro rest hrest hne
    exact expression_plain (ih.climb hrest) hne
  | @assign t q ts e ht hq he ih =>
    intro rest hrest hne
    have hstop : Stops loosest (q :: (ts ++ rest)) := .of_joinLevel (by simp [hq, joinLevel])
    exact expression_assigns ((covered_name ht loosest).climb hstop) hq (ih rest hrest hne)

end BlockScript.Parser
