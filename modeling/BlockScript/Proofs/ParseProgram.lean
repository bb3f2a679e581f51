import BlockScript.Proofs.ParseExpression

/-! The parser accepts exactly the programs of the grammar and builds the tree the grammar
prescribes. An `else` goes to the nearest condition that has none because a statement is read as far
as it reaches. Where it does not accept, what it keeps is still a program, of fewer tokens. -/

namespace BlockScript.Parser

open Grammar

variable {α : Type} {tokens : List Token}

@[simp] theorem toStep_val (s : Stride α tokens) : s.toStep.val = s.val := rfl

@[simp] theorem behind_val {after : List Token} (s : Step α after) (t : Token) :
    (s.behind t).val = s.val := rfl

/-- An expression and a semicolon, one after the other. -/
theorem terminated_val (build : Expr → Stmt) (cause : Cause) (tokens : List Token) :
    (terminated build cause tokens).val =
      ((expression tokens).andThen fun e rest _ =>
        (expect .semicolon cause rest).andThen fun _ rest _ => .done (build e) rest).val := by
  unfold terminated
  dsimp only
  split
  · next f hf => simp only [Step.andThen, hf]
  · next e he =>
    split
    · next hrest =>
      have hval : (expression tokens).val = ⟨.ok e, [], (expression tokens).val.reports⟩ := by
        rw [← he, ← hrest]
      rw [andThen_of_ok hval]
      simp [Reply.behind, Step.andThen, expect]
    · next t after hrest =>
      have hval : (expression tokens).val =
          ⟨.ok e, t :: after, (expression tokens).val.reports⟩ := by
        rw [← he, ← hrest]
      rw [andThen_of_ok hval]
      split
      · next ht => simp [Reply.behind, Step.andThen, Step.done, expect, ht]
      · next ht => simp [Reply.behind, Step.andThen, expect, ht]

theorem terminated_accepts {build : Expr → Stmt} {cause : Cause} {e : Expr} {q : Token}
    {rest : List Token} (he : (expression tokens).val = .accept e (q :: rest))
    (hq : q.kind = .semicolon) :
    (terminated build cause tokens).val = .accept (build e) rest := by
  rw [terminated_val, andThen_of_accept he, andThen_of_accept (expect_eq_accept.2 ⟨rfl, hq⟩)]
  rfl

theorem declaration_accepts {x q : Token} {rest : List Token} (hx : x.kind = .identifier)
    (hq : q.kind = .semicolon) :
    (declaration (x :: q :: rest)).val = .accept (.declare x .absent) rest := by
  unfold declaration
  rw [andThen_of_accept (expect_eq_accept.2 ⟨rfl, hx⟩)]
  simp only [hq, reduceCtorEq, ↓reduceIte]
  rw [andThen_of_accept (expect_eq_accept.2 ⟨rfl, hq⟩)]
  rfl

theorem declaration_accepts_value {x a q : Token} {after rest : List Token} {e : Expr}
    (hx : x.kind = .identifier) (ha : a.kind = .equal)
    (he : (expression after).val = .accept e (q :: rest)) (hq : q.kind = .semicolon) :
    (declaration (x :: a :: after)).val = .accept (.declare x e) rest := by
  unfold declaration
  rw [andThen_of_accept (expect_eq_accept.2 ⟨rfl, hx⟩)]
  simp only [ha, ↓reduceIte]
  rw [after_val, andThen_of_accept he, andThen_of_accept (expect_eq_accept.2 ⟨rfl, hq⟩)]
  rfl

def Body.accept (statements : List Stmt) (rest : List Token) : Body := ⟨statements, rest, []⟩

theorem settle_accepts {s : Step Stmt tokens} {a : Stmt} {rest : List Token}
    (h : s.val = .accept a rest) : settle s = .accept [a] rest := by
  rw [settle, h]
  rfl

theorem prepend_accept (a b : List Stmt) (r s : List Token) :
    (Body.accept a r).prepend (.accept b s) = .accept (a ++ b) s := rfl

theorem step_eq_accept {b : Body} (h : b.rest.length ≤ tokens.length) {body : List Stmt}
    {rest : List Token} : (b.step h).val = .accept body rest ↔ b = .accept body rest := by
  rcases b with ⟨statements, r, reports⟩
  simp [Body.step, Reply.accept, Body.accept]

theorem statement_default {t : Token} {after : List Token}
    (h : t.kind ∉ [.ifWord, .printWord, .leftBrace]) :
    statement (t :: after) = terminated .expression .semicolonAfterExpression (t :: after) := by
  rw [statement]
  split <;> simp_all

theorem statement_print {t : Token} {after : List Token} (h : t.kind = .printWord) :
    (statement (t :: after)).val = (terminated .print .semicolonAfterValue after).val := by
  rw [statement]
  simp only [h]
  rfl

theorem statement_block_accepts {t r : Token} {after rest : List Token} {body : List Stmt}
    (ht : t.kind = .leftBrace) (hbody : (block after).val = .accept body (r :: rest))
    (hr : r.kind = .rightBrace) : (statement (t :: after)).val = .accept (.block body) rest := by
  rw [statement]
  simp only [ht]
  rw [behind_val, andThen_of_accept ((step_eq_accept _).2 hbody),
    andThen_of_accept (expect_eq_accept.2 ⟨rfl, hr⟩)]
  rfl

/-- The part of a condition that both its forms share. -/
theorem statement_if {i l r : Token} {more mid next : List Token} {c : Expr} {onTrue : Stmt}
    (hi : i.kind = .ifWord) (hl : l.kind = .leftParen)
    (hc : (expression more).val = .accept c (r :: mid)) (hr : r.kind = .rightParen)
    (htrue : (statement mid).val = .accept onTrue next) :
    (lookahead next ≠ some .elseWord →
      (statement (i :: l :: more)).val = .accept (.ifElse c onTrue .absent) next) ∧
    ∀ o tail onFalse rest, next = o :: tail → o.kind = .elseWord →
      (statement tail).val = .accept onFalse rest →
      (statement (i :: l :: more)).val = .accept (.ifElse c onTrue onFalse) rest := by
  rw [statement]
  simp only [hi]
  rw [behind_val, andThen_of_accept (expect_eq_accept.2 ⟨rfl, hl⟩), andThen_of_accept hc,
    andThen_of_accept (expect_eq_accept.2 ⟨rfl, hr⟩), andThen_of_accept (by rwa [toStep_val])]
  constructor
  · intro hnext
    cases next with
    | nil => rfl
    | cons o tail =>
      have ho : o.kind ≠ .elseWord := by simpa using hnext
      simp only [if_neg ho]
      rfl
  · rintro o tail onFalse rest rfl ho hfalse
    simp only [if_pos ho]
    rw [after_val, andThen_of_accept (by rwa [toStep_val])]
    rfl

theorem terminated_yields {build : Expr → Stmt} {cause : Cause} (tokens : List Token) :
    (terminated build cause tokens).val.Yields tokens fun ts s _ =>
      ∃ es e q, ts = es ++ [q] ∧ s = build e ∧ Derives .expression es e ∧ q.kind = .semicolon := by
  rw [terminated_val]
  apply (expression_yields tokens).andThen
  intro es e mid _ he
  apply (Reply.Yields.expect .semicolon cause mid).andThen
  rintro _ q rest _ ⟨rfl, hq⟩
  exact .done ⟨es, e, q, rfl, rfl, he, hq⟩

theorem declaration_yields {v : Token} (hv : v.kind = .varWord) (tokens : List Token) :
    (declaration tokens).val.Yields tokens fun ts s _ => Reads (v :: ts) (.declaration s) := by
  rw [declaration]
  apply (Reply.Yields.expect .identifier .variableName tokens).andThen
  rintro _ x mid _ ⟨rfl, hx⟩
  cases mid with
  | nil => exact .fail
  | cons a after =>
    dsimp only
    split
    · next ha =>
      apply Reply.Yields.keep a
      apply (expression_yields after).andThen
      intro ts e mid _ he
      apply (Reply.Yields.expect .semicolon .semicolonAfterVariable mid).andThen
      rintro _ q rest _ ⟨rfl, hq⟩
      exact .done (.declareWith hv hx ha he hq)
    · apply (Reply.Yields.expect .semicolon .semicolonAfterVariable _).andThen
      rintro _ q rest _ ⟨rfl, hq⟩
      exact .done (.declare hv hx hq)

def Body.reply (b : Body) : Reply (List Stmt) := ⟨.ok b.statements, b.rest, b.reports⟩

def Body.Survives (b : Body) (tokens : List Token) : Prop :=
  b.reply.Yields tokens fun ts body _ => Program ts body

namespace Body.Survives

theorem empty (tokens : List Token) : (Body.mk [] tokens []).Survives tokens :=
  Reply.Yields.done .none

theorem prepend {first next : Body} (hfirst : first.Survives tokens)
    (hnext : next.Survives first.rest) : (first.prepend next).Survives tokens := by
  obtain ⟨hfound, read, htokens, hread⟩ := hfirst
  obtain ⟨hfound', more, hrest, hmore⟩ := hnext
  have hsplit : tokens = read ++ first.rest := htokens
  refine ⟨?_, read ++ more, ?_, ?_⟩
  · intro f hf t ht
    rcases List.mem_append.1 hf with hf | hf
    · exact hfound f hf t ht
    · rw [hsplit]
      exact List.mem_append_right _ (hfound' f hf t ht)
  · rw [hsplit, hrest, List.append_assoc]
    rfl
  · intro body hbody
    obtain rfl := Except.ok.inj hbody
    obtain ⟨ts, hts, hall, hprogram⟩ := hread _ rfl
    obtain ⟨us, hus, hall', hprogram'⟩ := hmore _ rfl
    refine ⟨ts ++ us, hts.append hus, ?_, hprogram.append hprogram'⟩
    intro hnone
    obtain ⟨hnone, hnone'⟩ := List.append_eq_nil_iff.1 hnone
    rw [hall hnone, hall' hnone']

theorem step {b : Body} (h : b.Survives tokens) (hlen : b.rest.length ≤ tokens.length) :
    (b.step hlen).val.Yields tokens fun ts body _ => Program ts body := h

end Body.Survives

theorem resume_suffix (last : Token) (tokens : List Token) : resume last tokens <:+ tokens := by
  induction tokens generalizing last with
  | nil => exact List.suffix_refl _
  | cons t after ih =>
    rw [resume]
    split
    · exact List.suffix_refl _
    · exact (ih t).trans (List.suffix_cons t after)

theorem synchronize_suffix (tokens : List Token) : synchronize tokens <:+ tokens := by
  cases tokens with
  | nil => exact List.suffix_refl _
  | cons t after => exact (resume_suffix t after).trans (List.suffix_cons t after)

/-- A failed declaration is dropped with all that is skipped after it. -/
theorem settle_survives {s : Step Stmt tokens} {all : List Token}
    (h : s.val.Yields all fun ts s _ => Reads ts (.declaration s)) : (settle s).Survives all := by
  obtain ⟨⟨outcome, rest, reports⟩, hlen⟩ := s
  obtain ⟨hfound, read, hsplit, hread⟩ := h
  cases outcome with
  | ok a =>
    refine ⟨hfound, read, hsplit, ?_⟩
    intro body hbody
    obtain rfl := Except.ok.inj hbody
    obtain ⟨ts, hts, hall, hreads⟩ := hread a rfl
    have hone : Program ts [a] := by simpa [Program] using Reads.more hreads .none
    exact ⟨ts, hts, hall, hone⟩
  | error f =>
    obtain ⟨skipped, hskipped⟩ := synchronize_suffix rest
    refine ⟨hfound, read ++ skipped, ?_, ?_⟩
    · rw [List.append_assoc]
      exact hsplit.trans (congrArg (read ++ ·) hskipped.symm)
    · intro body hbody
      obtain rfl := Except.ok.inj hbody
      refine ⟨[], List.nil_sublist _, ?_, .none⟩
      -- The fault itself is among the reports.
      intro hnone
      cases (List.append_eq_nil_iff.1 hnone).2

mutual

theorem statement_yields (tokens : List Token) :
    (statement tokens).val.Yields tokens fun ts s rest =>
      Reads ts (.statement s) ∧ (EndsOpen s → lookahead rest ≠ some .elseWord) := by
  match tokens with
  | [] =>
    rw [statement]
    apply (terminated_yields []).mono
    rintro _ _ _ ⟨es, e, q, rfl, rfl, he, hq⟩
    exact ⟨.expression he hq, fun hend => nomatch hend⟩
  | t :: after =>
    by_cases hif : t.kind = .ifWord
    · rw [statement]
      simp only [hif]
      rw [behind_val]
      apply Reply.Yields.keep t
      apply (Reply.Yields.expect .leftParen .parenAfterIf after).andThen
      rintro _ l more hmore ⟨rfl, hl⟩
      apply (expression_yields more).andThen
      intro cs c behind hbehind hc
      apply (Reply.Yields.expect .rightParen .parenAfterCondition behind).andThen
      rintro _ r mid hmid ⟨rfl, hr⟩
      apply (statement_yields mid).andThen
      rintro ts onTrue next hnext ⟨hs, hopen⟩
      cases next with
      | nil => exact .done ⟨by simpa using Reads.ifThen hif hl hc hr hs, by simp⟩
      | cons o tail =>
        dsimp only
        split
        · next ho =>
          -- A branch that ends open would have taken this `else`.
          have hclosed : ¬ EndsOpen onTrue := fun hend => hopen hend (by simp [ho])
          apply Reply.Yields.keep o
          rw [after_val]
          apply Reply.Yields.andThen (by rw [toStep_val]; exact statement_yields tail)
          rintro us onFalse rest _ ⟨hf, hlast⟩
          refine .done ⟨by simpa using Reads.ifElse hif hl hc hr hs hclosed ho hf, ?_⟩
          intro hend
          cases hend with
          | noElse => cases hf
          | inElse hend => exact hlast hend
        · next ho =>
          exact .done ⟨by simpa using Reads.ifThen hif hl hc hr hs, fun _ => by simpa using ho⟩
    · by_cases hprint : t.kind = .printWord
      · rw [statement_print hprint]
        apply Reply.Yields.keep t
        apply (terminated_yields after).mono
        rintro _ _ _ ⟨es, e, q, rfl, rfl, he, hq⟩
        exact ⟨.print hprint he hq, fun hend => nomatch hend⟩
      · by_cases hbrace : t.kind = .leftBrace
        · rw [statement]
          simp only [hbrace]
          rw [behind_val]
          apply Reply.Yields.keep t
          apply ((block_survives after).step (block after).property).andThen
          intro ts body mid _ hbody
          apply (Reply.Yields.expect .rightBrace .braceAfterBlock mid).andThen
          rintro _ r rest _ ⟨rfl, hr⟩
          exact .done ⟨.block hbrace hbody hr, fun hend => nomatch hend⟩
        · rw [statement_default (by simp [hif, hprint, hbrace])]
          apply (terminated_yields (t :: after)).mono
          rintro _ _ _ ⟨es, e, q, rfl, rfl, he, hq⟩
          exact ⟨.expression he hq, fun hend => nomatch hend⟩
termination_by (tokens.length, 0)
decreasing_by
  · exact progress_of_lt (by simp only [List.length_cons]; omega)
  · exact progress_of_lt (by simp only [List.length_cons] at *; omega)
  · exact progress_of_lt (Nat.lt_succ_self _)

theorem declared_survives (t : Token) (after : List Token) :
    (declared t after).val.Survives (t :: after) := by
  rw [declared]
  split
  · next ht => exact settle_survives (.keep t (declaration_yields ht after))
  · exact settle_survives ((statement_yields (t :: after)).mono fun _ _ _ h => .statement h.1)
termination_by (after.length + 1, 1)
decreasing_by
  exact progress_of_le (Nat.le_refl _) (by omega)

theorem block_survives (tokens : List Token) : (block tokens).val.Survives tokens := by
  cases tokens with
  | nil =>
    rw [block]
    exact .empty []
  | cons t after =>
    rw [block]
    split
    · exact .empty _
    · have hfirst := declared_survives t after
      have hlen := (declared t after).property
      generalize declared t after = d at *
      exact hfirst.prepend (block_survives d.val.rest)
termination_by (tokens.length, 2)
decreasing_by
  · exact progress_of_le (Nat.le_refl _) (by omega)
  · exact progress_of_lt (Nat.lt_succ_of_le hlen)

end

theorem program_survives (tokens : List Token) : (program tokens).Survives tokens := by
  induction tokens using program.induct with
  | case1 =>
    rw [program]
    exact .empty []
  | case2 t after ih =>
    rw [program]
    exact (declared_survives t after).prepend ih

theorem program_sound {tokens : List Token} {body : List Stmt}
    (h : program tokens = .accept body []) : Program tokens body := by
  obtain ⟨-, read, htokens, hread⟩ := program_survives tokens
  rw [h] at htokens hread
  obtain ⟨ts, -, hall, hprogram⟩ := hread body rfl
  obtain rfl := hall rfl
  obtain rfl : tokens = ts := htokens.trans (List.append_nil ts)
  exact hprogram

/-- What a phrase promises about the parser on its tokens and any others behind them, as long as
these do not begin with an `else` that the phrase would take. -/
def Fits : List Token → Phrase → Prop
  | ts, .statement s => ∀ rest, (EndsOpen s → lookahead rest ≠ some .elseWord) →
      (statement (ts ++ rest)).val = .accept s rest
  | ts, .declaration s => ∀ t after, ts = t :: after →
      ∀ rest, (EndsOpen s → lookahead rest ≠ some .elseWord) →
        (declared t (after ++ rest)).val = .accept [s] rest
  | ts, .declarations body => program ts = .accept body [] ∧
      ∀ rest, lookahead rest = some .rightBrace → (block (ts ++ rest)).val = .accept body rest

theorem expression_then {ts rest : List Token} {e : Expr} {q : Token} {k : Token.Kind}
    (he : Derives .expression ts e) (hq : q.kind = k) (hk : joinLevel k = 0 ∧ k ≠ .equal) :
    (expression (ts ++ q :: rest)).val = .accept e (q :: rest) :=
  derives_covered he _ (.of_joinLevel (by rw [hq]; exact hk.1)) (by simpa [hq] using hk.2)

theorem statement_of_expression {ts : List Token} {e : Expr} {q : Token} {rest : List Token}
    (he : Derives .expression ts e) (hq : q.kind = .semicolon) :
    (statement (ts ++ q :: rest)).val = .accept (.expression e) rest := by
  obtain ⟨t, us, rfl, ht⟩ := he.starts
  have hdefault : t.kind ∉ [.ifWord, .printWord, .leftBrace] := by
    intro hmem
    simp only [List.mem_cons, List.not_mem_nil, or_false] at hmem
    rcases hmem with h | h | h <;> simp [h, expressionStarts] at ht
  rw [List.cons_append, statement_default hdefault]
  exact terminated_accepts (expression_then he hq ⟨rfl, by decide⟩) hq

theorem declared_of_statement {t : Token} {after rest : List Token} {s : Stmt}
    (ht : t.kind ≠ .varWord) (h : (statement (t :: after)).val = .accept s rest) :
    (declared t after).val = .accept [s] rest := by
  rw [declared, if_neg ht]
  exact settle_accepts h

theorem declared_of_declaration {t : Token} {after rest : List Token} {s : Stmt}
    (ht : t.kind = .varWord) (h : (declaration after).val = .accept s rest) :
    (declared t after).val = .accept [s] rest := by
  rw [declared, if_pos ht]
  exact settle_accepts h

theorem block_more {t : Token} {after mid rest : List Token} {first more : List Stmt}
    (ht : t.kind ≠ .rightBrace) (hfirst : (declared t after).val = .accept first mid)
    (hmore : (block mid).val = .accept more rest) :
    (block (t :: after)).val = .accept (first ++ more) rest := by
  rw [block, if_neg ht]
  generalize declared t after = d at hfirst ⊢
  obtain ⟨b, hb⟩ := d
  obtain rfl : b = .accept first mid := hfirst
  change (Body.accept first mid).prepend (block mid).val = _
  rw [hmore]
  exact prepend_accept ..

theorem program_more {t : Token} {after mid : List Token} {first more : List Stmt}
    (hfirst : (declared t after).val = .accept first mid) (hmore : program mid = .accept more []) :
    program (t :: after) = .accept (first ++ more) [] := by
  have hrest : (declared t after).val.rest = mid := by rw [hfirst]; rfl
  rw [program, hrest, hmore, hfirst]
  exact prepend_accept ..

theorem not_else_of_reads {ts : List Token} {body : List Stmt}
    (h : Reads ts (.declarations body)) (rest : List Token)
    (hrest : lookahead rest ≠ some .elseWord) :
    lookahead (ts ++ rest) ≠ some .elseWord := by
  rcases h.starts with ⟨rfl, -⟩ | ⟨t, us, rfl, ht⟩
  · exact hrest
  · intro helse
    have hkind : t.kind = .elseWord := by simpa using helse
    simp [hkind, declarationStarts, expressionStarts] at ht

theorem not_var_of_reads {t : Token} {after : List Token} {s : Stmt}
    (h : Reads (t :: after) (.statement s)) : t.kind ≠ .varWord := by
  intro hvar
  generalize hts : t :: after = ts at h
  cases h with
  | expression he _ =>
    obtain ⟨t', us, rfl, ht⟩ := he.starts
    obtain ⟨rfl, -⟩ := List.cons.inj hts
    simp [hvar, expressionStarts] at ht
  | print hp _ _ | block hp _ _ | ifThen hp _ _ _ _ | ifElse hp _ _ _ _ _ _ _ =>
    obtain ⟨rfl, -⟩ := List.cons.inj hts
    simp [hvar] at hp

theorem reads_fits {ts : List Token} {p : Phrase} (h : Reads ts p) : Fits ts p := by
  induction h with
  | expression he hq =>
    intro rest _
    rw [List.append_assoc]
    exact statement_of_expression he hq
  | print hp he hq =>
    intro rest _
    rw [List.cons_append, List.cons_append, List.append_assoc, statement_print hp]
    exact terminated_accepts (expression_then he hq ⟨rfl, by decide⟩) hq
  | block hl hb hr ih =>
    intro rest _
    rw [List.cons_append, List.cons_append, List.append_assoc]
    exact statement_block_accepts hl (ih.2 _ (by simp [hr])) hr
  | @ifThen i l cs r ts c s hi hl hc hr hs ih =>
    intro rest hrest
    have hno := hrest .noElse
    have hshared := statement_if hi hl (expression_then hc hr ⟨rfl, by decide⟩) hr
      (ih rest fun _ => hno)
    rw [show i :: l :: cs ++ r :: ts ++ rest = i :: l :: (cs ++ r :: (ts ++ rest)) by simp]
    exact hshared.1 hno
  | @ifElse i l cs r ts o us c s f hi hl hc hr hs hclosed ho hf ihs ihf =>
    intro rest hrest
    have hshared := statement_if hi hl (expression_then hc hr ⟨rfl, by decide⟩) hr
      (ihs (o :: (us ++ rest)) fun hend => absurd hend hclosed)
    rw [show i :: l :: cs ++ r :: ts ++ o :: us ++ rest =
      i :: l :: (cs ++ r :: (ts ++ o :: (us ++ rest))) by simp]
    exact hshared.2 _ _ _ rest rfl ho (ihf rest fun hend => hrest (.inElse hend))
  | declare hv hx hq =>
    rintro t after heq rest _
    obtain ⟨rfl, rfl⟩ := List.cons.inj heq
    exact declared_of_declaration hv (declaration_accepts hx hq)
  | @declareWith v x a ts e q hv hx ha he hq =>
    rintro t after heq rest _
    obtain ⟨rfl, rfl⟩ := List.cons.inj heq
    refine declared_of_declaration hv ?_
    rw [show (x :: a :: ts).append [q] ++ rest = x :: a :: (ts ++ q :: rest) by simp]
    exact declaration_accepts_value hx ha (expression_then he hq ⟨rfl, by decide⟩) hq
  | statement h ih =>
    rintro t after rfl rest hrest
    exact declared_of_statement (not_var_of_reads h) (ih rest hrest)
  | none =>
    refine ⟨by rw [program]; rfl, fun rest hrest => ?_⟩
    cases rest with
    | nil => cases hrest
    | cons t after => rw [List.nil_append, block, if_pos (by simpa using hrest)]; rfl
  | @more ts us s body hs hb ihs ihb =>
    obtain ⟨t, after, rfl, ht⟩ := hs.starts.resolve_left (by simp)
    constructor
    · have hfirst := ihs t after rfl us fun _ => by
        simpa using not_else_of_reads hb [] (by simp)
      exact program_more hfirst ihb.1
    · intro rest hrest
      have hfirst := ihs t after rfl (us ++ rest) fun _ =>
        not_else_of_reads hb rest (by simp [hrest])
      have hbrace : t.kind ≠ .rightBrace := by
        intro h
        simp [h, declarationStarts, expressionStarts] at ht
      rw [List.cons_append, List.cons_append, List.append_assoc]
      exact block_more hbrace hfirst (ihb.2 rest hrest)

/-- Reading ends without a report exactly on the programs of the grammar. -/
theorem program_accepts_iff {tokens : List Token} {body : List Stmt} :
    program tokens = .accept body [] ↔ Program tokens body :=
  ⟨program_sound, fun h => (reads_fits h).1⟩

theorem program_rest (tokens : List Token) : (program tokens).rest = [] := by
  induction tokens using program.induct with
  | case1 => rw [program]
  | case2 t after ih => rw [program]; exact ih

theorem program_reports_eq_nil {tokens : List Token} :
    (program tokens).reports = [] ↔ program tokens = .accept (program tokens).statements [] := by
  constructor
  · intro h
    rw [Body.accept, ← h, ← program_rest tokens]
  · intro h
    rw [h]
    rfl

theorem takeWhile_marked {body : List Token} {mark : Token} (hmark : mark.kind = .endOfFile)
    (hbody : ∀ t ∈ body, t.kind ≠ .endOfFile) :
    (body ++ [mark]).takeWhile (·.kind ≠ .endOfFile) = body := by
  rw [List.takeWhile_append_of_pos (by simpa using hbody)]
  simp [hmark]

end BlockScript.Parser

namespace BlockScript

open Grammar BlockScript.Parser

theorem ofTokens_eq_iff {body : List Token} {mark : Token} (hmark : mark.kind = .endOfFile)
    (hbody : ∀ t ∈ body, t.kind ≠ .endOfFile) {program : List Stmt} :
    (Parsed.ofTokens (body ++ [mark])).diagnostics = [] ∧
      (Parsed.ofTokens (body ++ [mark])).statements = program ↔ Program body program := by
  simp only [Parsed.ofTokens, takeWhile_marked hmark hbody, List.map_eq_nil_iff]
  rw [program_reports_eq_nil, ← program_accepts_iff]
  constructor
  · rintro ⟨h, rfl⟩
    exact h
  · intro h
    rw [h]
    exact ⟨rfl, rfl⟩

/-- Reading a marked token list gives no diagnostics and a program exactly when the grammar derives
that program from the tokens before the mark. The grammar gives at most one program, and what the
program keeps is what the tokens hold, in order. -/
theorem ofTokens_accepts_iff_program (body : List Token) (mark : Token)
    (hmark : mark.kind = .endOfFile) (hbody : ∀ t ∈ body, t.kind ≠ .endOfFile) :
    (∀ program, (Parsed.ofTokens (body ++ [mark])).diagnostics = [] ∧
        (Parsed.ofTokens (body ++ [mark])).statements = program ↔ Program body program) ∧
      (∀ p q, Program body p → Program body q → p = q) ∧
      ∀ p, Program body p → leavesOf p = body.filterMap leaf? := by
  refine ⟨fun program => ofTokens_eq_iff hmark hbody, fun p q hp hq => ?_,
    fun p hp => hp.leaves.symm⟩
  have h := program_accepts_iff.2 hp
  rw [program_accepts_iff.2 hq] at h
  exact (Body.mk.inj h).1.symm

/-- An `else` behind two conditions goes to the second one. -/
theorem nearest_condition_takes_else :
    let word (kind : Token.Kind) : Token := ⟨kind, [], 1, .null⟩
    let a := word .identifier
    let tokens := [word .ifWord, word .leftParen, a, word .rightParen, word .ifWord,
      word .leftParen, a, word .rightParen, a, word .semicolon, word .elseWord, a, word .semicolon]
    (Parsed.ofTokens (tokens ++ [word .endOfFile])).diagnostics = [] ∧
      (Parsed.ofTokens (tokens ++ [word .endOfFile])).statements =
        [.ifElse (.name a) (.ifElse (.name a) (.expression (.name a)) (.expression (.name a)))
          .absent] := by
  intro word a tokens
  have ha : Derives .expression [a] (.name a) :=
    (Derives.primary (.name rfl)).toExpression (by omega)
  have hs : Reads ([a] ++ [word .semicolon]) (.statement (.expression (.name a))) :=
    .expression ha rfl
  have hinner := Reads.ifElse (i := word .ifWord) (l := word .leftParen) (r := word .rightParen)
    (o := word .elseWord) rfl rfl ha rfl hs (fun hend => nomatch hend) rfl hs
  have houter := Reads.ifThen (i := word .ifWord) (l := word .leftParen) (r := word .rightParen)
    rfl rfl ha rfl hinner
  exact ((ofTokens_accepts_iff_program tokens (word .endOfFile) rfl (by decide)).1 _).2
    (.more (.statement houter) .none)

end BlockScript
