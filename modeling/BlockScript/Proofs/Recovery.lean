import Mathlib.Data.List.Basic
import BlockScript.Proofs.ParseProgram

/-! Recovery from a broken statement. What is read up to a semicolon does not depend on what stands
behind it, and a fault before it is skipped together with it. So a broken statement that ends in its
only semicolon neither hides what follows nor adds to its faults. -/

namespace BlockScript.Parser

open Grammar

def Fault.Placed (f : Fault) : Prop := f.found ≠ none

section Confinement

variable {α β : Type} {q : Token} {us : List Token}

/-- The replies on `us`, the token `q` and any others behind it are the same and leave `q` and the
others unread. -/
def Confined (q : Token) (us : List Token) (reply : List Token → Reply α) : Prop :=
  ∃ outcome left reports, left <:+ us ∧ (∀ f, outcome = .error f → f.Placed) ∧
    (∀ f ∈ reports, f.Placed) ∧ ∀ more, reply more = ⟨outcome, left ++ q :: more, reports⟩

theorem length_of_val {tokens rest : List Token} {s : Step α tokens} {outcome : Except Fault α}
    {reports : List Fault} (h : s.val = ⟨outcome, rest, reports⟩) :
    rest.length ≤ tokens.length := by
  have hbound := s.property
  rwa [h] at hbound

theorem andThen_of_error {tokens : List Token} {first : Step α tokens}
    {next : (a : α) → (rest : List Token) → rest.length ≤ tokens.length → Step β rest}
    {f : Fault} {mid : List Token} {reports : List Fault}
    (h : first.val = ⟨.error f, mid, reports⟩) :
    (first.andThen next).val = ⟨.error f, mid, reports⟩ := by
  obtain ⟨reply, hlen⟩ := first
  obtain rfl : reply = ⟨.error f, mid, reports⟩ := h
  rfl

namespace Confined

theorem congr {reply reply' : List Token → Reply α} (h : ∀ more, reply more = reply' more)
    (hreply : Confined q us reply') : Confined q us reply := by
  rwa [funext h]

theorem weaken {vs : List Token} {reply : List Token → Reply α} (h : Confined q vs reply)
    (hvs : vs <:+ us) : Confined q us reply := by
  obtain ⟨outcome, left, reports, hleft, hrest⟩ := h
  exact ⟨outcome, left, reports, hleft.trans hvs, hrest⟩

theorem ok {reply : List Token → Reply α} {a : α} {left : List Token} (hleft : left <:+ us)
    (h : ∀ more, reply more = ⟨.ok a, left ++ q :: more, []⟩) : Confined q us reply := by
  refine ⟨.ok a, left, [], hleft, ?_, List.forall_mem_nil _, h⟩
  intro f hf
  cases hf

theorem error {reply : List Token → Reply α} {left : List Token} (t : Token) (cause : Cause)
    (hleft : left <:+ us)
    (h : ∀ more, reply more = ⟨.error ⟨some t, cause⟩, left ++ q :: more, []⟩) :
    Confined q us reply := by
  refine ⟨.error ⟨some t, cause⟩, left, [], hleft, ?_, List.forall_mem_nil _, h⟩
  intro f hf
  cases hf
  simp [Fault.Placed]

theorem done (a : α) : Confined q us fun more => (Step.done a (us ++ q :: more)).val :=
  .ok (List.suffix_refl us) fun _ => rfl

theorem fail (cause : Cause) :
    Confined q us fun more => (Step.fail cause (us ++ q :: more) : Step α _).val := by
  cases us with
  | nil => exact .error q cause (List.suffix_refl _) fun _ => rfl
  | cons t vs => exact .error t cause (List.suffix_refl _) fun _ => rfl

theorem expect {kind : Token.Kind} (cause : Cause) (hq : q.kind ≠ kind) :
    Confined q us fun more => (expect kind cause (us ++ q :: more)).val := by
  cases us with
  | nil =>
    apply Confined.error q cause (List.suffix_refl _)
    intro more
    simp [Parser.expect, hq]
  | cons t vs =>
    by_cases ht : t.kind = kind
    · apply Confined.ok (List.suffix_cons t vs)
      intro more
      simp [Parser.expect, ht]
      rfl
    · apply Confined.error t cause (List.suffix_refl _)
      intro more
      simp [Parser.expect, ht]

theorem report {tokens : List Token → List Token} {s : (more : List Token) → Step α (tokens more)}
    (h : Confined q us fun more => (s more).val) {f : Fault} (hf : f.Placed) :
    Confined q us fun more => ((s more).report f).val := by
  obtain ⟨outcome, left, reports, hleft, houtcome, hreports, heq⟩ := h
  refine ⟨outcome, left, reports ++ [f], hleft, houtcome, ?_, ?_⟩
  · exact List.forall_mem_append.2 ⟨hreports, List.forall_mem_singleton.2 hf⟩
  · intro more
    have hval : (s more).val = _ := heq more
    simp only [Step.report, hval]

theorem andThen {tokens : List Token → List Token}
    {first : (more : List Token) → Step α (tokens more)}
    {next : (more : List Token) → (a : α) → (rest : List Token) →
      rest.length ≤ (tokens more).length → Step β rest}
    (hfirst : Confined q us fun more => (first more).val)
    (hnext : ∀ a left, left <:+ us →
      ∀ hlen : ∀ more, (left ++ q :: more).length ≤ (tokens more).length,
      Confined q left fun more => (next more a (left ++ q :: more) (hlen more)).val) :
    Confined q us fun more => ((first more).andThen (next more)).val := by
  obtain ⟨outcome, left, reports, hleft, houtcome, hreports, heq⟩ := hfirst
  cases outcome with
  | error f =>
    exact ⟨.error f, left, reports, hleft, fun g hg => houtcome g (by cases hg; rfl), hreports,
      fun more => andThen_of_error (heq more)⟩
  | ok a =>
    have hlen : ∀ more, (left ++ q :: more).length ≤ (tokens more).length := fun more =>
      length_of_val (heq more)
    obtain ⟨outcome', left', reports', hleft', houtcome', hreports', heq'⟩ :=
      hnext a left hleft hlen
    refine ⟨outcome', left', reports ++ reports', hleft'.trans hleft, houtcome', ?_, ?_⟩
    · exact List.forall_mem_append.2 ⟨hreports, hreports'⟩
    · intro more
      exact (andThen_of_ok (heq more)).trans (congrArg (Reply.behind reports) (heq' more))

end Confined

/-! No expression contains a semicolon, so none gets past one. -/

mutual

theorem expression_confined (hq : q.kind = .semicolon) (us : List Token) :
    Confined q us fun more => (expression (us ++ q :: more)).val := by
  refine .congr (fun more => by rw [expression]) ?_
  apply (climb_confined hq loosest us).andThen
  intro left vs hvs hlen
  cases vs with
  | nil =>
    simp only [List.nil_append, hq, reduceCtorEq, if_false]
    exact .done left
  | cons t vs =>
    simp only [List.cons_append]
    by_cases ht : t.kind = .equal
    · simp only [if_pos ht]
      have hright := (expression_confined hq vs).weaken (List.suffix_cons t vs)
      cases left with
      | name target =>
        apply Confined.andThen
        · exact hright
        · exact fun value _ _ _ => .done _
      | _ =>
        apply Confined.andThen
        · exact hright
        · intro _ _ _ _
          apply Confined.report (.done _)
          simp [Fault.Placed]
    · simp only [if_neg ht]
      exact .done left
termination_by (us.length, loosest + 3)
decreasing_by
  · exact progress_of_le (Nat.le_refl _) (by omega)
  · exact progress_of_lt hvs.length_le

theorem climb_confined (hq : q.kind = .semicolon) (n : Nat) (us : List Token) :
    Confined q us fun more => (climb n (us ++ q :: more)).val := by
  cases n with
  | zero =>
    simp only [climb_zero]
    exact unary_confined hq us
  | succ n =>
    refine .congr (fun more => by rw [climb]) ?_
    apply (climb_confined hq n us).andThen
    intro left vs hvs hlen
    exact climbOn_confined hq n left vs
termination_by (us.length, n + 2)
decreasing_by
  · exact progress_of_le (Nat.le_refl _) (by omega)
  · exact progress_of_le (Nat.le_refl _) (by omega)
  · exact progress_of_le hvs.length_le (by omega)

theorem climbOn_confined (hq : q.kind = .semicolon) (n : Nat) (left : Expr) (us : List Token) :
    Confined q us fun more => (climbOn n left (us ++ q :: more)).val := by
  cases us with
  | nil =>
    have hstop : ∀ more, Stops (n + 1) (q :: more) := fun more =>
      .of_joinLevel (by simp [hq, joinLevel])
    exact .congr (fun more => climbOn_stops (hstop more)) (.done left)
  | cons t vs =>
    refine .congr (fun more => by rw [List.cons_append, climbOn]) ?_
    by_cases ht : joins (n + 1) t.kind = true
    · simp only [if_pos ht, after_val]
      apply Confined.weaken _ (List.suffix_cons t vs)
      apply (climb_confined hq n vs).andThen
      intro right ws hws hlen
      exact climbOn_confined hq n (join (n + 1) left t right) ws
    · simp only [if_neg ht]
      exact .done left
termination_by (us.length, n + 2)
decreasing_by
  · exact progress_of_lt (Nat.lt_succ_self _)
  · exact progress_of_lt (Nat.lt_succ_of_le hws.length_le)

theorem unary_confined (hq : q.kind = .semicolon) (us : List Token) :
    Confined q us fun more => (unary (us ++ q :: more)).val := by
  cases us with
  | nil =>
    refine .congr (fun more => ?_) (.fail .expression)
    rw [List.nil_append, unary_of_primary (by simp [hq]), primary]
    simp only [hq]
  | cons t vs =>
    refine .congr (fun more => by rw [List.cons_append, unary]) ?_
    by_cases ht : t.kind = .bang ∨ t.kind = .minus
    · simp only [if_pos ht, after_val]
      apply Confined.weaken _ (List.suffix_cons t vs)
      exact (unary_confined hq vs).andThen fun operand _ _ _ => .done _
    · simp only [if_neg ht]
      exact primary_confined hq t vs
termination_by (us.length, 1)
decreasing_by
  · exact progress_of_lt (Nat.lt_succ_self _)
  · exact progress_of_le (Nat.le_refl _) (by omega)

theorem primary_confined (hq : q.kind = .semicolon) (t : Token) (us : List Token) :
    Confined q (t :: us) fun more => (primary t (us ++ q :: more)).val := by
  refine .congr (fun more => by rw [primary]) ?_
  generalize ht : t.kind = k
  cases k with
  | leftParen =>
    simp only [after_val]
    apply Confined.weaken _ (List.suffix_cons t us)
    apply (expression_confined hq us).andThen
    intro inner vs _ _
    apply (Confined.expect _ (by simp [hq])).andThen
    exact fun _ _ _ _ => .done _
  | falseWord | trueWord | nullWord | number | string | identifier =>
    exact .weaken (.done _) (List.suffix_cons t us)
  | _ => exact .fail .expression
termination_by (us.length + 1, 0)
decreasing_by
  exact progress_of_lt (Nat.lt_succ_self _)

end

end Confinement

section Statements

variable {α : Type} {q : Token} {us : List Token}

/-- The replies on `us`, the semicolon `q` and others behind it are the same. Either a statement has
read up to the semicolon, or a fault has left it unread. -/
inductive Finishes (q : Token) (us : List Token) (reply : List Token → Reply Stmt) : Prop
  | ok (s reports) (hreports : ∀ f ∈ reports, f.Placed)
      (h : ∀ more, lookahead more ≠ some .elseWord → reply more = ⟨.ok s, more, reports⟩)
  | error (f left reports) (hleft : left <:+ us) (hplaced : ∀ g ∈ reports ++ [f], g.Placed)
      (h : ∀ more, reply more = ⟨.error f, left ++ q :: more, reports⟩)

namespace Finishes

variable {tokens : List Token → List Token}

theorem congr {reply reply' : List Token → Reply Stmt} (h : ∀ more, reply more = reply' more)
    (hreply : Finishes q us reply') : Finishes q us reply := by
  rwa [funext h]

theorem weaken {vs : List Token} {reply : List Token → Reply Stmt} (h : Finishes q vs reply)
    (hvs : vs <:+ us) : Finishes q us reply := by
  cases h with
  | ok s reports hreports h => exact .ok s reports hreports h
  | error f left reports hleft hplaced h => exact .error f left reports (hleft.trans hvs) hplaced h

theorem semicolon (hq : q.kind = .semicolon) (hus : ∀ t ∈ us, t.kind ≠ .semicolon) (cause : Cause)
    (s : Stmt) :
    Finishes q us fun more => ((Parser.expect .semicolon cause (us ++ q :: more)).andThen
      fun _ rest _ => .done s rest).val := by
  cases us with
  | nil =>
    refine .ok s [] (List.forall_mem_nil _) ?_
    intro more _
    exact andThen_of_accept (expect_eq_accept.2 ⟨rfl, hq⟩)
  | cons t vs =>
    refine .error ⟨some t, cause⟩ (t :: vs) [] (List.suffix_refl _) ?_ ?_
    · simp [Fault.Placed]
    · intro more
      apply andThen_of_error
      simp [Parser.expect, hus t (.head _)]

/-- The rest of a statement behind something that is confined. -/
theorem after {first : (more : List Token) → Step α (tokens more)}
    {next : (more : List Token) → (a : α) → (rest : List Token) →
      rest.length ≤ (tokens more).length → Step Stmt rest}
    (hfirst : Confined q us fun more => (first more).val)
    (hnext : ∀ a left, left <:+ us →
      ∀ hlen : ∀ more, (left ++ q :: more).length ≤ (tokens more).length,
      Finishes q left fun more => (next more a (left ++ q :: more) (hlen more)).val) :
    Finishes q us fun more => ((first more).andThen (next more)).val := by
  obtain ⟨outcome, left, reports, hleft, houtcome, hreports, heq⟩ := hfirst
  cases outcome with
  | error f =>
    refine .error f left reports hleft ?_ fun more => andThen_of_error (heq more)
    exact List.forall_mem_append.2 ⟨hreports, List.forall_mem_singleton.2 (houtcome f rfl)⟩
  | ok a =>
    have hlen : ∀ more, (left ++ q :: more).length ≤ (tokens more).length := fun more =>
      length_of_val (heq more)
    cases hnext a left hleft hlen with
    | ok s reports' hreports' h =>
      refine .ok s (reports ++ reports') (List.forall_mem_append.2 ⟨hreports, hreports'⟩) ?_
      intro more hmore
      exact (andThen_of_ok (heq more)).trans (congrArg (Reply.behind reports) (h more hmore))
    | error f left' reports' hleft' hplaced h =>
      refine .error f left' (reports ++ reports') (hleft'.trans hleft) ?_ ?_
      · rw [List.append_assoc]
        exact List.forall_mem_append.2 ⟨hreports, hplaced⟩
      · intro more
        exact (andThen_of_ok (heq more)).trans (congrArg (Reply.behind reports) (h more))

/-- What is made of a statement without reading on. -/
theorem build {first : (more : List Token) → Step Stmt (tokens more)}
    {next : (more : List Token) → (a : Stmt) → (rest : List Token) →
      rest.length ≤ (tokens more).length → Step Stmt rest} (build : Stmt → Stmt)
    (hfirst : Finishes q us fun more => (first more).val)
    (hnext : ∀ a more hlen, lookahead more ≠ some .elseWord →
      (next more a more hlen).val = .accept (build a) more) :
    Finishes q us fun more => ((first more).andThen (next more)).val := by
  cases hfirst with
  | ok s reports hreports h =>
    refine .ok (build s) (reports ++ []) (by simpa using hreports) ?_
    intro more hmore
    exact (andThen_of_ok (h more hmore)).trans
      (congrArg (Reply.behind reports) (hnext s more _ hmore))
  | error f left reports hleft hplaced h =>
    exact .error f left reports hleft hplaced fun more => andThen_of_error (h more)

end Finishes

theorem terminated_finishes (hq : q.kind = .semicolon) (hus : ∀ t ∈ us, t.kind ≠ .semicolon)
    (build : Expr → Stmt) (cause : Cause) :
    Finishes q us fun more => (terminated build cause (us ++ q :: more)).val := by
  refine .congr (fun more => terminated_val build cause _) ?_
  apply Finishes.after (expression_confined hq us)
  intro e left hleft _
  exact .semicolon hq (fun t ht => hus t (hleft.subset ht)) cause (build e)

theorem declaration_finishes (hq : q.kind = .semicolon) (hus : ∀ t ∈ us, t.kind ≠ .semicolon) :
    Finishes q us fun more => (declaration (us ++ q :: more)).val := by
  refine .congr (fun more => by rw [declaration]) ?_
  apply Finishes.after (.expect .variableName (by simp [hq]))
  intro name left hleft _
  have hfree : ∀ t ∈ left, t.kind ≠ .semicolon := fun t ht => hus t (hleft.subset ht)
  cases left with
  | nil =>
    simp only [List.nil_append, hq, reduceCtorEq, if_false]
    exact .semicolon hq hfree _ _
  | cons t vs =>
    simp only [List.cons_append]
    by_cases ht : t.kind = .equal
    · simp only [if_pos ht, after_val]
      apply Finishes.weaken _ (List.suffix_cons t vs)
      apply Finishes.after (expression_confined hq vs)
      intro e ws hws _
      exact .semicolon hq (fun u hu => hfree u (.tail _ (hws.subset hu))) _ _
    · simp only [if_neg ht]
      exact .semicolon hq hfree _ _

/-- A statement that begins with no word or brace of its own. -/
theorem plain_finishes (hq : q.kind = .semicolon) (hus : ∀ t ∈ us, t.kind ≠ .semicolon)
    (hhead : ∀ k ∈ lookahead us, k ∉ [.ifWord, .printWord, .leftBrace]) :
    Finishes q us fun more => (statement (us ++ q :: more)).val := by
  refine .congr (fun more => ?_) (terminated_finishes hq hus .expression .semicolonAfterExpression)
  cases us with
  | nil => rw [List.nil_append, statement_default (by simp [hq])]
  | cons t vs => rw [List.cons_append, statement_default (hhead t.kind rfl)]

theorem statement_finishes (hq : q.kind = .semicolon)
    (hus : ∀ t ∈ us, t.kind ∉ [.semicolon, .leftBrace])
    (htail : ∀ t ∈ us.tail, t.kind.startsStatement = false) :
    Finishes q us fun more => (statement (us ++ q :: more)).val := by
  have hfree : ∀ t ∈ us, t.kind ≠ .semicolon := fun t ht h => hus t ht (by simp [h])
  cases us with
  | nil => exact plain_finishes hq hfree (by simp)
  | cons t vs =>
    have hrest : ∀ u ∈ vs, u.kind ≠ .semicolon := fun u hu => hfree u (.tail _ hu)
    by_cases hif : t.kind = .ifWord
    · refine .congr (fun more => by rw [List.cons_append, statement]) ?_
      simp only [hif, behind_val]
      apply Finishes.weaken _ (List.suffix_cons t vs)
      apply Finishes.after (.expect .parenAfterIf (by simp [hq]))
      intro l ws hws _
      apply Finishes.after (expression_confined hq ws)
      intro c xs hxs _
      apply Finishes.after (.expect .parenAfterCondition (by simp [hq]))
      intro r ys hys _
      have hys : ys <:+ vs := (hys.trans hxs).trans hws
      apply Finishes.build (.ifElse c · .absent)
      · -- No word behind the first starts a statement, so the branch can only be an expression.
        apply plain_finishes hq fun u hu => hrest u (hys.subset hu)
        intro k hk
        cases ys with
        | nil => cases hk
        | cons u zs =>
          cases hk
          have hu : u ∈ vs := hys.subset (.head _)
          have hword := htail u hu
          have hbrace := hus u (.tail _ hu)
          intro hmem
          simp only [List.mem_cons, List.not_mem_nil, or_false] at hmem hbrace
          rcases hmem with h | h | h
          · simp [h, Token.Kind.startsStatement] at hword
          · simp [h, Token.Kind.startsStatement] at hword
          · exact hbrace (Or.inr h)
      · intro s more _ hmore
        cases more with
        | nil => rfl
        | cons o tail =>
          have ho : o.kind ≠ .elseWord := by simpa using hmore
          simp only [if_neg ho]
          rfl
    · by_cases hprint : t.kind = .printWord
      · refine .congr (fun more => statement_print hprint) ?_
        exact (terminated_finishes hq hrest _ _).weaken (List.suffix_cons t vs)
      · apply plain_finishes hq hfree
        intro k hk
        cases hk
        have hbrace := hus t (.head _)
        simp_all

theorem resume_skips (hq : q.kind = .semicolon) {last : Token} (hlast : last.kind ≠ .semicolon)
    (hus : ∀ t ∈ us, t.kind ≠ .semicolon ∧ t.kind.startsStatement = false) (more : List Token) :
    resume last (us ++ q :: more) = more := by
  induction us generalizing last with
  | nil =>
    have hstop : ¬ (last.kind = .semicolon ∨ q.kind.startsStatement = true) := by
      simp [hlast, hq, Token.Kind.startsStatement]
    rw [List.nil_append, resume, if_neg hstop]
    cases more with
    | nil => rfl
    | cons t after => rw [resume, if_pos (Or.inl hq)]
  | cons t vs ih =>
    obtain ⟨hsemicolon, hword⟩ := hus t (.head _)
    rw [List.cons_append, resume, if_neg (by simp [hlast, hword])]
    exact ih hsemicolon fun u hu => hus u (.tail _ hu)

/-- Skipping goes past the semicolon and not further. A word at the very front does not stop it. -/
theorem synchronize_skips (hq : q.kind = .semicolon) (hus : ∀ t ∈ us, t.kind ≠ .semicolon)
    (htail : ∀ t ∈ us.tail, t.kind.startsStatement = false) (more : List Token) :
    synchronize (us ++ q :: more) = more := by
  cases us with
  | nil =>
    cases more with
    | nil => rfl
    | cons t after => rw [List.nil_append, synchronize, resume, if_pos (Or.inl hq)]
  | cons t vs =>
    rw [List.cons_append, synchronize]
    exact resume_skips hq (hus t (.head _)) (fun u hu => ⟨hus u (.tail _ hu), htail u hu⟩) more

theorem mem_tail_of_suffix {left : List Token} (h : left <:+ us) {t : Token} (ht : t ∈ left.tail) :
    t ∈ us.tail := by
  obtain ⟨read, rfl⟩ := h
  cases read with
  | nil => exact ht
  | cons u read => exact List.mem_append_right read (List.mem_of_mem_tail ht)

/-- However a statement finishes, reading goes on behind its semicolon. -/
theorem Finishes.settle {tokens : List Token → List Token}
    {s : (more : List Token) → Step Stmt (tokens more)} (h : Finishes q us fun more => (s more).val)
    (hq : q.kind = .semicolon) (hus : ∀ t ∈ us, t.kind ≠ .semicolon)
    (htail : ∀ t ∈ us.tail, t.kind.startsStatement = false) :
    ∃ statements reports, (∀ f ∈ reports, f.Placed) ∧ ∀ more, lookahead more ≠ some .elseWord →
      settle (s more) = ⟨statements, more, reports⟩ := by
  cases h with
  | ok a reports hreports h =>
    refine ⟨[a], reports, hreports, ?_⟩
    intro more hmore
    rw [Parser.settle, show (s more).val = _ from h more hmore]
  | error f left reports hleft hplaced h =>
    refine ⟨[], reports ++ [f], hplaced, ?_⟩
    intro more _
    have hfree : ∀ t ∈ left, t.kind ≠ .semicolon := fun t ht => hus t (hleft.subset ht)
    -- If the fault is at the front, a word there is skipped before any is looked for.
    have hwords : ∀ t ∈ left.tail, t.kind.startsStatement = false := fun t ht =>
      htail t (mem_tail_of_suffix hleft ht)
    rw [Parser.settle, show (s more).val = _ from h more]
    simp only [synchronize_skips hq hfree hwords more]

end Statements

/-- A broken or whole statement: a semicolon stands at its end and nowhere else, there are no braces
in it, and no word but the first starts a statement. -/
structure Simple (ts : List Token) : Prop where
  ends : ∃ us q, ts = us ++ [q] ∧ q.kind = .semicolon ∧
    ∀ t ∈ us, t.kind ∉ [.semicolon, .leftBrace, .rightBrace, .endOfFile]
  words : ∀ t ∈ ts.tail, t.kind.startsStatement = false

structure Good (ts : List Token) : Prop where
  unmarked : ∀ t ∈ ts, t.kind ≠ .endOfFile
  clean : (Parsed.ofTokens ts).diagnostics = []

/-- Reading goes on behind the tokens as if they were not there, in a program and in a block. -/
structure Isolated (ts : List Token) : Prop where
  placed : ∀ f ∈ (program ts).reports, f.Placed
  program_append : ∀ rest, lookahead rest ≠ some .elseWord →
    program (ts ++ rest) = (program ts).prepend (program rest)
  block_append : ∀ rest, lookahead rest ≠ some .elseWord →
    (block (ts ++ rest)).val = (program ts).prepend (block rest).val

theorem Body.prepend_assoc (a b c : Body) : (a.prepend b).prepend c = a.prepend (b.prepend c) := by
  simp only [prepend, List.append_assoc]

/-- A declaration that is read to just before `rest`. -/
theorem declared_then {t : Token} {after rest : List Token} {statements : List Stmt}
    {reports : List Fault} (h : (declared t after).val = ⟨statements, rest, reports⟩) :
    program (t :: after) = Body.prepend ⟨statements, [], reports⟩ (program rest) ∧
    (t.kind ≠ .rightBrace →
      (block (t :: after)).val = Body.prepend ⟨statements, [], reports⟩ (block rest).val) := by
  constructor
  · rw [program, h]
    rfl
  · intro ht
    rw [block, if_neg ht]
    generalize declared t after = d at h
    obtain ⟨b, hb⟩ := d
    obtain rfl : b = ⟨statements, rest, reports⟩ := h
    rfl

theorem Isolated.nil : Isolated [] := by
  have hnone : program [] = ⟨[], [], []⟩ := by rw [program]
  constructor
  · rw [hnone]
    exact List.forall_mem_nil _
  · intro rest _
    rw [hnone]
    rfl
  · intro rest _
    rw [hnone]
    rfl

/-- One declaration, whatever becomes of it. -/
theorem Isolated.of_declared {t : Token} {after : List Token} {statements : List Stmt}
    {reports : List Fault} (ht : t.kind ≠ .rightBrace) (hreports : ∀ f ∈ reports, f.Placed)
    (h : ∀ rest, lookahead rest ≠ some .elseWord →
      (declared t (after ++ rest)).val = ⟨statements, rest, reports⟩) : Isolated (t :: after) := by
  have halone : program (t :: after) = ⟨statements, [], reports⟩ := by
    have hfirst := h [] (by simp)
    rw [List.append_nil] at hfirst
    rw [(declared_then hfirst).1, program, Body.prepend, List.append_nil, List.append_nil]
  constructor
  · rw [halone]
    exact hreports
  · intro rest hrest
    rw [halone]
    exact (declared_then (h rest hrest)).1
  · intro rest hrest
    rw [halone]
    exact (declared_then (h rest hrest)).2 ht

theorem lookahead_append_ne {k : Token.Kind} {ts rest : List Token} (hts : lookahead ts ≠ some k)
    (hrest : lookahead rest ≠ some k) : lookahead (ts ++ rest) ≠ some k := by
  cases ts with
  | nil => exact hrest
  | cons t after => exact hts

theorem Isolated.append {ts us : List Token} (hts : Isolated ts) (hus : Isolated us)
    (helse : lookahead us ≠ some .elseWord) : Isolated (ts ++ us) := by
  have hboth := hts.program_append us helse
  constructor
  · rw [hboth]
    exact List.forall_mem_append.2 ⟨hts.placed, hus.placed⟩
  · intro rest hrest
    rw [List.append_assoc, hts.program_append _ (lookahead_append_ne helse hrest),
      hus.program_append rest hrest, hboth, Body.prepend_assoc]
  · intro rest hrest
    rw [List.append_assoc, hts.block_append _ (lookahead_append_ne helse hrest),
      hus.block_append rest hrest, hboth, Body.prepend_assoc]

theorem Simple.isolated {ts : List Token} (h : Simple ts) : Isolated ts := by
  obtain ⟨⟨us, q, rfl, hq, hus⟩, hwords⟩ := h
  have hfree : ∀ t ∈ us, t.kind ≠ .semicolon := fun t ht h => hus t ht (by simp [h])
  have hbraces : ∀ t ∈ us, t.kind ∉ [.semicolon, .leftBrace] := by
    intro t ht h
    have hout := hus t ht
    simp_all
  have htail : ∀ t ∈ us.tail, t.kind.startsStatement = false := by
    intro t ht
    apply hwords
    cases us with
    | nil => cases ht
    | cons u vs => exact List.mem_append_left _ ht
  have hstatement := statement_finishes hq hbraces htail
  cases us with
  | nil =>
    obtain ⟨statements, reports, hreports, hsettle⟩ :=
      Finishes.settle (s := fun more => (statement (q :: more)).toStep) hstatement hq hfree htail
    apply Isolated.of_declared (by simp [hq]) hreports
    intro rest hrest
    rw [declared, if_neg (by simp [hq])]
    exact hsettle rest hrest
  | cons t vs =>
    rw [List.cons_append]
    have ht : t.kind ≠ .rightBrace := fun h => hus t (.head _) (by simp [h])
    by_cases hvar : t.kind = .varWord
    · have hvs : ∀ u ∈ vs, u.kind ≠ .semicolon := fun u hu => hfree u (.tail _ hu)
      obtain ⟨statements, reports, hreports, hsettle⟩ :=
        (declaration_finishes hq hvs).settle hq hvs fun u hu => htail u (List.mem_of_mem_tail hu)
      apply Isolated.of_declared ht hreports
      intro rest hrest
      rw [declared, if_pos hvar, List.append_assoc]
      exact hsettle rest hrest
    · obtain ⟨statements, reports, hreports, hsettle⟩ :=
        Finishes.settle (s := fun more => (statement (t :: (vs ++ q :: more))).toStep) hstatement hq
          hfree htail
      apply Isolated.of_declared ht hreports
      intro rest hrest
      rw [declared, if_neg hvar, List.append_assoc]
      exact hsettle rest hrest

theorem Isolated.of_program {ts : List Token} {body : List Stmt} (h : Program ts body) :
    Isolated ts := by
  induction body generalizing ts with
  | nil =>
    cases h
    exact .nil
  | cons s rest ih =>
    cases h with
    | more hs hb =>
      obtain ⟨t, after, rfl, ht⟩ := hs.starts.resolve_left (by simp)
      have hbrace : t.kind ≠ .rightBrace := by
        intro h
        simp [h, declarationStarts, expressionStarts] at ht
      have hfirst : Isolated (t :: after) :=
        .of_declared hbrace (by simp) fun rest hrest =>
          reads_fits hs t after rfl rest fun _ => hrest
      exact hfirst.append (ih hb) (by simpa using not_else_of_reads hb [] (by simp))

theorem lookahead_flatten_ne {k : Token.Kind} {segments : List (List Token)}
    (h : ∀ ts ∈ segments, lookahead ts ≠ some k) : lookahead segments.flatten ≠ some k := by
  induction segments with
  | nil => simp
  | cons ts rest ih =>
    exact lookahead_append_ne (h ts (.head _)) (ih fun us hus => h us (.tail _ hus))

/-- Parts that are isolated are so together. -/
theorem Isolated.flatten {segments : List (List Token)} (h : ∀ ts ∈ segments, Isolated ts)
    (helse : ∀ ts ∈ segments, lookahead ts ≠ some .elseWord) : Isolated segments.flatten := by
  induction segments with
  | nil => exact .nil
  | cons ts rest ih =>
    have hrest := ih (fun us hus => h us (.tail _ hus)) fun us hus => helse us (.tail _ hus)
    exact (h ts (.head _)).append hrest (lookahead_flatten_ne fun us hus => helse us (.tail _ hus))

/-- Braces make one block of what they enclose and keep its faults. -/
theorem Isolated.braces {ts : List Token} (h : Isolated ts) {l r : Token} (hl : l.kind = .leftBrace)
    (hr : r.kind = .rightBrace) :
    program (l :: (ts ++ [r])) = ⟨[.block (program ts).statements], [], (program ts).reports⟩ := by
  have hbody : (block (ts ++ [r])).val = ⟨(program ts).statements, [r], (program ts).reports⟩ := by
    rw [h.block_append _ (by simp [hr]), block, if_pos hr]
    simp [Body.prepend]
  have hstatement : (statement (l :: (ts ++ [r]))).val =
      ⟨.ok (.block (program ts).statements), [], (program ts).reports⟩ := by
    have hstep := congrArg (fun b : Body => Reply.mk (.ok b.statements) b.rest b.reports) hbody
    rw [statement]
    simp only [hl]
    rw [behind_val, andThen_of_ok hstep, andThen_of_accept (expect_eq_accept.2 ⟨rfl, hr⟩)]
    simp [Reply.behind, Step.done]
  have hdeclared : (declared l (ts ++ [r])).val =
      ⟨[.block (program ts).statements], [], (program ts).reports⟩ := by
    rw [declared, if_neg (by simp [hl])]
    simp only [settle, toStep_val, hstatement]
  rw [(declared_then hdeclared).1, program]
  simp [Body.prepend]

end BlockScript.Parser

namespace BlockScript

open Grammar BlockScript.Parser

theorem takeWhile_unmarked {ts : List Token} (h : ∀ t ∈ ts, t.kind ≠ .endOfFile)
    (rest : List Token) :
    (ts ++ rest).takeWhile (·.kind ≠ .endOfFile) = ts ++ rest.takeWhile (·.kind ≠ .endOfFile) :=
  List.takeWhile_append_of_pos (by simpa using h)

/-- Without an end marker all tokens count. -/
theorem ofTokens_unmarked {ts : List Token} (h : ∀ t ∈ ts, t.kind ≠ .endOfFile) :
    Parsed.ofTokens ts = ⟨(program ts).statements,
      (program ts).reports.map (·.diagnostic (lastLine ts))⟩ := by
  have hall := takeWhile_unmarked h []
  rw [List.append_nil, List.takeWhile_nil, List.append_nil] at hall
  rw [Parsed.ofTokens, hall]

theorem lastLine_append {ts rest : List Token} (hts : ∀ t ∈ ts, t.kind ≠ .endOfFile)
    (hrest : rest ≠ []) : lastLine (ts ++ rest) = lastLine rest := by
  have hfind : (ts ++ rest).find? (·.kind = .endOfFile) = rest.find? (·.kind = .endOfFile) := by
    rw [List.find?_append, List.find?_eq_none.2 (by simpa using hts), Option.none_or]
  have hlast : (ts ++ rest).getLast? = rest.getLast? := by
    rw [List.getLast?_append, Option.or_of_isSome (by simpa using hrest)]
  rw [lastLine, lastLine, hfind, hlast]

theorem Parser.Fault.Placed.diagnostic {f : Parser.Fault} (h : f.Placed) (line line' : Int) :
    f.diagnostic line = f.diagnostic line' := by
  obtain ⟨_ | t, cause⟩ := f
  · exact absurd rfl h
  · rfl

/-- What is read of an isolated part and of a remainder, one after the other. -/
theorem ofTokens_append {ts : List Token} (h : Isolated ts) (hts : ∀ t ∈ ts, t.kind ≠ .endOfFile)
    {rest : List Token} (hrest : lookahead rest ≠ some .elseWord) :
    Parsed.ofTokens (ts ++ rest) =
      ⟨(Parsed.ofTokens ts).statements ++ (Parsed.ofTokens rest).statements,
        (Parsed.ofTokens ts).diagnostics ++ (Parsed.ofTokens rest).diagnostics⟩ := by
  have hhead : lookahead (rest.takeWhile (·.kind ≠ .endOfFile)) ≠ some .elseWord := by
    cases rest with
    | nil => exact hrest
    | cons t after =>
      rw [List.takeWhile_cons]
      split
      · exact hrest
      · simp
  rw [ofTokens_unmarked hts, Parsed.ofTokens, Parsed.ofTokens, takeWhile_unmarked hts,
    h.program_append _ hhead]
  simp only [Body.prepend, List.map_append, Parsed.mk.injEq, true_and]
  congr 1
  · exact List.map_congr_left fun f hf => (h.placed f hf).diagnostic _ _
  · by_cases hnil : rest = []
    · rw [hnil, List.takeWhile_nil, program]
      rfl
    · rw [lastLine_append hts hnil]

namespace Parser

theorem Good.isolated {ts : List Token} (h : Good ts) : Isolated ts := by
  have hclean := h.clean
  rw [ofTokens_unmarked h.unmarked] at hclean
  have hreports : (program ts).reports = [] := List.map_eq_nil_iff.1 hclean
  exact .of_program (program_accepts_iff.1 (program_reports_eq_nil.1 hreports))

theorem Simple.unmarked {ts : List Token} (h : Simple ts) : ∀ t ∈ ts, t.kind ≠ .endOfFile := by
  obtain ⟨us, q, rfl, hq, hus⟩ := h.ends
  intro t ht hend
  rcases List.mem_append.1 ht with ht | ht
  · exact hus t ht (by simp [hend])
  · rw [List.mem_singleton.1 ht, hq] at hend
    cases hend

end Parser

/-- What is read of isolated parts and a remainder, each as if it stood alone. -/
theorem ofTokens_flatten {segments : List (List Token)} {rest : List Token}
    (h : ∀ ts ∈ segments, Isolated ts ∧ ∀ t ∈ ts, t.kind ≠ .endOfFile)
    (helse : ∀ ts ∈ segments, lookahead ts ≠ some .elseWord)
    (hrest : lookahead rest ≠ some .elseWord) :
    Parsed.ofTokens (segments.flatten ++ rest) =
      ⟨segments.flatMap (fun ts => (Parsed.ofTokens ts).statements) ++
          (Parsed.ofTokens rest).statements,
        segments.flatMap (fun ts => (Parsed.ofTokens ts).diagnostics) ++
          (Parsed.ofTokens rest).diagnostics⟩ := by
  induction segments with
  | nil => rfl
  | cons ts more ih =>
    have hmore : ∀ us ∈ more, lookahead us ≠ some .elseWord := fun us hus => helse us (.tail _ hus)
    have hhead := lookahead_append_ne (lookahead_flatten_ne hmore) hrest
    obtain ⟨hisolated, hunmarked⟩ := h ts (.head _)
    rw [List.flatten_cons, List.append_assoc, ofTokens_append hisolated hunmarked hhead,
      ih (fun us hus => h us (.tail _ hus)) hmore]
    simp only [List.flatMap_cons, List.append_assoc]

/-- What is read of an isolated part in braces. -/
theorem ofTokens_braces {ts : List Token} (h : Isolated ts) (hts : ∀ t ∈ ts, t.kind ≠ .endOfFile)
    {l r : Token} (hl : l.kind = .leftBrace) (hr : r.kind = .rightBrace) :
    Parsed.ofTokens (l :: (ts ++ [r])) =
      ⟨[.block (Parsed.ofTokens ts).statements], (Parsed.ofTokens ts).diagnostics⟩ := by
  have hunmarked : ∀ t ∈ l :: (ts ++ [r]), t.kind ≠ .endOfFile := by
    intro t ht
    rw [List.mem_cons, List.mem_append, List.mem_singleton] at ht
    rcases ht with rfl | ht | rfl
    · simp [hl]
    · exact hts t ht
    · simp [hr]
  rw [ofTokens_unmarked hunmarked, ofTokens_unmarked hts, h.braces hl hr]
  congr 1
  exact List.map_congr_left fun f hf => (h.placed f hf).diagnostic _ _

/-- Broken statements do no harm to others. Let a token list be cut into parts that are read without
diagnostics, parts that end in their only semicolon, and a remainder, so that none begins with an
`else`. Then each part is read as if it stood alone; and between braces the parts become one block
with the same statements and the same diagnostics. -/
theorem faults_stay_in_their_part (segments : List (List Token)) (remainder : List Token)
    (hsegments : ∀ ts ∈ segments, Good ts ∨ Simple ts)
    (helse : ∀ ts ∈ segments ++ [remainder], lookahead ts ≠ some .elseWord) :
    let statements := segments.flatMap fun ts => (Parsed.ofTokens ts).statements
    let diagnostics := segments.flatMap fun ts => (Parsed.ofTokens ts).diagnostics
    let last := Parsed.ofTokens remainder
    Parsed.ofTokens (segments.flatten ++ remainder) =
      ⟨statements ++ last.statements, diagnostics ++ last.diagnostics⟩ ∧
    ∀ l r : Token, l.kind = .leftBrace → r.kind = .rightBrace →
      Parsed.ofTokens (l :: (segments.flatten ++ [r])) = ⟨[.block statements], diagnostics⟩ := by
  intro statements diagnostics last
  have hisolated : ∀ ts ∈ segments, Isolated ts ∧ ∀ t ∈ ts, t.kind ≠ .endOfFile := by
    intro ts hts
    rcases hsegments ts hts with hgood | hsimple
    · exact ⟨hgood.isolated, hgood.unmarked⟩
    · exact ⟨hsimple.isolated, hsimple.unmarked⟩
  have hhead : ∀ ts ∈ segments, lookahead ts ≠ some .elseWord := fun ts hts =>
    helse ts (List.mem_append_left _ hts)
  refine ⟨ofTokens_flatten hisolated hhead (helse remainder (by simp)), ?_⟩
  intro l r hl hr
  have hall : Parsed.ofTokens segments.flatten = ⟨statements, diagnostics⟩ := by
    have hnone : Parsed.ofTokens [] = ⟨[], []⟩ := by
      rw [ofTokens_unmarked (by simp), program]
      rfl
    have hflat : Parsed.ofTokens (segments.flatten ++ []) = _ :=
      ofTokens_flatten hisolated hhead (by simp)
    simpa [hnone] using hflat
  have hunmarked : ∀ t ∈ segments.flatten, t.kind ≠ .endOfFile := by
    intro t ht
    obtain ⟨ts, hts, ht⟩ := List.mem_flatten.1 ht
    exact (hisolated ts hts).2 t ht
  rw [ofTokens_braces (.flatten (fun ts hts => (hisolated ts hts).1) hhead) hunmarked hl hr, hall]

/-- One fault is at a word that starts a loop, one at an assignment to `null`, and one at the end.
Only the first and the last of them cost a statement. -/
theorem whole_statements_survive_broken_ones :
    let word (kind : Token.Kind) : Token := ⟨kind, [], 1, .null⟩
    let x := word .identifier
    let segments := [[word .forWord, x, word .semicolon], [word .varWord, x, word .semicolon],
      [word .varWord, x, word .equal, word .nullWord, word .equal, x, word .semicolon]]
    let remainder := [word .varWord, x]
    (∀ ts ∈ segments, Good ts ∨ Simple ts) ∧
    (∀ ts ∈ segments ++ [remainder], lookahead ts ≠ some .elseWord) ∧
    Parsed.ofTokens (segments.flatten ++ remainder) =
      ⟨[.declare x .absent, .declare x (.literal .null)],
        [⟨some (word .forWord), .expression⟩, ⟨some (word .equal), .assignmentTarget⟩,
          ⟨none, .semicolonAfterVariable⟩].map (Parser.Fault.diagnostic 1)⟩ := by
  intro word x segments remainder
  have hsegments : ∀ ts ∈ segments, Good ts ∨ Simple ts := by
    intro ts hts
    simp only [segments, List.mem_cons, List.not_mem_nil, or_false] at hts
    rcases hts with rfl | rfl | rfl
    · exact Or.inr ⟨⟨[word .forWord, x], word .semicolon, rfl, rfl, by decide⟩, by decide⟩
    · exact Or.inl ⟨by decide, by decide +kernel⟩
    · exact Or.inr ⟨⟨[word .varWord, x, word .equal, word .nullWord, word .equal, x],
        word .semicolon, rfl, rfl, by decide⟩, by decide⟩
  have helse : ∀ ts ∈ segments ++ [remainder], lookahead ts ≠ some .elseWord := by decide
  refine ⟨hsegments, helse, ?_⟩
  rw [(faults_stay_in_their_part segments remainder hsegments helse).1]
  congr 1
  · simp only [Parsed.ofTokens]
    cbv
  · decide +kernel

end BlockScript
