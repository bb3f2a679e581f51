import BlockScript.Proofs.CursorParser
import BlockScript.Proofs.Recovery

/-! The cursor never leaves its tokens. Each production of the parser on lists tells where the same
production of the cursor ends, with what, and how deep calls are nested until then: so the cursor
always has a result, which is that of the parser on lists. On the way it looks at no token behind
the first end marker and never in front of the first token, and each declaration moves it
forward. -/

namespace BlockScript.Parser

variable {α β : Type}

def Fault.refusal (mark : Token) (f : Fault) : Refusal := ⟨f.found.getD mark, f.cause⟩

def Access.Within (limit : Nat) : Access → Prop
  | .current position => position ≤ limit
  | .previous position => 0 < position ∧ position ≤ limit

namespace Cursor

/-- Tokens with an end marker among them. Those before the first one are the front. -/
structure Tape where
  front : List Token
  mark : Token
  behind : List Token
  unmarked : ∀ t ∈ front, t.kind ≠ .endOfFile
  mark_kind : mark.kind = .endOfFile

def Tape.tokens (tape : Tape) : List Token := tape.front ++ tape.mark :: tape.behind

def Tape.limit (tape : Tape) : Nat := tape.front.length

/-- Nothing in the history of the cursor lies behind the limit, no look went in front of the first
token, and all declarations moved the cursor forward. -/
structure Sound (limit : Nat) (c : Cursor) : Prop where
  accesses : ∀ a ∈ c.accesses, a.Within limit
  declarations : ∀ d ∈ c.declarations, d.1 < d.2 ∧ d.2 ≤ limit

/-- The cursor stands before the last tokens of the front. -/
structure Sees (tape : Tape) (us : List Token) (c : Cursor) : Prop where
  suffix : us <:+ tape.front
  position : c.position + us.length = tape.limit

section Walks

variable {tape : Tape} {us mid rest : List Token} {c : Cursor}

theorem Sees.position_le (h : c.Sees tape us) : c.position ≤ tape.limit :=
  Nat.le.intro h.position

/-- Between the cursor and the end of the list stand what it sees and the mark. -/
theorem Sees.getElem? (h : c.Sees tape us) (n : Nat) :
    tape.tokens[c.position + n]? = (us ++ tape.mark :: tape.behind)[n]? := by
  obtain ⟨read, hread⟩ := h.suffix
  have hposition : c.position = read.length := by
    have := h.position
    rw [Tape.limit, ← hread, List.length_append] at this
    omega
  rw [Tape.tokens, ← hread, hposition, List.append_assoc, List.getElem?_append_right (by omega),
    Nat.add_sub_cancel_left]

theorem Sees.head (h : c.Sees tape us) : tape.tokens[c.position]? = some (us.headD tape.mark) := by
  have hhead := h.getElem? 0
  cases us with
  | nil => simpa using hhead
  | cons t after => simpa using hhead

variable (tape) in
/-- From before `us` a walk ends before `rest` with a value and some diagnostics, and does nothing
that is not sound. -/
def Runs (x : Walk α) (us : List Token) (a : α) (rest : List Token) (told : List Diagnostic) :
    Prop :=
  ∀ c : Cursor, c.Sees tape us → ∃ c', x c = some (a, c') ∧ c'.Sees tape rest ∧
    c'.diagnostics = c.diagnostics ++ told ∧ (c.Sound tape.limit → c'.Sound tape.limit)

namespace Runs

variable {x : Walk α} {f : α → Walk β} {a : α} {b : β} {told more : List Diagnostic}

theorem pure (a : α) (us : List Token) : Runs tape (pure a) us a us [] := by
  intro c hc
  exact ⟨c, rfl, hc, (List.append_nil _).symm, id⟩

theorem bind (hx : Runs tape x us a mid told) (hf : Runs tape (f a) mid b rest more) :
    Runs tape (x >>= f) us b rest (told ++ more) := by
  intro c hc
  obtain ⟨c₁, hx₁, hc₁, htold, hsound₁⟩ := hx c hc
  obtain ⟨c₂, hf₂, hc₂, hmore, hsound₂⟩ := hf c₁ hc₁
  refine ⟨c₂, ?_, hc₂, ?_, fun h => hsound₂ (hsound₁ h)⟩
  · exact (congrArg (Option.bind · _) hx₁).trans hf₂
  · rw [hmore, htold, List.append_assoc]

/-- A first part that tells nothing. -/
theorem next (hx : Runs tape x us a mid []) (hf : Runs tape (f a) mid b rest more) :
    Runs tape (x >>= f) us b rest more :=
  hx.bind hf

/-- What a walk starts from may be used to show that it runs. -/
theorem of_suffix (h : us <:+ tape.front → Runs tape x us a rest told) :
    Runs tape x us a rest told := by
  intro c hc
  exact h hc.suffix c hc

/-- A cursor can be put before any last tokens of the front. -/
theorem suffix (h : Runs tape x us a rest told) (hus : us <:+ tape.front) :
    rest <:+ tape.front := by
  have hlength : us.length ≤ tape.limit := hus.length_le
  have hsees : Sees tape us { position := tape.limit - us.length } :=
    ⟨hus, Nat.sub_add_cancel hlength⟩
  obtain ⟨c, -, hc, -⟩ := h _ hsees
  exact hc.suffix

theorem position (us : List Token) :
    Runs tape position? us (tape.limit - us.length) us [] := by
  intro c hc
  refine ⟨c, ?_, hc, (List.append_nil _).symm, id⟩
  rw [position?, ← hc.position, Nat.add_sub_cancel]

theorem report (r : Refusal) (us : List Token) :
    Runs tape (report r) us () us [r.diagnostic] := by
  intro c hc
  exact ⟨_, rfl, ⟨hc.suffix, hc.position⟩, rfl, fun h => ⟨h.accesses, h.declarations⟩⟩

theorem note {start : Nat} (h : start < tape.limit - us.length) :
    Runs tape (note start) us () us [] := by
  intro c hc
  refine ⟨_, rfl, ⟨hc.suffix, hc.position⟩, (List.append_nil _).symm, ?_⟩
  intro hsound
  refine ⟨hsound.accesses, ?_⟩
  intro d hd
  rcases List.mem_cons.1 hd with rfl | hd
  · have := hc.position
    dsimp only
    omega
  · exact hsound.declarations d hd

theorem current (us : List Token) :
    Runs tape (current tape.tokens) us (us.headD tape.mark) us [] := by
  intro c hc
  refine ⟨_, congrArg (Option.map _) hc.head, ⟨hc.suffix, hc.position⟩,
    (List.append_nil _).symm, ?_⟩
  intro hsound
  refine ⟨?_, hsound.declarations⟩
  intro a ha
  rcases List.mem_cons.1 ha with rfl | ha
  · exact hc.position_le
  · exact hsound.accesses a ha

theorem previous {t : Token} (h : t :: us <:+ tape.front) :
    Runs tape (previous tape.tokens) us t us [] := by
  intro c hc
  have hlimit : us.length + 1 ≤ tape.limit := h.length_le
  have hposition := hc.position
  -- The cursor stood one token earlier when it saw `t`.
  obtain ⟨before, hbefore⟩ : ∃ before, c.position = before + 1 := ⟨c.position - 1, by omega⟩
  have hseen : Sees tape (t :: us) { c with position := before } := by
    refine ⟨h, ?_⟩
    simp only [List.length_cons]
    omega
  refine ⟨{ c with accesses := .previous c.position :: c.accesses }, ?_, ⟨hc.suffix, hc.position⟩,
    (List.append_nil _).symm, ?_⟩
  · simp only [Cursor.previous, hbefore]
    exact congrArg (Option.map _) hseen.head
  · intro hsound
    refine ⟨?_, hsound.declarations⟩
    intro a ha
    rcases List.mem_cons.1 ha with rfl | ha
    · exact ⟨by omega, hc.position_le⟩
    · exact hsound.accesses a ha

theorem atEnd (us : List Token) : Runs tape (atEnd tape.tokens) us us.isEmpty us [] := by
  apply of_suffix
  intro hsuffix
  have hkind : us.isEmpty = decide ((us.headD tape.mark).kind = .endOfFile) := by
    cases us with
    | nil => simp [tape.mark_kind]
    | cons t after => simp [tape.unmarked t (hsuffix.subset List.mem_cons_self)]
  rw [hkind]
  exact (current us).next (pure _ us)

theorem check (kind : Token.Kind) (us : List Token) :
    Runs tape (check tape.tokens kind) us (us.head?.any (·.kind = kind)) us [] := by
  cases us with
  | nil => exact (atEnd []).next (pure false [])
  | cons t after => exact (atEnd (t :: after)).next ((current (t :: after)).next (pure _ _))

theorem advance (t : Token) (after : List Token) :
    Runs tape (advance tape.tokens) (t :: after) t after [] := by
  apply of_suffix
  intro hsuffix
  refine (atEnd (t :: after)).next (next (a := ()) ?_ (previous hsuffix))
  intro c hc
  refine ⟨_, rfl, ⟨(List.suffix_cons t after).trans hsuffix, ?_⟩, (List.append_nil _).symm,
    fun h => ⟨h.accesses, h.declarations⟩⟩
  have := hc.position
  simp only [List.length_cons] at this
  dsimp only
  omega

theorem accept_cons {t : Token} {after : List Token} {kinds : List Token.Kind}
    (h : t.kind ∈ kinds) : Runs tape (accept tape.tokens kinds) (t :: after) true after [] := by
  induction kinds with
  | nil => cases h
  | cons kind kinds ih =>
    refine (check kind (t :: after)).next ?_
    by_cases hkind : t.kind = kind
    · simp only [List.head?_cons, Option.any_some, hkind, decide_true, if_true]
      exact (advance t after).next (pure true after)
    · simp only [List.head?_cons, Option.any_some, hkind, decide_false, Bool.false_eq_true,
        if_false]
      exact ih ((List.mem_cons.1 h).resolve_left hkind)

theorem accept_none {kinds : List Token.Kind} (h : ∀ t ∈ us.head?, t.kind ∉ kinds) :
    Runs tape (accept tape.tokens kinds) us false us [] := by
  induction kinds with
  | nil => exact pure false us
  | cons kind kinds ih =>
    have hcheck : us.head?.any (·.kind = kind) = false := by
      cases us with
      | nil => rfl
      | cons t after =>
        have := h t rfl
        simp only [List.mem_cons, not_or] at this
        simpa using this.1
    refine (check kind us).next ?_
    rw [hcheck]
    exact ih fun t ht hmem => h t ht (List.mem_cons_of_mem _ hmem)

/-- A production that gave up is the last. -/
theorem stop {x : Walk (Except Refusal α)} {f : α → Walk (Except Refusal β)} {refusal : Refusal}
    (hx : Runs tape x us (.error refusal) mid told) :
    Runs tape (andThen x f) us (.error refusal) mid told := by
  rw [← List.append_nil told]
  exact hx.bind (pure (Except.error refusal) mid)

variable {kinds : List Token.Kind} {yes no : Walk α}

theorem accepted {t : Token} {after : List Token} (h : t.kind ∈ kinds)
    (hyes : t :: after <:+ tape.front → Runs tape yes after a rest told) :
    Runs tape (do if ← accept tape.tokens kinds then yes else no) (t :: after) a rest told := by
  apply of_suffix
  intro hsuffix
  exact (accept_cons h).next (hyes hsuffix)

theorem refused (h : ∀ t ∈ us.head?, t.kind ∉ kinds) (hno : Runs tape no us a rest told) :
    Runs tape (do if ← accept tape.tokens kinds then yes else no) us a rest told :=
  (accept_none h).next hno

theorem skip {last : Token} {depth : Nat} (h : last :: us <:+ tape.front)
    (hdepth : us.length < depth) :
    Runs tape (skip tape.tokens depth) us () (resume last us) [] := by
  induction us generalizing last depth with
  | nil =>
    obtain ⟨depth, rfl⟩ := Nat.exists_eq_add_one.2 hdepth
    rw [Cursor.skip, resume]
    exact (atEnd []).next (pure () [])
  | cons t after ih =>
    obtain ⟨depth, rfl⟩ := Nat.exists_eq_add_one.2 (Nat.zero_lt_of_lt hdepth)
    rw [Cursor.skip, resume]
    refine (atEnd (t :: after)).next ((previous h).next ?_)
    by_cases hlast : last.kind = .semicolon
    · simp only [hlast, true_or, if_true]
      exact pure () _
    · simp only [hlast, false_or, if_false]
      refine (current (t :: after)).next ?_
      by_cases hstart : t.kind.startsStatement = true
      · simp only [List.headD_cons, hstart, if_true]
        exact pure () _
      · simp only [List.headD_cons, hstart]
        have hrest := ih ((List.suffix_cons last _).trans h) (Nat.lt_of_succ_lt_succ hdepth)
        exact (advance t after).next hrest

/-- At the end nothing is skipped, but a token must have been read. -/
theorem resynchronize {depth : Nat} (h : tape.front ≠ []) (hdepth : us.length < depth) :
    Runs tape (resynchronize tape.tokens depth) us () (synchronize us) [] := by
  apply of_suffix
  intro hsuffix
  cases us with
  | nil =>
    have hlast : [tape.front.getLast h] <:+ tape.front :=
      ⟨tape.front.dropLast, List.dropLast_concat_getLast h⟩
    refine next (a := tape.front.getLast h) ?_ (skip hlast hdepth)
    exact (atEnd []).next (previous hlast)
  | cons t after => exact (advance t after).next (skip hsuffix (Nat.lt_of_succ_lt hdepth))

end Runs

/-- A walk does what a production on lists replies. If it gives up, its refusal reads like the
fault. -/
structure Mirrors (tape : Tape) (x : Walk (Except Refusal α)) (us : List Token) (r : Reply α) :
    Prop where
  runs : Runs tape x us (r.outcome.mapError (·.refusal tape.mark)) r.rest
    (r.reports.map (·.diagnostic tape.mark.line))
  refusal : us <:+ tape.front → ∀ f, r.outcome = .error f →
    (f.refusal tape.mark).diagnostic = f.diagnostic tape.mark.line

namespace Mirrors

variable {x : Walk (Except Refusal α)} {f : α → Walk (Except Refusal β)}

theorem done (a : α) (us : List Token) : Mirrors tape (pure (.ok a)) us (Step.done a us).val :=
  ⟨.pure _ us, fun _ _ h => by cases h⟩

/-- Giving up at the next token, or at the mark. -/
theorem fail (cause : Cause) (us : List Token) :
    Mirrors tape (do return .error ⟨← current tape.tokens, cause⟩) us
      (⟨.error ⟨us.head?, cause⟩, us, []⟩ : Reply α) := by
  constructor
  · have hhead : us.headD tape.mark = us.head?.getD tape.mark := List.headD_eq_head?_getD
    refine (Runs.current us).next ?_
    rw [hhead]
    exact .pure _ us
  · rintro hsuffix _ ⟨⟩
    cases us with
    | nil => simp [Fault.refusal, Refusal.diagnostic, Fault.diagnostic, tape.mark_kind]
    | cons t after =>
      have ht := tape.unmarked t (hsuffix.subset List.mem_cons_self)
      simp [Fault.refusal, Refusal.diagnostic, Fault.diagnostic, ht]

theorem consume (kind : Token.Kind) (cause : Cause) (us : List Token) :
    Mirrors tape (consume tape.tokens kind cause) us (expect kind cause us).val := by
  have hcheck : Runs tape (check tape.tokens kind) us _ us [] := .check kind us
  have hfail : Mirrors tape _ us (⟨.error ⟨us.head?, cause⟩, us, []⟩ : Reply Token) := fail cause us
  cases us with
  | nil => exact ⟨hcheck.next hfail.runs, hfail.refusal⟩
  | cons t after =>
    by_cases hkind : t.kind = kind
    · simp only [List.head?_cons, Option.any_some, hkind, decide_true] at hcheck
      simp only [expect, hkind, if_true]
      exact ⟨hcheck.next ((Runs.advance t after).next (.pure _ after)), fun _ _ h => by cases h⟩
    · simp only [List.head?_cons, Option.any_some, hkind, decide_false] at hcheck
      simp only [expect, hkind, if_false]
      exact ⟨hcheck.next hfail.runs, hfail.refusal⟩

theorem andThen {tokens : List Token} {first : Step α tokens}
    {next : (a : α) → (rest : List Token) → rest.length ≤ tokens.length → Step β rest}
    (hx : Mirrors tape x us first.val)
    (hf : ∀ a rest hrest, Mirrors tape (f a) rest (next a rest hrest).val) :
    Mirrors tape (andThen x f) us (first.andThen next).val := by
  obtain ⟨⟨outcome, mid, reports⟩, hmid⟩ := first
  cases outcome with
  | error fault =>
    refine ⟨hx.runs.stop, ?_⟩
    rintro hus _ ⟨⟩
    exact hx.refusal hus fault rfl
  | ok a =>
    have hsecond := hf a mid hmid
    refine ⟨?_, fun hus => hsecond.refusal (hx.runs.suffix hus)⟩
    simpa [Step.andThen] using hx.runs.bind hsecond.runs

variable {kinds : List Token.Kind} {yes no : Walk (Except Refusal α)} {r : Reply α}

theorem accepted {t : Token} {after : List Token} (h : t.kind ∈ kinds)
    (hyes : t :: after <:+ tape.front → Mirrors tape yes after r) :
    Mirrors tape (do if ← accept tape.tokens kinds then yes else no) (t :: after) r := by
  refine ⟨.accepted h fun hsuffix => (hyes hsuffix).runs, ?_⟩
  intro hsuffix
  exact (hyes hsuffix).refusal ((List.suffix_cons t after).trans hsuffix)

theorem refused (h : ∀ t ∈ us.head?, t.kind ∉ kinds) (hno : Mirrors tape no us r) :
    Mirrors tape (do if ← accept tape.tokens kinds then yes else no) us r :=
  ⟨.refused h hno.runs, hno.refusal⟩

/-- The token just read is still at hand. -/
theorem previous {t : Token} {g : Token → Walk (Except Refusal α)}
    (h : t :: us <:+ tape.front) (hg : Mirrors tape (g t) us r) :
    Mirrors tape (do g (← previous tape.tokens)) us r :=
  ⟨(Runs.previous h).next hg.runs, hg.refusal⟩

theorem reported {t : Token} (ht : t.kind ≠ .endOfFile) (cause : Cause) (a : α) (us : List Token) :
    Mirrors tape (do report ⟨t, cause⟩; return .ok a) us
      ((Step.done a us).report ⟨some t, cause⟩).val := by
  refine ⟨?_, fun _ _ h => by cases h⟩
  have hdiagnostic : Refusal.diagnostic ⟨t, cause⟩ =
      Fault.diagnostic tape.mark.line ⟨some t, cause⟩ := by
    simp [Refusal.diagnostic, Fault.diagnostic, ht]
  have hreport : Runs tape _ us () us _ := .report ⟨t, cause⟩ us
  rw [hdiagnostic] at hreport
  exact hreport.bind (.pure _ us)

end Mirrors

-- From a declaration down to the primary with which it begins, fewer than sixteen calls are within
-- each other, and the primary takes a token. So the depth lasts if sixteen are left for each token;
-- what is added to that is the height of the production above the primary.

theorem primary_mirrors_nil {depth : Nat} :
    Mirrors tape (readPrimary tape.tokens (depth + 1)) []
      (Step.fail .expression [] : Step Expr []).val := by
  rw [readPrimary]
  repeat refine .refused (by simp) ?_
  exact .fail _ _

mutual

theorem expression_mirrors {depth : Nat} {us : List Token} (h : 16 * us.length + 10 ≤ depth) :
    Mirrors tape (readExpression tape.tokens depth) us (expression us).val := by
  match depth with
  | 0 => omega
  | depth + 1 =>
    rw [readExpression, expression]
    apply (chain_mirrors (show 16 * us.length + 6 + 3 ≤ depth by omega)).andThen
    intro left rest hrest
    cases rest with
    | nil => exact .refused (by simp) (.done left [])
    | cons t after =>
      by_cases ht : t.kind = .equal
      · simp only [ht, if_true]
        refine .accepted (by simp [ht]) fun hsuffix => .previous hsuffix ?_
        simp only [List.length_cons] at hrest
        have hright := expression_mirrors (show 16 * after.length + 10 ≤ depth by omega)
        rw [← after_val (expression after) (length_le_cons t after)] at hright
        have hnot : t.kind ≠ .endOfFile := by simp [ht]
        cases left with
        | name target => exact hright.andThen fun value rest _ => .done _ rest
        | _ => exact hright.andThen fun _ rest _ => .reported hnot .assignmentTarget _ rest
      · simp only [ht, if_false]
        exact .refused (by simpa using ht) (.done left (t :: after))

theorem chain_mirrors {depth level : Nat} {us : List Token}
    (h : 16 * us.length + level + 3 ≤ depth) :
    Mirrors tape (readChain tape.tokens depth level) us (climb level us).val := by
  match depth, level with
  | 0, _ => omega
  | depth + 1, 0 =>
    rw [readChain, climb_zero]
    exact unary_mirrors (by omega)
  | depth + 1, below + 1 =>
    rw [readChain, climb]
    apply (chain_mirrors (by omega)).andThen
    intro left rest hrest
    exact extend_mirrors left (by omega)

theorem extend_mirrors {depth below : Nat} {us : List Token} (left : Expr)
    (h : 16 * us.length + below + 3 ≤ depth) :
    Mirrors tape (extendChain tape.tokens depth below left) us (climbOn below left us).val := by
  match depth with
  | 0 => omega
  | depth + 1 =>
    rw [extendChain]
    cases us with
    | nil =>
      rw [climbOn]
      exact .refused (by simp) (.done left [])
    | cons t after =>
      rw [climbOn]
      by_cases ht : joins (below + 1) t.kind = true
      · simp only [ht, if_true]
        refine .accepted ((joins_iff _ _).1 ht) fun hsuffix => .previous hsuffix ?_
        simp only [List.length_cons] at h
        apply (chain_mirrors (by omega)).andThen
        intro right rest hrest
        exact extend_mirrors _ (by omega)
      · simp only [ht]
        refine .refused ?_ (.done left (t :: after))
        simpa [← joins_iff] using ht

theorem unary_mirrors {depth : Nat} {us : List Token} (h : 16 * us.length + 2 ≤ depth) :
    Mirrors tape (readUnary tape.tokens depth) us (unary us).val := by
  match depth with
  | 0 | 1 => omega
  | depth + 2 =>
    rw [readUnary]
    cases us with
    | nil =>
      rw [unary]
      exact .refused (by simp) primary_mirrors_nil
    | cons t after =>
      rw [unary]
      simp only [List.length_cons] at h
      by_cases ht : t.kind = .bang ∨ t.kind = .minus
      · simp only [ht, if_true]
        refine .accepted (by simpa using ht) fun hsuffix => .previous hsuffix ?_
        exact (unary_mirrors (by omega)).andThen fun operand rest _ => .done _ rest
      · simp only [ht, if_false]
        exact .refused (by simpa using ht) (primary_mirrors (by omega))

theorem primary_mirrors {depth : Nat} {t : Token} {after : List Token}
    (h : 16 * after.length + 11 ≤ depth) :
    Mirrors tape (readPrimary tape.tokens depth) (t :: after) (primary t after).val := by
  match depth with
  | 0 => omega
  | depth + 1 =>
    rw [readPrimary, primary]
    split
    · next ht => exact .accepted (by simp [ht]) fun _ => .done _ after
    · next ht => exact .refused (by simp [ht]) <| .accepted (by simp [ht]) fun _ => .done _ after
    · next ht =>
      refine .refused (by simp [ht]) <| .refused (by simp [ht]) <| ?_
      exact .accepted (by simp [ht]) fun _ => .done _ after
    · next ht =>
      refine .refused (by simp [ht]) <| .refused (by simp [ht]) <| .refused (by simp [ht]) <| ?_
      exact .accepted (by simp [ht]) fun hsuffix => .previous hsuffix (.done _ after)
    · next ht =>
      refine .refused (by simp [ht]) <| .refused (by simp [ht]) <| .refused (by simp [ht]) <| ?_
      exact .accepted (by simp [ht]) fun hsuffix => .previous hsuffix (.done _ after)
    · next ht =>
      refine .refused (by simp [ht]) <| .refused (by simp [ht]) <| .refused (by simp [ht]) <|
        .refused (by simp [ht]) <| ?_
      exact .accepted (by simp [ht]) fun hsuffix => .previous hsuffix (.done _ after)
    · next ht =>
      refine .refused (by simp [ht]) <| .refused (by simp [ht]) <| .refused (by simp [ht]) <|
        .refused (by simp [ht]) <| .refused (by simp [ht]) <| ?_
      refine .accepted (by simp [ht]) fun _ => ?_
      apply (expression_mirrors (by omega)).andThen
      intro inner rest hrest
      exact (Mirrors.consume .rightParen .parenAfterExpression rest).andThen fun _ rest _ =>
        .done _ rest
    · repeat refine .refused (by simp_all) ?_
      exact .fail _ _

end

theorem terminated_mirrors {depth : Nat} (build : Expr → Stmt) (cause : Cause)
    (h : 16 * us.length + 10 ≤ depth) :
    Mirrors tape (readTerminated tape.tokens depth build cause) us
      (terminated build cause us).val := by
  rw [terminated_val]
  apply (expression_mirrors h).andThen
  intro value rest _
  exact (Mirrors.consume .semicolon cause rest).andThen fun _ rest _ => .done _ rest

theorem variable_mirrors {depth : Nat} (h : 16 * us.length + 10 ≤ depth) :
    Mirrors tape (readVariable tape.tokens depth) us (declaration us).val := by
  rw [declaration]
  apply (Mirrors.consume .identifier .variableName us).andThen
  intro name rest hrest
  cases rest with
  | nil =>
    refine .refused (by simp) ?_
    exact (Mirrors.consume .semicolon .semicolonAfterVariable []).andThen fun _ rest _ =>
      .done (Stmt.declare name .absent) rest
  | cons t after =>
    by_cases ht : t.kind = .equal
    · simp only [ht, if_true]
      simp only [List.length_cons] at hrest
      refine .accepted (by simp [ht]) fun _ => ?_
      apply (expression_mirrors (by omega)).andThen
      intro initial rest _
      exact (Mirrors.consume .semicolon .semicolonAfterVariable rest).andThen fun _ rest _ =>
        .done _ rest
    · simp only [ht, if_false]
      refine .refused (by simpa using ht) ?_
      exact (Mirrors.consume .semicolon .semicolonAfterVariable (t :: after)).andThen
        fun _ rest _ => .done _ rest

/-- A walk over declarations does what a body tells. -/
abbrev Fills (tape : Tape) (x : Walk (List Stmt)) (us : List Token) (b : Body) : Prop :=
  Runs tape x us b.statements b.rest (b.reports.map (·.diagnostic tape.mark.line))

/-- A walk over one declaration does what a body tells of it. -/
abbrev Settles (tape : Tape) (x : Walk (Option Stmt)) (us : List Token) (b : Body) : Prop :=
  Runs tape x us b.statements.head? b.rest (b.reports.map (·.diagnostic tape.mark.line))

theorem Fills.andThen {tokens : List Token} {x : Walk (List Stmt)} {b : Body}
    {f : List Stmt → Walk (Except Refusal α)}
    {next : (a : List Stmt) → (rest : List Token) → rest.length ≤ tokens.length → Step α rest}
    (hx : Fills tape x us b) {hlen : b.rest.length ≤ tokens.length}
    (hf : Mirrors tape (f b.statements) b.rest (next b.statements b.rest hlen).val) :
    Mirrors tape (x >>= f) us ((b.step hlen).andThen next).val := by
  refine ⟨?_, fun hus => hf.refusal (hx.suffix hus)⟩
  simpa [Step.andThen, Body.step] using hx.bind hf.runs

theorem Settles.prepend {x : Walk (Option Stmt)} {y : Walk (List Stmt)} {first second : Body}
    (hx : Settles tape x us first) (hfirst : first.statements.head?.toList = first.statements)
    (hy : Fills tape y first.rest second) :
    Fills tape (do let a ← x; let b ← y; return a.toList ++ b) us (first.prepend second) := by
  have hruns := hx.bind (f := fun a => do let b ← y; return a.toList ++ b)
    (hy.bind (.pure _ second.rest))
  simpa [Fills, Body.prepend, hfirst] using hruns

/-- A declaration is kept or dropped. -/
theorem declared_single (t : Token) (after : List Token) :
    (declared t after).val.statements.head?.toList = (declared t after).val.statements := by
  have hsettle {tokens : List Token} (s : Step Stmt tokens) :
      (settle s).statements.head?.toList = (settle s).statements := by
    unfold settle
    split <;> rfl
  rw [declared]
  split
  · exact hsettle _
  · exact hsettle _

/-- A declaration must be behind its start when it ends, also one that failed. -/
theorem conclude_settles {tokens : List Token} {s : Step Stmt tokens}
    {x : Walk (Except Refusal Stmt)} {depth start : Nat} (hx : Mirrors tape x us s.val)
    (hus : us <:+ tape.front) (hfront : tape.front ≠ []) (hdepth : tokens.length < depth)
    (hstart : start < tape.limit - (settle s).rest.length) :
    Settles tape (do let result ← x; conclude tape.tokens depth start result) us (settle s) := by
  obtain ⟨⟨outcome, rest, reports⟩, hlen⟩ := s
  cases outcome with
  | ok a =>
    have hend : Runs tape (conclude tape.tokens depth start (.ok a)) rest (some a) rest [] :=
      (Runs.note hstart).next (.pure _ rest)
    simpa [Settles, settle] using hx.runs.bind hend
  | error fault =>
    have hskip : Runs tape (resynchronize tape.tokens depth) rest () (synchronize rest) [] :=
      .resynchronize hfront (Nat.lt_of_le_of_lt hlen hdepth)
    have hend : Runs tape (conclude tape.tokens depth start (.error (fault.refusal tape.mark)))
        rest none (synchronize rest) [(fault.refusal tape.mark).diagnostic] :=
      (Runs.report _ rest).bind (hskip.next ((Runs.note hstart).next (.pure _ _)))
    rw [hx.refusal hus fault rfl] at hend
    simpa [Settles, settle] using hx.runs.bind hend

mutual

theorem statement_mirrors {depth : Nat} {us : List Token} (h : 16 * us.length + 11 ≤ depth) :
    Mirrors tape (readStatement tape.tokens depth) us (statement us).val := by
  match depth, us with
  | 0, _ => omega
  | depth + 1, [] =>
    rw [readStatement, statement]
    refine .refused (by simp) <| .refused (by simp) <| .refused (by simp) ?_
    exact terminated_mirrors .expression .semicolonAfterExpression (by omega)
  | depth + 1, t :: after =>
    by_cases hif : t.kind = .ifWord
    · rw [readStatement, statement]
      simp only [hif]
      rw [behind_val]
      simp only [List.length_cons] at h
      refine .accepted (by simp [hif]) fun _ => ?_
      apply (Mirrors.consume .leftParen .parenAfterIf after).andThen
      intro _ more hmore
      apply (expression_mirrors (by omega)).andThen
      intro condition rest hrest
      apply (Mirrors.consume .rightParen .parenAfterCondition rest).andThen
      intro _ mid hmid
      apply (statement_mirrors (by omega)).andThen
      intro onTrue next hnext
      cases next with
      | nil => exact .refused (by simp) (.done _ [])
      | cons e tail =>
        by_cases he : e.kind = .elseWord
        · simp only [he, if_true]
          simp only [List.length_cons] at hnext
          refine .accepted (by simp [he]) fun _ => ?_
          rw [after_val]
          exact (statement_mirrors (by omega)).andThen fun onFalse rest _ => .done _ rest
        · simp only [he, if_false]
          exact .refused (by simpa using he) (.done _ (e :: tail))
    · by_cases hprint : t.kind = .printWord
      · rw [readStatement, statement_print hprint]
        simp only [List.length_cons] at h
        refine .refused (by simpa using hif) <| .accepted (by simp [hprint]) fun _ => ?_
        exact terminated_mirrors .print .semicolonAfterValue (by omega)
      · by_cases hbrace : t.kind = .leftBrace
        · rw [readStatement, statement]
          simp only [hbrace]
          rw [behind_val]
          simp only [List.length_cons] at h
          refine .refused (by simp [hbrace]) <| .refused (by simp [hbrace]) <|
            .accepted (by simp [hbrace]) fun _ => (block_fills (by omega)).andThen ?_
          exact (Mirrors.consume .rightBrace .braceAfterBlock _).andThen fun _ rest _ =>
            .done _ rest
        · rw [readStatement, statement_default (by simp [hif, hprint, hbrace])]
          refine .refused (by simpa using hif) <| .refused (by simpa using hprint) <|
            .refused (by simpa using hbrace) ?_
          exact terminated_mirrors .expression .semicolonAfterExpression (by omega)

theorem declared_settles {depth : Nat} {t : Token} {after : List Token}
    (h : 16 * (after.length + 1) + 12 ≤ depth) :
    Settles tape (readDeclaration tape.tokens depth) (t :: after) (declared t after).val := by
  match depth with
  | 0 => omega
  | depth + 1 =>
    apply Runs.of_suffix
    intro hsuffix
    have hafter : after <:+ tape.front := (List.suffix_cons t after).trans hsuffix
    have hfront : tape.front ≠ [] := by
      rintro hnil
      rw [hnil] at hsuffix
      cases List.suffix_nil.1 hsuffix
    have hlimit : after.length + 1 ≤ tape.limit := hsuffix.length_le
    have hlen := (declared t after).property
    rw [readDeclaration]
    rw [declared] at hlen ⊢
    by_cases ht : t.kind = .varWord
    · simp only [ht, if_true] at hlen ⊢
      have hvariable : Mirrors tape (readVariable tape.tokens depth) after _ :=
        variable_mirrors (by omega)
      have hend := conclude_settles hvariable hafter hfront (show after.length < depth by omega)
        (show tape.limit - (after.length + 1) < _ by omega)
      exact (Runs.position _).next (.accepted (by simp [ht]) fun _ => hend)
    · simp only [ht, if_false] at hlen ⊢
      have hstatement : Mirrors tape (readStatement tape.tokens depth) (t :: after) _ :=
        statement_mirrors (show 16 * (after.length + 1) + 11 ≤ depth by omega)
      have hend := conclude_settles (s := (statement (t :: after)).toStep) hstatement hsuffix hfront
        (show after.length + 1 < depth by omega) (show tape.limit - (after.length + 1) < _ by omega)
      exact (Runs.position _).next (.refused (by simpa using ht) hend)

theorem block_fills {depth : Nat} {us : List Token} (h : 16 * us.length + 13 ≤ depth) :
    Fills tape (readBody tape.tokens depth) us (block us).val := by
  match depth, us with
  | 0, _ => omega
  | depth + 1, [] =>
    rw [readBody, block]
    exact (Runs.check .rightBrace []).next ((Runs.atEnd []).next (.pure _ []))
  | depth + 1, t :: after =>
    rw [readBody, block]
    simp only [List.length_cons] at h
    have hcheck : Runs tape _ (t :: after) _ (t :: after) [] := .check .rightBrace (t :: after)
    by_cases ht : t.kind = .rightBrace
    · simp only [ht, if_true]
      simp only [List.head?_cons, Option.any_some, ht, decide_true] at hcheck
      exact hcheck.next (.pure _ (t :: after))
    · simp only [ht, if_false]
      simp only [List.head?_cons, Option.any_some, ht, decide_false] at hcheck
      have hlen := (declared t after).property
      have hfirst : Settles tape (readDeclaration tape.tokens depth) (t :: after) _ :=
        declared_settles (by omega)
      have hrest : Fills tape (readBody tape.tokens depth) (declared t after).val.rest _ :=
        block_fills (by omega)
      refine hcheck.next ((Runs.atEnd (t :: after)).next ?_)
      exact Settles.prepend hfirst (declared_single t after) hrest

end

theorem program_fills {depth : Nat} (h : 16 * us.length + 13 ≤ depth) :
    Fills tape (readProgram tape.tokens depth) us (program us) := by
  induction depth generalizing us with
  | zero => omega
  | succ depth ih =>
    rw [readProgram]
    cases us with
    | nil =>
      rw [program]
      exact (Runs.atEnd []).next (.pure _ [])
    | cons t after =>
      rw [program]
      simp only [List.length_cons] at h
      have hlen := (declared t after).property
      have hfirst : Settles tape (readDeclaration tape.tokens depth) (t :: after) _ :=
        declared_settles (by omega)
      refine (Runs.atEnd (t :: after)).next ?_
      exact Settles.prepend hfirst (declared_single t after) (ih (by omega))

end Walks

theorem Tape.findIdx_tokens (tape : Tape) :
    tape.tokens.findIdx (·.kind = .endOfFile) = tape.limit := by
  have hfront : tape.front.findIdx (·.kind = .endOfFile) = tape.front.length :=
    List.findIdx_eq_length.2 (by simpa using tape.unmarked)
  rw [Tape.tokens, List.findIdx_append, hfront, List.findIdx_cons]
  simp [tape.mark_kind, Tape.limit]

theorem Tape.ofTokens_tokens (tape : Tape) : Parsed.ofTokens tape.tokens =
    ⟨(program tape.front).statements,
      (program tape.front).reports.map (·.diagnostic tape.mark.line)⟩ := by
  have hfind : tape.tokens.find? (·.kind = .endOfFile) = some tape.mark := by
    rw [Tape.tokens, List.find?_append, List.find?_eq_none.2 (by simpa using tape.unmarked)]
    simp [tape.mark_kind]
  have htake : tape.tokens.takeWhile (·.kind ≠ .endOfFile) = tape.front := by
    rw [Tape.tokens, List.takeWhile_append_of_pos (by simpa using tape.unmarked)]
    simp [tape.mark_kind]
  rw [Parsed.ofTokens, htake, lastLine, hfind]

theorem closing_of_unmarked {tokens : List Token} (h : ∀ t ∈ tokens, t.kind ≠ .endOfFile) :
    closing tokens = [⟨.endOfFile, [], lastLine tokens, .null⟩] := by
  have hfind : tokens.find? (·.kind = .endOfFile) = none := List.find?_eq_none.2 (by simpa using h)
  rw [closing, lastLine, hfind]
  cases hlast : tokens.getLast? with
  | none => rfl
  | some last => exact if_neg (h last (List.mem_of_getLast? hlast))

/-- All tokens are on a tape once they are marked. A mark that was missing has the line that the
diagnostics at the end speak of. -/
theorem exists_tape (tokens : List Token) :
    ∃ tape : Tape, tape.tokens = marked tokens ∧
      Parsed.ofTokens tape.tokens = Parsed.ofTokens tokens := by
  cases hfind : tokens.find? (·.kind = .endOfFile) with
  | some mark =>
    obtain ⟨hmark, front, behind, rfl, hfront⟩ := List.find?_eq_some_iff_append.1 hfind
    let short : Tape := ⟨front, mark, behind, by simpa using hfront, by simpa using hmark⟩
    let long : Tape := { short with behind := behind ++ closing (front ++ mark :: behind) }
    refine ⟨long, by simp [long, short, Tape.tokens, marked], ?_⟩
    exact long.ofTokens_tokens.trans short.ofTokens_tokens.symm
  | none =>
    have hunmarked : ∀ t ∈ tokens, t.kind ≠ .endOfFile := by
      simpa using List.find?_eq_none.1 hfind
    let tape : Tape := ⟨tokens, ⟨.endOfFile, [], lastLine tokens, .null⟩, [], hunmarked, rfl⟩
    refine ⟨tape, by rw [marked, closing_of_unmarked hunmarked]; rfl, ?_⟩
    exact tape.ofTokens_tokens.trans (ofTokens_unmarked hunmarked).symm

/-- From before any token of the front a declaration leads further on. -/
theorem readDeclaration_moves {tape : Tape} {depth : Nat} {c : Cursor}
    (hdepth : 16 * (tape.limit + 1) ≤ depth) (h : c.position < tape.limit) :
    ∃ statement c', readDeclaration tape.tokens depth c = some (statement, c') ∧
      c.position < c'.position ∧ c'.position ≤ tape.limit := by
  have hdrop : tape.front.drop c.position <:+ tape.front := List.drop_suffix _ _
  have hlength : c.position + (tape.front.drop c.position).length = tape.limit := by
    rw [List.length_drop]
    exact Nat.add_sub_cancel' (Nat.le_of_lt h)
  cases hus : tape.front.drop c.position with
  | nil =>
    rw [hus] at hlength
    exact absurd hlength (Nat.ne_of_lt h)
  | cons t after =>
    rw [hus] at hdrop hlength
    have hsees : c.Sees tape (t :: after) := ⟨hdrop, hlength⟩
    simp only [List.length_cons] at hlength
    have hbound := (declared t after).property
    have hmoves : Settles tape (readDeclaration tape.tokens depth) (t :: after) _ :=
      declared_settles (by omega)
    obtain ⟨c', hc', hsees', -⟩ := hmoves c hsees
    refine ⟨_, c', hc', ?_, hsees'.position_le⟩
    have := hsees'.position
    omega

end Cursor

end BlockScript.Parser

namespace BlockScript

open BlockScript.Parser

/-- The parser always makes progress and never reads outside its input. Whatever the tokens, the
cursor walks them to an end, with the result of the parser on lists; it stops at the first end
marker, looks at nothing behind it and at nothing in front of the first token. A declaration that
begins before the marker always ends, further on and not behind the marker. Sixteen nested calls for
each token up to the marker are enough, and more change nothing. Tokens behind the marker make no
difference. -/
theorem cursor_moves_on_and_stays_inside (tokens : List Token) :
    let all := Cursor.marked tokens
    let limit := all.findIdx (·.kind = .endOfFile)
    (∀ depth, 16 * (limit + 1) ≤ depth →
      (∃ c, Cursor.parse depth tokens = some (Parsed.ofTokens tokens, c) ∧ c.position = limit ∧
        c.Sound limit) ∧
      (∀ c : Cursor, c.position < limit → ∃ statement c',
        Cursor.readDeclaration all depth c = some (statement, c') ∧
          c.position < c'.position ∧ c'.position ≤ limit)) ∧
    Parsed.ofTokens (all.take (limit + 1)) = Parsed.ofTokens tokens := by
  obtain ⟨tape, htokens, hparsed⟩ := Cursor.exists_tape tokens
  dsimp only
  rw [← htokens, tape.findIdx_tokens, ← hparsed]
  refine ⟨fun depth hdepth => ⟨?_, fun c => Cursor.readDeclaration_moves hdepth⟩, ?_⟩
  · have hstart : Cursor.Sees tape tape.front {} := ⟨List.suffix_refl _, Nat.zero_add _⟩
    have henough : 16 * tape.front.length + 13 ≤ depth := by
      rw [Cursor.Tape.limit] at hdepth
      omega
    obtain ⟨c, hc, hsees, hdiagnostics, hsound⟩ := Cursor.program_fills henough {} hstart
    refine ⟨c, ?_, ?_, hsound ⟨by simp, by simp⟩⟩
    · rw [Cursor.parse, ← htokens, hc, tape.ofTokens_tokens]
      simp [hdiagnostics]
    · simpa [program_rest] using hsees.position
  · let short : Cursor.Tape := { tape with behind := [] }
    have htake : tape.tokens.take (tape.limit + 1) = short.tokens := by
      rw [Cursor.Tape.tokens, Cursor.Tape.limit, List.take_length_add_append]
      rfl
    rw [htake]
    exact short.ofTokens_tokens.trans tape.ofTokens_tokens.symm

end BlockScript
