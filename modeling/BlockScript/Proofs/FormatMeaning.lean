import BlockScript.Evaluator
import BlockScript.Proofs.RoundTrip

/-! Formatting preserves meaning. The program read back runs in the same way as the one that was
formatted. Grouping nodes and explicit signs change no value; a block around a dangling branch opens
a scope in which nothing is ever declared, so its run differs only by an empty scope in the chain.
-/

namespace BlockScript

open Token Format Grammar Evaluator

/-- The first chain of scopes is the second with empty scopes put in where the gaps are `true`. -/
inductive Fills : List Bool → List Scope → List Scope → Prop
  | none : Fills [] [] []
  | same {gaps a b} (s : Scope) (h : Fills gaps a b) : Fills (false :: gaps) (s :: a) (s :: b)
  | put {gaps a b} (h : Fills gaps a b) : Fills (true :: gaps) (.empty :: a) b

namespace Fills

variable {gaps : List Bool} {a b : List Scope}

theorem refl : (a : List Scope) → Fills (a.map fun _ => false) a a
  | [] => .none
  | s :: rest => .same s (refl rest)

theorem eq (h : Fills gaps a b) (hgaps : ∀ g ∈ gaps, g = false) : a = b := by
  induction h with
  | none => rfl
  | same s _ ih => rw [ih fun g hg => hgaps g (by simp [hg])]
  | put _ _ => cases hgaps true (by simp)

theorem ne_nil (h : Fills gaps a b) (hb : b ≠ []) : a ≠ [] := by
  cases h with
  | none => exact hb
  | same s _ => nofun
  | put _ => nofun

/-- The gaps say how many scopes there are. -/
theorem right_ne_nil {a' b' : List Scope} (h : Fills gaps a b) (hb : b ≠ [])
    (h' : Fills gaps a' b') : b' ≠ [] := by
  induction h generalizing a' b' with
  | none => exact absurd rfl hb
  | same s _ _ => cases h'; nofun
  | put _ ih => cases h' with | put h' => exact ih hb h'

theorem find (h : Fills gaps a b) (name : Bytes) : Scopes.find? name a = Scopes.find? name b := by
  induction h with
  | none => rfl
  | same s _ ih => rw [Scopes.find?, Scopes.find?, ih]
  | put _ ih => rw [Scopes.find?, ih]; rfl

/-- A replacement is found in both chains at the same place or in neither. -/
theorem replace (h : Fills gaps a b) (name : Bytes) (v : Value) :
    (Scopes.replace? name v a = Option.none ∧ Scopes.replace? name v b = Option.none) ∨
      ∃ a' b', Scopes.replace? name v a = some a' ∧ Scopes.replace? name v b = some b' ∧
        Fills gaps a' b' := by
  induction h with
  | none => exact .inl ⟨rfl, rfl⟩
  | @same gaps a b s h ih =>
    unfold Scopes.replace?
    by_cases hs : s.binds name = true
    · exact .inr ⟨_, _, by rw [if_pos hs], by rw [if_pos hs], .same _ h⟩
    · rw [if_neg hs, if_neg hs]
      obtain ⟨ha, hb⟩ | ⟨a', b', ha, hb, h'⟩ := ih
      · exact .inl ⟨by rw [ha]; rfl, by rw [hb]; rfl⟩
      · exact .inr ⟨_, _, by rw [ha]; rfl, by rw [hb]; rfl, .same s h'⟩
  | @put gaps a b h ih =>
    have hempty : Scopes.replace? name v (.empty :: a) =
        (Scopes.replace? name v a).map (Scope.empty :: ·) := by
      rw [Scopes.replace?, if_neg (by simp)]
    obtain ⟨ha, hb⟩ | ⟨a', b', ha, hb, h'⟩ := ih
    · exact .inl ⟨by rw [hempty, ha]; rfl, hb⟩
    · exact .inr ⟨_, _, by rw [hempty, ha]; rfl, hb, .put h'⟩

end Fills

/-- Why a run stopped, wherever that was. The cause holds the code and the message. -/
def Halt.bare : Halt → Halt
  | .fault f => .fault ⟨f.token.bare, f.cause⟩
  | halt => halt

/-- Two evaluations give the same value, or stop for the same reason. -/
inductive SameValue (gaps : List Bool) : (r r' : Except Halt Value × Scopes) → Prop
  | ok {v s s'} (h : Fills gaps s.toList s'.toList) : SameValue gaps (.ok v, s) (.ok v, s')
  | error {halt halt' s s'} (hhalt : halt.bare = halt'.bare) (h : Fills gaps s.toList s'.toList) :
      SameValue gaps (.error halt, s) (.error halt', s')

section Eval

variable {gaps : List Bool} {s s' : Scopes}

theorem toList_assign (s : Scopes) (name : Bytes) (v : Value) :
    (s.assign? name v).map Scopes.toList = Scopes.replace? name v s.toList := by
  rw [Scopes.assign?, Scopes.toList, Scopes.replace?]
  split
  · rfl
  · rw [Option.map_map]
    rfl

theorem sameValue_undefined (t : Token) (h : Fills gaps s.toList s'.toList) :
    SameValue gaps (undefined t.bare, s) (undefined t, s') := .error rfl h

theorem sameValue_assign (t : Token) (v : Value) (h : Fills gaps s.toList s'.toList) :
    SameValue gaps
      (match s.assign? t.bare.lexeme v with
        | some scopes => (.ok v, scopes)
        | none => (undefined t.bare, s))
      (match s'.assign? t.lexeme v with
        | some scopes => (.ok v, scopes)
        | none => (undefined t, s')) := by
  have hleft := toList_assign s t.lexeme v
  have hright := toList_assign s' t.lexeme v
  rw [Token.bare_lexeme]
  obtain ⟨ha, hb⟩ | ⟨a', b', ha, hb, h'⟩ := h.replace t.lexeme v
  · rw [ha, Option.map_eq_none_iff] at hleft
    rw [hb, Option.map_eq_none_iff] at hright
    rw [hleft, hright]
    exact sameValue_undefined t h
  · rw [ha] at hleft
    rw [hb] at hright
    obtain ⟨r, hr, rfl⟩ := Option.map_eq_some_iff.1 hleft
    obtain ⟨r', hr', rfl⟩ := Option.map_eq_some_iff.1 hright
    rw [hr, hr']
    exact .ok h'

theorem sameValue_applyUnary (t : Token) (v : Value) (h : Fills gaps s.toList s'.toList) :
    SameValue gaps (applyUnary t.bare v, s) (applyUnary t v, s') := by
  unfold applyUnary
  rw [Token.bare_kind]
  split
  · exact .ok h
  · split
    · exact .ok h
    · exact .error rfl h
  · exact .error rfl h

theorem sameValue_applyNumbers (t : Token) (x y : Float) (h : Fills gaps s.toList s'.toList) :
    SameValue gaps (applyNumbers t.bare x y, s) (applyNumbers t x y, s') := by
  unfold applyNumbers
  rw [Token.bare_kind]
  split
  case h_8 => exact .error rfl h
  all_goals exact .ok h

theorem sameValue_applyBinary (t : Token) (v w : Value) (h : Fills gaps s.toList s'.toList) :
    SameValue gaps (applyBinary t.bare v w, s) (applyBinary t v w, s') := by
  unfold applyBinary
  rw [Token.bare_kind]
  split
  · exact .ok h
  · exact .ok h
  · split
    · exact .ok h
    · exact .ok h
    · exact .error rfl h
  · split
    · exact sameValue_applyNumbers t _ _ h
    · exact .error rfl h

theorem eval_groupedIf (wanted : Bool) (e : Expr) (s : Scopes) :
    (e.groupedIf wanted).eval s = e.eval s := by
  cases wanted <;> rfl

theorem eval_unsigned {v : Literal} (hv : v.WellFormed) (s : Scopes) :
    v.unsigned.eval s = (.ok (.ofLiteral v), s) := by
  cases hv with
  | @number x hfin =>
    unfold Literal.unsigned
    dsimp only
    split
    · next hsign =>
      have hvalue : -(Decimal.magnitude x) = x := Decimal.neg_ofPlace_place hsign hfin
      simp only [Expr.eval, Value.ofLiteral, applyUnary, mark, hvalue]
    · rfl
  | _ => rfl

/-- What is done with a value once it is there. -/
theorem SameValue.next {r r' : Except Halt Value × Scopes}
    {next next' : Value → Scopes → Except Halt Value × Scopes} : SameValue gaps r r' →
    (∀ v s s', Fills gaps s.toList s'.toList → SameValue gaps (next v s) (next' v s')) →
    SameValue gaps
      (match r with
        | (.error halt, s) => (.error halt, s)
        | (.ok v, s) => next v s)
      (match r' with
        | (.error halt, s) => (.error halt, s)
        | (.ok v, s) => next' v s) := by
  intro h hnext
  cases h with
  | ok h => exact hnext _ _ _ h
  | error hhalt h => exact .error hhalt h

/-- An expression and its canonical form have the same value. -/
theorem Expr.WellFormed.sameValue {e : Expr} (he : e.WellFormed)
    (h : Fills gaps s.toList s'.toList) : SameValue gaps (e.canonical.eval s) (e.eval s') := by
  induction he generalizing s s' with
  | literal hv =>
    rw [canonical, eval_unsigned hv]
    exact .ok h
  | @name t ht =>
    have hget : s.get? t.lexeme = s'.get? t.lexeme := h.find t.lexeme
    rw [canonical, eval, eval, Token.bare_lexeme, hget]
    split
    · exact .ok h
    · exact sameValue_undefined t h
  | grouping _ ih => exact ih h
  | @assign t e _ _ ih =>
    rw [canonical, eval, eval]
    exact (ih h).next fun v _ _ h => sameValue_assign t v h
  | @binary n l t r _ _ _ _ _ ihl ihr =>
    rw [canonical, eval, eval]
    simp only [eval_groupedIf]
    exact (ihl h).next fun v _ _ h => (ihr h).next fun w _ _ h => sameValue_applyBinary t v w h
  | @logical n l t r _ _ _ _ _ ihl ihr =>
    rw [canonical, eval, eval]
    simp only [eval_groupedIf]
    refine (ihl h).next fun v _ _ h => ?_
    have hdecides : decides t.bare v = decides t v := rfl
    rw [hdecides]
    split
    · exact .ok h
    · exact ihr h
  | @unary t e _ _ _ ih =>
    rw [canonical, eval, eval, eval_groupedIf]
    exact (ih h).next fun v _ _ h => sameValue_applyUnary t v h

end Eval

/-- The bindings differ by empty scopes only, and the same has been printed. -/
structure Machine.Like (gaps : List Bool) (m m' : Machine) : Prop where
  scopes : Fills gaps m.scopes.toList m'.scopes.toList
  sink : m.sink = m'.sink

inductive SameRun (gaps : List Bool) : (r r' : Option Halt × Machine) → Prop
  | done {m m'} (h : m.Like gaps m') : SameRun gaps (none, m) (none, m')
  | stopped {halt halt' m m'} (hhalt : halt.bare = halt'.bare) (h : m.Like gaps m') :
      SameRun gaps (some halt, m) (some halt', m')

namespace SameRun

variable {gaps : List Bool} {m m' : Machine}

theorem finishLeft {r r' : Option Halt × Machine} (h : SameRun gaps r r') (line : Int) :
    SameRun gaps (Stmt.finish line r) r' := by
  cases h with
  | done h => exact .done ⟨h.scopes, h.sink⟩
  | stopped hhalt h => exact .stopped hhalt h

theorem finish {r r' : Option Halt × Machine} (h : SameRun gaps r r') (line line' : Int) :
    SameRun gaps (Stmt.finish line r) (Stmt.finish line' r') := by
  refine SameRun.finishLeft ?_ line
  cases h with
  | done h => exact .done ⟨h.scopes, h.sink⟩
  | stopped hhalt h => exact .stopped hhalt h

theorem print (h : m.Like gaps m') (line line' : Int) (v : Value) :
    SameRun gaps (m.print line v) (m'.print line' v) := by
  unfold Machine.print
  rw [h.sink]
  obtain ⟨refusal, sink⟩ := m'.sink.write (v.text ++ [Bytes.lineFeed])
  cases refusal with
  | none => exact .done ⟨h.scopes, rfl⟩
  | some reason => exact .stopped rfl ⟨h.scopes, rfl⟩

/-- What is done with the value of an expression. -/
theorem withValue {e : Expr} {next next' : Value → Machine → Option Halt × Machine}
    (he : e.WellFormed) (h : m.Like gaps m')
    (hnext : ∀ v n n', Machine.Like gaps n n' → SameRun gaps (next v n) (next' v n')) :
    SameRun gaps (m.withValue e.canonical next) (m'.withValue e next') := by
  have hvalue := he.sameValue h.scopes
  unfold Machine.withValue Machine.eval
  generalize e.canonical.eval m.scopes = r, e.eval m'.scopes = r' at hvalue
  cases hvalue with
  | ok hscopes => exact hnext _ _ _ ⟨hscopes, h.sink⟩
  | error hhalt hscopes => exact .stopped hhalt ⟨hscopes, h.sink⟩

end SameRun

def Grammar.Phrase.run : Phrase → Machine → Option Halt × Machine
  | .statement s, m | .declaration s, m => s.exec m
  | .declarations body, m => execAll body m

/-- A declaration acts on the innermost scope, so that must be one of the program's own. -/
def Grammar.Phrase.Suits (gaps : List Bool) : Phrase → Prop
  | .statement _ => True
  | .declaration _ | .declarations _ => ∃ outer, gaps = false :: outer

theorem Scopes.toList_leave {s : Scopes} {first : Scope} {outer : List Scope}
    (h : s.toList = first :: outer) (hne : outer ≠ []) : s.leave.toList = outer := by
  obtain ⟨current, enclosing⟩ := s
  obtain ⟨rfl, rfl⟩ := List.cons.inj h
  cases enclosing with
  | nil => exact absurd rfl hne
  | cons scope rest => rfl

theorem Fills.leave {gaps : List Bool} {s s' inner inner' : Scopes}
    (h : Fills gaps s.toList s'.toList)
    (hinner : Fills (false :: gaps) inner.toList inner'.toList) :
    Fills gaps inner.leave.toList inner'.leave.toList := by
  generalize ha : inner.toList = a, hb : inner'.toList = b at hinner
  cases hinner with
  | same first hinner =>
    have hne' := h.right_ne_nil (by nofun) hinner
    rw [Scopes.toList_leave ha (hinner.ne_nil hne'), Scopes.toList_leave hb hne']
    exact hinner

theorem Fills.leavePut {gaps : List Bool} {inner s' : Scopes}
    (h : Fills (true :: gaps) inner.toList s'.toList) :
    Fills gaps inner.leave.toList s'.toList := by
  generalize ha : inner.toList = a at h
  cases h with
  | put h =>
    rw [Scopes.toList_leave ha (h.ne_nil (by nofun))]
    exact h

theorem execAll_singleton (s : Stmt) (m : Machine) : execAll [s] m = s.exec m := by
  rw [execAll]
  split
  · next h => exact h.symm
  · next h => rw [execAll, h]

theorem SameRun.block {gaps : List Bool} {m m' : Machine} {body body' : List Stmt}
    (h : m.Like gaps m')
    (hbody : ∀ n n', Machine.Like (false :: gaps) n n' →
      SameRun (false :: gaps) (execAll body n) (execAll body' n')) :
    SameRun gaps ((Stmt.block body).exec m) ((Stmt.block body').exec m') := by
  have hrun := hbody (m.inBlock (.block body)) (m'.inBlock (.block body'))
    ⟨.same .empty h.scopes, h.sink⟩
  rw [Stmt.exec, Stmt.exec]
  refine SameRun.finish ?_ _ _
  generalize execAll body _ = r, execAll body' _ = r' at hrun ⊢
  cases hrun with
  | done hlike => exact .done ⟨h.scopes.leave hlike.scopes, hlike.sink⟩
  | stopped hhalt hlike => exact .stopped hhalt ⟨h.scopes.leave hlike.scopes, hlike.sink⟩

/-- The scope of a block around a statement that declares nothing stays empty. -/
theorem SameRun.wrapped {gaps : List Bool} {m m' : Machine} {s s' : Stmt} (h : m.Like gaps m')
    (hs : ∀ n n', Machine.Like (true :: gaps) n n' →
      SameRun (true :: gaps) (s.exec n) (s'.exec n')) :
    SameRun gaps ((Stmt.block [s]).exec m) (s'.exec m') := by
  have hrun := hs (m.inBlock (.block [s])) m' ⟨.put h.scopes, h.sink⟩
  rw [Stmt.exec, execAll_singleton]
  refine SameRun.finishLeft ?_ _
  generalize s.exec _ = r, s'.exec m' = r' at hrun
  cases hrun with
  | done hlike => exact .done ⟨hlike.scopes.leavePut, hlike.sink⟩
  | stopped hhalt hlike => exact .stopped hhalt ⟨hlike.scopes.leavePut, hlike.sink⟩

theorem Fills.define {gaps : List Bool} {s s' : Scopes}
    (h : Fills (false :: gaps) s.toList s'.toList) (name : Bytes) (v : Value) :
    Fills (false :: gaps) (s.define name v).toList (s'.define name v).toList := by
  obtain ⟨current, enclosing⟩ := s
  obtain ⟨current', enclosing'⟩ := s'
  cases h with
  | same _ h => exact .same _ h

theorem Machine.Like.begun {gaps : List Bool} {m m' : Machine} (h : m.Like gaps m') (s s' : Stmt) :
    (m.begun s).Like gaps (m'.begun s') := ⟨h.scopes, h.sink⟩

theorem Machine.Like.define {gaps : List Bool} {m m' : Machine} (h : m.Like (false :: gaps) m')
    (name : Bytes) (v : Value) : (m.define name v).Like (false :: gaps) (m'.define name v) :=
  ⟨h.scopes.define name v, h.sink⟩

/-- A phrase and its canonical form run in the same way. -/
theorem Grammar.Phrase.WellFormed.sameRun {p : Phrase} (hp : p.WellFormed) {gaps : List Bool}
    {m m' : Machine} (hsuits : p.Suits gaps) (h : m.Like gaps m') :
    SameRun gaps (p.canonical.run m) (p.run m') := by
  induction hp generalizing gaps m m' with
  | expression he =>
    simp only [canonical, run, Stmt.canonical, Stmt.exec]
    exact (SameRun.withValue he (h.begun _ _) fun v n n' hn => .done hn).finish _ _
  | print he =>
    simp only [canonical, run, Stmt.canonical, Stmt.exec]
    exact (SameRun.withValue he (h.begun _ _) fun v n n' hn => .print hn _ _ v).finish _ _
  | block _ ih => exact SameRun.block h fun n n' hn => ih ⟨gaps, rfl⟩ hn
  | @ifThen c s hc _ ih =>
    simp only [canonical, run, Stmt.canonical, Stmt.exec]
    refine (SameRun.withValue hc (h.begun _ _) fun v n n' hn => ?_).finish _ _
    split
    · exact ih trivial hn
    · exact .done hn
  | @ifElse c s f hc _ hf ihs ihf =>
    have hf := hf.ne_absent
    have hf' := Stmt.canonical_ne_absent hf
    simp only [canonical, run, Stmt.canonical_ifElse hf, Stmt.exec, Stmt.isAbsent_iff, hf, hf',
      if_false]
    refine (SameRun.withValue hc (h.begun _ _) fun v n n' hn => ?_).finish _ _
    split
    · split
      · exact SameRun.wrapped hn fun k k' hk => ihs trivial hk
      · exact ihs trivial hn
    · exact ihf trivial hn
  | declare hx =>
    obtain ⟨outer, rfl⟩ := hsuits
    simp only [canonical, run, Stmt.canonical, Stmt.exec, Expr.canonical]
    exact (SameRun.done ((h.begun _ _).define _ _)).finish _ _
  | declareWith hx he =>
    obtain ⟨outer, rfl⟩ := hsuits
    simp only [canonical, run, Stmt.canonical, Stmt.exec, Expr.isAbsent_iff, he.ne_absent,
      Expr.canonical_ne_absent he.ne_absent, if_false]
    exact (SameRun.withValue he (h.begun _ _) fun v n n' hn => .done (hn.define _ v)).finish _ _
  | statement _ ih => exact ih trivial h
  | none => exact .done h
  | @more s body _ _ ihs ihb =>
    obtain ⟨outer, rfl⟩ := hsuits
    have hfirst := ihs ⟨outer, rfl⟩ h
    simp only [canonical, run, canonicalOf, execAll] at hfirst ⊢
    generalize s.canonical.exec m = r, s.exec m' = r' at hfirst
    cases hfirst with
    | done hn => exact ihb ⟨outer, rfl⟩ hn
    | stopped hhalt hn => exact .stopped hhalt hn

/-- What a run shows to its host: why it stopped, lines aside, the bindings in every scope and what
the sink was given. The trace is left out, since it counts lines and blocks. -/
def observed (r : Option Halt × Machine) : Option Halt × Scopes × Sink :=
  (r.1.map Halt.bare, r.2.scopes, r.2.sink)

theorem Scopes.toList_inj {s s' : Scopes} (h : s.toList = s'.toList) : s = s' := by
  obtain ⟨current, enclosing⟩ := s
  obtain ⟨current', enclosing'⟩ := s'
  obtain ⟨rfl, rfl⟩ := List.cons.inj h
  rfl

theorem SameRun.observed_eq {gaps : List Bool} {r r' : Option Halt × Machine}
    (h : SameRun gaps r r') (hgaps : ∀ g ∈ gaps, g = false) : observed r = observed r' := by
  have hlike {m m' : Machine} (h : m.Like gaps m') : (m.scopes, m.sink) = (m'.scopes, m'.sink) := by
    rw [Scopes.toList_inj (h.scopes.eq hgaps), h.sink]
  cases h with
  | done h => exact congrArg (Prod.mk none) (hlike h)
  | stopped hhalt h => exact congrArg₂ Prod.mk (congrArg some hhalt) (hlike h)

theorem observed_execAll_canonical {program : List Stmt} (h : WellFormed program) (m : Machine) :
    observed (execAll (canonicalOf program) m) = observed (execAll program m) :=
  (h.sameRun ⟨m.scopes.enclosing.map fun _ => false, rfl⟩ ⟨.refl m.scopes.toList, rfl⟩).observed_eq
    (by simp)

theorem observed_run (m : Machine) (program : List Stmt) :
    observed (m.run program) = observed (execAll program (m.emit .runStart)) := by
  simp only [Machine.run, observed, Machine.scopes_ended, Machine.sink_ended]

/-- Formatting preserves meaning. A well-formed program and what is read back from its source print
the same, end with the same bindings in every scope and stop for the same reason, if they stop
early, whatever the scopes and the sink at the start. Everything that is read without diagnostics is
well formed. -/
theorem format_preserves_meaning :
    (∀ program, WellFormed program → ∀ m : Machine,
      (Parsed.ofSource (formatProgram program)).diagnostics = [] ∧
        observed (m.run (Parsed.ofSource (formatProgram program)).statements) =
          observed (m.run program)) ∧
      ∀ source, (Parsed.ofSource source).diagnostics = [] →
        WellFormed (Parsed.ofSource source).statements := by
  refine ⟨fun program h m => ?_, fun source => wellFormed_ofSource⟩
  obtain ⟨hclean, hagain⟩ := ofSource_formatProgram h
  refine ⟨hclean, ?_⟩
  rw [observed_run, observed_run, ← observed_execAll_canonical (wellFormed_ofSource hclean),
    canonicalOf_ofSource hclean, hagain, observed_execAll_canonical h]

/-- The inner condition is put in a block, and its own block declares a variable. -/
theorem dangling_declaration_keeps_meaning :
    let x : Token := ⟨.identifier, Bytes.ofString "x", 3, .null⟩
    let minus : Token := ⟨.minus, Bytes.ofString "-", 3, .null⟩
    let negative : Expr := .unary minus (.literal (.number (Float.ofBits 0xBFF8000000000000)))
    let program : List Stmt :=
      [.declare x negative,
        .ifElse (.name x)
          (.ifElse (.name x) (.block [.declare x .absent, .print (.name x)]) .absent)
          (.print (.name x))]
    let m : Machine := { sink := Sink.limited 3 }
    WellFormed program ∧
      observed (m.run (Parsed.ofSource (formatProgram program)).statements) =
        observed (m.run program) := by
  intro x minus negative program m
  have hx : x.Names := ⟨rfl, by decide, List.all_eq_true.1 (by decide), by decide⟩
  have hnegative : negative.WellFormed :=
    .unary (by decide) rfl (.literal (.number (by decide +kernel)))
  have hblock : (Phrase.statement (.block [.declare x .absent, .print (.name x)])).WellFormed :=
    .block (.more (.declare hx) (.more (.statement (.print (.name hx))) .none))
  have hprogram : WellFormed program :=
    .more (.declareWith hx hnegative) (.more (.statement
      (.ifElse (.name hx) (.ifThen (.name hx) hblock) (.print (.name hx)))) .none)
  exact ⟨hprogram, (format_preserves_meaning.1 program hprogram m).2⟩

end BlockScript
