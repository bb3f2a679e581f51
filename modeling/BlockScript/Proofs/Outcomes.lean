import BlockScript.Evaluator
import BlockScript.Proofs.FormatMeaning

/-! How services and runs end. All services agree on which sources are programs. A program read from
source has no absent parts and no unknown operators, so its run either succeeds, stops at a type
error or an undefined variable, or stops at a write that the sink refuses. -/

namespace BlockScript

open Token Grammar Evaluator

/-- The faults of programs read from source, each with the operators it can be found at. -/
inductive Fault.Raised : Fault → Prop
  | operand {t : Token} (h : t.kind = .minus) : Raised ⟨t, .operandNotNumber⟩
  | operands {t : Token} {n : Nat} (hn : n ≤ 3) (h : t.kind ∈ operators n)
      (hplus : t.kind ≠ .plus) : Raised ⟨t, .operandsNotNumbers⟩
  | mismatch {t : Token} (h : t.kind = .plus) : Raised ⟨t, .operandsMismatched⟩
  | undefined {t : Token} (h : t.Names) : Raised ⟨t, .undefined t.lexeme⟩

theorem Fault.Raised.code {f : Fault} (h : f.Raised) :
    f.cause.code = .type ∨ f.cause.code = .undefined := by
  cases h with
  | operand _ | operands _ _ _ | mismatch _ => exact .inl rfl
  | undefined _ => exact .inr rfl

inductive Settled : Except Halt Value → Prop
  | ok {v} : Settled (.ok v)
  | fault {f} (h : f.Raised) : Settled (.error (.fault f))

section Eval

theorem settled_applyUnary {t : Token} (ht : t.kind ∈ [.bang, .minus]) (v : Value) :
    Settled (applyUnary t v) := by
  simp only [List.mem_cons, List.not_mem_nil, or_false] at ht
  rcases ht with ht | ht
  · simp only [applyUnary, ht]
    exact .ok
  · simp only [applyUnary, ht]
    cases v with
    | number x => exact .ok
    | _ => exact .fault (.operand ht)

/-- Numbers suit every operator that needs them. -/
theorem applyNumbers_ok {t : Token} {n : Nat} (hn : n ≤ 3) (ht : t.kind ∈ operators n)
    (hplus : t.kind ≠ .plus) (x y : Float) : ∃ v, applyNumbers t x y = .ok v := by
  generalize hk : t.kind = k at ht hplus
  revert hn hk hplus
  refine operators_cases
    (P := fun n k => n ≤ 3 → t.kind = k → k ≠ .plus → ∃ v, applyNumbers t x y = .ok v)
    ?_ ?_ ?_ ?_ ?_ ?_ ?_ ?_ ?_ ?_ ?_ ?_ ht
  all_goals intro hn hk hplus
  case refine_4 => exact absurd rfl hplus
  case refine_9 | refine_10 | refine_11 | refine_12 => omega
  all_goals
    simp only [applyNumbers, hk]
    exact ⟨_, rfl⟩

theorem settled_applyBinary {t : Token} {n : Nat} (hn : n ≤ 4) (ht : t.kind ∈ operators n)
    (v w : Value) : Settled (applyBinary t v w) := by
  unfold applyBinary
  split
  · exact .ok
  · exact .ok
  · next hplus =>
    split
    · exact .ok
    · exact .ok
    · exact .fault (.mismatch hplus)
  · next hequal hbang hplus =>
    -- Only the two equalities are at the fourth level.
    have hlevel : n ≤ 3 := by
      by_contra hfour
      obtain rfl : n = 4 := by omega
      simp only [operators, List.mem_cons, List.not_mem_nil, or_false] at ht
      rcases ht with ht | ht
      · exact hbang ht
      · exact hequal ht
    split
    · next x y =>
      obtain ⟨v, hv⟩ := applyNumbers_ok hlevel ht hplus x y
      rw [hv]
      exact .ok
    · exact .fault (.operands hlevel ht hplus)

/-- What is done with a value once it is there. -/
theorem Settled.next {r : Except Halt Value × Scopes}
    {next : Value → Scopes → Except Halt Value × Scopes} (h : Settled r.1)
    (hnext : ∀ v s, Settled (next v s).1) :
    Settled (match r with
      | (.error halt, s) => (Except.error halt, s)
      | (.ok v, s) => next v s).1 := by
  obtain ⟨result, s⟩ := r
  cases h with
  | ok => exact hnext _ s
  | fault h => exact .fault h

theorem Expr.WellFormed.settled {e : Expr} (he : e.WellFormed) (s : Scopes) :
    Settled (e.eval s).1 := by
  induction he generalizing s with
  | literal hv => exact .ok
  | name ht =>
    rw [eval]
    split
    · exact .ok
    · exact .fault (.undefined ht)
  | grouping _ ih => exact ih s
  | assign ht _ ih =>
    rw [eval]
    refine (ih s).next fun v s => ?_
    split
    · exact .ok
    · exact .fault (.undefined ht)
  | binary hn ht _ _ _ ihl ihr =>
    rw [eval]
    exact (ihl s).next fun v s => (ihr s).next fun w _ => settled_applyBinary hn ht v w
  | logical _ _ _ _ _ ihl ihr =>
    rw [eval]
    refine (ihl s).next fun v s => ?_
    split
    · exact .ok
    · exact ihr s
  | unary ht _ _ ih =>
    rw [eval]
    exact (ih s).next fun v _ => settled_applyUnary ht v

end Eval

/-- The last text offered was refused with this error. -/
def Sink.Refused (s : Sink) (reason : Failure) : Prop :=
  ∃ text earlier, s.offered = text :: earlier ∧ s.refusal earlier s.taken text = some reason

theorem Sink.write_refused {s after : Sink} {text : Bytes} {reason : Failure}
    (h : s.write text = (some reason, after)) : after.Refused reason := by
  unfold Sink.write at h
  split at h
  · next refusal hrefusal =>
    obtain ⟨hreason, rfl⟩ := Prod.mk.inj h
    exact ⟨text, s.offered, rfl, hrefusal.trans hreason⟩
  · cases h

/-- Why a program read from source may stop, given the sink that it leaves. -/
inductive Halt.Explained (sink : Sink) : Halt → Prop
  | fault {f} (h : f.Raised) : Explained sink (.fault f)
  | refused {reason} (h : sink.Refused reason) : Explained sink (.refused reason)

/-- If a run stopped, then for a reason that its sink confirms. -/
def Accounted (r : Option Halt × Machine) : Prop :=
  ∀ halt, r.1 = some halt → halt.Explained r.2.sink

namespace Accounted

theorem done (m : Machine) : Accounted (none, m) := by
  intro halt hhalt
  cases hhalt

theorem finish {r : Option Halt × Machine} (h : Accounted r) (line : Int) :
    Accounted (Stmt.finish line r) := by
  rwa [Accounted, Stmt.halt_finish, Stmt.sink_finish]

theorem print (m : Machine) (line : Int) (v : Value) : Accounted (m.print line v) := by
  unfold Machine.print
  rcases hwrite : m.sink.write (v.text ++ [Bytes.lineFeed]) with ⟨refusal, sink⟩
  cases refusal with
  | none => exact done _
  | some reason =>
    intro halt hhalt
    obtain rfl := Option.some.inj hhalt
    exact .refused (Sink.write_refused hwrite)

/-- What is done with the value of an expression. -/
theorem withValue {e : Expr} {next : Value → Machine → Option Halt × Machine} (he : e.WellFormed)
    (m : Machine) (hnext : ∀ v n, Accounted (next v n)) : Accounted (m.withValue e next) := by
  have hsettled := he.settled m.scopes
  unfold Machine.withValue Machine.eval
  generalize e.eval m.scopes = r at hsettled
  obtain ⟨result, scopes⟩ := r
  cases hsettled with
  | ok => exact hnext _ _
  | fault hraised =>
    intro halt hhalt
    obtain rfl := Option.some.inj hhalt
    exact .fault hraised

/-- Leaving the scope of a block touches neither the reason nor the sink. -/
theorem leaveBlock {r : Option Halt × Machine} (h : Accounted r) (line : Int) :
    Accounted (Stmt.leaveBlock line r) := h

end Accounted

theorem Grammar.Phrase.WellFormed.accounted {p : Phrase} (hp : p.WellFormed) (m : Machine) :
    Accounted (p.run m) := by
  induction hp generalizing m with
  | expression he =>
    simp only [run, Stmt.exec]
    exact (Accounted.withValue he _ fun v n => .done n).finish _
  | print he =>
    simp only [run, Stmt.exec]
    exact (Accounted.withValue he _ fun v n => .print n _ v).finish _
  | block _ ih =>
    simp only [run, Stmt.exec]
    exact ((ih _).leaveBlock _).finish _
  | ifThen hc _ ih =>
    simp only [run, Stmt.exec]
    refine (Accounted.withValue hc _ fun v n => ?_).finish _
    split
    · exact ih n
    · exact .done n
  | ifElse hc _ hf ihs ihf =>
    simp only [run, Stmt.exec, Stmt.isAbsent_iff, hf.ne_absent, if_false]
    refine (Accounted.withValue hc _ fun v n => ?_).finish _
    split
    · exact ihs n
    · exact ihf n
  | declare hx =>
    simp only [run, Stmt.exec]
    exact (Accounted.done _).finish _
  | declareWith hx he =>
    simp only [run, Stmt.exec, Expr.isAbsent_iff, he.ne_absent, if_false]
    exact (Accounted.withValue he _ fun v n => .done _).finish _
  | statement _ ih => exact ih m
  | none => exact .done m
  | @more s body _ _ ihs ihb =>
    have hfirst := ihs m
    simp only [run, execAll] at hfirst ⊢
    generalize s.exec m = r at hfirst
    obtain ⟨halt, n⟩ := r
    cases halt with
    | none => exact ihb n
    | some halt => exact hfirst

/-- The events around a program change neither the reason nor the sink. -/
theorem WellFormed.accounted_run {program : List Stmt} (h : WellFormed program) (m : Machine) :
    Accounted (m.run program) := by
  intro halt hhalt
  rw [Machine.run, Machine.sink_ended]
  exact Phrase.WellFormed.accounted h (m.emit .runStart) halt hhalt

/-- Every lexical diagnostic has the lexer's code. -/
theorem Token.code_of_ofSegments (line : Int) (pieces : List Segment) :
    ∀ d ∈ (Lexed.ofSegments line pieces).diagnostics, d.code = .lex := by
  induction pieces generalizing line with
  | nil => nofun
  | cons s rest ih =>
    have hrest := ih (line + Bytes.lineFeeds s.text)
    cases s with
    | blank b => exact hrest
    | comment body => exact hrest
    | token kind lexeme literal => exact hrest
    | fault cause text =>
      intro d hd
      rcases List.mem_cons.1 hd with rfl | hd
      · rfl
      · exact hrest d hd

theorem Parsed.code_of_ofTokens (tokens : List Token) :
    ∀ d ∈ (Parsed.ofTokens tokens).diagnostics, d.code = .parse := by
  intro d hd
  obtain ⟨fault, -, rfl⟩ := List.mem_map.1 hd
  unfold Parser.Fault.diagnostic
  split <;> rfl

def exitStatus : Except Failure Nat → Nat
  | .ok _ => 0
  | .error failure => failure.exitCode

namespace Failure

variable {failure : Failure} (context : Bytes)

theorem within_plain (hplain : failure.diagnostics? = none) (hsound : failure.fault? = none) :
    (failure.within context).report =
        [⟨.io, 0, [], context ++ Bytes.ofString ": " ++ failure.message⟩] ∧
      (failure.within context).exitCode = 74 := by
  simp only [report, exitCode, within, hplain, hsound, and_self]

theorem within_fault {f : Fault} (hplain : failure.diagnostics? = none)
    (hfault : failure.fault? = some f) :
    (failure.within context).report = [f.diagnostic] ∧ (failure.within context).exitCode = 70 := by
  simp only [report, exitCode, within, hplain, hfault, and_self]

theorem within_diagnostics {ds : List Diagnostic} (h : failure.diagnostics? = some ds) :
    (failure.within context).report = ds ∧
      (failure.within context).exitCode = if Diagnostic.anyCompileTime ds then 65 else 1 := by
  simp only [report, exitCode, within, h, and_self]

end Failure

namespace Engine

variable {source : Bytes}

theorem compile_of_clean (h : check source = []) :
    compile source = .ok (Parsed.ofSource source).statements := by
  have hclean : (Parsed.ofSource source).diagnostics = [] := h
  simp only [compile, hclean, List.isEmpty_nil, if_true]

theorem compile_of_faulty (h : check source ≠ []) :
    compile source = .error (.diagnostics (check source)) := by
  have hfaulty : (Parsed.ofSource source).diagnostics.isEmpty = false :=
    List.isEmpty_eq_false_iff.2 h
  simp only [compile, hfaulty, Bool.false_eq_true, if_false, check]

/-- The lexer's diagnostics stand before the parser's. -/
theorem check_codes (source : Bytes) : ∃ lexical syntactic, check source = lexical ++ syntactic ∧
    (∀ d ∈ lexical, d.code = .lex) ∧ ∀ d ∈ syntactic, d.code = .parse :=
  ⟨_, _, rfl, Token.code_of_ofSegments 1 _, Parsed.code_of_ofTokens _⟩

theorem exitCode_check (h : check source ≠ []) :
    (Failure.diagnostics (check source)).exitCode = 65 := by
  obtain ⟨lexical, syntactic, heq, hlexical, hsyntactic⟩ := check_codes source
  obtain ⟨d, hd⟩ := List.exists_mem_of_ne_nil _ h
  have hcode : d.code.isCompileTime = true := by
    rcases List.mem_append.1 (heq ▸ hd) with hd | hd
    · rw [hlexical d hd]
      rfl
    · rw [hsyntactic d hd]
      rfl
  have hany : Diagnostic.anyCompileTime (check source) = true := List.any_eq_true.2 ⟨d, hd, hcode⟩
  simp only [Failure.exitCode, Failure.diagnostics, hany, if_true]

/-- A source without diagnostics runs as its program does. -/
theorem run_of_clean (h : check source = []) (m : Machine) :
    run m source = match m.run (Parsed.ofSource source).statements with
      | (some halt, after) => (.error (.ofHalt halt), after)
      | (none, after) => (.ok (Parsed.ofSource source).statements.length, after) := by
  unfold run
  generalize hresult : compile source = result
  rw [compile_of_clean h] at hresult
  subst hresult
  rfl

end Engine

/-- All services agree on which sources are programs, and a run ends in one of four ways, whatever
the machine was before and whatever its sink refuses. A source with diagnostics is rejected with
just these, lexical ones first, and leaves the machine as it was. Any other source runs: it counts
its statements, or stops at a type error or an undefined variable, or at the sink's last refusal.
The error of the sink is reported as a failed write unless there are diagnostics or a fault in it,
which are then reported in its place. -/
theorem services_agree_and_every_end_is_classified (m : Machine) (source : Bytes) :
    let ds := Engine.check source
    let program := (Parsed.ofSource source).statements
    (ds ≠ [] ∧
      (∃ lexical syntactic, ds = lexical ++ syntactic ∧
        (∀ d ∈ lexical, d.code = .lex) ∧ ∀ d ∈ syntactic, d.code = .parse) ∧
      Engine.run m source = (.error (.diagnostics ds), m) ∧
      Engine.format source = .error (.diagnostics ds) ∧
      Engine.tree source = .error (.diagnostics ds) ∧
      (Failure.diagnostics ds).report = ds ∧ (Failure.diagnostics ds).exitCode = 65) ∨
    (ds = [] ∧ Engine.format source = .ok (formatProgram program) ∧
      (∃ text, Engine.tree source = .ok text) ∧
      ∃ result after, Engine.run m source = (result, after) ∧
        ((m.run program = (none, after) ∧ result = .ok program.length ∧ exitStatus result = 0) ∨
        (∃ f, m.run program = (some (.fault f), after) ∧ result = .error (.fault f) ∧ f.Raised ∧
          (f.diagnostic.code = .type ∨ f.diagnostic.code = .undefined) ∧
          (Failure.fault f).report = [f.diagnostic] ∧ exitStatus result = 70) ∨
        ∃ reason, m.run program = (some (.refused reason), after) ∧ after.sink.Refused reason ∧
          let failure := Failure.within (Bytes.ofString "print") reason
          result = .error failure ∧
            (reason.diagnostics? = none → reason.fault? = none →
              failure.report =
                [⟨.io, 0, [], Bytes.ofString "print" ++ Bytes.ofString ": " ++ reason.message⟩] ∧
              exitStatus result = 74) ∧
            (∀ f, reason.diagnostics? = none → reason.fault? = some f →
              failure.report = [f.diagnostic] ∧ exitStatus result = 70) ∧
            ∀ ds, reason.diagnostics? = some ds → failure.report = ds ∧
              exitStatus result = if Diagnostic.anyCompileTime ds then 65 else 1)) := by
  intro ds program
  by_cases hds : ds = []
  · right
    have hcompile := Engine.compile_of_clean hds
    have hrun := Engine.run_of_clean hds m
    have haccounted := WellFormed.accounted_run (wellFormed_ofSource hds) m
    refine ⟨hds, by rw [Engine.format, hcompile]; rfl, ⟨_, by rw [Engine.tree, hcompile]; rfl⟩, ?_⟩
    change Accounted (m.run program) at haccounted
    rcases hend : m.run program with ⟨_ | halt, after⟩
    · exact ⟨_, after, by rw [hrun, hend], .inl ⟨rfl, rfl, rfl⟩⟩
    · rw [hend] at haccounted
      refine ⟨_, after, by rw [hrun, hend], .inr ?_⟩
      cases haccounted halt rfl with
      | fault hf => exact .inl ⟨_, rfl, rfl, hf, hf.code, rfl, rfl⟩
      | @refused reason hrefused =>
        exact .inr ⟨reason, rfl, hrefused, rfl, Failure.within_plain _,
          fun f => Failure.within_fault _, fun ds => Failure.within_diagnostics _⟩
  · left
    have hcompile := Engine.compile_of_faulty hds
    exact ⟨hds, Engine.check_codes source, by rw [Engine.run, hcompile],
      by rw [Engine.format, hcompile]; rfl, by rw [Engine.tree, hcompile]; rfl, rfl,
      Engine.exitCode_check hds⟩

/-- A sink that refuses with an empty list of diagnostics ends a program with the exit status of an
internal error, and nothing is reported. -/
theorem exit_one_from_sink_without_diagnostics :
    let source := printing [97]
    let sink : Sink := { refusal := fun _ _ _ => some (.diagnostics []) }
    let result := (Engine.run { sink := sink } source).1
    Engine.check source = [] ∧
      ∃ failure, result = .error failure ∧ failure.report = [] ∧ exitStatus result = 1 := by
  intro source sink result
  have hquote : Bytes.quoteMark ∉ [97] := by decide
  obtain ⟨hclean, hstatements⟩ := ofSource_printing hquote
  have hresult : result = .error (.within (Bytes.ofString "print") (.diagnostics [])) := by
    simp only [result, source, Engine.run_of_clean hclean, hstatements]
    rfl
  exact ⟨hclean, _, hresult, rfl, by rw [hresult]; rfl⟩

end BlockScript
