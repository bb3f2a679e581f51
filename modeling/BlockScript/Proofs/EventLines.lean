import BlockScript.Proofs.Survivors
import BlockScript.Proofs.TraceCounts

/-! The lines that events name. Every event of a run names a line of the source, or zero where a
statement has neither name nor operator; so a line is at most one more than the number of line feeds
of the source. Only a fault in the error of a sink can name any other line. -/

namespace BlockScript

open Evaluator

variable {P : Int → Prop}

/-- The lines of all names and operators satisfy a property. -/
def Expr.LinesIn (P : Int → Prop) : Expr → Prop
  | .absent | .literal _ => True
  | .grouping inner => inner.LinesIn P
  | .name token => P token.line
  | .assign token operand | .unary token operand => P token.line ∧ operand.LinesIn P
  | .binary left operator right | .logical left operator right =>
    left.LinesIn P ∧ P operator.line ∧ right.LinesIn P

mutual

def Stmt.LinesIn (P : Int → Prop) : Stmt → Prop
  | .absent => True
  | .expression e | .print e => e.LinesIn P
  | .declare name initial => P name.line ∧ initial.LinesIn P
  | .block body => LinesInAll P body
  | .ifElse condition onTrue onFalse =>
    condition.LinesIn P ∧ onTrue.LinesIn P ∧ onFalse.LinesIn P

def LinesInAll (P : Int → Prop) : List Stmt → Prop
  | [] => True
  | s :: rest => s.LinesIn P ∧ LinesInAll P rest

end

theorem Expr.line_in (hzero : P 0) {e : Expr} (h : e.LinesIn P) : P e.line := by
  induction e with
  | absent | literal _ => exact hzero
  | grouping inner ih => exact ih h
  | name token => exact h
  | assign token _ _ | unary token _ _ => exact h.1
  | binary left operator right ihl _ | logical left operator right ihl _ =>
    rw [line, firstLine]
    split
    · exact ihl h.1
    · exact h.2.1

mutual

theorem Stmt.line_in (hzero : P 0) {s : Stmt} (h : s.LinesIn P) : P s.line := by
  cases s with
  | absent => simpa [Stmt.line] using hzero
  | expression e | print e =>
    rw [Stmt.LinesIn] at h
    rw [Stmt.line]
    exact Expr.line_in hzero h
  | declare name initial =>
    rw [Stmt.LinesIn] at h
    rw [Stmt.line]
    exact h.1
  | block body =>
    rw [Stmt.LinesIn] at h
    rw [Stmt.line]
    exact firstLineOf_in hzero h
  | ifElse condition onTrue onFalse =>
    rw [Stmt.LinesIn] at h
    rw [Stmt.line]
    exact Expr.line_in hzero h.1

theorem firstLineOf_in (hzero : P 0) {body : List Stmt} (h : LinesInAll P body) :
    P (Stmt.firstLineOf body) := by
  cases body with
  | nil => simpa [Stmt.firstLineOf] using hzero
  | cons s rest =>
    rw [LinesInAll] at h
    rw [Stmt.firstLineOf]
    split
    · exact Stmt.line_in hzero h.1
    · exact firstLineOf_in hzero h.2

end

/-- If there is a fault behind a reason to stop, then on a line with the property. -/
def Halt.In (P : Int → Prop) (halt : Halt) : Prop := ∀ f, halt.fault? = some f → P f.token.line

theorem Halt.in_fault {f : Fault} (h : P f.token.line) : (Halt.fault f).In P := by
  intro g hg
  rwa [← Option.some.inj hg]

def FaultIn (P : Int → Prop) (r : Except Halt Value) : Prop := ∀ halt, r = .error halt → halt.In P

namespace FaultIn

theorem ok (v : Value) : FaultIn P (.ok v) := by
  rintro _ ⟨⟩

theorem fault {f : Fault} (h : P f.token.line) : FaultIn P (.error (.fault f)) := by
  rintro _ ⟨⟩
  exact Halt.in_fault h

theorem applyUnary {operator : Token} (h : P operator.line) (v : Value) :
    FaultIn P (Evaluator.applyUnary operator v) := by
  unfold Evaluator.applyUnary
  split
  · exact .ok _
  · split
    · exact .ok _
    · exact .fault h
  · exact .fault h

theorem applyBinary {operator : Token} (h : P operator.line) (v w : Value) :
    FaultIn P (Evaluator.applyBinary operator v w) := by
  unfold Evaluator.applyBinary
  split
  · exact .ok _
  · exact .ok _
  · split
    · exact .ok _
    · exact .ok _
    · exact .fault h
  · split
    · unfold applyNumbers
      split
      case h_8 => exact .fault h
      all_goals exact .ok _
    · exact .fault h

theorem next {r : Except Halt Value × Scopes} {next : Value → Scopes → Except Halt Value × Scopes}
    (h : FaultIn P r.1) (hnext : ∀ v s, FaultIn P (next v s).1) :
    FaultIn P (match r with
      | (.error halt, s) => (Except.error halt, s)
      | (.ok v, s) => next v s).1 := by
  obtain ⟨halt | v, s⟩ := r
  · exact h
  · exact hnext v s

end FaultIn

/-- A fault of an expression is at one of its names or operators. -/
theorem Expr.eval_in {e : Expr} (h : e.LinesIn P) (s : Scopes) : FaultIn P (e.eval s).1 := by
  induction e generalizing s with
  | absent =>
    rw [eval]
    rintro _ ⟨⟩ f ⟨⟩
  | literal value => exact .ok _
  | grouping inner ih => exact ih h s
  | name token =>
    rw [eval]
    split
    · exact .ok _
    · exact .fault h
  | assign target value ih =>
    rw [eval]
    refine (ih h.2 s).next fun v s => ?_
    split
    · exact .ok _
    · exact .fault h.1
  | unary operator operand ih =>
    rw [eval]
    exact (ih h.2 s).next fun v s => .applyUnary h.1 v
  | binary left operator right ihl ihr =>
    rw [eval]
    exact (ihl h.1 s).next fun v s => (ihr h.2.2 s).next fun w s => .applyBinary h.2.1 v w
  | logical left operator right ihl ihr =>
    rw [eval]
    refine (ihl h.1 s).next fun v s => ?_
    split
    · exact .ok _
    · exact ihr h.2.2 s

/-- The faults in the errors of the sink are on lines with the property. -/
def Sink.RaisesIn (P : Int → Prop) (s : Sink) : Prop :=
  ∀ offered taken text reason, s.refusal offered taken text = some reason →
    ∀ f, reason.fault? = some f → P f.token.line

/-- The events so far name lines with the property, and the sink will not raise a fault on any
other. -/
structure Machine.TracedIn (P : Int → Prop) (m : Machine) : Prop where
  events : ∀ e ∈ m.events.toList, P e.line
  sink : m.sink.RaisesIn P

theorem Machine.TracedIn.emit {m : Machine} (h : m.TracedIn P) (e : Trace.Event) (he : P e.line) :
    (m.emit e).TracedIn P := by
  refine ⟨fun e' he' => ?_, h.sink⟩
  rw [Machine.emit, Array.toList_push, List.mem_append, List.mem_singleton] at he'
  rcases he' with he' | rfl
  · exact h.events e' he'
  · exact he

/-- All that a run reports is on lines with the property. -/
structure RunsIn (P : Int → Prop) (r : Option Halt × Machine) : Prop where
  fault : ∀ halt, r.1 = some halt → halt.In P
  traced : r.2.TracedIn P

namespace RunsIn

variable {m : Machine} {r : Option Halt × Machine}

theorem done (h : m.TracedIn P) : RunsIn P (none, m) := by
  refine ⟨?_, h⟩
  rintro _ ⟨⟩

theorem bound (h : m.TracedIn P) (name : Bytes) (v : Value) : RunsIn P (none, m.define name v) :=
  done ⟨h.events, h.sink⟩

theorem withValue {e : Expr} {next : Value → Machine → Option Halt × Machine} (h : m.TracedIn P)
    (he : e.LinesIn P) (hnext : ∀ v n, n.TracedIn P → RunsIn P (next v n)) :
    RunsIn P (m.withValue e next) := by
  have hfault := Expr.eval_in he m.scopes
  unfold Machine.withValue Machine.eval
  generalize e.eval m.scopes = result at hfault
  obtain ⟨halt | v, scopes⟩ := result
  · refine ⟨?_, h.events, h.sink⟩
    rintro _ ⟨⟩
    exact hfault halt rfl
  · exact hnext v _ ⟨h.events, h.sink⟩

theorem print {line : Int} (h : m.TracedIn P) (hline : P line) (v : Value) :
    RunsIn P (m.print line v) := by
  rw [Machine.print, Sink.write]
  rcases hrefusal : m.sink.refusal m.sink.offered m.sink.taken (v.text ++ [Bytes.lineFeed])
    with _ | reason
  · refine .done (Machine.TracedIn.emit ?_ (.print line _ _) hline)
    exact ⟨h.events, h.sink⟩
  · refine ⟨?_, h.events, h.sink⟩
    rintro _ ⟨⟩
    exact h.sink _ _ _ reason hrefusal

theorem finish {line : Int} (h : RunsIn P r) (hline : P line) : RunsIn P (Stmt.finish line r) := by
  obtain ⟨_ | halt, n⟩ := r
  · exact .done (h.traced.emit (.stmtEnd line) hline)
  · exact h

theorem ended (h : RunsIn P r) (hzero : P 0) : (r.2.ended r.1).TracedIn P := by
  unfold Machine.ended
  split
  · next f hfault =>
    obtain ⟨halt, hhalt, hf⟩ := Option.bind_eq_some_iff.1 hfault
    have hline : P f.token.line := h.fault halt hhalt f hf
    exact (h.traced.emit (.runtimeError _ _ _) hline).emit .runEnd hzero
  · exact h.traced.emit .runEnd hzero

end RunsIn

mutual

theorem Stmt.exec_in (hzero : P 0) {s : Stmt} (hs : s.LinesIn P) {m : Machine}
    (hm : m.TracedIn P) : RunsIn P (s.exec m) := by
  have hline : P s.line := Stmt.line_in hzero hs
  have hbegun : (m.begun s).TracedIn P := hm.emit (.stmtStart s.line s.kind) hline
  cases s with
  | absent =>
    rw [Stmt.exec]
    refine ⟨?_, hm⟩
    rintro _ ⟨⟩ f ⟨⟩
  | expression e =>
    rw [Stmt.LinesIn] at hs
    rw [Stmt.exec]
    exact (RunsIn.withValue hbegun hs fun v n hn => .done hn).finish hline
  | print e =>
    rw [Stmt.LinesIn] at hs
    rw [Stmt.exec]
    exact (RunsIn.withValue hbegun hs fun v n hn => .print hn hline v).finish hline
  | declare name initial =>
    rw [Stmt.LinesIn] at hs
    rw [Stmt.exec]
    refine RunsIn.finish ?_ hline
    split
    · exact .bound hbegun _ _
    · exact .withValue hbegun hs.2 fun v n hn => .bound hn _ v
  | block body =>
    rw [Stmt.LinesIn] at hs
    have hblock := hbegun.emit (.blockEnter (Stmt.block body).line) hline
    have hbody := execAll_in hzero hs (m := m.inBlock (.block body)) ⟨hblock.events, hblock.sink⟩
    have hexit := hbody.traced.emit (.blockExit (Stmt.block body).line) hline
    rw [Stmt.exec]
    exact RunsIn.finish ⟨hbody.fault, hexit.events, hexit.sink⟩ hline
  | ifElse condition onTrue onFalse =>
    rw [Stmt.LinesIn] at hs
    rw [Stmt.exec]
    refine (RunsIn.withValue hbegun hs.1 fun v n hn => ?_).finish hline
    split
    · exact Stmt.exec_in hzero hs.2.1 hn
    · split
      · exact .done hn
      · exact Stmt.exec_in hzero hs.2.2 hn

theorem execAll_in (hzero : P 0) {body : List Stmt} (hbody : LinesInAll P body) {m : Machine}
    (hm : m.TracedIn P) : RunsIn P (execAll body m) := by
  cases body with
  | nil =>
    rw [execAll]
    exact .done hm
  | cons s rest =>
    rw [LinesInAll] at hbody
    have hfirst := Stmt.exec_in hzero hbody.1 hm
    rw [execAll]
    generalize s.exec m = r at hfirst
    obtain ⟨_ | halt, n⟩ := r
    · exact execAll_in hzero hbody.2 hfirst.traced
    · exact hfirst

end

theorem Machine.run_in (hzero : P 0) {program : List Stmt} (h : LinesInAll P program) {m : Machine}
    (hm : m.TracedIn P) : (m.run program).2.TracedIn P :=
  (execAll_in hzero h (hm.emit .runStart hzero)).ended hzero

namespace Grammar

theorem Derives.linesIn {r : Rank} {ts : List Token} {e : Expr} (h : Derives r ts e)
    (hts : ∀ t ∈ ts, P t.line) : e.LinesIn P := by
  induction h with
  | falseLiteral _ | trueLiteral _ | nullLiteral _ | number _ | string _ => trivial
  | name _ => exact hts _ List.mem_cons_self
  | grouping _ _ _ ih => exact ih fun t ht => hts t (by simp [ht])
  | primary _ ih | operand _ ih | loosest _ ih => exact ih hts
  | unary _ _ ih => exact ⟨hts _ List.mem_cons_self, ih fun t ht => hts t (by simp [ht])⟩
  | binary _ _ _ _ ihl ihr | logical _ _ _ _ ihl ihr =>
    exact ⟨ihl fun t ht => hts t (by simp [ht]), hts _ (by simp),
      ihr fun t ht => hts t (by simp [ht])⟩
  | assign _ _ _ ih => exact ⟨hts _ List.mem_cons_self, ih fun t ht => hts t (by simp [ht])⟩

def Phrase.LinesIn (P : Int → Prop) : Phrase → Prop
  | .statement s | .declaration s => s.LinesIn P
  | .declarations body => LinesInAll P body

theorem Reads.linesIn {ts : List Token} {p : Phrase} (h : Reads ts p)
    (hts : ∀ t ∈ ts, P t.line) : p.LinesIn P := by
  induction h with
  | expression he _ =>
    rw [Phrase.LinesIn, Stmt.LinesIn]
    exact he.linesIn fun t ht => hts t (by simp [ht])
  | print _ he _ =>
    rw [Phrase.LinesIn, Stmt.LinesIn]
    exact he.linesIn fun t ht => hts t (by simp [ht])
  | block _ _ _ ih =>
    rw [Phrase.LinesIn, Stmt.LinesIn]
    exact ih fun t ht => hts t (by simp [ht])
  | ifThen _ _ hc _ _ ih =>
    rw [Phrase.LinesIn, Stmt.LinesIn]
    exact ⟨hc.linesIn fun t ht => hts t (by simp [ht]), ih fun t ht => hts t (by simp [ht]),
      by simp [Stmt.LinesIn]⟩
  | ifElse _ _ hc _ _ _ _ _ ihs ihf =>
    rw [Phrase.LinesIn, Stmt.LinesIn]
    exact ⟨hc.linesIn fun t ht => hts t (by simp [ht]), ihs fun t ht => hts t (by simp [ht]),
      ihf fun t ht => hts t (by simp [ht])⟩
  | declare _ _ _ =>
    rw [Phrase.LinesIn, Stmt.LinesIn]
    exact ⟨hts _ (by simp), trivial⟩
  | declareWith _ _ _ he _ =>
    rw [Phrase.LinesIn, Stmt.LinesIn]
    exact ⟨hts _ (by simp), he.linesIn fun t ht => hts t (by simp [ht])⟩
  | statement _ ih => exact ih hts
  | none =>
    rw [Phrase.LinesIn, LinesInAll]
    trivial
  | more _ _ ihs ihb =>
    rw [Phrase.LinesIn, LinesInAll]
    exact ⟨ihs fun t ht => hts t (by simp [ht]), ihb fun t ht => hts t (by simp [ht])⟩

end Grammar

/-- Lines are numbered upwards from the first. -/
theorem Token.line_of_mem_ofSegments {line : Int} {pieces : List Segment} {t : Token}
    (h : t ∈ (Lexed.ofSegments line pieces).tokens) :
    line ≤ t.line ∧ t.line ≤ line + Bytes.lineFeeds (pieces.flatMap Segment.text) := by
  induction pieces generalizing line with
  | nil =>
    obtain rfl := List.mem_singleton.1 h
    simp [Token.finish, Bytes.lineFeeds]
  | cons s rest ih =>
    have hfeeds : Bytes.lineFeeds ((s :: rest).flatMap Segment.text) =
        Bytes.lineFeeds s.text + Bytes.lineFeeds (rest.flatMap Segment.text) := by
      rw [List.flatMap_cons, Bytes.lineFeeds, List.count_append]
      rfl
    have hrest (ht : t ∈ (Lexed.ofSegments (line + Bytes.lineFeeds s.text) rest).tokens) :
        line ≤ t.line ∧ t.line ≤ line + Bytes.lineFeeds ((s :: rest).flatMap Segment.text) := by
      have := ih ht
      omega
    cases s with
    | blank _ | comment _ | fault _ _ => exact hrest h
    | token kind lexeme literal =>
      rcases List.mem_cons.1 h with rfl | h
      · dsimp only
        omega
      · exact hrest h

theorem Token.line_of_mem_lex {source : Bytes} {t : Token} (h : t ∈ (lex source).tokens) :
    1 ≤ t.line ∧ t.line ≤ 1 + Bytes.lineFeeds source := by
  have hline := line_of_mem_ofSegments h
  rwa [segments_text] at hline

/-- What is kept of a source is on its lines. -/
theorem Parsed.linesIn {source : Bytes}
    (h : ∀ line : Int, 1 ≤ line → line ≤ 1 + Bytes.lineFeeds source → P line) :
    LinesInAll P (Parsed.ofSource source).statements := by
  obtain ⟨ts, hts, -, hprogram⟩ := Parsed.survives source
  refine Grammar.Reads.linesIn hprogram ?_
  intro t ht
  have hline := Token.line_of_mem_lex (hts.subset ht)
  exact h t.line hline.1 hline.2

namespace Engine

theorem run_in (hzero : P 0) {source : Bytes}
    (h : ∀ line : Int, 1 ≤ line → line ≤ 1 + Bytes.lineFeeds source → P line) {m : Machine}
    (hm : m.TracedIn P) : (run m source).2.TracedIn P := by
  by_cases hclean : check source = []
  · rw [(run_result hclean m).1]
    exact Machine.run_in hzero (Parsed.linesIn h) hm
  · rw [run, compile_of_faulty hclean]
    exact hm

theorem after_in (hzero : P 0) {sources : List Bytes}
    (h : ∀ source ∈ sources, ∀ line : Int, 1 ≤ line → line ≤ 1 + Bytes.lineFeeds source → P line)
    {m : Machine} (hm : m.TracedIn P) : (after m sources).TracedIn P := by
  induction sources generalizing m with
  | nil => exact hm
  | cons source rest ih =>
    have hfirst := run_in hzero (h source List.mem_cons_self) hm
    exact ih (fun s hs => h s (List.mem_cons_of_mem _ hs)) hfirst

end Engine

end BlockScript
