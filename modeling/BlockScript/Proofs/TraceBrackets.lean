import Mathlib.Combinatorics.Enumerative.DyckWord
import BlockScript.Proofs.Outcomes

/-! The trace of a run is well bracketed. Every block that is entered is left, also when the run
stops inside it; a statement that is begun has an end unless the run stops in it. What is traced as
printed is what the sink has taken. -/

namespace BlockScript

namespace Trace

/-- A stretch of a trace in which every block is left and every statement has its end, but for the
given ones, listed from the outside in. -/
inductive Nested : List (Int × String) → List Event → Prop
  | empty : Nested [] []
  | print {line text json} : Nested [] [.print line text json]
  | ended {line kind es} (h : Nested [] es) :
      Nested [] (.stmtStart line kind :: es ++ [.stmtEnd line])
  | unended {line kind left es} (h : Nested left es) :
      Nested ((line, kind) :: left) (.stmtStart line kind :: es)
  | block {line left es} (h : Nested left es) :
      Nested left (.blockEnter line :: es ++ [.blockExit line])
  | append {left es fs} (h : Nested [] es) (k : Nested left fs) : Nested left (es ++ fs)

inductive Closing
  | statement
  | block
  deriving DecidableEq

/-- Reads a trace from its end. The first part are the ends that still wait for their beginnings,
the second the statements that were found to have no end. -/
def readBack : List Event → List Closing × List (Int × String)
  | [] => ([], [])
  | .stmtEnd _ :: rest => (.statement :: (readBack rest).1, (readBack rest).2)
  | .blockExit _ :: rest => (.block :: (readBack rest).1, (readBack rest).2)
  | .blockEnter _ :: rest => ((readBack rest).1.tail, (readBack rest).2)
  | .stmtStart line kind :: rest =>
    match (readBack rest).1 with
    | .statement :: waiting => (waiting, (readBack rest).2)
    | waiting => (waiting, (line, kind) :: (readBack rest).2)
  | .runStart :: rest | .runEnd :: rest | .print .. :: rest | .runtimeError .. :: rest =>
    readBack rest

def Event.brace? : Event → Option DyckStep
  | .blockEnter _ => some .U
  | .blockExit _ => some .D
  | _ => none

/-- The values of the print events, each with a line feed behind it. -/
def printedText (es : List Event) : Bytes :=
  (es.filter (·.name = "print")).flatMap fun e =>
    (e.data.lookup "value").getD [] ++ [Bytes.lineFeed]

theorem printedText_append (es fs : List Event) :
    printedText (es ++ fs) = printedText es ++ printedText fs := by
  simp only [printedText, List.filter_append, List.flatMap_append]

theorem printedText_print (line : Int) (text json : Bytes) :
    printedText [.print line text json] = text ++ [Bytes.lineFeed] := by
  simp [printedText, Event.name, Event.data, List.lookup_cons]

theorem printedText_cons_of_ne {e : Event} (he : e.name ≠ "print") (es : List Event) :
    printedText (e :: es) = printedText es := by
  simp only [printedText, List.filter_cons, he, decide_false, Bool.false_eq_true, if_false]

namespace Nested

variable {left left' : List (Int × String)} {es : List Event}

theorem readBack_append (h : Nested left es) (fs : List Event)
    (hfree : left = [] ∨ (readBack fs).1.head? ≠ some .statement) :
    readBack (es ++ fs) = ((readBack fs).1, left ++ (readBack fs).2) := by
  induction h generalizing fs with
  | empty => rfl
  | print => rfl
  | @ended line kind es _ ih =>
    have hinner := ih (.stmtEnd line :: fs) (Or.inl rfl)
    rw [List.cons_append, List.cons_append, List.append_assoc, List.singleton_append, readBack,
      hinner]
    rfl
  | @unended line kind left es _ ih =>
    -- An end that waited here would be taken for the end of this statement.
    have hhead : (readBack fs).1.head? ≠ some .statement := by
      rcases hfree with hnil | hhead
      · cases hnil
      · exact hhead
    rw [List.cons_append, readBack, ih fs (Or.inr hhead)]
    split
    · next hwaiting => rw [hwaiting] at hhead; exact absurd rfl hhead
    · rfl
  | @block line left es _ ih =>
    have hinner := ih (.blockExit line :: fs) (Or.inr (by simp [readBack]))
    rw [List.cons_append, List.cons_append, List.append_assoc, List.singleton_append, readBack,
      hinner]
    rfl
  | append _ _ ihe ihf =>
    rw [List.append_assoc, ihe _ (Or.inl rfl), ihf fs hfree]
    rfl

/-- The trace alone tells which statements have no end. -/
theorem unique (h : Nested left es) (k : Nested left' es) : left = left' := by
  have hleft := h.readBack_append [] (Or.inr nofun)
  have hleft' := k.readBack_append [] (Or.inr nofun)
  rw [hleft] at hleft'
  simpa [readBack] using congrArg Prod.snd hleft'

/-- With the statements left out the blocks are balanced. -/
theorem exists_dyckWord (h : Nested left es) :
    ∃ w : DyckWord, w.toList = es.filterMap Event.brace? := by
  induction h with
  | empty => exact ⟨0, rfl⟩
  | print => exact ⟨0, rfl⟩
  | ended _ ih =>
    obtain ⟨w, hw⟩ := ih
    refine ⟨w, ?_⟩
    rw [List.cons_append, List.filterMap_cons_none rfl, List.filterMap_append, ← hw]
    exact (List.append_nil _).symm
  | unended _ ih =>
    obtain ⟨w, hw⟩ := ih
    refine ⟨w, ?_⟩
    rw [List.filterMap_cons_none rfl, hw]
  | block _ ih =>
    obtain ⟨w, hw⟩ := ih
    refine ⟨w.nest, ?_⟩
    rw [List.cons_append, List.filterMap_cons_some (f := Event.brace?) (b := .U) rfl,
      List.filterMap_append, ← hw]
    rfl
  | append _ _ ihe ihf =>
    obtain ⟨v, hv⟩ := ihe
    obtain ⟨w, hw⟩ := ihf
    refine ⟨v + w, ?_⟩
    rw [List.filterMap_append, ← hv, ← hw]
    rfl

/-- The events around a program and its fault are outside. -/
theorem inside (h : Nested left es) :
    ∀ e ∈ es, e.name ∉ ["run_start", "run_end", "runtime_error"] := by
  induction h with
  | empty => nofun
  | print => simp [Event.name]
  | ended _ ih | block _ ih =>
    intro e he
    rw [List.cons_append, List.mem_cons, List.mem_append, List.mem_singleton] at he
    rcases he with rfl | he | rfl
    · simp [Event.name]
    · exact ih e he
    · simp [Event.name]
  | unended _ ih =>
    intro e he
    rcases List.mem_cons.1 he with rfl | he
    · simp [Event.name]
    · exact ih e he
  | append _ _ ihe ihf =>
    intro e he
    rcases List.mem_append.1 he with he | he
    · exact ihe e he
    · exact ihf e he

end Nested

end Trace

open Trace

def Stmt.label (s : Stmt) : Int × String := (s.line, s.kind)

mutual

/-- The statements that are being executed when this one stops early, from the outside in. If it
succeeds there are none, and an absent statement is not begun at all. -/
def Stmt.inProgress : Stmt → Machine → List Stmt
  | .absent, _ => []
  | .block body, m =>
    if ((Stmt.block body).exec m).1 = none then []
    else .block body :: inProgressOf body (m.inBlock (.block body))
  | .ifElse condition onTrue onFalse, m =>
    let s := Stmt.ifElse condition onTrue onFalse
    if (s.exec m).1 = none then []
    else s :: match (m.begun s).eval condition with
      | (.error _, _) => []
      | (.ok v, n) => if v.truthy then onTrue.inProgress n else onFalse.inProgress n
  | s, m => if (s.exec m).1 = none then [] else [s]

def inProgressOf : List Stmt → Machine → List Stmt
  | [], _ => []
  | s :: rest, m =>
    match s.exec m with
    | (some _, _) => s.inProgress m
    | (none, n) => inProgressOf rest n

end

theorem Stmt.inProgress_eq_nil {s : Stmt} {m : Machine} (h : (s.exec m).1 = none) :
    s.inProgress m = [] := by
  cases s <;> simp [inProgress, h]

theorem inProgressOf_eq_nil {body : List Stmt} {m : Machine} (h : (execAll body m).1 = none) :
    inProgressOf body m = [] := by
  induction body generalizing m with
  | nil => rw [inProgressOf]
  | cons s rest ih =>
    rw [execAll] at h
    rw [inProgressOf]
    generalize s.exec m = r at h
    obtain ⟨_ | halt, n⟩ := r
    · exact ih h
    · cases h

/-- The run from `m` adds a nested stretch to the trace, and what that reports as printed is what
the sink has taken meanwhile. -/
def Machine.Traces (m : Machine) (left : List (Int × String)) (r : Option Halt × Machine) : Prop :=
  ∃ es, r.2.events.toList = m.events.toList ++ es ∧ Nested left es ∧
    r.2.sink.taken = m.sink.taken ++ printedText es

namespace Machine.Traces

variable {m : Machine} {left : List (Int × String)} {r : Option Halt × Machine}

theorem quiet {halt : Option Halt} {n : Machine} (hevents : n.events = m.events)
    (hsink : n.sink = m.sink) : m.Traces [] (halt, n) := by
  refine ⟨[], ?_, .empty, ?_⟩
  · rw [hevents, List.append_nil]
  · rw [hsink]
    exact (List.append_nil _).symm

theorem print (m : Machine) (line : Int) (v : Value) : m.Traces [] (m.print line v) := by
  rw [Machine.print, Sink.write]
  rcases m.sink.refusal m.sink.offered m.sink.taken (v.text ++ [Bytes.lineFeed]) with _ | reason
  · refine ⟨[.print line v.text v.toJson.render], ?_, .print, ?_⟩
    · exact Array.toList_push
    · rw [printedText_print]
      rfl
  · refine ⟨[], (List.append_nil _).symm, .empty, ?_⟩
    exact (List.append_nil _).symm

theorem withValue {e : Expr} {next : Value → Machine → Option Halt × Machine}
    (herror : ∀ halt n, m.eval e = (.error halt, n) → left = [])
    (hok : ∀ v n, m.eval e = (.ok v, n) → n.Traces left (next v n)) :
    m.Traces left (m.withValue e next) := by
  rw [Machine.withValue]
  have hevents : (m.eval e).2.events = m.events := rfl
  have hsink : (m.eval e).2.sink = m.sink := rfl
  rcases heval : m.eval e with ⟨halt | v, n⟩
  · rw [heval] at hevents hsink
    rw [herror halt n heval]
    exact quiet hevents hsink
  · rw [heval] at hevents hsink
    have hnext := hok v n heval
    rwa [Traces, hevents, hsink] at hnext

/-- A statement's end is reported if it succeeds, and then nothing in it is without an end. -/
theorem finish {s : Stmt} (h : (m.begun s).Traces left r) (hdone : r.1 = none → left = []) :
    m.Traces (if r.1 = none then [] else s.label :: left) (Stmt.finish s.line r) := by
  obtain ⟨es, hevents, hnested, htaken⟩ := h
  have hstart : r.2.events.toList = m.events.toList ++ .stmtStart s.line s.kind :: es := by
    rw [hevents, begun, emit, Array.toList_push, List.append_assoc]
    rfl
  obtain ⟨_ | halt, n⟩ := r
  · obtain rfl := hdone rfl
    rw [if_pos rfl]
    refine ⟨.stmtStart s.line s.kind :: es ++ [.stmtEnd s.line], ?_, .ended hnested, ?_⟩
    · rw [← List.append_assoc, ← hstart]
      exact Array.toList_push
    · rw [printedText_append, printedText_cons_of_ne (by simp [Event.name])]
      exact htaken.trans (congrArg _ (List.append_nil _).symm)
  · rw [if_neg nofun]
    refine ⟨.stmtStart s.line s.kind :: es, hstart, .unended hnested, ?_⟩
    rw [printedText_cons_of_ne (by simp [Event.name])]
    exact htaken

/-- The exit is reported however the body ends. -/
theorem leaveBlock {s : Stmt} (h : (m.inBlock s).Traces left r) :
    (m.begun s).Traces left (Stmt.leaveBlock s.line r) := by
  obtain ⟨es, hevents, hnested, htaken⟩ := h
  refine ⟨.blockEnter s.line :: es ++ [.blockExit s.line], ?_, .block hnested, ?_⟩
  · have hinner : r.2.events.toList = (m.begun s).events.toList ++ .blockEnter s.line :: es := by
      rw [hevents, inBlock, emit, Array.toList_push, List.append_assoc]
      rfl
    rw [← List.append_assoc, ← hinner]
    exact Array.toList_push
  · rw [printedText_append, printedText_cons_of_ne (by simp [Event.name])]
    exact htaken.trans (congrArg _ (List.append_nil _).symm)

theorem append {halt : Option Halt} {n : Machine} (h : m.Traces [] (halt, n))
    (k : n.Traces left r) : m.Traces left r := by
  obtain ⟨es, hevents, hnested, htaken⟩ := h
  obtain ⟨fs, hevents', hnested', htaken'⟩ := k
  refine ⟨es ++ fs, ?_, .append hnested hnested', ?_⟩
  · rw [hevents', hevents, List.append_assoc]
  · rw [htaken', htaken, printedText_append, List.append_assoc]

/-- A statement whose work is done by `r`, with `inner` in progress when that stops. -/
theorem statement {s : Stmt} (inner : List Stmt) (hexec : s.exec m = Stmt.finish s.line r)
    (hprogress : s.inProgress m = if (s.exec m).1 = none then [] else s :: inner)
    (h : (m.begun s).Traces (inner.map Stmt.label) r) (hdone : r.1 = none → inner = []) :
    m.Traces ((s.inProgress m).map Stmt.label) (s.exec m) := by
  rw [hprogress, hexec, Stmt.halt_finish, apply_ite (List.map Stmt.label)]
  apply finish h
  intro hnone
  rw [hdone hnone]
  rfl

end Machine.Traces

mutual

theorem Stmt.exec_traces (s : Stmt) (m : Machine) :
    m.Traces ((s.inProgress m).map Stmt.label) (s.exec m) := by
  cases s with
  | absent => exact .quiet rfl rfl
  | expression e =>
    apply Machine.Traces.statement [] (by rw [Stmt.exec]) (by rw [Stmt.inProgress] <;> nofun)
    · exact .withValue (fun _ _ _ => rfl) fun v n _ => .quiet rfl rfl
    · exact fun _ => rfl
  | print e =>
    apply Machine.Traces.statement [] (by rw [Stmt.exec]) (by rw [Stmt.inProgress] <;> nofun)
    · exact .withValue (fun _ _ _ => rfl) fun v n _ => .print n _ v
    · exact fun _ => rfl
  | declare name initial =>
    apply Machine.Traces.statement [] (by rw [Stmt.exec]) (by rw [Stmt.inProgress] <;> nofun)
    · split
      · exact .quiet rfl rfl
      · exact .withValue (fun _ _ _ => rfl) fun v n _ => .quiet rfl rfl
    · exact fun _ => rfl
  | block body =>
    apply Machine.Traces.statement _ (by rw [Stmt.exec]) (by rw [Stmt.inProgress])
    · exact .leaveBlock (execAll_traces body (m.inBlock (.block body)))
    · exact inProgressOf_eq_nil
  | ifElse condition onTrue onFalse =>
    apply Machine.Traces.statement _ (by rw [Stmt.exec]) (by rw [Stmt.inProgress])
    · apply Machine.Traces.withValue
      · intro halt n heval
        rw [heval]
        rfl
      · intro v n heval
        rw [heval]
        dsimp only
        split
        · exact Stmt.exec_traces onTrue n
        · split
          · next habsent =>
            rw [Stmt.isAbsent_iff.1 habsent]
            exact .quiet rfl rfl
          · exact Stmt.exec_traces onFalse n
    · intro hnone
      rw [Machine.withValue] at hnone
      generalize (m.begun _).eval condition = r at hnone ⊢
      obtain ⟨halt | v, n⟩ := r
      · rfl
      · dsimp only at hnone ⊢
        split
        · next htrue =>
          rw [if_pos htrue] at hnone
          exact Stmt.inProgress_eq_nil hnone
        · next hfalse =>
          rw [if_neg hfalse] at hnone
          split at hnone
          · next habsent =>
            rw [Stmt.isAbsent_iff.1 habsent]
            rfl
          · exact Stmt.inProgress_eq_nil hnone

theorem execAll_traces (body : List Stmt) (m : Machine) :
    m.Traces ((inProgressOf body m).map Stmt.label) (execAll body m) := by
  cases body with
  | nil =>
    rw [execAll]
    exact .quiet rfl rfl
  | cons s rest =>
    have hfirst := Stmt.exec_traces s m
    have hdone := Stmt.inProgress_eq_nil (s := s) (m := m)
    rw [execAll, inProgressOf]
    generalize s.exec m = r at hfirst hdone
    obtain ⟨_ | halt, n⟩ := r
    · rw [hdone rfl] at hfirst
      exact hfirst.append (execAll_traces rest n)
    · exact hfirst

end

/-- What is traced between the program's last event and the end of the run. -/
def Trace.faultOf (halt : Option Halt) : List Event :=
  ((halt.bind Halt.fault?).map fun f =>
    .runtimeError f.token.line f.cause.code f.cause.message).toList

theorem Machine.events_ended (m : Machine) (halt : Option Halt) :
    (m.ended halt).events.toList = m.events.toList ++ faultOf halt ++ [.runEnd] := by
  unfold ended faultOf
  split
  · next f hfault => simp [emit, hfault]
  · next hsound => simp [emit, hsound]

/-- A run traces its program between its own start and end. -/
theorem Machine.run_traces (m : Machine) (program : List Stmt) :
    ∃ body, Nested ((inProgressOf program (m.emit .runStart)).map Stmt.label) body ∧
      (m.run program).2.events.toList =
        m.events.toList ++ (.runStart :: body ++ faultOf (m.run program).1 ++ [.runEnd]) ∧
      (m.run program).2.sink.taken = m.sink.taken ++ printedText body ∧
      ((m.run program).1 = none → inProgressOf program (m.emit .runStart) = []) := by
  have hdone : (execAll program (m.emit .runStart)).1 = none → _ := inProgressOf_eq_nil
  obtain ⟨body, hevents, hnested, htaken⟩ := execAll_traces program (m.emit .runStart)
  refine ⟨body, hnested, ?_⟩
  have hstart : (execAll program (m.emit .runStart)).2.events.toList =
      m.events.toList ++ .runStart :: body := by
    rw [hevents, emit, Array.toList_push, List.append_assoc]
    rfl
  rw [run, sink_ended, events_ended]
  refine ⟨?_, htaken, hdone⟩
  rw [hstart, List.append_assoc, List.append_assoc, List.append_assoc]

def Engine.after (m : Machine) (sources : List Bytes) : Machine :=
  sources.foldl (fun m source => (run m source).2) m

/-- A source without diagnostics leaves the machine that its program leaves, and the result tells
why that stopped. -/
theorem Engine.run_result {source : Bytes} (h : check source = []) (m : Machine) :
    (run m source).2 = (m.run (Parsed.ofSource source).statements).2 ∧
    (run m source).1 = match (m.run (Parsed.ofSource source).statements).1 with
      | none => .ok (Parsed.ofSource source).statements.length
      | some halt => .error (.ofHalt halt) := by
  rw [run_of_clean h]
  rcases m.run (Parsed.ofSource source).statements with ⟨_ | halt, n⟩
  · exact ⟨rfl, rfl⟩
  · exact ⟨rfl, rfl⟩

namespace Trace

/-- A fault is traced exactly if the result is one or wraps one. -/
theorem faultOf_cases (halt : Option Halt) (count : Nat) :
    let result : Except Failure Nat := match halt with
      | none => .ok count
      | some halt => .error (.ofHalt halt)
    (∃ failure f, result = .error failure ∧ failure.fault? = some f ∧
      faultOf halt = [.runtimeError f.token.line f.cause.code f.cause.message]) ∨
    ((∀ failure, result = .error failure → failure.fault? = none) ∧ faultOf halt = []) := by
  rcases halt with _ | halt
  · refine .inr ⟨fun failure hfailure => ?_, rfl⟩
    cases hfailure
  · rcases hfault : (Failure.ofHalt halt).fault? with _ | f
    · right
      refine ⟨fun failure hfailure => ?_, by simp [faultOf, Halt.fault?, hfault]⟩
      rw [← Except.error.inj hfailure, hfault]
    · exact .inl ⟨_, f, rfl, hfault, by simp [faultOf, Halt.fault?, hfault]⟩

/-- What stands around the program is neither printed nor a brace. -/
theorem around (body : List Event) (halt : Option Halt) :
    printedText (.runStart :: body ++ faultOf halt ++ [.runEnd]) = printedText body ∧
    (Event.runStart :: body ++ faultOf halt ++ [Event.runEnd]).filterMap Event.brace? =
      body.filterMap Event.brace? := by
  have hfault : printedText (faultOf halt) = [] ∧ (faultOf halt).filterMap Event.brace? = [] := by
    unfold faultOf
    rcases halt.bind Halt.fault? with _ | f
    · exact ⟨rfl, rfl⟩
    · exact ⟨printedText_cons_of_ne (by simp [Event.name]) [], rfl⟩
  have hend : printedText [.runEnd] = [] := printedText_cons_of_ne (by simp [Event.name]) []
  constructor
  · rw [printedText_append, printedText_append, printedText_cons_of_ne (by simp [Event.name]),
      hfault.1, hend, List.append_nil, List.append_nil]
  · rw [List.filterMap_append, List.filterMap_append, List.filterMap_cons_none rfl, hfault.2,
      List.append_nil]
    exact List.append_nil _

end Trace

/-- What a run traces, after any earlier runs and whatever the sink refuses. A source with
diagnostics leaves no trace. Any other starts and ends its trace once, with balanced blocks between.
There the statements without an end are those in progress when the run stopped, and just before the
end stands the fault, if the run failed with one or with an error of the sink that wraps one. The
traced values are what the sink took. -/
theorem trace_is_bracketed_and_faithful (start : Machine) (earlier : List Bytes) (source : Bytes) :
    let m := Engine.after start earlier
    let result := (Engine.run m source).1
    let after := (Engine.run m source).2
    let stopped := inProgressOf (Parsed.ofSource source).statements (m.emit .runStart)
    ∃ stream, after.events.toList = m.events.toList ++ stream ∧
      after.sink.taken = m.sink.taken ++ printedText stream ∧
      (Engine.check source ≠ [] → stream = []) ∧
      (Engine.check source = [] → ∃ body ending, stream = .runStart :: body ++ ending ++ [.runEnd] ∧
        (∀ e ∈ body, e.name ∉ ["run_start", "run_end", "runtime_error"]) ∧
        (∃ w : DyckWord, w.toList = stream.filterMap Event.brace?) ∧
        (∀ left, Nested left body ↔ left = stopped.map Stmt.label) ∧
        (∀ count, result = .ok count → stopped = []) ∧
        ((∃ failure f, result = .error failure ∧ failure.fault? = some f ∧
            ending = [.runtimeError f.token.line f.cause.code f.cause.message]) ∨
          ((∀ failure, result = .error failure → failure.fault? = none) ∧ ending = []))) := by
  intro m
  clear_value m
  dsimp only
  by_cases hclean : Engine.check source = []
  · obtain ⟨hafter, hresult⟩ := Engine.run_result hclean m
    obtain ⟨body, hnested, hevents, htaken, hdone⟩ :=
      m.run_traces (Parsed.ofSource source).statements
    obtain ⟨hprinted, hbraces⟩ := around body (m.run (Parsed.ofSource source).statements).1
    have hending := faultOf_cases (m.run (Parsed.ofSource source).statements).1
      (Parsed.ofSource source).statements.length
    rw [hafter, hresult]
    generalize m.run (Parsed.ofSource source).statements = r at *
    refine ⟨_, hevents, hprinted ▸ htaken, fun h => absurd hclean h, fun _ =>
      ⟨body, _, rfl, hnested.inside, hbraces ▸ hnested.exists_dyckWord, ?_, ?_, hending⟩⟩
    · intro left
      constructor
      · intro hleft
        exact hleft.unique hnested
      · rintro rfl
        exact hnested
    · intro count hcount
      rcases r with ⟨_ | halt, n⟩
      · exact hdone rfl
      · cases hcount
  · rw [Engine.run, Engine.compile_of_faulty hclean]
    refine ⟨[], (List.append_nil _).symm, ?_, fun _ => rfl, fun h => absurd h hclean⟩
    exact (List.append_nil _).symm

end BlockScript
