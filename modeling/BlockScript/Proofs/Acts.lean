import BlockScript.Proofs.ScopeDiscipline
import BlockScript.Proofs.TraceBrackets

/-! What a run does, act by act. A statement that is begun, an expression that is evaluated, a text
offered to the sink, a name that is defined, a scope entered or left: each act changes the scopes
and the sink in one way, and doing them one after the other gives what the run leaves. The trace
tells of these acts in the order in which they are done. -/

namespace BlockScript

open Trace

abbrev Store := Scopes × Sink

def Machine.store (m : Machine) : Store := (m.scopes, m.sink)

inductive Act
  | begin (s : Stmt)
  | evaluate (e : Expr)
  | offer (text : Bytes)
  | define (name : Bytes) (v : Value)
  | enter
  | leave

namespace Act

def apply (store : Store) : Act → Store
  | begin _ => store
  | evaluate e => ((e.eval store.1).2, store.2)
  | offer text => (store.1, (store.2.write text).2)
  | define name v => (store.1.define name v, store.2)
  | enter => (store.1.enter, store.2)
  | leave => (store.1.leave, store.2)

def isBegin : Act → Bool
  | begin _ => true
  | _ => false

def text? : Act → Option Bytes
  | offer text => some text
  | _ => none

end Act

def replay (store : Store) (acts : List Act) : Store := acts.foldl Act.apply store

/-- The stores before, between and after some acts. -/
def moments (store : Store) (acts : List Act) : List Store := acts.scanl Act.apply store

mutual

/-- What a statement does until it ends or stops. A scope that was entered is left in either
case. -/
def Stmt.acts : Stmt → Machine → List Act
  | .absent, _ => []
  | s@(.expression e), _ => [.begin s, .evaluate e]
  | s@(.print e), m =>
    .begin s :: .evaluate e :: match ((m.begun s).eval e).1 with
      | .error _ => []
      | .ok v => [.offer (v.text ++ [Bytes.lineFeed])]
  | s@(.declare name initial), m =>
    .begin s :: if initial.isAbsent then [.define name.lexeme .null]
      else .evaluate initial :: match ((m.begun s).eval initial).1 with
        | .error _ => []
        | .ok v => [.define name.lexeme v]
  | s@(.block body), m => .begin s :: .enter :: actsOf body (m.inBlock s) ++ [.leave]
  | s@(.ifElse condition onTrue onFalse), m =>
    .begin s :: .evaluate condition :: match (m.begun s).eval condition with
      | (.error _, _) => []
      | (.ok v, n) => if v.truthy then onTrue.acts n else onFalse.acts n

def actsOf : List Stmt → Machine → List Act
  | [], _ => []
  | s :: rest, m => s.acts m ++ match s.exec m with
    | (some _, _) => []
    | (none, n) => actsOf rest n

end

namespace Trace

/-- The events tell of the acts done on a store, one by one. Evaluating and defining are not told
of, nor is a text that the sink refuses. -/
inductive Tells : Store → List Act → List Event → Prop
  | none {store} : Tells store [] []
  | aside {store acts es e} (he : e.name ∈ ["run_start", "stmt_end", "runtime_error"])
      (h : Tells store acts es) : Tells store acts (e :: es)
  | runEnd {store acts es} (hglobal : store.1.enclosing = []) (h : Tells store acts es) :
      Tells store acts (.runEnd :: es)
  | begin {store acts es} (s : Stmt) (h : Tells store acts es) :
      Tells store (.begin s :: acts) (.stmtStart s.line s.kind :: es)
  | evaluate {store acts es} (e : Expr) (h : Tells (Act.apply store (.evaluate e)) acts es) :
      Tells store (.evaluate e :: acts) es
  | define {store acts es} (name : Bytes) (v : Value)
      (h : Tells (Act.apply store (.define name v)) acts es) :
      Tells store (.define name v :: acts) es
  | refused {store acts es text} (hwrite : (store.2.write text).1 ≠ .none)
      (h : Tells (Act.apply store (.offer text)) acts es) : Tells store (.offer text :: acts) es
  | taken {store acts es text} (line : Int) (value json : Bytes)
      (hwrite : (store.2.write text).1 = .none)
      (h : Tells (Act.apply store (.offer text)) acts es) :
      Tells store (.offer text :: acts) (.print line value json :: es)
  | enter {store acts es} (line : Int) (h : Tells (Act.apply store .enter) acts es) :
      Tells store (.enter :: acts) (.blockEnter line :: es)
  | leave {store acts es} (line : Int) (hinside : store.1.enclosing ≠ [])
      (h : Tells (Act.apply store .leave) acts es) :
      Tells store (.leave :: acts) (.blockExit line :: es)

theorem Tells.append {store : Store} {acts acts' : List Act} {es fs : List Event}
    (h : Tells store acts es) (k : Tells (replay store acts) acts' fs) :
    Tells store (acts ++ acts') (es ++ fs) := by
  induction h with
  | none => exact k
  | aside he _ ih => exact .aside he (ih k)
  | runEnd hglobal _ ih => exact .runEnd hglobal (ih k)
  | begin s _ ih => exact .begin s (ih k)
  | evaluate e _ ih => exact .evaluate e (ih k)
  | define name v _ ih => exact .define name v (ih k)
  | refused hwrite _ ih => exact .refused hwrite (ih k)
  | taken line value json hwrite _ ih => exact .taken line value json hwrite (ih k)
  | enter line _ ih => exact .enter line (ih k)
  | leave line hinside _ ih => exact .leave line hinside (ih k)

end Trace

/-- From `m` on these acts are done and told of, and their replay is what the run leaves. -/
def Machine.Does (m : Machine) (acts : List Act) (r : Option Halt × Machine) : Prop :=
  ∃ es, r.2.events.toList = m.events.toList ++ es ∧ Tells m.store acts es ∧
    replay m.store acts = r.2.store

namespace Machine.Does

variable {m n : Machine} {acts acts' : List Act} {halt : Option Halt} {r : Option Halt × Machine}

theorem nothing (halt : Option Halt) (m : Machine) : m.Does [] (halt, m) :=
  ⟨[], (List.append_nil _).symm, .none, rfl⟩

theorem append (h : m.Does acts (halt, n)) (k : n.Does acts' r) : m.Does (acts ++ acts') r := by
  obtain ⟨es, hevents, htells, hreplay⟩ := h
  obtain ⟨fs, hevents', htells', hreplay'⟩ := k
  refine ⟨es ++ fs, ?_, ?_, ?_⟩
  · rw [hevents', hevents, List.append_assoc]
  · apply htells.append
    rw [hreplay]
    exact htells'
  · rw [replay, List.foldl_append]
    exact (congrArg (replay · acts') hreplay).trans hreplay'

/-- An act that no event tells of. -/
theorem silent {a : Act} (h : n.Does acts r) (hevents : n.events = m.events)
    (hstore : n.store = Act.apply m.store a)
    (htells : ∀ acts es, Tells (Act.apply m.store a) acts es → Tells m.store (a :: acts) es) :
    m.Does (a :: acts) r := by
  obtain ⟨es, hes, hrest, hreplay⟩ := h
  rw [hstore] at hrest hreplay
  exact ⟨es, hevents ▸ hes, htells acts es hrest, hreplay⟩

/-- An act with its event. -/
theorem told {a : Act} {e : Event} (h : n.Does acts r)
    (hevents : n.events.toList = m.events.toList ++ [e]) (hstore : n.store = Act.apply m.store a)
    (htells : ∀ acts es, Tells (Act.apply m.store a) acts es →
      Tells m.store (a :: acts) (e :: es)) : m.Does (a :: acts) r := by
  obtain ⟨es, hes, hrest, hreplay⟩ := h
  rw [hstore] at hrest hreplay
  refine ⟨e :: es, ?_, htells acts es hrest, hreplay⟩
  rw [hes, hevents, List.append_assoc]
  rfl

/-- An event that tells of no act. -/
theorem aside {e : Event} (h : m.Does acts (halt, n))
    (he : e.name ∈ ["run_start", "stmt_end", "runtime_error"]) : m.Does acts (halt, n.emit e) := by
  obtain ⟨es, hevents, htells, hreplay⟩ := h
  refine ⟨es ++ [e], ?_, ?_, hreplay⟩
  · rw [← List.append_assoc, ← hevents]
    exact Array.toList_push
  · simpa using htells.append (.aside he .none)

theorem print (m : Machine) (line : Int) (v : Value) :
    m.Does [.offer (v.text ++ [Bytes.lineFeed])] (m.print line v) := by
  rw [Machine.print]
  rcases hwrite : m.sink.write (v.text ++ [Bytes.lineFeed]) with ⟨_ | reason, sink⟩
  · refine told (nothing none _) (Array.toList_push) ?_ fun acts es => .taken line _ _ ?_
    · rw [Act.apply, store, store, hwrite]
      rfl
    · rw [store, hwrite]
  · refine silent (nothing _ _) rfl ?_ fun acts es => .refused ?_
    · rw [Act.apply, store, store, hwrite]
    · rw [store, hwrite]
      exact Option.some_ne_none reason

theorem withValue {e : Expr} {next : Value → Machine → Option Halt × Machine}
    (herror : ∀ halt n, m.eval e = (.error halt, n) → acts = [])
    (hok : ∀ v n, m.eval e = (.ok v, n) → n.Does acts (next v n)) :
    m.Does (.evaluate e :: acts) (m.withValue e next) := by
  rw [Machine.withValue]
  have hevents : (m.eval e).2.events = m.events := rfl
  have hstore : (m.eval e).2.store = Act.apply m.store (.evaluate e) := rfl
  rcases heval : m.eval e with ⟨halt | v, n⟩
  · rw [heval] at hevents hstore
    rw [herror halt n heval]
    exact silent (nothing _ n) hevents hstore fun acts es => .evaluate e
  · rw [heval] at hevents hstore
    exact silent (hok v n heval) hevents hstore fun acts es => .evaluate e

theorem statement {s : Stmt} (h : (m.begun s).Does acts r) :
    m.Does (.begin s :: acts) (Stmt.finish s.line r) := by
  have hbegun {r : Option Halt × Machine} (h : (m.begun s).Does acts r) :
      m.Does (.begin s :: acts) r :=
    told h Array.toList_push rfl fun acts es => .begin s
  obtain ⟨_ | halt, n⟩ := r
  · exact (hbegun h).aside (by simp [Event.name])
  · exact hbegun h

/-- The scope of a block is left however the body ends, and there is one to leave. -/
theorem block {s : Stmt} {body : List Stmt}
    (h : (m.inBlock s).Does acts (execAll body (m.inBlock s))) :
    (m.begun s).Does (.enter :: acts ++ [.leave])
      (Stmt.leaveBlock s.line (execAll body (m.inBlock s))) := by
  have hgrows := execAll_grows body (List.Subset.refl _) (List.Subset.refl _) (m.inBlock s)
  have hinside : (execAll body (m.inBlock s)).2.scopes.enclosing ≠ [] := by
    have hlength := hgrows.enclosing.length_eq
    intro hnil
    rw [hnil] at hlength
    cases hlength
  generalize execAll body (m.inBlock s) = r at h hinside
  obtain ⟨halt, n⟩ := r
  have hbody : (m.begun s).Does (.enter :: acts) (halt, n) :=
    told h Array.toList_push rfl fun acts es => .enter s.line
  apply hbody.append
  exact told (nothing halt _) Array.toList_push rfl fun acts es => .leave s.line hinside

end Machine.Does

mutual

theorem Stmt.exec_does (s : Stmt) (m : Machine) : m.Does (s.acts m) (s.exec m) := by
  cases s with
  | absent => exact .nothing _ m
  | expression e =>
    rw [Stmt.exec, Stmt.acts]
    apply Machine.Does.statement
    exact .withValue (fun _ _ _ => rfl) fun v n _ => .nothing _ n
  | print e =>
    rw [Stmt.exec, Stmt.acts]
    apply Machine.Does.statement
    apply Machine.Does.withValue
    · intro halt n heval
      rw [heval]
    · intro v n heval
      rw [heval]
      exact .print n _ v
  | declare name initial =>
    rw [Stmt.exec, Stmt.acts]
    apply Machine.Does.statement
    split
    · exact .silent (.nothing _ _) rfl rfl fun acts es => .define name.lexeme .null
    · apply Machine.Does.withValue
      · intro halt n heval
        rw [heval]
      · intro v n heval
        rw [heval]
        exact .silent (.nothing _ _) rfl rfl fun acts es => .define name.lexeme v
  | block body =>
    rw [Stmt.exec, Stmt.acts]
    apply Machine.Does.statement
    exact .block (execAll_does body (m.inBlock (.block body)))
  | ifElse condition onTrue onFalse =>
    rw [Stmt.exec, Stmt.acts]
    apply Machine.Does.statement
    apply Machine.Does.withValue
    · intro halt n heval
      rw [heval]
    · intro v n heval
      rw [heval]
      dsimp only
      by_cases htrue : v.truthy = true
      · rw [if_pos htrue, if_pos htrue]
        exact Stmt.exec_does onTrue n
      · rw [if_neg htrue, if_neg htrue]
        split
        · next habsent =>
          rw [Stmt.isAbsent_iff.1 habsent]
          exact .nothing _ n
        · exact Stmt.exec_does onFalse n

theorem execAll_does (body : List Stmt) (m : Machine) :
    m.Does (actsOf body m) (execAll body m) := by
  cases body with
  | nil =>
    rw [execAll, actsOf]
    exact .nothing _ m
  | cons s rest =>
    have hfirst := Stmt.exec_does s m
    rw [execAll, actsOf]
    generalize s.exec m = r at hfirst
    obtain ⟨_ | halt, n⟩ := r
    · exact hfirst.append (execAll_does rest n)
    · rw [List.append_nil]
      exact hfirst

end

namespace Sink

def writeAll (s : Sink) (texts : List Bytes) : Sink :=
  texts.foldl (fun s text => (s.write text).2) s

theorem writeAll_append (s : Sink) (texts more : List Bytes) :
    s.writeAll (texts ++ more) = (s.writeAll texts).writeAll more := List.foldl_append

/-- What every write keeps is kept by all of them. -/
theorem writeAll_induction {P : Sink → Prop} {s : Sink} (texts : List Bytes) (hs : P s)
    (hwrite : ∀ s text, P s → P (s.write text).2) : P (s.writeAll texts) := by
  induction texts generalizing s with
  | nil => exact hs
  | cons text rest ih => exact ih (hwrite s text hs)

theorem taken_prefix_writeAll (s : Sink) (texts : List Bytes) :
    s.taken <+: (s.writeAll texts).taken := by
  apply writeAll_induction (P := fun t => s.taken <+: t.taken) texts (List.prefix_refl _)
  intro t text ht
  rw [write]
  split
  · exact ht
  · exact ht.trans (List.prefix_append _ _)

theorem refusal_writeAll (s : Sink) (texts : List Bytes) :
    (s.writeAll texts).refusal = s.refusal := by
  apply writeAll_induction (P := fun t => t.refusal = s.refusal) texts rfl
  intro t text ht
  rw [write]
  split <;> exact ht

end Sink

/-- The sink behind some acts was offered their texts. -/
theorem sink_replay (store : Store) (acts : List Act) :
    (replay store acts).2 = store.2.writeAll (acts.filterMap Act.text?) := by
  induction acts generalizing store with
  | nil => rfl
  | cons act acts ih =>
    have hrest := ih (act.apply store)
    cases act with
    | offer text => exact hrest
    | begin s => exact hrest
    | evaluate e => exact hrest
    | define name v => exact hrest
    | enter => exact hrest
    | leave => exact hrest

/-- A run gets from `m` to `after`: it has added to the trace and offered some texts. -/
structure Machine.LeadsTo (m after : Machine) : Prop where
  events : m.events.toList <+: after.events.toList
  sink : ∃ texts, after.sink = m.sink.writeAll texts

namespace Machine.LeadsTo

variable {m n after : Machine}

theorem trans (h : m.LeadsTo n) (k : n.LeadsTo after) : m.LeadsTo after := by
  obtain ⟨texts, hn⟩ := h.sink
  obtain ⟨more, hafter⟩ := k.sink
  refine ⟨h.events.trans k.events, texts ++ more, ?_⟩
  rw [hafter, hn, Sink.writeAll_append]

theorem ofDoes {acts : List Act} {r : Option Halt × Machine} (h : m.Does acts r) :
    m.LeadsTo r.2 := by
  obtain ⟨es, hevents, -, hreplay⟩ := h
  have hsink := sink_replay m.store acts
  rw [hreplay] at hsink
  exact ⟨⟨es, hevents.symm⟩, _, hsink⟩

/-- Only the trace has grown. -/
theorem told {es : List Event} (hevents : after.events.toList = m.events.toList ++ es)
    (hsink : after.sink = m.sink) : m.LeadsTo after :=
  ⟨⟨es, hevents.symm⟩, [], hsink⟩

theorem finish (line : Int) (r : Option Halt × Machine) : r.2.LeadsTo (Stmt.finish line r).2 := by
  obtain ⟨_ | halt, n⟩ := r
  · exact told Array.toList_push rfl
  · exact told (List.append_nil _).symm rfl

end Machine.LeadsTo

theorem Machine.leadsTo_runStart (m : Machine) : m.LeadsTo (m.emit .runStart) :=
  .told Array.toList_push rfl

theorem Machine.leadsTo_ended (m : Machine) (halt : Option Halt) : m.LeadsTo (m.ended halt) :=
  .told ((m.events_ended halt).trans (List.append_assoc ..)) (m.sink_ended halt)

theorem Machine.leadsTo_run (m : Machine) (program : List Stmt) :
    m.LeadsTo (m.run program).2 := by
  have hbody := LeadsTo.ofDoes (execAll_does program (m.emit .runStart))
  exact (m.leadsTo_runStart.trans hbody).trans (leadsTo_ended _ _)

theorem refusal_execAll (program : List Stmt) (m : Machine) :
    (execAll program m).2.sink.refusal = m.sink.refusal := by
  obtain ⟨texts, htexts⟩ := (Machine.LeadsTo.ofDoes (execAll_does program m)).sink
  rw [htexts, Sink.refusal_writeAll]

end BlockScript
