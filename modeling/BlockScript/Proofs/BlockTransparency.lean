import BlockScript.Proofs.ScopeDiscipline
import BlockScript.Proofs.TraceBrackets

/-! A block around a whole program is invisible. The program runs once against the globals and once
against an empty scope on top of them. A declaration overwrites a global in the first run and
shadows it in the second, and later assignments go to different scopes; but at every moment the
globals of the first run are the two scopes of the second laid over each other, and nothing else in
the chain differs. -/

namespace BlockScript

open Evaluator

namespace Scope

/-- A scope that holds what is seen through an inner one on top of an outer one. -/
def Overlays (merged inner outer : Scope) : Prop :=
  ∀ name, merged.get? name = (inner.get? name).or (outer.get? name)

namespace Overlays

variable {merged inner outer : Scope} {name : Bytes} {v : Value}

theorem empty (outer : Scope) : Overlays outer .empty outer := fun _ => rfl

theorem binds (h : Overlays merged inner outer) (name : Bytes) :
    merged.binds name = (inner.binds name || outer.binds name) := by
  rw [Scope.binds, h name, Option.isSome_or]
  rfl

/-- A binding made in the inner scope hides the outer one. -/
theorem defineInner (h : Overlays merged inner outer) (name : Bytes) (v : Value) :
    Overlays (merged.define name v) (inner.define name v) outer := by
  intro n
  by_cases hn : name = n
  · subst hn
    rw [get?_define_self, get?_define_self, Option.some_or]
  · rw [get?_define_of_ne _ v hn, get?_define_of_ne _ v hn, h n]

/-- A binding made in the outer scope is seen where the inner one has none. -/
theorem defineOuter (h : Overlays merged inner outer) (hinner : inner.binds name = false) :
    Overlays (merged.define name v) inner (outer.define name v) := by
  intro n
  by_cases hn : name = n
  · subst hn
    have hnone : inner.get? name = none := by simpa [Scope.binds] using hinner
    rw [get?_define_self, get?_define_self, hnone, Option.none_or]
  · rw [get?_define_of_ne _ v hn, get?_define_of_ne _ v hn, h n]

end Overlays

end Scope

/-- The second chain of scopes is the first with one scope split into an inner and an outer one,
below the given number of scopes. -/
inductive Flattens : Nat → (flat split : List Scope) → Prop
  | here {merged inner outer rest} (h : Scope.Overlays merged inner outer) :
      Flattens 0 (merged :: rest) (inner :: outer :: rest)
  | under {depth flat split} (s : Scope) (h : Flattens depth flat split) :
      Flattens (depth + 1) (s :: flat) (s :: split)

namespace Flattens

variable {depth : Nat} {flat split : List Scope}

theorem find (h : Flattens depth flat split) (name : Bytes) :
    Scopes.find? name flat = Scopes.find? name split := by
  induction h with
  | here h => rw [Scopes.find?, Scopes.find?, Scopes.find?, h name, Option.or_assoc]
  | under s _ ih => rw [Scopes.find?, Scopes.find?, ih]

/-- An assignment finds its binding in both chains or in neither. In the split scope it lands in the
part that holds the name, the inner one first. -/
theorem replace (h : Flattens depth flat split) (name : Bytes) (v : Value) :
    (Scopes.replace? name v flat = none ∧ Scopes.replace? name v split = none) ∨
      ∃ flat' split', Scopes.replace? name v flat = some flat' ∧
        Scopes.replace? name v split = some split' ∧ Flattens depth flat' split' := by
  induction h with
  | @here merged inner outer rest h =>
    have hbinds := h.binds name
    rw [Scopes.replace?, Scopes.replace?, Scopes.replace?]
    by_cases hinner : inner.binds name = true
    · rw [if_pos (by rw [hbinds, hinner]; rfl), if_pos hinner]
      exact Or.inr ⟨_, _, rfl, rfl, .here (h.defineInner name v)⟩
    · rw [Bool.not_eq_true] at hinner
      rw [hinner, Bool.false_or] at hbinds
      rw [hbinds, hinner]
      by_cases houter : outer.binds name = true
      · rw [if_pos houter, if_pos houter]
        exact Or.inr ⟨_, _, rfl, rfl, .here (h.defineOuter hinner)⟩
      · rw [if_neg houter, if_neg houter]
        rcases Scopes.replace? name v rest with _ | rest'
        · exact Or.inl ⟨rfl, rfl⟩
        · exact Or.inr ⟨_, _, rfl, rfl, .here h⟩
  | @under depth flat split s h ih =>
    rw [Scopes.replace?, Scopes.replace?]
    by_cases hs : s.binds name = true
    · rw [if_pos hs, if_pos hs]
      exact Or.inr ⟨_, _, rfl, rfl, .under _ h⟩
    · rw [if_neg hs, if_neg hs]
      rcases ih with ⟨hflat, hsplit⟩ | ⟨flat', split', hflat, hsplit, h'⟩
      · rw [hflat, hsplit]
        exact Or.inl ⟨rfl, rfl⟩
      · rw [hflat, hsplit]
        exact Or.inr ⟨_, _, rfl, rfl, .under s h'⟩

theorem ne_nil (h : Flattens depth flat split) : flat ≠ [] ∧ split ≠ [] := by
  cases h <;> exact ⟨List.cons_ne_nil _ _, List.cons_ne_nil _ _⟩

variable {s s' : Scopes}

/-- A declaration is made in the innermost scope of either chain. -/
theorem define (h : Flattens depth s.toList s'.toList) (name : Bytes) (v : Value) :
    Flattens depth (s.define name v).toList (s'.define name v).toList := by
  obtain ⟨current, enclosing⟩ := s
  obtain ⟨current', enclosing'⟩ := s'
  cases h with
  | here h => exact .here (h.defineInner name v)
  | under _ h => exact .under _ h

/-- Leaving a scope opened above the split keeps the split. -/
theorem leave (h : Flattens (depth + 1) s.toList s'.toList) :
    Flattens depth s.leave.toList s'.leave.toList := by
  generalize ha : s.toList = a, hb : s'.toList = b at h
  cases h with
  | under scope h =>
    rw [Scopes.toList_leave ha h.ne_nil.1, Scopes.toList_leave hb h.ne_nil.2]
    exact h

end Flattens

structure SameAnswer (depth : Nat) (r r' : Except Halt Value × Scopes) : Prop where
  answer : r.1 = r'.1
  scopes : Flattens depth r.2.toList r'.2.toList

section Eval

variable {depth : Nat}

/-- What is done with a value once it is there. -/
theorem SameAnswer.next {r r' : Except Halt Value × Scopes}
    {next : Value → Scopes → Except Halt Value × Scopes} : SameAnswer depth r r' →
    (∀ v s s', Flattens depth s.toList s'.toList → SameAnswer depth (next v s) (next v s')) →
    SameAnswer depth
      (match r with
        | (.error halt, s) => (.error halt, s)
        | (.ok v, s) => next v s)
      (match r' with
        | (.error halt, s) => (.error halt, s)
        | (.ok v, s) => next v s) := by
  intro h hnext
  obtain ⟨answer, s⟩ := r
  obtain ⟨answer', s'⟩ := r'
  obtain ⟨hanswer, hscopes⟩ := h
  obtain rfl : answer = answer' := hanswer
  rcases answer with halt | v
  · exact ⟨rfl, hscopes⟩
  · exact hnext v s s' hscopes

theorem Flattens.assign {s s' : Scopes} (h : Flattens depth s.toList s'.toList) (t : Token)
    (v : Value) :
    SameAnswer depth
      (match s.assign? t.lexeme v with
        | some scopes => (.ok v, scopes)
        | none => (undefined t, s))
      (match s'.assign? t.lexeme v with
        | some scopes => (.ok v, scopes)
        | none => (undefined t, s')) := by
  have hflat := toList_assign s t.lexeme v
  have hsplit := toList_assign s' t.lexeme v
  rcases h.replace t.lexeme v with ⟨ha, hb⟩ | ⟨flat', split', ha, hb, h'⟩
  · rw [ha, Option.map_eq_none_iff] at hflat
    rw [hb, Option.map_eq_none_iff] at hsplit
    rw [hflat, hsplit]
    exact ⟨rfl, h⟩
  · rw [ha] at hflat
    rw [hb] at hsplit
    obtain ⟨after, hafter, rfl⟩ := Option.map_eq_some_iff.1 hflat
    obtain ⟨after', hafter', rfl⟩ := Option.map_eq_some_iff.1 hsplit
    rw [hafter, hafter']
    exact ⟨rfl, h'⟩

theorem Expr.eval_sameAnswer (e : Expr) {s s' : Scopes} (h : Flattens depth s.toList s'.toList) :
    SameAnswer depth (e.eval s) (e.eval s') := by
  induction e generalizing s s' with
  | absent | literal value => exact ⟨rfl, h⟩
  | name token =>
    have hget : s.get? token.lexeme = s'.get? token.lexeme := h.find token.lexeme
    rw [eval, eval, hget]
    rcases s'.get? token.lexeme with _ | v
    · exact ⟨rfl, h⟩
    · exact ⟨rfl, h⟩
  | grouping inner ih => exact ih h
  | assign target value ih =>
    rw [eval, eval]
    apply (ih h).next
    intro v s s' h
    exact h.assign target v
  | unary operator operand ih =>
    rw [eval, eval]
    apply (ih h).next
    intro v s s' h
    exact ⟨rfl, h⟩
  | binary left operator right ihl ihr =>
    rw [eval, eval]
    apply (ihl h).next
    intro v s s' h
    apply (ihr h).next
    intro w s s' h
    exact ⟨rfl, h⟩
  | logical left operator right ihl ihr =>
    rw [eval, eval]
    apply (ihl h).next
    intro v s s' h
    by_cases hdecides : decides operator v = true
    · rw [if_pos hdecides, if_pos hdecides]
      exact ⟨rfl, h⟩
    · rw [if_neg hdecides, if_neg hdecides]
      exact ihr h

end Eval

structure Machine.Splits (depth : Nat) (m m' : Machine) : Prop where
  scopes : Flattens depth m.scopes.toList m'.scopes.toList
  sink : m.sink = m'.sink

/-- Two runs stop for the same reason, if they stop, and leave machines that differ by the split.
The trace is left aside, since it counts blocks. -/
structure RunsAlike (depth : Nat) (r r' : Option Halt × Machine) : Prop where
  halt : r.1 = r'.1
  machine : r.2.Splits depth r'.2

namespace RunsAlike

variable {depth : Nat} {m m' : Machine} {r r' : Option Halt × Machine}

theorem finish (h : RunsAlike depth r r') (line line' : Int) :
    RunsAlike depth (Stmt.finish line r) (Stmt.finish line' r') :=
  ⟨by simpa using h.halt, by simpa using h.machine.scopes, by simpa using h.machine.sink⟩

theorem print (h : m.Splits depth m') (line line' : Int) (v : Value) :
    RunsAlike depth (m.print line v) (m'.print line' v) := by
  rw [Machine.print, Machine.print, h.sink]
  rcases m'.sink.write (v.text ++ [Bytes.lineFeed]) with ⟨_ | reason, sink⟩
  · exact ⟨rfl, h.scopes, rfl⟩
  · exact ⟨rfl, h.scopes, rfl⟩

theorem withValue {e : Expr} {next next' : Value → Machine → Option Halt × Machine}
    (h : m.Splits depth m')
    (hnext : ∀ v n n', Machine.Splits depth n n' → RunsAlike depth (next v n) (next' v n')) :
    RunsAlike depth (m.withValue e next) (m'.withValue e next') := by
  obtain ⟨hanswer, hscopes⟩ := e.eval_sameAnswer h.scopes
  unfold Machine.withValue Machine.eval
  generalize e.eval m.scopes = r, e.eval m'.scopes = r' at hanswer hscopes
  obtain ⟨answer, after⟩ := r
  obtain ⟨answer', after'⟩ := r'
  obtain rfl : answer = answer' := hanswer
  rcases answer with halt | v
  · exact ⟨rfl, hscopes, h.sink⟩
  · exact hnext v _ _ ⟨hscopes, h.sink⟩

end RunsAlike

theorem Machine.Splits.begun {depth : Nat} {m m' : Machine} (h : m.Splits depth m') (s : Stmt) :
    (m.begun s).Splits depth (m'.begun s) :=
  ⟨h.scopes, h.sink⟩

theorem Machine.Splits.define {depth : Nat} {m m' : Machine} (h : m.Splits depth m') (name : Bytes)
    (v : Value) : (m.define name v).Splits depth (m'.define name v) :=
  ⟨h.scopes.define name v, h.sink⟩

mutual

theorem Stmt.exec_runsAlike (s : Stmt) {depth : Nat} {m m' : Machine} (h : m.Splits depth m') :
    RunsAlike depth (s.exec m) (s.exec m') := by
  cases s with
  | absent => exact ⟨rfl, h⟩
  | expression e =>
    rw [Stmt.exec, Stmt.exec]
    apply RunsAlike.finish
    exact RunsAlike.withValue (h.begun _) fun v n n' h => ⟨rfl, h⟩
  | print e =>
    rw [Stmt.exec, Stmt.exec]
    apply RunsAlike.finish
    exact RunsAlike.withValue (h.begun _) fun v n n' h => .print h _ _ v
  | declare name initial =>
    rw [Stmt.exec, Stmt.exec]
    apply RunsAlike.finish
    split
    · exact ⟨rfl, (h.begun _).define _ _⟩
    · exact RunsAlike.withValue (h.begun _) fun v n n' h => ⟨rfl, h.define _ v⟩
  | block body =>
    have hinside : (m.inBlock (.block body)).Splits (depth + 1) (m'.inBlock (.block body)) :=
      ⟨.under .empty h.scopes, h.sink⟩
    have hbody := execAll_runsAlike body hinside
    rw [Stmt.exec, Stmt.exec]
    apply RunsAlike.finish
    exact ⟨hbody.halt, hbody.machine.scopes.leave, hbody.machine.sink⟩
  | ifElse condition onTrue onFalse =>
    rw [Stmt.exec, Stmt.exec]
    apply RunsAlike.finish
    apply RunsAlike.withValue (h.begun _)
    intro v n n' h
    split
    · exact Stmt.exec_runsAlike onTrue h
    · split
      · exact ⟨rfl, h⟩
      · exact Stmt.exec_runsAlike onFalse h

theorem execAll_runsAlike (body : List Stmt) {depth : Nat} {m m' : Machine}
    (h : m.Splits depth m') : RunsAlike depth (execAll body m) (execAll body m') := by
  cases body with
  | nil =>
    rw [execAll, execAll]
    exact ⟨rfl, h⟩
  | cons s rest =>
    obtain ⟨hhalt, hmachine⟩ := Stmt.exec_runsAlike s h
    rw [execAll, execAll]
    generalize s.exec m = r, s.exec m' = r' at hhalt hmachine
    obtain ⟨halt, n⟩ := r
    obtain ⟨halt', n'⟩ := r'
    obtain rfl : halt = halt' := hhalt
    rcases halt with _ | halt
    · exact execAll_runsAlike rest hmachine
    · exact ⟨rfl, hmachine⟩

end

/-- The events around a program change neither its result nor what it leaves. -/
theorem Machine.run_result (m : Machine) (program : List Stmt) :
    (m.run program).1 = (execAll program (m.emit .runStart)).1 ∧
      (m.run program).2.scopes = (execAll program (m.emit .runStart)).2.scopes ∧
      (m.run program).2.sink = (execAll program (m.emit .runStart)).2.sink :=
  ⟨rfl, scopes_ended _ _, sink_ended _ _⟩

/-- A program in a block does what its statements do in the scope of the block, which is then
left. -/
theorem Machine.run_block (m : Machine) (program : List Stmt) :
    let inside := execAll program ((m.emit .runStart).inBlock (.block program))
    (m.run [.block program]).1 = inside.1 ∧
      (m.run [.block program]).2.scopes = inside.2.scopes.leave ∧
      (m.run [.block program]).2.sink = inside.2.sink := by
  obtain ⟨hhalt, hscopes, hsink⟩ := m.run_result [.block program]
  rw [hhalt, hscopes, hsink, execAll_singleton, Stmt.exec, Stmt.halt_finish, Stmt.scopes_finish,
    Stmt.sink_finish]
  exact ⟨rfl, rfl, rfl⟩

/-- Running a block binds no name in any scope it finds. -/
theorem binds_of_run_block (m : Machine) (program : List Stmt) (name : Bytes) :
    (m.run [.block program]).2.scopes.toList.map (·.binds name) =
      m.scopes.toList.map (·.binds name) := by
  have hgrows : (m.emit .runStart).Grows [] (Stmt.targets (.block program))
      ((Stmt.block program).exec (m.emit .runStart)) :=
    Stmt.exec_grows (.block program) (List.Subset.refl _) (List.Subset.refl _) _
  obtain ⟨-, hscopes, -⟩ := m.run_result [.block program]
  rw [hscopes, execAll_singleton]
  have hcurrent := hgrows.current.binds_eq name
  have houter := Scope.Grows.chain_map hgrows.enclosing fun _ _ h => h.binds_eq name
  exact congrArg₂ List.cons hcurrent houter

/-- A program and the same program in a block stop for the same reason, if they stop, having offered
the same texts to the sink, whatever the scopes and the sink at the start. The block leaves every
scope with the names it had. Its own scope at its end, laid over the globals that it leaves, is what
the program alone makes of the globals: every name has there the value visible inside the block. -/
theorem block_around_program_is_invisible (program : List Stmt) (m : Machine) :
    let plain := m.run program
    let wrapped := m.run [.block program]
    let inside := (execAll program ((m.emit .runStart).inBlock (.block program))).2.scopes
    plain.1 = wrapped.1 ∧ plain.2.sink = wrapped.2.sink ∧
      (∀ name, wrapped.2.scopes.toList.map (·.binds name) = m.scopes.toList.map (·.binds name)) ∧
      plain.2.scopes.enclosing = wrapped.2.scopes.enclosing ∧
      ∃ locals : Scope, inside = ⟨locals, wrapped.2.scopes.toList⟩ ∧
        ∀ name, plain.2.scopes.current.get? name =
            (locals.get? name).or (wrapped.2.scopes.current.get? name) ∧
          plain.2.scopes.get? name = inside.get? name := by
  intro plain wrapped inside
  -- At the start the scope of the block is empty, so it hides nothing.
  have hstart : (m.emit .runStart).Splits 0 ((m.emit .runStart).inBlock (.block program)) :=
    ⟨.here (.empty _), rfl⟩
  obtain ⟨hhalt, hscopes, hsink⟩ := execAll_runsAlike program hstart
  obtain ⟨hplainHalt, hplainScopes, hplainSink⟩ := m.run_result program
  obtain ⟨hwrappedHalt, hwrappedScopes, hwrappedSink⟩ := m.run_block program
  rw [← hplainHalt, ← hwrappedHalt] at hhalt
  rw [← hplainSink, ← hwrappedSink] at hsink
  rw [← hplainScopes] at hscopes
  refine ⟨hhalt, hsink, binds_of_run_block m program, ?_⟩
  change wrapped.2.scopes = inside.leave at hwrappedScopes
  change Flattens 0 plain.2.scopes.toList inside.toList at hscopes
  have hfind := hscopes.find
  rw [hwrappedScopes]
  generalize plain.2.scopes = globals at hscopes hfind
  clear_value inside
  obtain ⟨current, enclosing⟩ := globals
  obtain ⟨locals, outer⟩ := inside
  cases hscopes with
  | here h => exact ⟨rfl, locals, rfl, fun name => ⟨h name, hfind name⟩⟩

/-- Alone, the program overwrites the global `a` and changes `b` before the sink is full. In a block
it shadows `a` instead. -/
example :
    let name (text : String) : Token := ⟨.identifier, Bytes.ofString text, 1, .null⟩
    let program : List Stmt := [.declare (name "a") (.literal (.bool true)),
      .expression (.assign (name "a") (.name (name "b"))),
      .expression (.assign (name "b") (.literal (.bool true))), .print (.name (name "a"))]
    let globals : Scope :=
      { bindings := [(Bytes.ofString "a", .null), (Bytes.ofString "b", .bool false)] }
    let m : Machine := { scopes := ⟨globals, []⟩, sink := Sink.limited 5 }
    (m.run program).2.scopes.current.bindings =
        [(Bytes.ofString "a", .bool false), (Bytes.ofString "b", .bool true)] ∧
      (m.run [.block program]).2.scopes.current.bindings =
        [(Bytes.ofString "a", .null), (Bytes.ofString "b", .bool true)] := by
  decide +kernel

end BlockScript
