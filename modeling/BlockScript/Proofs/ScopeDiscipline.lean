import BlockScript.Proofs.FormatMeaning

/-! What a statement does to the scopes it finds. Whether it succeeds or stops, every scope stays
where it is; assignments change values but bind no name, and declarations bind names in the current
scope only. -/

namespace BlockScript

open Evaluator

def Expr.assigned : Expr → List Bytes
  | .absent | .literal _ | .name _ => []
  | .assign target value => target.lexeme :: value.assigned
  | .binary left _ right => left.assigned ++ right.assigned
  | .logical left _ right => left.assigned ++ right.assigned
  | .grouping inner => inner.assigned
  | .unary _ operand => operand.assigned

mutual

/-- The names a statement assigns to or declares, at any depth. -/
def Stmt.targets : Stmt → List Bytes
  | .absent => []
  | .block body => targetsOf body
  | .expression e | .print e => e.assigned
  | .ifElse condition onTrue onFalse => condition.assigned ++ (onTrue.targets ++ onFalse.targets)
  | .declare name initial => name.lexeme :: initial.assigned

def targetsOf : List Stmt → List Bytes
  | [] => []
  | s :: rest => s.targets ++ targetsOf rest

end

/-- The names a statement declares outside its blocks. -/
def Stmt.declared : Stmt → List Bytes
  | .ifElse _ onTrue onFalse => onTrue.declared ++ onFalse.declared
  | .declare name _ => [name.lexeme]
  | .absent | .block _ | .expression _ | .print _ => []

namespace Scope

/-- No name is lost, none but the fresh ones is new, and only targets change their values. -/
structure Grows (fresh targets : List Bytes) (s s' : Scope) : Prop where
  keeps : ∀ n, s.binds n = true → s'.binds n = true
  gains : ∀ n, s'.binds n = true → s.binds n = true ∨ n ∈ fresh
  values : ∀ n, n ∉ targets → s'.get? n = s.get? n

namespace Grows

variable {fresh fresh' targets targets' : List Bytes} {s s' s'' : Scope}

theorem refl (s : Scope) : Grows fresh targets s s :=
  ⟨fun _ h => h, fun _ h => Or.inl h, fun _ _ => rfl⟩

theorem trans (h : Grows fresh targets s s') (k : Grows fresh targets s' s'') :
    Grows fresh targets s s'' := by
  constructor
  · intro n hn
    exact k.keeps n (h.keeps n hn)
  · intro n hn
    rcases k.gains n hn with hn | hn
    · exact h.gains n hn
    · exact Or.inr hn
  · intro n hn
    exact (k.values n hn).trans (h.values n hn)

theorem mono (hfresh : fresh ⊆ fresh') (htargets : targets ⊆ targets')
    (h : Grows fresh targets s s') : Grows fresh' targets' s s' := by
  constructor
  · exact h.keeps
  · intro n hn
    exact (h.gains n hn).imp_right fun hn => hfresh hn
  · intro n hn
    exact h.values n fun hmem => hn (htargets hmem)

theorem define (s : Scope) {name : Bytes} (v : Value) (hfresh : name ∈ fresh ∨ s.binds name = true)
    (htarget : name ∈ targets) : Grows fresh targets s (s.define name v) := by
  constructor
  · intro n hn
    exact (binds_define s name n v).2 (Or.inr hn)
  · intro n hn
    rcases (binds_define s name n v).1 hn with rfl | hn
    · exact hfresh.symm
    · exact Or.inl hn
  · intro n hn
    apply get?_define_of_ne
    rintro rfl
    exact hn htarget

theorem binds_eq (h : Grows [] targets s s') (n : Bytes) : s'.binds n = s.binds n := by
  apply Bool.eq_iff_iff.2
  constructor
  · intro hn
    exact (h.gains n hn).resolve_right List.not_mem_nil
  · exact h.keeps n

theorem chain_refl (chain : List Scope) : List.Forall₂ (Grows fresh targets) chain chain :=
  List.forall₂_same.2 fun scope _ => .refl scope

theorem chain_trans {a b c : List Scope} (h : List.Forall₂ (Grows fresh targets) a b)
    (k : List.Forall₂ (Grows fresh targets) b c) : List.Forall₂ (Grows fresh targets) a c := by
  induction h generalizing c with
  | nil => exact k
  | cons hfirst _ ih =>
    cases k with
    | cons kfirst krest => exact .cons (hfirst.trans kfirst) (ih krest)

theorem chain_map {α : Type} {f : Scope → α} {a b : List Scope}
    (h : List.Forall₂ (Grows fresh targets) a b)
    (hf : ∀ s s', Grows fresh targets s s' → f s' = f s) : b.map f = a.map f := by
  induction h with
  | nil => rfl
  | cons hfirst _ ih => rw [List.map_cons, List.map_cons, hf _ _ hfirst, ih]

end Grows

end Scope

namespace Scopes

/-- The current scope may gain the fresh names, the scopes around it none. -/
structure Grows (fresh targets : List Bytes) (s s' : Scopes) : Prop where
  current : s.current.Grows fresh targets s'.current
  enclosing : List.Forall₂ (Scope.Grows [] targets) s.enclosing s'.enclosing

namespace Grows

variable {fresh fresh' targets targets' : List Bytes} {s s' s'' : Scopes}

theorem refl (s : Scopes) : Grows fresh targets s s :=
  ⟨.refl _, Scope.Grows.chain_refl _⟩

theorem trans (h : Grows fresh targets s s') (k : Grows fresh targets s' s'') :
    Grows fresh targets s s'' := by
  constructor
  · exact h.current.trans k.current
  · exact Scope.Grows.chain_trans h.enclosing k.enclosing

theorem mono (hfresh : fresh ⊆ fresh') (htargets : targets ⊆ targets')
    (h : Grows fresh targets s s') : Grows fresh' targets' s s' := by
  constructor
  · exact h.current.mono hfresh htargets
  · exact h.enclosing.imp fun _ _ h => h.mono (List.Subset.refl _) htargets

theorem define (s : Scopes) {name : Bytes} (v : Value) (hfresh : name ∈ fresh)
    (htarget : name ∈ targets) : Grows fresh targets s (s.define name v) :=
  ⟨.define _ v (Or.inl hfresh) htarget, Scope.Grows.chain_refl _⟩

theorem replace {name : Bytes} {v : Value} {outer outer' : List Scope} (htarget : name ∈ targets)
    (h : replace? name v outer = some outer') :
    List.Forall₂ (Scope.Grows [] targets) outer outer' := by
  induction outer generalizing outer' with
  | nil => cases h
  | cons scope rest ih =>
    rw [replace?] at h
    by_cases hbinds : scope.binds name = true
    · rw [if_pos hbinds] at h
      obtain rfl := Option.some.inj h
      exact .cons (.define scope v (Or.inr hbinds) htarget) (Scope.Grows.chain_refl _)
    · rw [if_neg hbinds] at h
      obtain ⟨rest', hrest, rfl⟩ := Option.map_eq_some_iff.1 h
      exact .cons (.refl scope) (ih hrest)

/-- An assignment changes a binding that is there. -/
theorem assign {name : Bytes} {v : Value} (htarget : name ∈ targets)
    (h : s.assign? name v = some s') : Grows [] targets s s' := by
  rw [assign?] at h
  by_cases hbinds : s.current.binds name = true
  · rw [if_pos hbinds] at h
    obtain rfl := Option.some.inj h
    exact ⟨.define _ v (Or.inr hbinds) htarget, Scope.Grows.chain_refl _⟩
  · rw [if_neg hbinds] at h
    obtain ⟨outer, houter, rfl⟩ := Option.map_eq_some_iff.1 h
    exact ⟨.refl _, replace htarget houter⟩

/-- Leaving a scope gives back the chain in which it was opened. -/
theorem leave (h : Grows fresh targets s.enter s') : Grows [] targets s s'.leave := by
  obtain ⟨current, enclosing⟩ := s'
  have houter : List.Forall₂ (Scope.Grows [] targets) s.toList enclosing := h.enclosing
  cases houter with
  | cons hcurrent hrest => exact ⟨hcurrent, hrest⟩

end Grows

end Scopes

section Eval

variable {targets : List Bytes} {s : Scopes}

/-- What is done with a value once it is there. -/
theorem Scopes.Grows.next {r : Except Halt Value × Scopes}
    {next : Value → Scopes → Except Halt Value × Scopes} (h : s.Grows [] targets r.2)
    (hnext : ∀ v s, Scopes.Grows [] targets s (next v s).2) :
    s.Grows [] targets (match r with
      | (.error halt, s) => (Except.error halt, s)
      | (.ok v, s) => next v s).2 := by
  obtain ⟨halt | v, after⟩ := r
  · exact h
  · exact h.trans (hnext v after)

/-- Evaluation changes the scopes by assignments only. -/
theorem Expr.eval_grows (e : Expr) (htargets : e.assigned ⊆ targets) (s : Scopes) :
    s.Grows [] targets (e.eval s).2 := by
  induction e generalizing s with
  | absent | literal value => exact .refl s
  | name token =>
    rw [eval]
    split <;> exact .refl s
  | grouping inner ih => exact ih htargets s
  | unary operator operand ih =>
    rw [eval]
    exact (ih htargets s).next fun v s => .refl s
  | assign target value ih =>
    obtain ⟨htarget, hvalue⟩ := List.cons_subset.1 htargets
    rw [eval]
    apply (ih hvalue s).next
    intro v s
    split
    · next h => exact .assign htarget h
    · exact .refl s
  | binary left operator right ihl ihr =>
    obtain ⟨hleft, hright⟩ := List.append_subset.1 htargets
    rw [eval]
    apply (ihl hleft s).next
    intro v s
    exact (ihr hright s).next fun w s => .refl s
  | logical left operator right ihl ihr =>
    obtain ⟨hleft, hright⟩ := List.append_subset.1 htargets
    rw [eval]
    apply (ihl hleft s).next
    intro v s
    split
    · exact .refl s
    · exact ihr hright s

end Eval

/-- What a run from `m` does to its scopes. -/
def Machine.Grows (fresh targets : List Bytes) (m : Machine) (r : Option Halt × Machine) : Prop :=
  m.scopes.Grows fresh targets r.2.scopes

namespace Machine.Grows

variable {fresh targets : List Bytes} {m : Machine}

theorem finish {r : Option Halt × Machine} (h : Grows fresh targets m r) (line : Int) :
    Grows fresh targets m (Stmt.finish line r) := by
  rwa [Grows, Stmt.scopes_finish]

theorem print (m : Machine) (line : Int) (v : Value) :
    Grows fresh targets m (m.print line v) := by
  rw [Machine.print]
  rcases m.sink.write (v.text ++ [Bytes.lineFeed]) with ⟨_ | reason, sink⟩ <;> exact .refl _

theorem withValue {e : Expr} {next : Value → Machine → Option Halt × Machine}
    (he : e.assigned ⊆ targets) (hnext : ∀ v n, Grows fresh targets n (next v n)) :
    Grows fresh targets m (m.withValue e next) := by
  have heval := (e.eval_grows he m.scopes).mono (List.nil_subset fresh) (List.Subset.refl _)
  rw [Machine.withValue, Machine.eval]
  generalize e.eval m.scopes = r at heval
  obtain ⟨halt | v, after⟩ := r
  · exact heval
  · exact heval.trans (hnext v { m with scopes := after })

end Machine.Grows

mutual

theorem Stmt.exec_grows (s : Stmt) {fresh targets : List Bytes} (hfresh : s.declared ⊆ fresh)
    (htargets : s.targets ⊆ targets) (m : Machine) : m.Grows fresh targets (s.exec m) := by
  cases s with
  | absent => exact .refl _
  | expression e =>
    rw [Stmt.exec]
    apply Machine.Grows.finish
    exact Machine.Grows.withValue (m := m.begun _) htargets fun v n => .refl _
  | print e =>
    rw [Stmt.exec]
    apply Machine.Grows.finish
    exact Machine.Grows.withValue (m := m.begun _) htargets fun v n => .print n _ v
  | declare name initial =>
    obtain ⟨htarget, hinitial⟩ := List.cons_subset.1 htargets
    have hname : name.lexeme ∈ fresh := hfresh List.mem_cons_self
    rw [Stmt.exec]
    apply Machine.Grows.finish
    split
    · exact .define _ _ hname htarget
    · exact Machine.Grows.withValue (m := m.begun _) hinitial fun v n =>
        .define _ v hname htarget
  | block body =>
    have hbody : m.scopes.enter.Grows _ _ _ :=
      execAll_grows body (List.Subset.refl _) htargets (m.inBlock (.block body))
    rw [Stmt.exec]
    apply Machine.Grows.finish
    exact hbody.leave.mono (List.nil_subset fresh) (List.Subset.refl _)
  | ifElse condition onTrue onFalse =>
    obtain ⟨hcondition, hbranches⟩ := List.append_subset.1 htargets
    obtain ⟨htrue, hfalse⟩ := List.append_subset.1 hbranches
    obtain ⟨htrue', hfalse'⟩ := List.append_subset.1 hfresh
    rw [Stmt.exec]
    apply Machine.Grows.finish
    apply Machine.Grows.withValue (m := m.begun _) hcondition
    intro v n
    split
    · exact Stmt.exec_grows onTrue htrue' htrue n
    · split
      · exact .refl _
      · exact Stmt.exec_grows onFalse hfalse' hfalse n

theorem execAll_grows (body : List Stmt) {fresh targets : List Bytes}
    (hfresh : body.flatMap Stmt.declared ⊆ fresh) (htargets : targetsOf body ⊆ targets)
    (m : Machine) : m.Grows fresh targets (execAll body m) := by
  cases body with
  | nil =>
    rw [execAll]
    exact .refl _
  | cons s rest =>
    obtain ⟨htarget, htargets⟩ := List.append_subset.1 htargets
    obtain ⟨hname, hfresh⟩ := List.append_subset.1 hfresh
    have hfirst := Stmt.exec_grows s hname htarget m
    rw [execAll]
    generalize s.exec m = r at hfirst
    obtain ⟨_ | halt, n⟩ := r
    · exact hfirst.trans (execAll_grows rest hfresh htargets n)
    · exact hfirst

end

/-- Running a statement keeps the scopes in order, whether it succeeds or stops. The chain is as
long as before. The scopes around the current one bind the names they bound; the current one binds
these and at most what the statement declares outside its blocks, so that a block binds no name in
any scope it finds. In every scope the names that the statement neither assigns to nor declares have
the values they had. -/
theorem exec_keeps_scopes_in_order (s : Stmt) (m : Machine) :
    let before := m.scopes
    let after := (s.exec m).2.scopes
    after.enclosing.length = before.enclosing.length ∧
      (∀ name, after.enclosing.map (·.binds name) = before.enclosing.map (·.binds name)) ∧
      (∀ name, before.current.binds name = true → after.current.binds name = true) ∧
      (∀ name, after.current.binds name = true →
        before.current.binds name = true ∨ name ∈ s.declared) ∧
      (∀ body, s = .block body →
        ∀ name, after.toList.map (·.binds name) = before.toList.map (·.binds name)) ∧
      ∀ name, name ∉ s.targets →
        after.toList.map (·.get? name) = before.toList.map (·.get? name) := by
  intro before after
  have hgrows : before.Grows s.declared s.targets after :=
    s.exec_grows (List.Subset.refl _) (List.Subset.refl _) m
  have houter (name : Bytes) :
      after.enclosing.map (·.binds name) = before.enclosing.map (·.binds name) :=
    Scope.Grows.chain_map hgrows.enclosing fun _ _ h => h.binds_eq name
  refine ⟨hgrows.enclosing.length_eq.symm, houter, hgrows.current.keeps, hgrows.current.gains,
    ?_, ?_⟩
  · rintro body rfl name
    have hcurrent : after.current.binds name = before.current.binds name :=
      hgrows.current.binds_eq name
    exact congrArg₂ List.cons hcurrent (houter name)
  · intro name hname
    have hvalues := Scope.Grows.chain_map hgrows.enclosing fun _ _ h => h.values name hname
    exact congrArg₂ List.cons (hgrows.current.values name hname) hvalues

/-- The block shadows `a`, assigns to `b` outside and stops at a name that is not bound. -/
theorem stopped_block_leaves_its_scope :
    let name (text : String) : Token := ⟨.identifier, Bytes.ofString text, 1, .null⟩
    let s : Stmt := .block [.declare (name "a") .absent,
      .expression (.assign (name "b") (.literal (.bool true))), .print (.name (name "c"))]
    let inner : Scope := { bindings := [(Bytes.ofString "b", .null), (Bytes.ofString "d", .null)] }
    let outer : Scope := { bindings := [(Bytes.ofString "a", .bool false)] }
    let m : Machine := { scopes := ⟨inner, [outer]⟩ }
    (s.exec m).1 = some (.fault ⟨name "c", .undefined (Bytes.ofString "c")⟩) ∧
      Bytes.ofString "d" ∉ s.targets ∧
      (∀ n, (s.exec m).2.scopes.toList.map (·.binds n) = m.scopes.toList.map (·.binds n)) ∧
      (s.exec m).2.scopes.toList.map (·.get? (Bytes.ofString "d")) = [some .null, none] := by
  intro name s inner outer m
  have hstop : (s.exec m).1 = some (.fault ⟨name "c", .undefined (Bytes.ofString "c")⟩) := by
    decide +kernel
  have hd : Bytes.ofString "d" ∉ s.targets := by decide
  obtain ⟨-, -, -, -, hblock, hvalues⟩ := exec_keeps_scopes_in_order s m
  exact ⟨hstop, hd, hblock _ rfl, hvalues _ hd⟩

end BlockScript
