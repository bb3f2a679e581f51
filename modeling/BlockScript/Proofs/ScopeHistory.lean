import BlockScript.Proofs.BlockTransparency

/-! Scopes and the operations that made them. What a name is bound to can be told from the history
of operations alone: which scopes are still open, in which of them the name was defined, and what
was written there last. Operations on other names play no part in it. -/

namespace BlockScript

namespace Scopes

inductive Op
  | enter
  | leave
  | define (name : Bytes) (v : Value)
  | assign (name : Bytes) (v : Value)
  | get (name : Bytes)
  deriving DecidableEq

inductive Reply
  | done
  | assigned (found : Bool)
  | value (v : Option Value)
  deriving DecidableEq

def apply (s : Scopes) : Op → Scopes
  | .enter => s.enter
  | .leave => s.leave
  | .define name v => s.define name v
  | .assign name v => (s.assign? name v).getD s
  | .get _ => s

def reply (s : Scopes) : Op → Reply
  | .enter | .leave | .define _ _ => .done
  | .assign name v => .assigned (s.assign? name v).isSome
  | .get name => .value (s.get? name)

/-- The operations done on a chain that was one empty scope, the latest first. -/
abbrev History := List Op

def behind : History → Scopes
  | [] => {}
  | op :: past => (behind past).apply op

def transcript : History → List (Op × Reply)
  | [] => []
  | op :: past => (op, (behind past).reply op) :: transcript past

def Op.concerns (name : Bytes) : Op → Bool
  | .enter | .leave => true
  | .define n _ | .assign n _ | .get n => n = name

/-! A chain seen through one name. -/

/-- Both chains bind the name to the same value, scope by scope, or do not bind it. -/
def AgreeOn (name : Bytes) (chain chain' : List Scope) : Prop :=
  List.Forall₂ (fun s s' : Scope => s.get? name = s'.get? name) chain chain'

namespace AgreeOn

variable {name n : Bytes} {chain chain' : List Scope}

theorem refl (name : Bytes) (chain : List Scope) : AgreeOn name chain chain :=
  List.forall₂_same.2 fun _ _ => rfl

theorem trans {chain'' : List Scope} (h : AgreeOn name chain chain')
    (k : AgreeOn name chain' chain'') : AgreeOn name chain chain'' := by
  induction h generalizing chain'' with
  | nil => exact k
  | cons hfirst _ ih =>
    cases k with
    | cons kfirst krest => exact .cons (hfirst.trans kfirst) (ih krest)

theorem find (h : AgreeOn name chain chain') : find? name chain = find? name chain' := by
  induction h with
  | nil => rfl
  | cons hfirst _ ih => rw [find?, find?, hfirst, ih]

/-- An assignment to the name lands in the same place of both chains. -/
theorem replace (h : AgreeOn name chain chain') (v : Value) :
    (replace? name v chain).isSome = (replace? name v chain').isSome ∧
      AgreeOn name ((replace? name v chain).getD chain) ((replace? name v chain').getD chain') := by
  induction h with
  | nil => exact ⟨rfl, .nil⟩
  | @cons s s' rest rest' hfirst hrest ih =>
    have hbinds : s.binds name = s'.binds name := by
      rw [Scope.binds, Scope.binds, hfirst]
    rw [replace?, replace?, hbinds]
    by_cases hs : s'.binds name = true
    · rw [if_pos hs, if_pos hs]
      refine ⟨rfl, .cons ?_ hrest⟩
      rw [Scope.get?_define_self, Scope.get?_define_self]
    · rw [if_neg hs, if_neg hs]
      generalize replace? name v rest = r at ih ⊢
      generalize replace? name v rest' = r' at ih ⊢
      rcases r with _ | outer <;> rcases r' with _ | outer'
      · exact ⟨rfl, .cons hfirst ih.2⟩
      · cases ih.1
      · cases ih.1
      · exact ⟨rfl, .cons hfirst ih.2⟩

/-- An assignment to another name is not seen. -/
theorem replace_other (hn : n ≠ name) (v : Value) (chain : List Scope) :
    AgreeOn name ((replace? n v chain).getD chain) chain := by
  induction chain with
  | nil => exact .nil
  | cons s rest ih =>
    rw [replace?]
    by_cases hs : s.binds n = true
    · rw [if_pos hs]
      exact .cons (Scope.get?_define_of_ne s v hn) (refl name rest)
    · rw [if_neg hs]
      generalize replace? n v rest = r at ih ⊢
      rcases r with _ | outer
      · exact refl name (s :: rest)
      · exact .cons rfl ih

end AgreeOn

theorem toList_getD_assign (s : Scopes) (name : Bytes) (v : Value) :
    ((s.assign? name v).getD s).toList = (replace? name v s.toList).getD s.toList ∧
      (s.assign? name v).isSome = (replace? name v s.toList).isSome := by
  rw [← toList_assign]
  cases s.assign? name v with
  | none => exact ⟨rfl, rfl⟩
  | some after => exact ⟨rfl, rfl⟩

section Projection

variable {name : Bytes} {s t : Scopes}

/-- An operation that concerns the name is answered alike by chains that agree on it, and they agree
on it afterwards. -/
theorem AgreeOn.step (h : AgreeOn name s.toList t.toList) {op : Op}
    (hop : op.concerns name = true) :
    s.reply op = t.reply op ∧ AgreeOn name (s.apply op).toList (t.apply op).toList := by
  cases op with
  | enter => exact ⟨rfl, .cons rfl h⟩
  | leave =>
    refine ⟨rfl, ?_⟩
    obtain ⟨current, enclosing⟩ := s
    obtain ⟨current', enclosing'⟩ := t
    cases h with
    | cons hcurrent houter =>
      cases houter with
      | nil => exact .cons hcurrent .nil
      | cons hnext hrest => exact .cons hnext hrest
  | define n v =>
    obtain rfl : n = name := of_decide_eq_true hop
    refine ⟨rfl, ?_⟩
    cases h with
    | cons _ houter =>
      have hdefined (u : Scopes) : (u.apply (.define n v)).current.get? n = some v :=
        u.current.get?_define_self n v
      exact .cons ((hdefined s).trans (hdefined t).symm) houter
  | assign n v =>
    obtain rfl : n = name := of_decide_eq_true hop
    obtain ⟨hs, hsome⟩ := toList_getD_assign s n v
    obtain ⟨ht, htome⟩ := toList_getD_assign t n v
    obtain ⟨hfound, hafter⟩ := h.replace v
    rw [reply, reply, apply, apply, hs, ht, hsome, htome, hfound]
    exact ⟨rfl, hafter⟩
  | get n =>
    obtain rfl : n = name := of_decide_eq_true hop
    refine ⟨?_, h⟩
    rw [reply, reply, Scopes.get?, Scopes.get?, h.find]

/-- Any other operation is not seen through the name. -/
theorem AgreeOn.step_other {op : Op} (hop : ¬ op.concerns name = true) (s : Scopes) :
    AgreeOn name (s.apply op).toList s.toList := by
  cases op with
  | enter => exact absurd rfl hop
  | leave => exact absurd rfl hop
  | define n v =>
    have hn : n ≠ name := fun h => hop (decide_eq_true h)
    exact .cons (Scope.get?_define_of_ne s.current v hn) (AgreeOn.refl name s.enclosing)
  | assign n v =>
    have hn : n ≠ name := fun h => hop (decide_eq_true h)
    rw [apply, (toList_getD_assign s n v).1]
    exact .replace_other hn v s.toList
  | get n => exact .refl name s.toList

theorem agreeOn_filter (name : Bytes) (past : History) :
    AgreeOn name (behind past).toList (behind (past.filter (Op.concerns name))).toList := by
  induction past with
  | nil => exact .refl name _
  | cons op past ih =>
    by_cases hop : op.concerns name = true
    · rw [List.filter_cons_of_pos hop]
      exact (ih.step hop).2
    · rw [List.filter_cons_of_neg hop]
      exact (AgreeOn.step_other hop (behind past)).trans ih

theorem transcript_filter (name : Bytes) (past : History) :
    (transcript past).filter (fun entry => entry.1.concerns name) =
      transcript (past.filter (Op.concerns name)) := by
  induction past with
  | nil => rfl
  | cons op past ih =>
    rw [transcript]
    by_cases hop : op.concerns name = true
    · have hreply := ((agreeOn_filter name past).step hop).1
      rw [List.filter_cons_of_pos (by exact hop), List.filter_cons_of_pos hop, transcript, ih,
        hreply]
    · rw [List.filter_cons_of_neg (by exact hop), List.filter_cons_of_neg hop, ih]

end Projection

/-! What a history tells about a name. -/

/-- The scopes without the innermost one; the outermost scope is always there. -/
def outside : List Nat → List Nat
  | _ :: next :: outer => next :: outer
  | scopes => scopes

/-- The scopes that are open behind a history, from the inside out. A scope is known by the number
of operations up to its opening. -/
def openScopes : History → List Nat
  | [] => [0]
  | .enter :: past => (past.length + 1) :: openScopes past
  | .leave :: past => outside (openScopes past)
  | .define _ _ :: past | .assign _ _ :: past | .get _ :: past => openScopes past

def definedIn (name : Bytes) (scope : Nat) : History → Bool
  | [] => false
  | .define n _ :: past =>
    (n = name && (openScopes past).head? = some scope) || definedIn name scope past
  | .enter :: past | .leave :: past | .assign _ _ :: past | .get _ :: past =>
    definedIn name scope past

/-- The innermost of the open scopes in which a name is bound. -/
def holder? (name : Bytes) (past : History) : Option Nat :=
  (openScopes past).find? fun scope => definedIn name scope past

/-- The value written last to the binding of a name in a scope, by a definition in this scope or by
an assignment that found its binding there. -/
def lastWrite? (name : Bytes) (scope : Nat) : History → Option Value
  | [] => none
  | .define n v :: past =>
    if n = name ∧ (openScopes past).head? = some scope then some v else lastWrite? name scope past
  | .assign n v :: past =>
    if n = name ∧ holder? n past = some scope then some v else lastWrite? name scope past
  | .enter :: past | .leave :: past | .get _ :: past => lastWrite? name scope past

section Numbers

theorem outside_sublist (scopes : List Nat) : (outside scopes).Sublist scopes := by
  rcases scopes with _ | ⟨scope, _ | ⟨next, outer⟩⟩
  · exact List.Sublist.refl _
  · exact List.Sublist.refl _
  · exact List.sublist_cons_self _ _

theorem le_length_of_mem_openScopes {past : History} {scope : Nat} (h : scope ∈ openScopes past) :
    scope ≤ past.length := by
  induction past with
  | nil => exact Nat.le_of_eq (List.mem_singleton.1 h)
  | cons op past ih =>
    rw [List.length_cons]
    cases op with
    | enter =>
      rcases List.mem_cons.1 h with rfl | h
      · exact Nat.le_refl _
      · exact Nat.le_succ_of_le (ih h)
    | leave => exact Nat.le_succ_of_le (ih ((outside_sublist _).subset h))
    | define n v => exact Nat.le_succ_of_le (ih h)
    | assign n v => exact Nat.le_succ_of_le (ih h)
    | get n => exact Nat.le_succ_of_le (ih h)

/-- No number is given twice. -/
theorem nodup_openScopes (past : History) : (openScopes past).Nodup := by
  induction past with
  | nil => exact List.nodup_singleton 0
  | cons op past ih =>
    cases op with
    | enter =>
      refine List.nodup_cons.2 ⟨fun hmem => ?_, ih⟩
      exact Nat.not_succ_le_self _ (le_length_of_mem_openScopes hmem)
    | leave => exact ih.sublist (outside_sublist _)
    | define n v => exact ih
    | assign n v => exact ih
    | get n => exact ih

theorem mem_of_holder? {name : Bytes} {past : History} {scope : Nat}
    (h : holder? name past = some scope) : scope ∈ openScopes past := List.mem_of_find?_eq_some h

/-- Nothing has happened in a scope that is not yet open. -/
theorem nothing_in_fresh {past : History} {scope : Nat} (h : past.length < scope) (name : Bytes) :
    definedIn name scope past = false ∧ lastWrite? name scope past = none := by
  induction past with
  | nil => exact ⟨rfl, rfl⟩
  | cons op past ih =>
    have hpast := Nat.lt_of_succ_lt h
    have hclosed : scope ∉ openScopes past := fun hmem =>
      Nat.not_le_of_lt hpast (le_length_of_mem_openScopes hmem)
    obtain ⟨hdefined, hwrite⟩ := ih hpast
    cases op with
    | define n v =>
      have hhead : (openScopes past).head? ≠ some scope := fun hhead =>
        hclosed (List.mem_of_mem_head? hhead)
      rw [definedIn, lastWrite?, if_neg fun hboth => hhead hboth.2]
      exact ⟨by simp [hhead, hdefined], hwrite⟩
    | assign n v =>
      rw [definedIn, lastWrite?, if_neg fun hboth => hclosed (mem_of_holder? hboth.2)]
      exact ⟨hdefined, hwrite⟩
    | enter => exact ⟨hdefined, hwrite⟩
    | leave => exact ⟨hdefined, hwrite⟩
    | get n => exact ⟨hdefined, hwrite⟩

end Numbers

/-- A scope holds what the history has put into the scope of this number. -/
structure Holds (past : History) (scope : Nat) (s : Scope) : Prop where
  binds : ∀ name, s.binds name = definedIn name scope past
  value : ∀ name, s.get? name = lastWrite? name scope past

namespace Holds

variable {past : History} {scope : Nat} {s : Scope} {n : Bytes} {v : Value}

theorem entered (past : History) : Holds (.enter :: past) (past.length + 1) .empty := by
  have hfresh := nothing_in_fresh (Nat.lt_succ_self past.length)
  exact ⟨fun name => (hfresh name).1.symm, fun name => (hfresh name).2.symm⟩

theorem define (h : Holds past scope s) (hhead : (openScopes past).head? = some scope) :
    Holds (.define n v :: past) scope (s.define n v) := by
  refine ⟨fun name => ?_, fun name => ?_⟩
  · rw [definedIn, Bool.eq_iff_iff, Scope.binds_define, h.binds name]
    simp [hhead]
  · rw [lastWrite?]
    by_cases hn : n = name
    · rw [if_pos ⟨hn, hhead⟩, ← hn, Scope.get?_define_self]
    · rw [if_neg fun hboth => hn hboth.1, Scope.get?_define_of_ne s v hn, h.value name]

theorem define_other (h : Holds past scope s) (hhead : (openScopes past).head? ≠ some scope) :
    Holds (.define n v :: past) scope s := by
  refine ⟨fun name => ?_, fun name => ?_⟩
  · rw [definedIn, h.binds name]
    simp [hhead]
  · rw [lastWrite?, if_neg fun hboth => hhead hboth.2, h.value name]

theorem assign (h : Holds past scope s) (hholder : holder? n past = some scope) :
    Holds (.assign n v :: past) scope (s.define n v) := by
  have hbound : s.binds n = true := by
    rw [h.binds n]
    exact List.find?_some (p := fun scope => definedIn n scope past) hholder
  refine ⟨fun name => ?_, fun name => ?_⟩
  · rw [definedIn, ← h.binds name, Bool.eq_iff_iff, Scope.binds_define]
    refine ⟨fun hor => ?_, Or.inr⟩
    rcases hor with rfl | hname
    · exact hbound
    · exact hname
  · rw [lastWrite?]
    by_cases hn : n = name
    · rw [if_pos ⟨hn, hholder⟩, ← hn, Scope.get?_define_self]
    · rw [if_neg fun hboth => hn hboth.1, Scope.get?_define_of_ne s v hn, h.value name]

theorem assign_other (h : Holds past scope s) (hholder : holder? n past ≠ some scope) :
    Holds (.assign n v :: past) scope s := by
  refine ⟨h.binds, fun name => ?_⟩
  rw [lastWrite?, if_neg fun hboth => hholder hboth.2, h.value name]

end Holds

section Chain

variable {past : History} {scopes : List Nat} {chain : List Scope}

theorem holds_others {past' : History} (h : List.Forall₂ (Holds past) scopes chain)
    (hothers : ∀ scope s, scope ∈ scopes → Holds past scope s → Holds past' scope s) :
    List.Forall₂ (Holds past') scopes chain := by
  induction h with
  | nil => exact .nil
  | cons hfirst _ ih =>
    refine .cons (hothers _ _ List.mem_cons_self hfirst) (ih fun scope s hmem hs => ?_)
    exact hothers scope s (List.mem_cons_of_mem _ hmem) hs

theorem exists_holds (h : List.Forall₂ (Holds past) scopes chain) {scope : Nat}
    (hmem : scope ∈ scopes) : ∃ s, Holds past scope s := by
  induction h with
  | nil => cases hmem
  | cons hfirst _ ih =>
    rcases List.mem_cons.1 hmem with rfl | hmem
    · exact ⟨_, hfirst⟩
    · exact ih hmem

/-- A search through the chain ends in the scope that holds the name. -/
theorem find?_of_holds (h : List.Forall₂ (Holds past) scopes chain) (name : Bytes) :
    find? name chain =
      (scopes.find? fun scope => definedIn name scope past).bind fun scope =>
        lastWrite? name scope past := by
  induction h with
  | nil => rfl
  | @cons scope s scopes chain hfirst _ ih =>
    have hbound : (s.get? name).isSome = definedIn name scope past := hfirst.binds name
    rw [find?]
    by_cases hdefined : definedIn name scope past = true
    · rw [List.find?_cons_of_pos (by exact hdefined), Option.bind_some, ← hfirst.value name]
      rw [hdefined] at hbound
      exact Option.or_of_isSome hbound
    · rw [List.find?_cons_of_neg (by exact hdefined), ← ih]
      have hnone : s.get? name = none := by
        rw [← Option.not_isSome_iff_eq_none, hbound]
        exact hdefined
      rw [hnone, Option.none_or]

/-- An assignment goes to the scope that holds the name, if there is one. The search may have come
to any of the open scopes. -/
theorem replace?_of_holds (h : List.Forall₂ (Holds past) scopes chain) (hnodup : scopes.Nodup)
    {n : Bytes} (hholder : holder? n past = scopes.find? fun scope => definedIn n scope past)
    (v : Value) :
    (replace? n v chain).isSome = (holder? n past).isSome ∧
      List.Forall₂ (Holds (.assign n v :: past)) scopes ((replace? n v chain).getD chain) := by
  induction h with
  | nil =>
    rw [hholder]
    exact ⟨rfl, .nil⟩
  | @cons scope s scopes chain hfirst hrest ih =>
    obtain ⟨hscope, hnodup⟩ := List.nodup_cons.1 hnodup
    have hbinds := hfirst.binds n
    rw [replace?]
    by_cases hdefined : definedIn n scope past = true
    · rw [List.find?_cons_of_pos (by exact hdefined)] at hholder
      rw [if_pos (hbinds.trans hdefined), hholder]
      refine ⟨rfl, .cons (hfirst.assign hholder) (holds_others hrest ?_)⟩
      intro other s hother hs
      refine hs.assign_other fun hsame => ?_
      rw [hholder] at hsame
      exact hscope (Option.some.inj hsame ▸ hother)
    · rw [List.find?_cons_of_neg (by exact hdefined)] at hholder
      have hother : holder? n past ≠ some scope := fun hsame =>
        hscope (List.mem_of_find?_eq_some (hholder ▸ hsame))
      obtain ⟨hfound, hafter⟩ := ih hnodup hholder
      rw [if_neg (hbinds ▸ hdefined)]
      generalize replace? n v chain = r at hfound hafter ⊢
      rcases r with _ | outer
      · exact ⟨hfound, .cons (hfirst.assign_other hother) hafter⟩
      · exact ⟨hfound, .cons (hfirst.assign_other hother) hafter⟩

/-- The chain behind a history consists of the scopes that the history has left open, each with what
the history has put into it. -/
theorem holds_behind (past : History) :
    List.Forall₂ (Holds past) (openScopes past) (behind past).toList := by
  induction past with
  | nil => exact .cons ⟨fun _ => rfl, fun _ => rfl⟩ .nil
  | cons op past ih =>
    cases op with
    | enter => exact .cons (.entered past) (ih.imp fun _ _ h => ⟨h.binds, h.value⟩)
    | leave =>
      have houtside : List.Forall₂ (Holds past) (outside (openScopes past))
          (behind past).leave.toList := by
        generalize openScopes past = scopes, behind past = s at ih
        obtain ⟨current, enclosing⟩ := s
        cases ih with
        | cons hcurrent houter =>
          cases houter with
          | nil => exact .cons hcurrent .nil
          | cons hnext hrest => exact .cons hnext hrest
      exact houtside.imp fun _ _ h => ⟨h.binds, h.value⟩
    | define n v =>
      have hnodup := nodup_openScopes past
      rw [openScopes]
      generalize hopen : openScopes past = scopes at ih hnodup
      cases ih with
      | @cons scope _ scopes _ hcurrent houter =>
        have hhead : (openScopes past).head? = some scope := by rw [hopen]; rfl
        -- The other scopes are left alone, since their numbers are not that of the innermost one.
        refine .cons (hcurrent.define hhead) (holds_others houter fun other s hother hs => ?_)
        refine hs.define_other fun hsame => ?_
        rw [hhead] at hsame
        exact (List.nodup_cons.1 hnodup).1 (Option.some.inj hsame ▸ hother)
    | assign n v =>
      rw [behind, apply, (toList_getD_assign (behind past) n v).1]
      exact (replace?_of_holds ih (nodup_openScopes past) rfl v).2
    | get n => exact ih.imp fun _ _ h => ⟨h.binds, h.value⟩

end Chain

/-- Variables do not interfere. The replies to the operations on a name are those that the same
operations get in the history without the operations on other names. In any history, such as that
one, a name is found exactly if it was defined in a scope that is still open, and then with the
value written last to its binding in the innermost such scope; an assignment succeeds exactly if
there is such a scope and otherwise changes nothing. The names of every open scope stand in
increasing order and are those that were defined directly in it. -/
theorem variables_do_not_interfere (name : Bytes) (past : History) :
    (transcript past).filter (fun entry => entry.1.concerns name) =
        transcript (past.filter (Op.concerns name)) ∧
      (behind past).reply (.get name) =
        .value ((holder? name past).bind fun scope => lastWrite? name scope past) ∧
      (∀ scope, holder? name past = some scope → (lastWrite? name scope past).isSome = true) ∧
      (∀ v, (behind past).reply (.assign name v) = .assigned (holder? name past).isSome ∧
        (holder? name past = none → behind (.assign name v :: past) = behind past)) ∧
      List.Forall₂ (fun scope s => s.names.Pairwise (· < ·) ∧
          ∀ n, n ∈ s.names ↔ definedIn n scope past = true)
        (openScopes past) (behind past).toList := by
  have hholds := holds_behind past
  have hvalue := find?_of_holds hholds name
  refine ⟨transcript_filter name past, ?_, ?_, ?_, ?_⟩
  · rw [reply, Scopes.get?, hvalue]
    rfl
  · intro scope hscope
    have hdefined : definedIn name scope past = true :=
      List.find?_some (p := fun scope => definedIn name scope past) hscope
    obtain ⟨s, hs⟩ := exists_holds hholds (mem_of_holder? hscope)
    rw [← hs.value name, ← Scope.binds, hs.binds name, hdefined]
  · intro v
    have hfound := (replace?_of_holds (n := name) hholds (nodup_openScopes past) rfl v).1
    rw [← (toList_getD_assign (behind past) name v).2] at hfound
    refine ⟨congrArg Reply.assigned hfound, fun hnone => ?_⟩
    rw [hnone, Option.isSome_none, Option.isSome_eq_false_iff, Option.isNone_iff_eq_none] at hfound
    rw [behind, apply, hfound, Option.getD_none]
  · refine hholds.imp fun scope s hs => ⟨s.ordered, fun n => ?_⟩
    rw [Scope.mem_names_iff, hs.binds n]

/-- An assignment from inside a block reaches the outer binding and outlives the block, whose own
binding of `y` does not. -/
example :
    let x := Bytes.ofString "x"
    let y := Bytes.ofString "y"
    let past : History :=
      [.leave, .assign x (.bool true), .define y .null, .enter, .define x .null]
    (behind past).reply (.get x) = .value (some (.bool true)) ∧
      (behind past).reply (.get y) = .value none ∧ holder? x past = some 0 := by
  decide +kernel

end Scopes

end BlockScript
