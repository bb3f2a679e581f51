import BlockScript.Proofs.Acts
import BlockScript.Trace

/-! The counts of a trace summary. They depend on the events alone, not on the times and the run a
record names; and since the trace tells of every act in order, they count what the runs did. -/

namespace BlockScript

open Trace

namespace Trace

theorem ofString_inj {a b : String} : Bytes.ofString a = Bytes.ofString b ↔ a = b := by
  constructor
  · intro h
    have hdata : a.toUTF8.data = b.toUTF8.data := Array.toList_inj.1 h
    exact String.toByteArray_inj.1 (ByteArray.ext hdata)
  · rintro rfl
    rfl

structure Counts where
  events : Nat := 0
  statements : Nat := 0
  prints : Nat := 0
  depth : Int := 0
  maxDepth : Int := 0
  faults : Nat := 0
  faultsByCode : List (Bytes × Nat) := []
  deriving DecidableEq

def Summary.counts (s : Summary) : Counts :=
  ⟨s.events, s.statements, s.prints, s.depth, s.maxDepth, s.faults, s.faultsByCode⟩

namespace Counts

def tick (c : Counts) (e : Event) : Counts :=
  let c := { c with events := c.events + 1 }
  match e with
  | .runStart | .runEnd | .stmtEnd _ => c
  | .stmtStart .. => { c with statements := c.statements + 1 }
  | .print .. => { c with prints := c.prints + 1 }
  | .blockEnter _ => { c with depth := c.depth + 1, maxDepth := max c.maxDepth (c.depth + 1) }
  | .blockExit _ => { c with depth := c.depth - 1 }
  | .runtimeError _ code _ =>
    { c with faults := c.faults + 1, faultsByCode := tally code.name c.faultsByCode }

def of (es : List Event) : Counts := es.foldl tick {}

/-- The end of a run keeps the depth. -/
theorem depth_concat_runEnd (es : List Event) : (of (es ++ [.runEnd])).depth = (of es).depth := by
  rw [of, List.foldl_append]
  rfl

end Counts

/-- A record of an event, as far as a summary counts it. -/
structure Record.Reports (r : Record) (e : Event) : Prop where
  event : r.event = Bytes.ofString e.name
  code : ∀ line code message, e = .runtimeError line code message → r.get "code" = code.name

theorem Record.reports_ofEvent (time run : Bytes) (e : Event) : (ofEvent time run e).Reports e := by
  constructor
  · rfl
  · rintro line code message rfl
    simp [get, ofEvent, Event.data, ofString_inj]

theorem Record.Reports.counts_step {r : Record} {e : Event} (h : r.Reports e) (s : Summary) :
    (s.step r).counts = s.counts.tick e := by
  rw [Summary.step, h.event]
  cases e with
  | runtimeError line code message =>
    simp [Event.name, ofString_inj, Summary.counts, Counts.tick, h.code line code message rfl]
  | _ => simp [Event.name, ofString_inj, Summary.counts, Counts.tick]

theorem counts_foldl {rs : List Record} {es : List Event} (h : List.Forall₂ Record.Reports rs es)
    (s : Summary) : (rs.foldl Summary.step s).counts = es.foldl Counts.tick s.counts := by
  induction h generalizing s with
  | nil => rfl
  | cons hfirst _ ih => rw [List.foldl_cons, List.foldl_cons, ih, hfirst.counts_step]

theorem counts_ofRecords {rs : List Record} {es : List Event}
    (h : List.Forall₂ Record.Reports rs es) : (Summary.ofRecords rs).counts = Counts.of es :=
  counts_foldl h {}

section Tally

open Entries (Ordered)

variable {entries : List (Bytes × Nat)}

def entry (entries : List (Bytes × Nat)) (code : Bytes) : Nat := (entries.lookup code).getD 0

theorem entry_tally (h : Ordered entries) (code key : Bytes) :
    entry (tally code entries) key = entry entries key + if key = code then 1 else 0 := by
  rw [entry, tally]
  by_cases hkey : key = code
  · rw [hkey, h.lookup_alter, if_pos rfl]
    rfl
  · rw [Entries.lookup_alter_of_ne hkey, if_neg hkey]
    rfl

theorem sum_tally (code : Bytes) (entries : List (Bytes × Nat)) :
    ((tally code entries).map (·.2)).sum = (entries.map (·.2)).sum + 1 := by
  rw [tally]
  induction entries with
  | nil => rfl
  | cons first rest ih =>
    rw [Entries.alter]
    split
    · simp only [Option.getD_some, List.map_cons, List.sum_cons]
      omega
    · split
      · simp only [Option.getD_none, List.map_cons, List.sum_cons]
        omega
      · simp only [List.map_cons, List.sum_cons, ih]
        omega

/-- Counting some codes one after the other. -/
theorem tallied (h : Ordered entries) (codes : List Bytes) :
    ((codes.foldl (fun entries code => tally code entries) entries).map (·.2)).sum =
        (entries.map (·.2)).sum + codes.length ∧
      ∀ key, entry (codes.foldl (fun entries code => tally code entries) entries) key =
        entry entries key + codes.count key := by
  induction codes generalizing entries with
  | nil => exact ⟨rfl, fun _ => rfl⟩
  | cons code codes ih =>
    obtain ⟨hsum, hentry⟩ := ih (h.alter code _)
    rw [List.foldl_cons]
    constructor
    · rw [tally, hsum, ← tally, sum_tally, List.length_cons]
      omega
    · intro key
      rw [tally, hentry key, ← tally, entry_tally h code key, List.count_cons, Nat.add_assoc]
      by_cases hkey : key = code
      · simp [hkey, Nat.add_comm]
      · simp [hkey, Ne.symm hkey]

end Tally

def Event.faultCode? : Event → Option Bytes
  | .runtimeError _ code _ => some code.name
  | _ => none

theorem foldl_tick_faults (es : List Event) (c : Counts) :
    (es.foldl Counts.tick c).faults = c.faults + (es.filterMap Event.faultCode?).length ∧
      (es.foldl Counts.tick c).faultsByCode = (es.filterMap Event.faultCode?).foldl
        (fun entries code => tally code entries) c.faultsByCode := by
  induction es generalizing c with
  | nil => exact ⟨rfl, rfl⟩
  | cons e es ih =>
    obtain ⟨hfaults, hcodes⟩ := ih (c.tick e)
    rw [List.foldl_cons, hfaults, hcodes]
    cases e with
    | runtimeError line code message => exact ⟨Nat.succ_add_eq_add_succ _ _, rfl⟩
    | _ => exact ⟨rfl, rfl⟩

/-- The faults of a trace are counted, all of them and by their codes. -/
theorem faults_of (es : List Event) :
    (Counts.of es).faults = (es.filterMap Event.faultCode?).length ∧
      ((Counts.of es).faultsByCode.map (·.2)).sum = (Counts.of es).faults ∧
      ∀ code, entry (Counts.of es).faultsByCode code =
        (es.filterMap Event.faultCode?).count code := by
  obtain ⟨hfaults, hcodes⟩ := foldl_tick_faults es {}
  have hempty : Entries.Ordered ([] : List (Bytes × Nat)) := List.Pairwise.nil
  obtain ⟨hsum, hentry⟩ := tallied hempty (es.filterMap Event.faultCode?)
  rw [Counts.of, hfaults, hcodes]
  refine ⟨Nat.zero_add _, hsum, fun code => ?_⟩
  rw [hentry code]
  exact Nat.zero_add _

end Trace

/-- How many of some texts a sink takes if they are offered one after the other. -/
def Sink.accepted (s : Sink) : List Bytes → Nat
  | [] => 0
  | text :: rest => (if (s.write text).1 = none then 1 else 0) + (s.write text).2.accepted rest

section Depth

variable (store : Store)

/-- Evaluation opens no scope and leaves none. -/
theorem length_enclosing_evaluate (e : Expr) :
    (Act.apply store (.evaluate e)).1.enclosing.length = store.1.enclosing.length :=
  (e.eval_grows (List.Subset.refl _) store.1).enclosing.length_eq.symm

theorem length_enclosing_leave (h : store.1.enclosing ≠ []) :
    (Act.apply store .leave).1.enclosing.length + 1 = store.1.enclosing.length := by
  obtain ⟨⟨current, enclosing⟩, sink⟩ := store
  cases enclosing with
  | nil => exact absurd rfl h
  | cons outer rest => rfl

end Depth

namespace Trace

theorem tick_of_not_brace {e : Event} (he : e.brace? = none) (c : Counts) :
    (c.tick e).depth = c.depth ∧ (c.tick e).maxDepth = c.maxDepth := by
  cases e with
  | blockEnter _ | blockExit _ => cases he
  | _ => exact ⟨rfl, rfl⟩

theorem not_brace_of_aside {e : Event} (he : e.name ∈ ["run_start", "stmt_end", "runtime_error"]) :
    e.brace? = none := by
  cases e with
  | blockEnter _ | blockExit _ => simp [Event.name] at he
  | _ => rfl

/-- From a count on, the depth is a natural number before every event and zero before the end of a
run. -/
def Level (c : Counts) (es : List Event) : Prop :=
  ∀ k, ∃ n : Nat, ((es.take k).foldl Counts.tick c).depth = n ∧ (es[k]? = some .runEnd → n = 0)

theorem Level.nil {c : Counts} {n : Nat} (hc : c.depth = n) : Level c [] := by
  intro k
  rw [List.take_nil]
  exact ⟨n, hc, nofun⟩

theorem Level.cons {c : Counts} {e : Event} {es : List Event} {n : Nat} (hc : c.depth = n)
    (hend : e = .runEnd → n = 0) (h : Level (c.tick e) es) : Level c (e :: es) := by
  intro k
  cases k with
  | zero => exact ⟨n, hc, fun he => hend (Option.some.inj he)⟩
  | succ k => exact h k

namespace Tells

variable {store : Store} {acts : List Act} {es : List Event}

/-- Every beginning of a statement is counted, and every text that the sink takes. -/
theorem counts (h : Tells store acts es) (c : Counts) :
    (es.foldl Counts.tick c).statements = c.statements + acts.countP Act.isBegin ∧
      (es.foldl Counts.tick c).prints =
        c.prints + store.2.accepted (acts.filterMap Act.text?) := by
  induction h generalizing c with
  | none => exact ⟨rfl, rfl⟩
  | @aside _ _ _ e he _ ih =>
    cases e with
    | runStart | stmtEnd _ | runtimeError _ _ _ => exact ih _
    | _ => simp [Event.name] at he
  | runEnd _ _ ih => exact ih _
  | begin s _ ih =>
    obtain ⟨hstatements, hprints⟩ := ih (c.tick (.stmtStart s.line s.kind))
    refine ⟨?_, hprints⟩
    rw [List.foldl_cons, hstatements, List.countP_cons_of_pos rfl]
    exact Nat.succ_add_eq_add_succ _ _
  | evaluate _ _ ih | define _ _ _ ih => exact ih c
  | @refused store acts es text hwrite _ ih =>
    obtain ⟨hstatements, hprints⟩ := ih c
    refine ⟨hstatements, ?_⟩
    rw [hprints, List.filterMap_cons_some (f := Act.text?) (b := text) rfl, Sink.accepted,
      if_neg hwrite, Nat.zero_add]
    rfl
  | @taken store acts es text line value json hwrite _ ih =>
    obtain ⟨hstatements, hprints⟩ := ih (c.tick (.print line value json))
    refine ⟨hstatements, ?_⟩
    rw [List.foldl_cons, hprints, List.filterMap_cons_some (f := Act.text?) (b := text) rfl,
      Sink.accepted, if_pos hwrite, ← Nat.add_assoc]
    rfl
  | enter _ _ ih | leave _ _ _ ih => exact ih _

/-- The depth is at every event the number of scopes around the current one, and there are none at
the end of a run. -/
theorem level (h : Tells store acts es) {c : Counts}
    (hdepth : c.depth = store.1.enclosing.length) : Level c es := by
  induction h generalizing c with
  | none => exact .nil hdepth
  | aside he _ ih =>
    refine .cons hdepth ?_ (ih ((tick_of_not_brace (not_brace_of_aside he) c).1.trans hdepth))
    rintro rfl
    simp [Event.name] at he
  | runEnd hglobal _ ih =>
    rw [hglobal] at hdepth
    exact .cons hdepth (fun _ => rfl) (ih (by rw [hglobal]; exact hdepth))
  | begin _ _ ih | taken _ _ _ _ _ ih =>
    refine .cons hdepth ?_ (ih hdepth)
    rintro ⟨⟩
  | evaluate e _ ih => exact ih (by rw [length_enclosing_evaluate, hdepth])
  | define _ _ _ ih | refused _ _ ih => exact ih hdepth
  | @enter store _ _ line _ ih =>
    have hinner : (c.tick (.blockEnter line)).depth = (store.1.enclosing.length + 1 : Nat) := by
      change c.depth + 1 = _
      rw [hdepth, Nat.cast_succ]
    refine .cons hdepth ?_ (ih hinner)
    rintro ⟨⟩
  | @leave store _ _ line hinside _ ih =>
    have hlength := length_enclosing_leave store hinside
    have houter : (c.tick (.blockExit line)).depth =
        (Act.apply store .leave).1.enclosing.length := by
      change c.depth - 1 = _
      omega
    refine .cons hdepth ?_ (ih houter)
    rintro ⟨⟩

end Tells

/-- What the greatest depth counted so far becomes over some moments: it bounds their depths, and is
one of them unless it is what it was. -/
structure Peak (stores : List Store) (old new : Int) : Prop where
  grows : old ≤ new
  bounds : ∀ store ∈ stores, (store.1.enclosing.length : Int) ≤ new
  reached : new = old ∨ ∃ store ∈ stores, new = store.1.enclosing.length

namespace Peak

variable {stores : List Store} {store : Store} {old new : Int}

theorem single (h : (store.1.enclosing.length : Int) ≤ old) : Peak [store] old old :=
  ⟨le_rfl, by simpa using h, Or.inl rfl⟩

/-- A moment that is no deeper than what was counted. -/
theorem shallow (h : Peak stores old new) (hstore : (store.1.enclosing.length : Int) ≤ old) :
    Peak (store :: stores) old new := by
  refine ⟨h.grows, ?_, ?_⟩
  · intro s hs
    rcases List.mem_cons.1 hs with rfl | hs
    · exact hstore.trans h.grows
    · exact h.bounds s hs
  · rcases h.reached with hsame | ⟨s, hs, hnew⟩
    · exact Or.inl hsame
    · exact Or.inr ⟨s, List.mem_cons_of_mem _ hs, hnew⟩

/-- A depth that is counted when it is reached. -/
theorem deepen {depth : Int} (h : Peak stores (max old depth) new)
    (hdepth : ∃ store ∈ stores, depth = store.1.enclosing.length) : Peak stores old new := by
  refine ⟨(le_max_left _ _).trans h.grows, h.bounds, ?_⟩
  rcases h.reached with hsame | hnew
  · rcases max_choice old depth with hold | hdeep
    · exact Or.inl (hsame.trans hold)
    · rw [hsame, hdeep]
      exact Or.inr hdepth
  · exact Or.inr hnew

end Peak

theorem moments_cons (store : Store) (a : Act) (acts : List Act) :
    moments store (a :: acts) = store :: moments (Act.apply store a) acts :=
  List.scanl_cons

theorem first_mem_moments (store : Store) (acts : List Act) : store ∈ moments store acts := by
  cases acts with
  | nil => exact List.mem_singleton.2 rfl
  | cons a acts =>
    rw [moments_cons]
    exact List.mem_cons_self

/-- The greatest depth counted is the greatest number of scopes there ever are around the current
one. -/
theorem Tells.peak {store : Store} {acts : List Act} {es : List Event} (h : Tells store acts es)
    {c : Counts} (hdepth : c.depth = store.1.enclosing.length) (hmax : c.depth ≤ c.maxDepth) :
    Peak (moments store acts) c.maxDepth (es.foldl Counts.tick c).maxDepth := by
  induction h generalizing c with
  | none => exact .single (hdepth ▸ hmax)
  | @aside _ _ _ e he _ ih =>
    obtain ⟨hd, hm⟩ := tick_of_not_brace (not_brace_of_aside he) c
    rw [List.foldl_cons, ← hm]
    exact ih (hd.trans hdepth) (by rw [hd, hm]; exact hmax)
  | runEnd _ _ ih => exact ih (c := c.tick .runEnd) hdepth hmax
  | begin s _ ih =>
    rw [moments_cons]
    exact (ih (c := c.tick (.stmtStart s.line s.kind)) hdepth hmax).shallow (hdepth ▸ hmax)
  | taken line value json _ _ ih =>
    rw [moments_cons]
    exact (ih (c := c.tick (.print line value json)) hdepth hmax).shallow (hdepth ▸ hmax)
  | @evaluate store _ _ e _ ih =>
    have hlength := length_enclosing_evaluate store e
    rw [moments_cons]
    exact (ih (by rw [hlength, hdepth]) hmax).shallow (hdepth ▸ hmax)
  | define _ _ _ ih | refused _ _ ih =>
    rw [moments_cons]
    exact (ih hdepth hmax).shallow (hdepth ▸ hmax)
  | @enter store acts _ line _ ih =>
    have hdeeper : c.depth + 1 = ((Act.apply store .enter).1.enclosing.length : Int) := by
      rw [hdepth]
      exact (Nat.cast_succ _).symm
    have hinner := ih (c := c.tick (.blockEnter line)) hdeeper (le_max_right _ _)
    rw [moments_cons]
    exact (hinner.deepen ⟨_, first_mem_moments _ acts, hdeeper⟩).shallow (hdepth ▸ hmax)
  | @leave store _ _ line hinside _ ih =>
    have hlength := length_enclosing_leave store hinside
    have houter : c.depth - 1 = ((Act.apply store .leave).1.enclosing.length : Int) := by omega
    have hless : c.depth - 1 ≤ c.maxDepth := (Int.sub_le_self _ (by decide)).trans hmax
    rw [moments_cons]
    exact (ih (c := c.tick (.blockExit line)) houter hless).shallow (hdepth ▸ hmax)

end Trace

namespace Machine.Does

variable {m n : Machine} {acts : List Act} {halt : Option Halt} {r : Option Halt × Machine}

theorem afterAside {e : Event} (h : (m.emit e).Does acts r)
    (he : e.name ∈ ["run_start", "stmt_end", "runtime_error"]) : m.Does acts r := by
  obtain ⟨es, hevents, htells, hreplay⟩ := h
  refine ⟨e :: es, ?_, .aside he htells, hreplay⟩
  rw [hevents, emit, Array.toList_push, List.append_assoc]
  rfl

theorem runEnd (h : m.Does acts (halt, n)) (hglobal : n.scopes.enclosing = []) :
    m.Does acts (halt, n.emit .runEnd) := by
  obtain ⟨es, hevents, htells, hreplay⟩ := h
  refine ⟨es ++ [.runEnd], ?_, ?_, hreplay⟩
  · rw [← List.append_assoc, ← hevents]
    exact Array.toList_push
  · have hend : Tells (replay m.store acts) [] [.runEnd] :=
      .runEnd (by rw [hreplay]; exact hglobal) .none
    simpa using htells.append hend

theorem ended {r : Option Halt × Machine} (h : m.Does acts r) (hglobal : r.2.scopes.enclosing = []) :
    m.Does acts (r.1, r.2.ended r.1) := by
  rw [Machine.ended]
  split
  · exact (h.aside (by simp [Event.name])).runEnd hglobal
  · exact h.runEnd hglobal

end Machine.Does

/-- A run from the globals does what its program does, and ends in the globals. -/
theorem Machine.run_does (m : Machine) (hglobal : m.scopes.enclosing = []) (program : List Stmt) :
    m.Does (actsOf program (m.emit .runStart)) (m.run program) ∧
      (m.run program).2.scopes.enclosing = [] := by
  have hdoes := execAll_does program (m.emit .runStart)
  have hgrows := execAll_grows program (List.Subset.refl _) (List.Subset.refl _) (m.emit .runStart)
  have hend : (execAll program (m.emit .runStart)).2.scopes.enclosing = [] := by
    have hlength := hgrows.enclosing.length_eq
    rw [emit, hglobal] at hlength
    exact List.length_eq_zero_iff.1 hlength.symm
  have hbody : m.Does (actsOf program (m.emit .runStart)) (execAll program (m.emit .runStart)) :=
    hdoes.afterAside (by simp [Event.name])
  exact ⟨hbody.ended hend, by rw [run, scopes_ended, hend]⟩

namespace Engine

def results (m : Machine) : List Bytes → List (Except Failure Nat)
  | [] => []
  | source :: rest => (run m source).1 :: results (run m source).2 rest

def acts (m : Machine) : List Bytes → List Act
  | [] => []
  | source :: rest => (match compile source with
    | .error _ => []
    | .ok program => actsOf program (m.emit .runStart)) ++ acts (run m source).2 rest

theorem run_does {m : Machine} (hglobal : m.scopes.enclosing = []) (source : Bytes) :
    m.Does (match compile source with
      | .error _ => []
      | .ok program => actsOf program (m.emit .runStart)) (none, (run m source).2) ∧
      (run m source).2.scopes.enclosing = [] := by
  rw [run]
  rcases compile source with failure | program
  · exact ⟨.nothing none m, hglobal⟩
  · obtain ⟨hdoes, hend⟩ := m.run_does hglobal program
    dsimp only
    generalize m.run program = r at hdoes hend
    obtain ⟨_ | halt, n⟩ := r <;> exact ⟨hdoes, hend⟩

theorem after_does {m : Machine} (hglobal : m.scopes.enclosing = []) (sources : List Bytes) :
    m.Does (acts m sources) (none, after m sources) := by
  induction sources generalizing m with
  | nil => exact .nothing none m
  | cons source rest ih =>
    obtain ⟨hfirst, hend⟩ := run_does hglobal source
    exact hfirst.append (ih hend)

/-- The code of the fault that a source ended with, be it that of a sink. -/
def faultCode? : Except Failure Nat → Option Bytes
  | .error failure => failure.fault?.map (·.cause.code.name)
  | .ok _ => none

/-- A run reports the fault that it ends with and no other. -/
theorem faultCodes_run (m : Machine) (source : Bytes) :
    (run m source).2.events.toList.filterMap Event.faultCode? =
      m.events.toList.filterMap Event.faultCode? ++ (faultCode? (run m source).1).toList := by
  by_cases hclean : check source = []
  · obtain ⟨hafter, hresult⟩ := run_result hclean m
    obtain ⟨body, hnested, hevents, -, -⟩ := m.run_traces (Parsed.ofSource source).statements
    have hbody : body.filterMap Event.faultCode? = [] := by
      rw [List.filterMap_eq_nil_iff]
      intro e he
      have hname := hnested.inside e he
      cases e with
      | runtimeError _ _ _ => simp [Event.name] at hname
      | _ => rfl
    rw [hafter, hresult, hevents, List.filterMap_append, List.filterMap_append,
      List.filterMap_append, List.filterMap_cons_none rfl, hbody]
    congr 1
    rcases (m.run (Parsed.ofSource source).statements).1 with _ | halt
    · rfl
    · rw [faultOf, Option.bind_some, Halt.fault?, faultCode?]
      rcases (Failure.ofHalt halt).fault? with _ | f <;> rfl
  · rw [run, compile_of_faulty hclean]
    exact (List.append_nil _).symm

theorem faultCodes_after (m : Machine) (sources : List Bytes) :
    (after m sources).events.toList.filterMap Event.faultCode? =
      m.events.toList.filterMap Event.faultCode? ++ (results m sources).filterMap faultCode? := by
  induction sources generalizing m with
  | nil => exact (List.append_nil _).symm
  | cons source rest ih =>
    refine (ih (run m source).2).trans ?_
    rw [faultCodes_run, List.append_assoc, results]
    congr 1
    cases h : faultCode? (run m source).1 with
    | none => rw [List.filterMap_cons_none h]; rfl
    | some code => rw [List.filterMap_cons_some h]; rfl

end Engine

namespace Trace

/-- The records of some events, each with a time of its own. -/
def recordsOf (time : Nat → Bytes) (run : Bytes) (es : List Event) : List Record :=
  es.mapIdx fun i e => Record.ofEvent (time i) run e

theorem recordsOf_cons (time : Nat → Bytes) (run : Bytes) (e : Event) (es : List Event) :
    recordsOf time run (e :: es) =
      Record.ofEvent (time 0) run e :: recordsOf (fun i => time (i + 1)) run es :=
  List.mapIdx_cons

theorem take_recordsOf (time : Nat → Bytes) (run : Bytes) (es : List Event) (k : Nat) :
    (recordsOf time run es).take k = recordsOf time run (es.take k) := by
  induction es generalizing time k with
  | nil => simp [recordsOf]
  | cons e es ih =>
    cases k with
    | zero => rfl
    | succ k => rw [recordsOf_cons, List.take_succ_cons, List.take_succ_cons, recordsOf_cons, ih]

theorem reports_recordsOf (time : Nat → Bytes) (run : Bytes) (es : List Event) :
    List.Forall₂ Record.Reports (recordsOf time run es) es := by
  induction es generalizing time with
  | nil => exact .nil
  | cons e es ih =>
    rw [recordsOf_cons]
    exact .cons (Record.reports_ofEvent _ _ e) (ih fun i => time (i + 1))

end Trace

/-- A summary counts what happened, whatever the sources and the sink. There is an account of what
the runs did whose replay leaves the scopes and the sink that the runs leave. The statements counted
are those begun in it, and the prints are the texts that the sink took. The greatest depth is the
greatest number of scopes around the current one at any moment. The faults are the runs that ended
with one, also within an error of the sink, each counted under its code. Before every record the
depth is at least zero, and at the end of a run it is zero. -/
theorem summary_counts_what_happened (sink : Sink) (sources : List Bytes) (time : Nat → Bytes)
    (run : Bytes) :
    let start : Machine := { sink := sink }
    let events := (Engine.after start sources).events.toList
    let records := recordsOf time run events
    let summary := Summary.ofRecords records
    let acts := Engine.acts start sources
    let results := Engine.results start sources
    replay start.store acts = (Engine.after start sources).store ∧
      summary.statements = acts.countP Act.isBegin ∧
      summary.prints = sink.accepted (acts.filterMap Act.text?) ∧
      IsGreatest
        {depth : Int | ∃ store ∈ moments start.store acts, depth = store.1.enclosing.length}
        summary.maxDepth ∧
      summary.faults = results.countP (fun r => (Engine.faultCode? r).isSome) ∧
      (summary.faultsByCode.map (·.2)).sum = summary.faults ∧
      (∀ code, (summary.faultsByCode.lookup code).getD 0 =
        results.countP fun r => Engine.faultCode? r = some code) ∧
      ∀ k, 0 ≤ (Summary.ofRecords (records.take k)).depth ∧
        (events[k]? = some .runEnd → (Summary.ofRecords (records.take (k + 1))).depth = 0) := by
  intro start events records summary acts results
  obtain ⟨es, hevents, htells, hreplay⟩ := Engine.after_does (m := start) rfl sources
  obtain rfl : events = es := hevents
  have hcounts (k : Nat) :
      (Summary.ofRecords (records.take k)).counts = Counts.of (events.take k) := by
    rw [take_recordsOf]
    exact counts_ofRecords (reports_recordsOf time run _)
  have hsummary : summary.counts = Counts.of events :=
    counts_ofRecords (reports_recordsOf time run _)
  have hcodes : events.filterMap Event.faultCode? = results.filterMap Engine.faultCode? :=
    Engine.faultCodes_after start sources
  have hmax : summary.maxDepth = (Counts.of events).maxDepth := congrArg Counts.maxDepth hsummary
  have hfault : summary.faults = (Counts.of events).faults := congrArg Counts.faults hsummary
  have hbyCode : summary.faultsByCode = (Counts.of events).faultsByCode :=
    congrArg Counts.faultsByCode hsummary
  obtain ⟨hstatements, hprints⟩ := htells.counts {}
  obtain ⟨hfaults, hsum, hentry⟩ := faults_of events
  have hpeak := htells.peak (c := {}) rfl le_rfl
  have hlevel := htells.level (c := {}) rfl
  refine ⟨hreplay, ?_, ?_, ⟨?_, ?_⟩, ?_, ?_, fun code => ?_, fun k => ⟨?_, fun hend => ?_⟩⟩
  · exact (congrArg Counts.statements hsummary).trans (hstatements.trans (Nat.zero_add _))
  · exact (congrArg Counts.prints hsummary).trans (hprints.trans (Nat.zero_add _))
  · rcases hpeak.reached with hzero | hdeep
    · exact ⟨start.store, first_mem_moments _ _, hmax.trans hzero⟩
    · rw [hmax]
      exact hdeep
  · rintro depth ⟨store, hstore, rfl⟩
    rw [hmax]
    exact hpeak.bounds store hstore
  · rw [hfault, hfaults, hcodes, List.length_filterMap_eq_countP]
  · rw [hbyCode, hsum, hfault]
  · rw [hbyCode]
    refine (hentry code).trans ?_
    simp [hcodes, List.count_filterMap, beq_eq_decide]
  · obtain ⟨n, hdepth, -⟩ := hlevel k
    have hzero : (Summary.ofRecords (records.take k)).depth = n :=
      (congrArg Counts.depth (hcounts k)).trans hdepth
    omega
  · obtain ⟨n, hdepth, hzero⟩ := hlevel k
    have htake : events.take (k + 1) = events.take k ++ [.runEnd] := by
      rw [List.take_add_one, hend]
      rfl
    have hkeeps : (Counts.of (events.take (k + 1))).depth = (Counts.of (events.take k)).depth := by
      rw [htake, Counts.depth_concat_runEnd]
    refine (congrArg Counts.depth (hcounts (k + 1))).trans (hkeeps.trans (hdepth.trans ?_))
    rw [hzero hend]
    rfl

end BlockScript
