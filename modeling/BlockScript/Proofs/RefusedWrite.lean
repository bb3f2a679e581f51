import BlockScript.Proofs.Acts
import BlockScript.Proofs.BlockTransparency

/-! A sink that refuses a write only cuts a run short. The run is compared with the same run on a
sink that takes everything. Up to the first refusal the two go in step; from there on the first one
only leaves the blocks it is in, while the second one goes on. -/

namespace BlockScript

open Trace

def Machine.unlimited (m : Machine) : Machine :=
  { m with sink := { m.sink with refusal := fun _ _ _ => none } }

mutual

/-- Run from the machine `m`, the statement gets to the machine `n`, on which it is about to write
the text. -/
def Stmt.Offers : Stmt → (m n : Machine) → (text : Bytes) → Prop
  | .absent, _, _, _ | .expression _, _, _, _ | .declare _ _, _, _, _ => False
  | .print e, m, n, text =>
    ∃ v, (m.begun (.print e)).eval e = (.ok v, n) ∧ text = v.text ++ [Bytes.lineFeed]
  | .block body, m, n, text => OffersIn body (m.inBlock (.block body)) n text
  | .ifElse condition onTrue onFalse, m, n, text =>
    ∃ v k, (m.begun (.ifElse condition onTrue onFalse)).eval condition = (.ok v, k) ∧
      ((v.truthy = true ∧ onTrue.Offers k n text) ∨ (¬ v.truthy = true ∧ onFalse.Offers k n text))

def OffersIn : List Stmt → (m n : Machine) → (text : Bytes) → Prop
  | [], _, _, _ => False
  | s :: rest, m, n, text =>
    s.Offers m n text ∨ ∃ k, s.exec m = (none, k) ∧ OffersIn rest k n text

end

namespace Sink

theorem offered_writeAll (s : Sink) (texts : List Bytes) :
    (s.writeAll texts).offered = texts.reverse ++ s.offered := by
  induction texts generalizing s with
  | nil => rfl
  | cons text rest ih =>
    have hfirst : (s.write text).2.offered = text :: s.offered := by
      rw [write]
      split <;> rfl
    rw [writeAll, List.foldl_cons, List.reverse_cons, List.append_assoc, List.singleton_append,
      ← hfirst]
    exact ih (s.write text).2

/-- Without refusals all texts are taken. -/
theorem taken_writeAll {s : Sink} (h : s.refusal = fun _ _ _ => none) (texts : List Bytes) :
    (s.writeAll texts).taken = s.taken ++ texts.flatten := by
  induction texts generalizing s with
  | nil => exact (List.append_nil _).symm
  | cons text rest ih =>
    have hfirst : (s.write text).2 =
        { s with offered := text :: s.offered, taken := s.taken ++ text } := by
      rw [write, h]
    rw [writeAll, List.foldl_cons, hfirst, List.flatten_cons, ← List.append_assoc]
    exact ih h

/-- A sink never takes more than it has room for. -/
theorem length_taken_limited (room : Nat) (texts : List Bytes) :
    ((limited room).writeAll texts).taken.length ≤ room := by
  have hboth := writeAll_induction (s := limited room)
    (P := fun s => s.refusal = (limited room).refusal ∧ s.taken.length ≤ room) texts
    ⟨rfl, Nat.zero_le room⟩ ?_
  · exact hboth.2
  · rintro s text ⟨hrefusal, hlength⟩
    rw [write]
    by_cases hfull : room < s.taken.length + text.length
    · have hreply : s.refusal s.offered s.taken text =
          some { message := Bytes.ofString "sink full" } := by
        rw [hrefusal]
        exact if_pos hfull
      rw [hreply]
      exact ⟨hrefusal, hlength⟩
    · have hreply : s.refusal s.offered s.taken text = none := by
        rw [hrefusal]
        exact if_neg hfull
      rw [hreply]
      refine ⟨hrefusal, ?_⟩
      rw [List.length_append]
      exact Nat.le_of_not_lt hfull

theorem written_of_fresh {s : Sink} {texts : List Bytes} (h : s = ({} : Sink).writeAll texts) :
    s.offered.reverse = texts ∧ s.taken = texts.flatten := by
  subst h
  constructor
  · rw [offered_writeAll]
    exact (congrArg List.reverse (List.append_nil _)).trans (List.reverse_reverse texts)
  · exact taken_writeAll rfl texts

end Sink

/-- On its way from `m` to `after` the run gets to `n`, and there it writes the text next. -/
structure Machine.Passes (m n : Machine) (text : Bytes) (after : Machine) : Prop where
  before : m.LeadsTo n
  events : n.events.toList <+: after.events.toList
  sink : ∃ texts, after.sink = n.sink.writeAll (text :: texts)

namespace Machine.Passes

variable {m n after : Machine} {text : Bytes}

theorem append {later : Machine} (h : m.Passes n text after) (k : after.LeadsTo later) :
    m.Passes n text later := by
  obtain ⟨texts, hafter⟩ := h.sink
  obtain ⟨more, hlater⟩ := k.sink
  refine ⟨h.before, h.events.trans k.events, texts ++ more, ?_⟩
  rw [hlater, hafter, ← Sink.writeAll_append, List.cons_append]

theorem prepend {k : Machine} (hk : k.LeadsTo m) (h : m.Passes n text after) :
    k.Passes n text after := ⟨hk.trans h.before, h.events, h.sink⟩

theorem print (n : Machine) (line : Int) (v : Value) :
    n.Passes n (v.text ++ [Bytes.lineFeed]) (n.print line v).2 := by
  refine ⟨.told (List.append_nil _).symm rfl, ?_, [], ?_⟩
  · exact (LeadsTo.ofDoes (.print n line v)).events
  · rw [Machine.print]
    rcases hwrite : n.sink.write (v.text ++ [Bytes.lineFeed]) with ⟨_ | reason, sink⟩
    · exact (congrArg Prod.snd hwrite).symm
    · exact (congrArg Prod.snd hwrite).symm

end Machine.Passes

theorem Machine.leadsTo_begun (m : Machine) (s : Stmt) : m.LeadsTo (m.begun s) :=
  .told Array.toList_push rfl

theorem Machine.leadsTo_eval {m k : Machine} {e : Expr} {v : Value} (h : m.eval e = (.ok v, k)) :
    m.LeadsTo k := by
  obtain rfl : (m.eval e).2 = k := congrArg Prod.snd h
  exact .told (List.append_nil _).symm rfl

mutual

theorem Stmt.passes_of_offers (s : Stmt) {m n : Machine} {text : Bytes} (h : s.Offers m n text) :
    m.Passes n text (s.exec m).2 := by
  cases s with
  | absent | expression e | declare name initial =>
    rw [Stmt.Offers] at h
    exact h.elim
  | print e =>
    rw [Stmt.Offers] at h
    obtain ⟨v, heval, rfl⟩ := h
    rw [Stmt.exec, Machine.withValue, heval]
    apply Machine.Passes.prepend ((m.leadsTo_begun (.print e)).trans (Machine.leadsTo_eval heval))
    exact (Machine.Passes.print n _ v).append (.finish _ _)
  | block body =>
    rw [Stmt.Offers] at h
    have hbody := passes_of_offersIn body h
    rw [Stmt.exec]
    refine Machine.Passes.append ?_ (.finish _ _)
    refine (Machine.Passes.prepend ?_ hbody).append ?_
    · exact (m.leadsTo_begun (.block body)).trans (.told Array.toList_push rfl)
    · exact .told Array.toList_push rfl
  | ifElse condition onTrue onFalse =>
    rw [Stmt.Offers] at h
    obtain ⟨v, k, heval, hbranch⟩ := h
    rw [Stmt.exec, Machine.withValue, heval]
    refine Machine.Passes.append ?_ (.finish _ _)
    apply Machine.Passes.prepend
      ((m.leadsTo_begun (.ifElse condition onTrue onFalse)).trans (Machine.leadsTo_eval heval))
    dsimp only
    rcases hbranch with ⟨htrue, h⟩ | ⟨hfalse, h⟩
    · rw [if_pos htrue]
      exact Stmt.passes_of_offers onTrue h
    · rw [if_neg hfalse]
      split
      · next habsent =>
        rw [Stmt.isAbsent_iff.1 habsent, Stmt.Offers] at h
        exact h.elim
      · exact Stmt.passes_of_offers onFalse h

theorem passes_of_offersIn (body : List Stmt) {m n : Machine} {text : Bytes}
    (h : OffersIn body m n text) : m.Passes n text (execAll body m).2 := by
  cases body with
  | nil =>
    rw [OffersIn] at h
    exact h.elim
  | cons s rest =>
    rw [OffersIn] at h
    rw [execAll]
    rcases h with h | ⟨k, hdone, h⟩
    · have hfirst := Stmt.passes_of_offers s h
      generalize s.exec m = r at hfirst
      obtain ⟨_ | halt, k⟩ := r
      · exact hfirst.append (.ofDoes (execAll_does rest k))
      · exact hfirst
    · have hfirst := Machine.LeadsTo.ofDoes (Stmt.exec_does s m)
      rw [hdone] at hfirst
      rw [hdone]
      exact (passes_of_offersIn rest h).prepend hfirst

end

theorem Scopes.leave_suffix (s : Scopes) : s.leave.toList <:+ s.toList := by
  obtain ⟨current, enclosing⟩ := s
  cases enclosing with
  | nil => exact List.suffix_refl _
  | cons outer rest => exact List.suffix_cons _ _

/-- Stopped by the refusal of the text on the machine `n`, the run has since left blocks only. -/
structure CutAt (n : Machine) (text : Bytes) (reason : Failure) (r : Option Halt × Machine) :
    Prop where
  refused : r.2.sink.refusal n.sink.offered n.sink.taken text = some reason
  halt : r.1 = some (.refused reason)
  taken : r.2.sink.taken = n.sink.taken
  events : ∃ exits, r.2.events.toList = n.events.toList ++ exits ∧
    ∀ e ∈ exits, e.name = "block_exit"
  scopes : r.2.scopes.toList <:+ n.scopes.toList

theorem CutAt.full {room : Nat} {n : Machine} {text : Bytes} {reason : Failure}
    {r : Option Halt × Machine} (h : CutAt n text reason r)
    (hsink : r.2.sink.refusal = (Sink.limited room).refusal) :
    room < n.sink.taken.length + text.length ∧
      { message := Bytes.ofString "sink full" } = reason := by
  have hrefused := h.refused
  rw [hsink] at hrefused
  exact (Option.ite_none_right_eq_some.1 hrefused).imp_right Option.some.inj

/-- A run and the same run on a sink that takes everything. They go in step to their ends, or the
first is cut short where the second offers a text. -/
inductive InStep (offers : Machine → Bytes → Prop) (r r' : Option Halt × Machine) : Prop
  | alike (h : r' = (r.1, r.2.unlimited))
  | cut {n text reason} (hoffers : offers n text) (h : CutAt n text reason r)

namespace InStep

variable {offers offers' : Machine → Bytes → Prop} {m : Machine} {r r' : Option Halt × Machine}

theorem imp (h : InStep offers r r') (hoffers : ∀ n text, offers n text → offers' n text) :
    InStep offers' r r' := by
  cases h with
  | alike h => exact .alike h
  | cut hcut h => exact .cut (hoffers _ _ hcut) h

theorem finish (h : InStep offers r r') (line : Int) :
    InStep offers (Stmt.finish line r) (Stmt.finish line r') := by
  obtain ⟨halt, n⟩ := r
  cases h with
  | alike h =>
    subst h
    cases halt <;> exact .alike rfl
  | cut hoffers h =>
    obtain rfl := h.halt
    exact .cut hoffers h

theorem print (m : Machine) (line : Int) (v : Value) :
    InStep (fun n text => n = m.unlimited ∧ text = v.text ++ [Bytes.lineFeed])
      (m.print line v) (m.unlimited.print line v) := by
  by_cases htakes : m.sink.refusal m.sink.offered m.sink.taken (v.text ++ [Bytes.lineFeed]) = none
  · have hprint : m.print line v = (none,
        { m with sink := { m.sink with
            offered := (v.text ++ [Bytes.lineFeed]) :: m.sink.offered
            taken := m.sink.taken ++ (v.text ++ [Bytes.lineFeed]) } }.emit
          (.print line v.text v.toJson.render)) := by
      rw [Machine.print, Sink.write, htakes]
    rw [hprint]
    exact alike rfl
  · obtain ⟨reason, hreason⟩ := Option.ne_none_iff_exists'.1 htakes
    have hprint : m.print line v = (some (.refused reason),
        { m with sink := { m.sink with
            offered := (v.text ++ [Bytes.lineFeed]) :: m.sink.offered } }) := by
      rw [Machine.print, Sink.write, hreason]
    rw [hprint]
    refine cut ⟨rfl, rfl⟩ ⟨hreason, rfl, rfl, ⟨[], ?_, ?_⟩, List.suffix_refl _⟩
    · exact (List.append_nil _).symm
    · exact List.forall_mem_nil _

/-- Evaluating does not ask the sink. -/
theorem withValue {e : Expr} {next next' : Value → Machine → Option Halt × Machine}
    (hnext : ∀ v n, m.eval e = (.ok v, n) → m.unlimited.eval e = (.ok v, n.unlimited) →
      InStep offers (next v n) (next' v n.unlimited)) :
    InStep offers (m.withValue e next) (m.unlimited.withValue e next') := by
  have hfree : m.unlimited.eval e = ((m.eval e).1, (m.eval e).2.unlimited) := rfl
  rw [Machine.withValue, Machine.withValue, hfree]
  rcases heval : m.eval e with ⟨halt | v, n⟩
  · exact .alike rfl
  · rw [heval] at hfree
    exact hnext v n heval hfree

/-- The scope of the block is left and its exit traced, also behind a refusal. -/
theorem leaveBlock (h : InStep offers r r') (line : Int) :
    InStep offers (Stmt.leaveBlock line r) (Stmt.leaveBlock line r') := by
  cases h with
  | alike h =>
    subst h
    exact .alike rfl
  | @cut n text reason hoffers h =>
    obtain ⟨exits, hevents, hexits⟩ := h.events
    refine .cut hoffers ⟨h.refused, h.halt, h.taken, ⟨exits ++ [.blockExit line], ?_, ?_⟩, ?_⟩
    · rw [← List.append_assoc, ← hevents]
      exact Array.toList_push
    · intro e he
      rcases List.mem_append.1 he with he | he
      · exact hexits e he
      · rw [List.mem_singleton.1 he]
        rfl
    · exact r.2.scopes.leave_suffix.trans h.scopes

end InStep

mutual

theorem Stmt.exec_inStep (s : Stmt) (m : Machine) :
    InStep (s.Offers m.unlimited) (s.exec m) (s.exec m.unlimited) := by
  cases s with
  | absent => exact .alike rfl
  | expression e =>
    rw [Stmt.exec, Stmt.exec]
    apply InStep.finish
    exact .withValue (m := m.begun (.expression e)) fun v n _ _ => .alike rfl
  | print e =>
    rw [Stmt.exec, Stmt.exec]
    apply InStep.finish
    apply InStep.withValue (m := m.begun (.print e))
    intro v n _ hfree
    apply (InStep.print n _ v).imp
    rintro _ _ ⟨rfl, rfl⟩
    rw [Stmt.Offers]
    exact ⟨v, hfree, rfl⟩
  | declare name initial =>
    rw [Stmt.exec, Stmt.exec]
    apply InStep.finish
    split
    · exact .alike rfl
    · exact .withValue (m := m.begun (.declare name initial)) fun v n _ _ => .alike rfl
  | block body =>
    have hbody := execAll_inStep body (m.inBlock (.block body))
    rw [Stmt.exec, Stmt.exec]
    apply InStep.finish
    apply (hbody.leaveBlock _).imp
    intro n text hoffers
    rw [Stmt.Offers]
    exact hoffers
  | ifElse condition onTrue onFalse =>
    rw [Stmt.exec, Stmt.exec]
    apply InStep.finish
    apply InStep.withValue (m := m.begun (.ifElse condition onTrue onFalse))
    intro v n _ hfree
    by_cases htrue : v.truthy = true
    · rw [if_pos htrue, if_pos htrue]
      apply (Stmt.exec_inStep onTrue n).imp
      intro k text hoffers
      rw [Stmt.Offers]
      exact ⟨v, n.unlimited, hfree, Or.inl ⟨htrue, hoffers⟩⟩
    · rw [if_neg htrue, if_neg htrue]
      split
      · exact .alike rfl
      · apply (Stmt.exec_inStep onFalse n).imp
        intro k text hoffers
        rw [Stmt.Offers]
        exact ⟨v, n.unlimited, hfree, Or.inr ⟨htrue, hoffers⟩⟩

theorem execAll_inStep (body : List Stmt) (m : Machine) :
    InStep (OffersIn body m.unlimited) (execAll body m) (execAll body m.unlimited) := by
  cases body with
  | nil =>
    rw [execAll, execAll]
    exact .alike rfl
  | cons s rest =>
    have hfirst := Stmt.exec_inStep s m
    rw [execAll, execAll]
    generalize hr : s.exec m = r at hfirst
    generalize hr' : s.exec m.unlimited = r' at hfirst
    obtain ⟨halt, n⟩ := r
    cases hfirst with
    | alike h =>
      subst h
      rcases halt with _ | halt
      · apply (execAll_inStep rest n).imp
        intro k text hoffers
        rw [OffersIn]
        exact Or.inr ⟨n.unlimited, hr', hoffers⟩
      · exact .alike rfl
    | cut hoffers h =>
      obtain rfl := h.halt
      refine .cut ?_ h
      rw [OffersIn]
      exact Or.inl hoffers

end

theorem length_scopes_execAll (program : List Stmt) (m : Machine) :
    (execAll program m).2.scopes.toList.length = m.scopes.toList.length := by
  have hgrows := execAll_grows program (List.Subset.refl _) (List.Subset.refl _) m
  exact congrArg Nat.succ hgrows.enclosing.length_eq.symm

theorem Machine.ended_unlimited (m : Machine) (halt : Option Halt) :
    m.unlimited.ended halt = (m.ended halt).unlimited := by
  unfold ended
  split <;> rfl

/-- The events around a program keep two runs in step. -/
theorem Machine.run_inStep (m : Machine) (program : List Stmt) :
    m.unlimited.run program = ((m.run program).1, (m.run program).2.unlimited) ∨
      ∃ n text reason, OffersIn program (m.unlimited.emit .runStart) n text ∧
        CutAt n text reason (execAll program (m.emit .runStart)) ∧
        m.run program = (some (.refused reason),
          (execAll program (m.emit .runStart)).2.ended (some (.refused reason))) := by
  have hbody := execAll_inStep program (m.emit .runStart)
  have hstart : m.unlimited.emit .runStart = (m.emit .runStart).unlimited := rfl
  rw [run, run, hstart]
  generalize execAll program (m.emit .runStart) = r at hbody
  generalize execAll program (m.emit .runStart).unlimited = r' at hbody
  obtain ⟨halt, n⟩ := r
  cases hbody with
  | alike h =>
    subst h
    left
    exact congrArg (Prod.mk halt) (n.ended_unlimited halt)
  | @cut k text reason hoffers h =>
    obtain rfl := h.halt
    exact Or.inr ⟨k, text, reason, hoffers, h, rfl⟩

/-- A sink with limited room only cuts a run short. What it takes are the first texts, each of them
whole, that the same program writes to a sink without limit. Either these are all texts, and the two
runs agree in everything; or the next text does not fit, and the first run ends with an error where
the other one is about to write that text, on the machine `n`. It then has the trace up to there and
behind it only the exits of the blocks that are left, and the globals are what they are in `n`. -/
theorem full_sink_only_cuts_run_short (program : List Stmt) (globals : Scopes) (room : Nat) :
    let free := Machine.run { scopes := globals } program
    let limited := Machine.run { scopes := globals, sink := .limited room } program
    ∃ written later, free.2.sink.offered.reverse = written ++ later ∧
      free.2.sink.taken = (written ++ later).flatten ∧
      limited.2.sink.taken = written.flatten ∧ written.flatten.length ≤ room ∧
      ((later = [] ∧ limited.1 = free.1 ∧ limited.2.sink.taken = free.2.sink.taken ∧
          limited.2.events = free.2.events ∧ limited.2.scopes = free.2.scopes) ∨
        ∃ text rest n halt, later = text :: rest ∧ room < written.flatten.length + text.length ∧
          OffersIn program (Machine.emit { scopes := globals } .runStart) n text ∧
          n.sink.offered.reverse = written ∧
          limited.1 = some halt ∧
          (Failure.ofHalt halt).message = Bytes.ofString "print: sink full" ∧
          (Failure.ofHalt halt).exitCode = 74 ∧
          n.events.toList <+: free.2.events.toList ∧
          (∃ exits, limited.2.events.toList = n.events.toList ++ exits ++ [.runEnd] ∧
            ∀ e ∈ exits, e.name = "block_exit") ∧
          limited.2.scopes.toList <:+ n.scopes.toList ∧
          limited.2.scopes.toList.length = globals.toList.length) := by
  intro free limited
  let start : Machine := { scopes := globals, sink := .limited room }
  have hfree : start.unlimited.run program = free := rfl
  obtain ⟨offered, hoffered⟩ := (start.leadsTo_run program).sink
  have hroom : limited.2.sink.taken.length ≤ room :=
    hoffered ▸ Sink.length_taken_limited room offered
  rcases start.run_inStep program with halike | ⟨n, text, reason, hoffers, hcut, hrun⟩
  · obtain ⟨texts, htexts⟩ := (start.unlimited.leadsTo_run program).sink
    rw [hfree] at htexts halike
    obtain ⟨hwritten, hall⟩ := Sink.written_of_fresh htexts
    have hsame : free.2 = limited.2.unlimited := congrArg Prod.snd halike
    have htaken : limited.2.sink.taken = free.2.sink.taken := by rw [hsame]; rfl
    refine ⟨texts, [], ?_, ?_, ?_, ?_, Or.inl ⟨rfl, ?_, htaken, ?_, ?_⟩⟩
    · rw [hwritten, List.append_nil]
    · rw [hall, List.append_nil]
    · rw [htaken, hall]
    · rw [← hall, ← htaken]
      exact hroom
    · rw [halike]
    · rw [hsame]
      rfl
    · rw [hsame]
      rfl
  -- The other run gets to `n` as well and goes on from there.
  · have hpasses : start.unlimited.Passes n text (start.unlimited.run program).2 :=
      ((passes_of_offersIn program hoffers).prepend start.unlimited.leadsTo_runStart).append
        (Machine.leadsTo_ended _ _)
    rw [hfree] at hpasses
    obtain ⟨written, hn⟩ := hpasses.before.sink
    obtain ⟨rest, hrest⟩ := hpasses.sink
    rw [hn, ← Sink.writeAll_append] at hrest
    obtain ⟨hnwritten, hntaken⟩ := Sink.written_of_fresh hn
    obtain ⟨hwritten, hall⟩ := Sink.written_of_fresh hrest
    obtain ⟨hfull, rfl⟩ := hcut.full (refusal_execAll program (start.emit .runStart))
    have hlimited : limited.2 = (execAll program (start.emit .runStart)).2.emit .runEnd :=
      congrArg Prod.snd hrun
    have htaken : limited.2.sink.taken = written.flatten := by
      rw [← hntaken, ← hcut.taken, hlimited]
      rfl
    rw [hntaken] at hfull
    obtain ⟨exits, hevents, hexits⟩ := hcut.events
    refine ⟨written, text :: rest, hwritten, hall, htaken, htaken ▸ hroom, Or.inr
      ⟨text, rest, n, _, rfl, hfull, hoffers, hnwritten, congrArg Prod.fst hrun, rfl, rfl,
        hpasses.events, ⟨exits, ?_, hexits⟩, ?_, ?_⟩⟩
    · rw [hlimited, ← hevents]
      exact Array.toList_push
    · rw [hlimited]
      exact hcut.scopes
    · rw [hlimited]
      exact length_scopes_execAll program (start.emit .runStart)

/-- The second text does not fit. The block has already changed the global `a` by then, and its exit
is traced behind the refusal; the last statement is not reached. -/
example :
    let a : Token := ⟨.identifier, Bytes.ofString "a", 1, .null⟩
    let program : List Stmt := [.print (.name a),
      .block [.expression (.assign a (.literal (.bool true))), .print (.name a)],
      .expression (.assign a (.literal .null))]
    let globals : Scope := { bindings := [(Bytes.ofString "a", .bool false)] }
    let m : Machine := { scopes := ⟨globals, []⟩, sink := .limited 10 }
    (m.run program).2.scopes.current.bindings = [(Bytes.ofString "a", .bool true)] ∧
      (m.run program).2.sink.taken = Bytes.ofString "false" ++ [Bytes.lineFeed] ∧
      ((m.run program).2.events.toList.drop 6).map Event.name =
        ["stmt_start", "stmt_end", "stmt_start", "block_exit", "run_end"] := by
  decide +kernel

end BlockScript
