import BlockScript.Repl
import BlockScript.Proofs.Acts
import BlockScript.Proofs.LineEnds

/-! A session against a single run. Commands and inputs with diagnostics leave the machine alone,
and what a run does depends on the variables and the sink only. So the programs of a session do one
after the other what one source with all of them does. -/

namespace BlockScript

open Token Grammar

/-- The same variables and the same sink, whatever was traced. -/
structure Machine.Same (m n : Machine) : Prop where
  scopes : m.scopes = n.scopes
  sink : m.sink = n.sink

theorem Machine.Same.refl (m : Machine) : m.Same m := ⟨rfl, rfl⟩

theorem Machine.Same.symm {m n : Machine} (h : m.Same n) : n.Same m := ⟨h.scopes.symm, h.sink.symm⟩

theorem observed_eq_iff {r r' : Option Halt × Machine} :
    observed r = observed r' ↔ r.1.map Halt.bare = r'.1.map Halt.bare ∧ r.2.Same r'.2 := by
  constructor
  · intro h
    obtain ⟨hhalt, hrest⟩ := Prod.mk.inj h
    obtain ⟨hscopes, hsink⟩ := Prod.mk.inj hrest
    exact ⟨hhalt, hscopes, hsink⟩
  · rintro ⟨hhalt, hscopes, hsink⟩
    unfold observed
    rw [hhalt, hscopes, hsink]

section Runs

variable {p q : List Stmt} {m n : Machine}

theorem wellFormed_append (hp : WellFormed p) (hq : WellFormed q) : WellFormed (p ++ q) := by
  induction p with
  | nil => exact hq
  | cons s rest ih =>
    cases hp with
    | more hs hb => exact .more hs (ih hb)

theorem observed_execAll_congr (hp : WellFormed p) (hmn : m.Same n) :
    observed (execAll p m) = observed (execAll p n) := by
  obtain ⟨scopes, sink, events⟩ := m
  obtain ⟨rfl, rfl⟩ := hmn
  have hlike : Machine.Like (n.scopes.toList.map fun _ => false) ⟨n.scopes, n.sink, events⟩ n :=
    ⟨.refl n.scopes.toList, rfl⟩
  rw [← observed_execAll_canonical hp]
  exact (hp.sameRun ⟨_, rfl⟩ hlike).observed_eq (by simp)

theorem execAll_append (p q : List Stmt) (m : Machine) :
    execAll (p ++ q) m = match execAll p m with
      | (some halt, m) => (some halt, m)
      | (none, m) => execAll q m := by
  induction p generalizing m with
  | nil => rw [List.nil_append, execAll]
  | cons s rest ih =>
    rw [List.cons_append, execAll, execAll]
    rcases s.exec m with ⟨_ | halt, n⟩
    · exact ih n
    · rfl

theorem observed_append_of_done (hq : WellFormed q)
    (h : observed (execAll p m) = observed (none, n)) :
    observed (execAll (p ++ q) m) = observed (execAll q n) := by
  rw [execAll_append]
  rcases hrun : execAll p m with ⟨_ | halt, k⟩
  · rw [hrun] at h
    exact observed_execAll_congr hq (observed_eq_iff.1 h).2
  · rw [hrun] at h
    cases (observed_eq_iff.1 h).1

theorem observed_append_of_halt {halt : Halt}
    (h : observed (execAll p m) = observed (some halt, n)) :
    observed (execAll (p ++ q) m) = observed (some halt, n) := by
  rw [execAll_append]
  rcases hrun : execAll p m with ⟨_ | halt, k⟩
  · rw [hrun] at h
    cases (observed_eq_iff.1 h).1
  · rwa [hrun] at h

end Runs

/-- A source without diagnostics does what its statements do. -/
theorem Engine.run_observed {source : Bytes} (h : check source = []) {m n : Machine}
    (hmn : m.Same n) : ∃ halt after,
      observed (execAll (Parsed.ofSource source).statements n) = observed (halt, after) ∧
        run m source = (match halt with
          | some halt => .error (.ofHalt halt)
          | none => .ok (Parsed.ofSource source).statements.length, after) := by
  have hstart : Machine.Same n (m.emit .runStart) := ⟨hmn.scopes.symm, hmn.sink.symm⟩
  have hobserved := observed_run m (Parsed.ofSource source).statements
  rw [← observed_execAll_congr (wellFormed_ofSource h) hstart] at hobserved
  rw [run_of_clean h]
  generalize m.run (Parsed.ofSource source).statements = r at hobserved
  obtain ⟨_ | halt, after⟩ := r
  · exact ⟨none, after, hobserved.symm, rfl⟩
  · exact ⟨some halt, after, hobserved.symm, rfl⟩

theorem canonicalOf_eq_map (program : List Stmt) :
    canonicalOf program = program.map Stmt.canonical := by
  induction program with
  | nil => rfl
  | cons s rest ih => exact congrArg (s.canonical :: ·) ih

/-- What has been printed stays printed. -/
theorem Engine.run_extends (m : Machine) (source : Bytes) :
    m.sink.taken <+: (run m source).2.sink.taken := by
  unfold run
  cases compile source with
  | error failure => exact List.prefix_refl _
  | ok program =>
    obtain ⟨texts, htexts⟩ := (m.leadsTo_run program).sink
    have htaken := m.sink.taken_prefix_writeAll texts
    rw [← htexts] at htaken
    dsimp only
    generalize m.run program = r at htaken
    obtain ⟨_ | halt, after⟩ := r <;> exact htaken

namespace Session

/-- The inputs that run: no commands, and without diagnostics. -/
def isProgram (input : Bytes) : Bool :=
  (Text.trim input).head? ≠ some 58 && (Engine.check input).isEmpty

def programs (inputs : List Bytes) : List Bytes := inputs.filter isProgram

def final (pretty : Bool) (m : Machine) (inputs : List Bytes) : Machine :=
  inputs.foldl (fun m input => (handle pretty m input).2) m

def results (pretty : Bool) (m : Machine) : List Bytes → List (Except Failure Nat)
  | [] => []
  | input :: rest =>
    (if isProgram input then [(Engine.run m input).1] else []) ++
      results pretty (handle pretty m input).2 rest

def printed (pretty : Bool) (m : Machine) : List Bytes → Bytes
  | [] => []
  | input :: rest =>
    (if isProgram input then (handle pretty m input).1.out else []) ++
      printed pretty (handle pretty m input).2 rest

def statements (inputs : List Bytes) : List Stmt :=
  (programs inputs).flatMap fun source => (Parsed.ofSource source).statements

variable {pretty : Bool} {m n : Machine} {input : Bytes} {inputs : List Bytes}

theorem isProgram_iff : isProgram input = true ↔
    (Text.trim input).head? ≠ some 58 ∧ Engine.check input = [] := by
  simp [isProgram]

theorem handle_program (pretty : Bool) (m : Machine) (h : isProgram input = true) :
    (handle pretty m input).2 = (Engine.run m input).2 ∧
      (handle pretty m input).1.out = printedSince m (Engine.run m input).2 := by
  unfold handle
  rw [if_neg (isProgram_iff.1 h).1]
  rcases Engine.run m input with ⟨_ | count, after⟩ <;> exact ⟨rfl, rfl⟩

/-- Commands and inputs with diagnostics change nothing. -/
theorem handle_other (h : ¬ isProgram input = true) : (handle pretty m input).2 = m := by
  unfold handle
  by_cases hcommand : (Text.trim input).head? = some 58
  · rw [if_pos hcommand]
  · have hfaulty : Engine.check input ≠ [] := fun hclean => h (isProgram_iff.2 ⟨hcommand, hclean⟩)
    rw [if_neg hcommand, Engine.run, Engine.compile_of_faulty hfaulty]

theorem results_program (h : isProgram input = true) : results pretty m (input :: inputs) =
    (Engine.run m input).1 :: results pretty (Engine.run m input).2 inputs := by
  rw [results, if_pos h, (handle_program pretty m h).1]
  rfl

theorem results_other (h : ¬ isProgram input = true) :
    results pretty m (input :: inputs) = results pretty m inputs := by
  rw [results, if_neg h, handle_other h]
  rfl

theorem final_program (h : isProgram input = true) :
    final pretty m (input :: inputs) = final pretty (Engine.run m input).2 inputs := by
  rw [final, List.foldl_cons, (handle_program pretty m h).1]
  rfl

theorem final_other (h : ¬ isProgram input = true) :
    final pretty m (input :: inputs) = final pretty m inputs := by
  rw [final, List.foldl_cons, handle_other h]
  rfl

theorem statements_program (h : isProgram input = true) :
    statements (input :: inputs) = (Parsed.ofSource input).statements ++ statements inputs := by
  rw [statements, programs, List.filter_cons_of_pos h, List.flatMap_cons]
  rfl

theorem statements_other (h : ¬ isProgram input = true) :
    statements (input :: inputs) = statements inputs := by
  rw [statements, programs, List.filter_cons_of_neg h]
  rfl

theorem wellFormed_statements (inputs : List Bytes) : WellFormed (statements inputs) := by
  induction inputs with
  | nil => exact .none
  | cons input rest ih =>
    by_cases h : isProgram input = true
    · rw [statements_program h]
      exact wellFormed_append (wellFormed_ofSource (isProgram_iff.1 h).2) ih
    · rwa [statements_other h]

/-- Without a failure all statements run one after the other. -/
theorem observed_of_ok {counts : List Nat} (hmn : m.Same n)
    (h : results pretty m inputs = counts.map .ok) :
    observed (execAll (statements inputs) n) = observed (none, final pretty m inputs) ∧
      (statements inputs).length = counts.sum := by
  induction inputs generalizing m n counts with
  | nil =>
    obtain rfl := List.map_eq_nil_iff.1 h.symm
    rw [show statements [] = [] from rfl, execAll]
    exact ⟨observed_eq_iff.2 ⟨rfl, hmn.symm⟩, rfl⟩
  | cons input rest ih =>
    by_cases hinput : isProgram input = true
    · rw [results_program hinput] at h
      rw [statements_program hinput, final_program hinput]
      obtain ⟨halt, after, hobserved, hrun⟩ := Engine.run_observed (isProgram_iff.1 hinput).2 hmn
      obtain ⟨count, others, rfl, hcount, hothers⟩ := List.map_eq_cons_iff.1 h.symm
      rw [hrun] at hcount hothers ⊢
      cases halt with
      | some halt => cases hcount
      | none =>
        obtain ⟨hrest, hlength⟩ := ih (.refl after) hothers.symm
        obtain rfl := Except.ok.inj hcount
        refine ⟨?_, by rw [List.length_append, hlength, List.sum_cons]⟩
        rw [observed_append_of_done (wellFormed_statements rest) hobserved]
        exact hrest
    · rw [results_other hinput] at h
      rw [statements_other hinput, final_other hinput]
      exact ih hmn h

/-- After a failure of the last program nothing more is done. -/
theorem observed_of_error {counts : List Nat} {failure : Failure} (hmn : m.Same n)
    (h : results pretty m inputs = counts.map .ok ++ [.error failure]) :
    ∃ halt, failure = .ofHalt halt ∧
      observed (execAll (statements inputs) n) = observed (some halt, final pretty m inputs) := by
  induction inputs generalizing m n counts with
  | nil => cases counts <;> cases h
  | cons input rest ih =>
    by_cases hinput : isProgram input = true
    · rw [results_program hinput] at h
      rw [statements_program hinput, final_program hinput]
      obtain ⟨halt, after, hobserved, hrun⟩ := Engine.run_observed (isProgram_iff.1 hinput).2 hmn
      rw [hrun] at h ⊢
      cases counts with
      | nil =>
        obtain ⟨hfailure, hnone⟩ := List.cons.inj h
        cases halt with
        | none => cases hfailure
        | some halt =>
          have hquiet : results pretty after rest = ([] : List Nat).map .ok := hnone
          obtain ⟨hrest, hlength⟩ := observed_of_ok (.refl after) hquiet
          rw [List.length_eq_zero_iff.1 hlength, execAll] at hrest
          refine ⟨halt, (Except.error.inj hfailure).symm, ?_⟩
          rw [observed_append_of_halt hobserved]
          exact observed_eq_iff.2 ⟨rfl, (observed_eq_iff.1 hrest).2⟩
      | cons count others =>
        obtain ⟨hcount, hothers⟩ := List.cons.inj h
        cases halt with
        | some halt => cases hcount
        | none =>
          obtain ⟨last, hlast, hrest⟩ := ih (.refl after) hothers
          refine ⟨last, hlast, ?_⟩
          rw [observed_append_of_done (wellFormed_statements rest) hobserved]
          exact hrest
    · rw [results_other hinput] at h
      rw [statements_other hinput, final_other hinput]
      exact ih hmn h

theorem taken_final (pretty : Bool) (m : Machine) (inputs : List Bytes) :
    (final pretty m inputs).sink.taken = m.sink.taken ++ printed pretty m inputs := by
  induction inputs generalizing m with
  | nil => simp [final, printed]
  | cons input rest ih =>
    rw [printed]
    by_cases hinput : isProgram input = true
    · obtain ⟨hmachine, hout⟩ := handle_program pretty m hinput
      obtain ⟨more, hmore⟩ := Engine.run_extends m input
      rw [final_program hinput, ih, if_pos hinput, hout, hmachine, printedSince, ← hmore,
        List.drop_left, List.append_assoc]
    · rw [final_other hinput, ih, if_neg hinput, handle_other hinput]
      rfl

theorem canonicalOf_statements (inputs : List Bytes) :
    canonicalOf (statements inputs) = mapTokensOf unplaced (statements inputs) := by
  rw [canonicalOf_eq_map, mapTokensOf_eq_map, List.map_inj_left]
  intro s hs
  obtain ⟨source, hsource, hs⟩ := List.mem_flatMap.1 hs
  have hprogram := canonicalOf_ofSource (isProgram_iff.1 (List.mem_filter.1 hsource).2).2
  rw [canonicalOf_eq_map, mapTokensOf_eq_map, List.map_inj_left] at hprogram
  exact hprogram s hs

def batch (inputs : List Bytes) : Bytes := Bytes.join [Bytes.lineFeed] (programs inputs)

theorem batch_clean (inputs : List Bytes) : Engine.check (batch inputs) = [] ∧
    mapTokensOf unplaced (Parsed.ofSource (batch inputs)).statements =
      mapTokensOf unplaced (statements inputs) :=
  ofSource_join _ fun _ hsource => (isProgram_iff.1 (List.mem_filter.1 hsource).2).2

theorem length_batch (inputs : List Bytes) :
    (Parsed.ofSource (batch inputs)).statements.length = (statements inputs).length := by
  have hlength := congrArg List.length (batch_clean inputs).2
  simpa only [mapTokensOf_eq_map, List.length_map] using hlength

theorem observed_batch (inputs : List Bytes) (m : Machine) :
    observed (execAll (Parsed.ofSource (batch inputs)).statements m) =
      observed (execAll (statements inputs) m) := by
  obtain ⟨hclean, hstatements⟩ := batch_clean inputs
  rw [← observed_execAll_canonical (wellFormed_ofSource hclean), canonicalOf_ofSource hclean,
    hstatements, ← canonicalOf_statements,
    observed_execAll_canonical (wellFormed_statements inputs)]

end Session

open Session

theorem ofHalt_of_bare {halt again : Halt} (h : again.bare = halt.bare) :
    (∃ f g, Failure.ofHalt halt = .fault f ∧ Failure.ofHalt again = .fault g ∧ g.cause = f.cause ∧
      g.token.kind = f.token.kind ∧ g.token.lexeme = f.token.lexeme) ∨
      Failure.ofHalt again = .ofHalt halt := by
  cases halt with
  | fault f =>
    cases again with
    | fault g =>
      obtain ⟨htoken, hcause⟩ := Fault.mk.inj (Halt.fault.inj h)
      obtain ⟨hkind, hlexeme, -, -⟩ := Token.mk.inj htoken
      exact Or.inl ⟨f, g, rfl, rfl, hcause, hkind, hlexeme⟩
    | _ => cases h
  | _ =>
    cases again with
    | fault g => cases h
    | _ => exact Or.inr (congrArg Failure.ofHalt h)

/-- A session is one run of its programs. If all programs of a session succeed, their sources one
below the other succeed as one program, with as many statements, the same variables and the same
output. If the last of them fails, that program fails for the same reason after the same output. -/
theorem session_runs_as_one_batch (pretty : Bool) (m : Machine) (inputs : List Bytes)
    (counts : List Nat) :
    let source := Bytes.join [Bytes.lineFeed] (programs inputs)
    (results pretty m inputs = counts.map .ok →
      ∃ after, Engine.run m source = (.ok counts.sum, after) ∧
        after.scopes = (final pretty m inputs).scopes ∧ after.sink = (final pretty m inputs).sink ∧
        printedSince m after = printed pretty m inputs) ∧
    ∀ failure, results pretty m inputs = counts.map .ok ++ [.error failure] →
      ∃ again after, Engine.run m source = (.error again, after) ∧
        ((∃ f g, failure = .fault f ∧ again = .fault g ∧ g.cause = f.cause ∧
          g.token.kind = f.token.kind ∧ g.token.lexeme = f.token.lexeme) ∨ again = failure) ∧
        after.scopes = (final pretty m inputs).scopes ∧ after.sink = (final pretty m inputs).sink ∧
        printedSince m after = printed pretty m inputs := by
  intro source
  obtain ⟨halt, after, hobserved, hrun⟩ :=
    Engine.run_observed (batch_clean inputs).1 (Machine.Same.refl m)
  rw [observed_batch] at hobserved
  have hprinted (h : after.sink = (final pretty m inputs).sink) :
      printedSince m after = printed pretty m inputs := by
    rw [printedSince, h, taken_final, List.drop_left]
  constructor
  · intro hok
    obtain ⟨hdone, hlength⟩ := observed_of_ok (.refl m) hok
    obtain ⟨hhalt, hsame⟩ := observed_eq_iff.1 (hobserved.symm.trans hdone)
    obtain rfl := Option.map_eq_none_iff.1 hhalt
    refine ⟨after, ?_, hsame.scopes, hsame.sink, hprinted hsame.sink⟩
    rw [← hlength, ← length_batch]
    exact hrun
  · intro failure hlast
    obtain ⟨last, rfl, hfailed⟩ := observed_of_error (.refl m) hlast
    obtain ⟨hhalt, hsame⟩ := observed_eq_iff.1 (hobserved.symm.trans hfailed)
    obtain ⟨again, rfl, hbare⟩ := Option.map_eq_some_iff.1 hhalt
    exact ⟨.ofHalt again, after, hrun, ofHalt_of_bare hbare, hsame.scopes, hsame.sink,
      hprinted hsame.sink⟩

/-- The comment ends with its input, and the command and the broken input are passed over. -/
theorem comment_ends_with_its_input :
    let inputs := [":env", "var a = true; //", "var", "var b = a;"].map Bytes.ofString
    let name : Token := ⟨.identifier, Bytes.ofString "d", 1, .null⟩
    let failing := inputs ++ [Bytes.ofString "var c = d;"]
    results true {} inputs = [1, 1].map .ok ∧
      (∃ after, Engine.run {} (Bytes.join [Bytes.lineFeed] (programs inputs)) = (.ok 2, after) ∧
        after.scopes = (final true {} inputs).scopes) ∧
      results true {} failing = [1, 1].map .ok ++ [.error (.fault ⟨name, .undefined name.lexeme⟩)] ∧
      ∃ again after,
        Engine.run {} (Bytes.join [Bytes.lineFeed] (programs failing)) = (.error again, after) ∧
          after.scopes = (final true {} failing).scopes := by
  intro inputs name failing
  have hok : results true {} inputs = [1, 1].map .ok := by decide +kernel
  have hlast : results true {} failing =
      [1, 1].map .ok ++ [.error (.fault ⟨name, .undefined name.lexeme⟩)] := by decide +kernel
  obtain ⟨after, hrun, hscopes, -⟩ := (session_runs_as_one_batch true {} inputs [1, 1]).1 hok
  obtain ⟨again, after', hrun', -, hscopes', -⟩ :=
    (session_runs_as_one_batch true {} failing [1, 1]).2 _ hlast
  exact ⟨hok, ⟨after, hrun, hscopes⟩, hlast, again, after', hrun', hscopes'⟩

end BlockScript
