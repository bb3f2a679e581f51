import BlockScript.Proofs.LineEnds
import BlockScript.Proofs.Outcomes

/-! What is read of a broken source can be run. A fault only drops tokens, so the statements that
survive are those of a program whose tokens stand in the source in the same order. -/

namespace BlockScript

open Token Grammar BlockScript.Parser

namespace Token

theorem isLexical_of_mem_segments {source : Bytes} :
    ∀ s ∈ segments source, Segment.IsLexical s := by
  induction source using segments.induct with
  | case1 => simp [segments]
  | case2 b rest ih =>
    intro s hs
    rw [segments] at hs
    rcases List.mem_cons.1 hs with rfl | hs
    · exact Segment.cut_isLexical b rest
    · exact ih s hs

/-- The tokens around a lexical fault are as good as any. -/
theorem lexical_of_lex (source : Bytes) :
    ∃ body last, (lex source).tokens = body ++ [finish last] ∧ ∀ t ∈ body, Lexical t := by
  obtain ⟨body, last, htokens, hbody⟩ := ofSegments_tokens 1 (segments source)
  refine ⟨body, last, htokens, ?_⟩
  intro t ht
  have hmem : t.unplaced ∈ (segments source).filterMap Segment.token? := by
    rw [← hbody]
    exact List.mem_map_of_mem ht
  obtain ⟨s, hs, htoken⟩ := List.mem_filterMap.1 hmem
  cases isLexical_of_mem_segments s hs with
  | token h => exact h.of_unplaced (Option.some.inj htoken).symm
  | _ => cases htoken

end Token

/-- What is kept of a source is a program of some of its tokens, in their order. -/
theorem Parsed.survives (source : Bytes) : ∃ ts, ts.Sublist (lex source).tokens ∧
    (∀ t ∈ ts, Lexical t) ∧ Program ts (Parsed.ofSource source).statements := by
  obtain ⟨body, last, hlex, hbody⟩ := lexical_of_lex source
  have hmark : (finish last).kind = .endOfFile := rfl
  have hstatements : (Parsed.ofSource source).statements = (program body).statements := by
    rw [← takeWhile_marked hmark fun t ht => (hbody t ht).kind_ne_endOfFile, ← hlex]
    rfl
  obtain ⟨-, read, hread, hkept⟩ := program_survives body
  obtain ⟨ts, hts, -, hprogram⟩ := hkept _ rfl
  have hsub : ts.Sublist body := by
    rw [hread]
    exact hts.trans (List.sublist_append_left _ _)
  refine ⟨ts, ?_, fun t ht => hbody t (hsub.mem ht), hstatements ▸ hprogram⟩
  rw [hlex]
  exact hsub.trans (List.sublist_append_left _ _)

/-- A number in a program read from source has no sign, since a minus is an operator. -/
theorem Grammar.Program.unsigned {ts : List Token} {program : List Stmt} (h : Program ts program)
    (hts : ∀ t ∈ ts, Lexical t) {x : Float}
    (hx : Leaf.literal (.number x) ∈ leavesOf program) : Decimal.isNegative x = false := by
  have hleaves : ts.filterMap leaf? = leavesOf program := Reads.leaves h
  rw [← hleaves] at hx
  obtain ⟨t, ht, hleaf⟩ := List.mem_filterMap.1 hx
  cases hts t ht with
  | number hwrites =>
    cases hleaf
    exact hwrites.unsigned.1
  | name _ | string _ => cases hleaf
  | @fixed k _ _ => cases k <;> cases hleaf

theorem Fault.Raised.message {f : Fault} (h : f.Raised) :
    f.cause.message ∈ ["Operand must be a number.", "Operands must be numbers.",
      "Operands must be two numbers or two strings."].map Bytes.ofString ∨
    f.cause.message =
      Bytes.ofString "Undefined variable '" ++ f.token.lexeme ++ Bytes.ofString "'." := by
  cases h with
  | operand _ => exact Or.inl (.head _)
  | operands _ _ _ => exact Or.inl (.tail _ (.head _))
  | mismatch _ => exact Or.inl (.tail _ (.tail _ (.head _)))
  | undefined _ => exact Or.inr rfl

/-- What is read of any source, broken or not, is a program of some of its tokens, well formed and
without negative numbers. On every machine it succeeds, or stops at one of four faults or at the
sink's refusal. -/
theorem survivors_are_executable (source : Bytes) :
    let program := (Parsed.ofSource source).statements
    (∃ ts, ts.Sublist (lex source).tokens ∧ Program ts program) ∧
    WellFormed program ∧
    (∀ x, Leaf.literal (.number x) ∈ leavesOf program → Decimal.isNegative x = false) ∧
    ∀ m : Machine, (m.run program).1 = none ∨
      (∃ f, (m.run program).1 = some (.fault f) ∧
        (f.cause.message ∈ ["Operand must be a number.", "Operands must be numbers.",
            "Operands must be two numbers or two strings."].map Bytes.ofString ∨
          f.cause.message =
            Bytes.ofString "Undefined variable '" ++ f.token.lexeme ++ Bytes.ofString "'.")) ∨
      ∃ reason, (m.run program).1 = some (.refused reason) ∧
        (m.run program).2.sink.Refused reason := by
  intro program
  obtain ⟨ts, hts, hlexical, hreads⟩ := Parsed.survives source
  have hwell : WellFormed program := (Reads.readFrom hreads hlexical).wellFormed
  refine ⟨⟨ts, hts, hreads⟩, hwell, fun x hx => hreads.unsigned hlexical hx, ?_⟩
  intro m
  have haccounted := hwell.accounted_run m
  generalize m.run program = r at haccounted
  obtain ⟨_ | halt, n⟩ := r
  · exact Or.inl rfl
  · cases haccounted halt rfl with
    | fault hraised => exact Or.inr (Or.inl ⟨_, rfl, hraised.message⟩)
    | refused hrefused => exact Or.inr (Or.inr ⟨_, rfl, hrefused⟩)

end BlockScript
