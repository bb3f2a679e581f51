import BlockScript.Proofs.ParseProgram
import BlockScript.Proofs.RelaxedGrammar

/-! Syntax errors are found at the earliest token. Along a parse two languages are kept in view:
what the tokens from some point on may be, and what is left of it after a step. A step that succeeds
leaves exactly the rest of what was allowed, as far as the next token can tell; a step that fails
stands before a token with which nothing that is allowed goes on. -/

namespace BlockScript.Parser

open Grammar
open scoped Computability

/-- Of what `L` allows for the tokens, `K` is left for the rest. -/
def Reaches (L K : Language Token) (tokens rest : List Token) : Prop :=
  ∃ ts, tokens = ts ++ rest ∧ (∀ w ∈ K, ts ++ w ∈ L) ∧
    ∀ w, w.head? = rest.head? → ts ++ w ∈ L → w ∈ K

/-- Some of what `L` allows begins as the tokens do, but nothing goes on with the token found. -/
def Breaks (L : Language Token) (tokens : List Token) (found : Option Token) : Prop :=
  ∃ ts more, tokens = ts ++ more ∧ found = more.head? ∧ (∃ w, ts ++ w ∈ L) ∧
    ∀ w, w.head? = more.head? → ts ++ w ∉ L

section Reaching

variable {L K M : Language Token} {tokens mid rest : List Token} {t : Token}

theorem head?_append_congr {ts w rest : List Token} (h : w.head? = rest.head?) :
    (ts ++ w).head? = (ts ++ rest).head? := by
  cases ts with
  | nil => exact h
  | cons t ts => rfl

theorem Reaches.trans (h : Reaches L K tokens mid) (hnext : Reaches K M mid rest) :
    Reaches L M tokens rest := by
  obtain ⟨ts, rfl, hall, honly⟩ := h
  obtain ⟨us, rfl, hall', honly'⟩ := hnext
  refine ⟨ts ++ us, by rw [List.append_assoc], fun w hw => ?_, fun w hhead hw => ?_⟩
  · rw [List.append_assoc]
    exact hall _ (hall' w hw)
  · rw [List.append_assoc] at hw
    exact honly' w hhead (honly _ (head?_append_congr hhead) hw)

theorem Reaches.breaks {found : Option Token} (h : Reaches L K tokens mid)
    (hnext : Breaks K mid found) : Breaks L tokens found := by
  obtain ⟨ts, rfl, hall, honly⟩ := h
  obtain ⟨us, more, rfl, hfound, ⟨w, hw⟩, hnone⟩ := hnext
  refine ⟨ts ++ us, more, by rw [List.append_assoc], hfound, ⟨w, ?_⟩, fun v hhead hv => ?_⟩
  · rw [List.append_assoc]
    exact hall _ hw
  · rw [List.append_assoc] at hv
    exact hnone v hhead (honly _ (head?_append_congr hhead) hv)

/-- The next token decides between alternatives. -/
theorem Reaches.select (hle : ∀ w ∈ K, w ∈ L) (h : ∀ w, w.head? = tokens.head? → w ∈ L → w ∈ K) :
    Reaches L K tokens tokens := ⟨[], rfl, hle, h⟩

theorem Reaches.selectCons (hle : ∀ w ∈ K, w ∈ L) (h : ∀ w, t :: w ∈ L → t :: w ∈ K) :
    Reaches L K (t :: rest) (t :: rest) := by
  refine .select hle fun w hhead hw => ?_
  obtain ⟨us, rfl⟩ := List.head?_eq_some_iff.1 hhead
  exact h us hw

theorem Reaches.refl : Reaches K K tokens tokens := .select (fun _ hw => hw) fun _ _ hw => hw

theorem Reaches.read (h : ∀ w, t :: w ∈ L ↔ w ∈ K) : Reaches L K (t :: rest) rest :=
  ⟨[t], rfl, fun w hw => (h w).2 hw, fun w _ hw => (h w).1 hw⟩

theorem Breaks.here (hsome : ∃ w, w ∈ L) (h : ∀ w, w.head? = tokens.head? → w ∉ L) :
    Breaks L tokens tokens.head? := ⟨[], tokens, rfl, rfl, hsome, h⟩

/-- The next token begins what may be there and need not. -/
theorem Reaches.readOption {kinds : List Token.Kind} (ht : t.kind ∈ kinds)
    (h : ∀ w, t :: w ∈ K → w ∈ M) : Reaches (K + oneOf kinds * M) M (t :: rest) rest := by
  refine .read fun w => ?_
  rw [Language.mem_add, cons_mem_oneOf_mul]
  constructor
  · rintro (hw | ⟨-, hw⟩)
    · exact h w hw
    · exact hw
  · intro hw
    exact Or.inr ⟨ht, hw⟩

theorem Reaches.skipOption {kinds : List Token.Kind} (h : ∀ k ∈ lookahead tokens, k ∉ kinds) :
    Reaches (K + oneOf kinds * M) K tokens tokens := by
  refine .select (fun w hw => Or.inl hw) fun w hhead hw => ?_
  rcases hw with hw | hw
  · exact hw
  · obtain ⟨t, us, ht, -, rfl⟩ := mem_oneOf_mul.1 hw
    exact absurd ht (h t.kind (by rw [lookahead, ← hhead]; rfl))

end Reaching

def firstBreak (faults : List Fault) : Option Fault := faults.find? (·.cause ≠ .assignmentTarget)

theorem firstBreak_append (a b : List Fault) :
    firstBreak (a ++ b) = (firstBreak a).or (firstBreak b) := List.find?_append

/-- The reply reads a part of what `L` allows and leaves `K`, or its first fault is a break. -/
inductive Follows {α : Type} (L K : Language Token) (tokens : List Token) : Reply α → Prop
  | reaches {a rest reports} (hreports : firstBreak reports = none) (h : Reaches L K tokens rest) :
      Follows L K tokens ⟨.ok a, rest, reports⟩
  | breaks {r f} (hfirst : firstBreak r.faults = some f) (h : Breaks L tokens f.found) :
      Follows L K tokens r

namespace Follows

variable {α β : Type} {L K M : Language Token} {tokens mid : List Token}

theorem ofReaches {r : Reply α} (h : Reaches L K tokens mid) (hr : Follows K M mid r) :
    Follows L M tokens r := by
  cases hr with
  | reaches hreports hrest => exact .reaches hreports (h.trans hrest)
  | breaks hfirst hbreak => exact .breaks hfirst (h.breaks hbreak)

theorem behind {r : Reply α} {reports : List Fault} (hreports : firstBreak reports = none)
    (h : Follows L K tokens r) : Follows L K tokens (r.behind reports) := by
  cases h with
  | reaches hmore hrest =>
    refine .reaches ?_ hrest
    rw [firstBreak_append, hreports, hmore]
    rfl
  | @breaks r f hfirst hbreak =>
    refine .breaks ?_ hbreak
    rw [faults_behind, firstBreak_append, hreports, hfirst]
    rfl

theorem andThen {first : Step α tokens}
    {next : (a : α) → (rest : List Token) → rest.length ≤ tokens.length → Step β rest}
    (h : Follows L K tokens first.val)
    (hnext : ∀ a rest hlen, Follows K M rest (next a rest hlen).val) :
    Follows L M tokens (first.andThen next).val := by
  obtain ⟨⟨outcome, mid, reports⟩, hlen⟩ := first
  cases h with
  | @reaches a _ _ hreports hmid => exact .ofReaches hmid (.behind hreports (hnext a mid hlen))
  | @breaks _ f hfirst hbreak =>
    refine .breaks ?_ hbreak
    cases outcome with
    | error g => exact hfirst
    | ok a =>
      have hreports : firstBreak reports = some f := hfirst
      change firstBreak ((next a mid hlen).val.behind reports).faults = some f
      rw [faults_behind, firstBreak_append, hreports]
      rfl

/-- What a successful step has built does not matter. -/
theorem withResult {a : α} (b : β) {rest : List Token} {reports : List Fault}
    (h : Follows L K tokens ⟨.ok a, rest, reports⟩) :
    Follows L K tokens ⟨.ok b, rest, reports⟩ := by
  cases h with
  | reaches hreports hrest => exact .reaches hreports hrest
  | breaks hfirst hbreak => exact .breaks hfirst hbreak

theorem done (a : α) (h : Reaches L K tokens tokens) :
    Follows L K tokens (Step.done a tokens).val := .reaches rfl h

theorem fail {cause : Cause} (hcause : cause ≠ .assignmentTarget) (hsome : ∃ w, w ∈ L)
    (h : ∀ w, w.head? = tokens.head? → w ∉ L) :
    Follows L K tokens (Step.fail cause tokens : Step α tokens).val := by
  refine .breaks (f := ⟨tokens.head?, cause⟩) ?_ (.here hsome h)
  simp [Reply.faults, Step.fail, firstBreak, hcause]

end Follows

theorem exists_mem_mul {L K : Language Token} (hL : ∃ w, w ∈ L) (hK : ∃ w, w ∈ K) :
    ∃ w, w ∈ L * K := by
  obtain ⟨v, hv⟩ := hL
  obtain ⟨w, hw⟩ := hK
  exact ⟨v ++ w, Language.append_mem_mul hv hw⟩

theorem exists_mem_oneOf (k : Token.Kind) (kinds : List Token.Kind) : ∃ w, w ∈ oneOf (k :: kinds) :=
  ⟨[⟨k, [], 0, .null⟩], _, List.mem_cons_self, rfl⟩

theorem exists_mem_sentences (c : Category) : ∃ w, w ∈ sentences c := by
  let name : Token := ⟨.identifier, [], 0, .null⟩
  let stop : Token := ⟨.semicolon, [], 0, .null⟩
  have hprimary : Relaxed .primary [name] := .atom (by decide)
  have hlevel : ∀ n, Relaxed (.level n) [name] := by
    intro n
    induction n with
    | zero => exact .primary hprimary
    | succ n ih => exact .operand ih
  have hexpression : Relaxed .expression [name] := .loosest (hlevel 6)
  have hstatement : Relaxed .statement ([name] ++ [stop]) := .expression hexpression rfl
  cases c with
  | primary => exact ⟨_, hprimary⟩
  | level n => exact ⟨_, hlevel n⟩
  | expression => exact ⟨_, hexpression⟩
  | statement => exact ⟨_, hstatement⟩
  | declaration => exact ⟨_, .statement hstatement⟩
  | declarations => exact ⟨_, .none⟩

theorem expect_follows {k : Token.Kind} {cause : Cause} {K : Language Token}
    (hcause : cause ≠ .assignmentTarget) (hK : ∃ w, w ∈ K) (tokens : List Token) :
    Follows (oneOf [k] * K) K tokens (expect k cause tokens).val := by
  have hsome := exists_mem_mul (exists_mem_oneOf k []) hK
  cases tokens with
  | nil =>
    refine .fail hcause hsome fun w hw => ?_
    rw [List.head?_eq_none_iff.1 hw]
    simp
  | cons t rest =>
    unfold expect
    dsimp only
    split
    · next ht => exact .reaches rfl (.read fun w => by simp [ht])
    · next ht =>
      refine .fail hcause hsome fun w hw => ?_
      obtain ⟨us, rfl⟩ := List.head?_eq_some_iff.1 hw
      simp [ht]

/-- What may follow an expression: nothing that would make it longer. -/
structure Closes (K : Language Token) : Prop where
  inhabited : ∃ w, w ∈ K
  stops : ∀ w ∈ K, Stops loosest w
  notEqual : ∀ w ∈ K, lookahead w ≠ some .equal

theorem Closes.token {k : Token.Kind} {K : Language Token} (hk : joinLevel k = 0 ∧ k ≠ .equal)
    (hK : ∃ w, w ∈ K) : Closes (oneOf [k] * K) := by
  have hhead : ∀ w ∈ oneOf [k] * K, ∃ t us, w = t :: us ∧ t.kind = k := by
    intro w hw
    obtain ⟨t, us, ht, -, rfl⟩ := mem_oneOf_mul.1 hw
    exact ⟨t, us, rfl, by simpa using ht⟩
  refine ⟨exists_mem_mul (exists_mem_oneOf k []) hK, fun w hw => ?_, fun w hw => ?_⟩
  · obtain ⟨t, us, rfl, rfl⟩ := hhead w hw
    exact .of_joinLevel hk.1
  · obtain ⟨t, us, rfl, rfl⟩ := hhead w hw
    simpa using hk.2

theorem Closes.assigned {K : Language Token} (hK : Closes K) :
    (∃ w, w ∈ assigned K) ∧ ∀ w ∈ assigned K, Stops loosest w := by
  obtain ⟨w, hw⟩ := hK.inhabited
  refine ⟨⟨w, Or.inl hw⟩, ?_⟩
  rintro v (hv | hv)
  · exact hK.stops v hv
  · obtain ⟨t, us, ht, -, rfl⟩ := mem_oneOf_mul.1 hv
    have hkind : t.kind = .equal := by simpa using ht
    exact .of_joinLevel (by rw [hkind]; rfl)

section Chain

variable {n : Nat} {K : Language Token}

theorem exists_mem_chain (hK : ∃ w, w ∈ K) : ∃ w, w ∈ (link n)∗ * K :=
  exists_mem_mul ⟨[], Language.nil_mem_kstar _⟩ hK

/-- What follows an operand in a chain is an operator of its level or what follows the chain. -/
theorem chain_stops (hstops : ∀ w ∈ K, Stops (n + 1) w) : ∀ w ∈ (link n)∗ * K, Stops n w := by
  intro w hw
  rw [link_mul] at hw
  rcases hw with hw | hw
  · exact (hstops w hw).mono (Nat.le_succ n)
  · obtain ⟨t, us, ht, -, rfl⟩ := mem_oneOf_mul.1 hw
    exact .of_operator ht

theorem chain_reads {t : Token} {after : List Token} (hstops : ∀ w ∈ K, Stops (n + 1) w)
    (ht : t.kind ∈ operators (n + 1)) :
    Reaches ((link n)∗ * K) (sentences (.level n) * ((link n)∗ * K)) (t :: after) after := by
  have hread : Reaches (K + oneOf (operators (n + 1)) * (sentences (.level n) * ((link n)∗ * K)))
      (sentences (.level n) * ((link n)∗ * K)) (t :: after) after :=
    .readOption ht fun w hw => absurd ht (hstops _ hw t.kind rfl (n + 1) (Nat.le_refl _))
  rwa [← link_mul] at hread

end Chain

mutual

theorem expression_follows (tokens : List Token) {K : Language Token} (hK : Closes K) :
    Follows (sentences .expression * K) K tokens (expression tokens).val := by
  rw [expression, expression_mul]
  obtain ⟨hsome, hstops⟩ := hK.assigned
  refine .andThen (climb_follows loosest tokens hsome hstops) fun left rest hlen => ?_
  cases rest with
  | nil => exact .done left (.skipOption (by simp))
  | cons t after =>
    have hshorter : after.length < tokens.length := hlen
    dsimp only
    split
    · next ht =>
      have hread : Reaches (assigned K) (sentences .expression * K) (t :: after) after :=
        .readOption (by simp [ht]) fun w hw => absurd (by simp [ht]) (hK.notEqual _ hw)
      have hright := Follows.ofReaches hread (expression_follows after hK)
      split
      · exact .andThen hright fun value rest _ => .done _ .refl
      · exact .andThen hright fun value rest _ => .reaches rfl .refl
    · next ht => exact .done left (.skipOption (by simpa using ht))
termination_by (tokens.length, loosest + 3)
decreasing_by
  · exact progress_of_le (Nat.le_refl _) (by omega)
  · exact progress_of_lt hshorter

theorem climb_follows (n : Nat) (tokens : List Token) {K : Language Token} (hK : ∃ w, w ∈ K)
    (hstops : ∀ w ∈ K, Stops n w) :
    Follows (sentences (.level n) * K) K tokens (climb n tokens).val := by
  cases n with
  | zero =>
    rw [climb_zero]
    exact unary_follows tokens hK
  | succ n =>
    rw [climb, level_succ_mul]
    exact .andThen (climb_follows n tokens (exists_mem_chain hK) (chain_stops hstops))
      fun left rest hlen => climbOn_follows n left rest hK hstops
termination_by (tokens.length, n + 2)
decreasing_by
  · exact progress_of_le (Nat.le_refl _) (by omega)
  · exact progress_of_le (Nat.le_refl _) (by omega)
  · exact progress_of_le hlen (by omega)

theorem climbOn_follows (n : Nat) (left : Expr) (tokens : List Token) {K : Language Token}
    (hK : ∃ w, w ∈ K) (hstops : ∀ w ∈ K, Stops (n + 1) w) :
    Follows ((link n)∗ * K) K tokens (climbOn n left tokens).val := by
  cases tokens with
  | nil =>
    rw [climbOn, link_mul]
    exact .done left (.skipOption (by simp))
  | cons t after =>
    rw [climbOn]
    split
    · next ht =>
      have hop := (joins_iff _ _).1 ht
      exact .ofReaches (chain_reads hstops hop) (.andThen
        (climb_follows n after (exists_mem_chain hK) (chain_stops hstops))
        fun right rest hlen => climbOn_follows n _ rest hK hstops)
    · next ht =>
      rw [link_mul]
      exact .done left (.skipOption (by simpa [joins_iff] using ht))
termination_by (tokens.length, n + 2)
decreasing_by
  · exact progress_of_lt (Nat.lt_succ_self _)
  · exact progress_of_lt (Nat.lt_succ_of_le hlen)

theorem unary_follows (tokens : List Token) {K : Language Token} (hK : ∃ w, w ∈ K) :
    Follows (sentences (.level 0) * K) K tokens (unary tokens).val := by
  cases tokens with
  | nil =>
    rw [unary]
    refine .fail (by decide) (exists_mem_mul (exists_mem_sentences _) hK) fun w hw => ?_
    rw [List.head?_eq_none_iff.1 hw]
    exact nil_not_mem (by simp)
  | cons t after =>
    rw [unary]
    split
    · next ht =>
      have hread : Reaches (sentences (.level 0) * K) (sentences (.level 0) * K) (t :: after)
          after := by
        refine .read fun w => ?_
        rw [cons_mem_level_zero_mul, cons_mem_primary_mul]
        rcases ht with ht | ht <;> simp [ht, atoms]
      exact .ofReaches hread (.andThen (unary_follows after hK) fun operand rest _ => .done _ .refl)
    · next ht =>
      have hselect : Reaches (sentences (.level 0) * K) (sentences .primary * K) (t :: after)
          (t :: after) := by
        refine .selectCons (fun w hw => ?_) fun w hw => ?_
        · rw [level_zero_mul]
          exact Or.inr hw
        · exact (cons_mem_level_zero_mul.1 hw).resolve_left fun hop => ht (by simpa using hop.1)
      exact .ofReaches hselect (primary_follows t after hK)
termination_by (tokens.length, 1)
decreasing_by
  · exact progress_of_le (Nat.le_refl _) (by omega)
  · exact progress_of_lt (Nat.lt_succ_self _)

theorem primary_follows (t : Token) (after : List Token) {K : Language Token} (hK : ∃ w, w ∈ K) :
    Follows (sentences .primary * K) K (t :: after) (primary t after).val := by
  have hatom (ht : t.kind ∈ atoms) : Reaches (sentences .primary * K) K (t :: after) after := by
    refine .read fun w => ?_
    have hparen : t.kind ≠ .leftParen := by
      intro heq
      rw [heq] at ht
      exact absurd ht (by decide)
    simp [cons_mem_primary_mul, ht, hparen]
  rw [primary]
  split
  · next ht => exact .reaches rfl (hatom (by rw [ht]; decide))
  · next ht => exact .reaches rfl (hatom (by rw [ht]; decide))
  · next ht => exact .reaches rfl (hatom (by rw [ht]; decide))
  · next ht => exact .reaches rfl (hatom (by rw [ht]; decide))
  · next ht => exact .reaches rfl (hatom (by rw [ht]; decide))
  · next ht => exact .reaches rfl (hatom (by rw [ht]; decide))
  · next ht =>
    have hread : Reaches (sentences .primary * K)
        (sentences .expression * (oneOf [.rightParen] * K)) (t :: after) after := by
      refine .read fun w => ?_
      simp [cons_mem_primary_mul, ht, atoms]
    have hclose : Closes (oneOf [.rightParen] * K) := .token ⟨rfl, by decide⟩ hK
    exact .ofReaches hread (.andThen (expression_follows after hclose) fun inner rest _ =>
      .andThen (expect_follows (by decide) hK rest) fun _ rest _ => .done _ .refl)
  · refine .fail (by decide) (exists_mem_mul (exists_mem_sentences _) hK) fun w hw => ?_
    obtain ⟨us, rfl⟩ := List.head?_eq_some_iff.1 hw
    simp_all [cons_mem_primary_mul, atoms]
termination_by (after.length + 1, 0)
decreasing_by
  exact progress_of_lt (Nat.lt_succ_self _)

end

section Tails

variable {K : Language Token}

theorem closes_semicolon (hK : ∃ w, w ∈ K) : Closes (oneOf [.semicolon] * K) :=
  .token ⟨rfl, by decide⟩ hK

theorem terminated_follows (build : Expr → Stmt) {cause : Cause}
    (hcause : cause ≠ .assignmentTarget) (hK : ∃ w, w ∈ K) (tokens : List Token) :
    Follows (finished K) K tokens (terminated build cause tokens).val := by
  rw [terminated_val]
  exact .andThen (expression_follows tokens (closes_semicolon hK)) fun e rest _ =>
    .andThen (expect_follows hcause hK rest) fun _ rest _ => .done _ .refl

theorem declaration_follows (hK : ∃ w, w ∈ K) (tokens : List Token) :
    Follows (oneOf [.identifier] * initialized K) K tokens (declaration tokens).val := by
  obtain ⟨w, hw⟩ := (closes_semicolon hK).inhabited
  have hsome : ∃ w, w ∈ initialized K := ⟨w, Or.inl hw⟩
  unfold declaration
  refine .andThen (expect_follows (by decide) hsome tokens) fun name rest _ => ?_
  cases rest with
  | nil =>
    refine .fail (by decide) hsome fun w hw => ?_
    rw [List.head?_eq_none_iff.1 hw]
    rintro (hnil | hnil)
    · exact nil_mem_oneOf_mul.1 hnil
    · exact nil_mem_oneOf_mul.1 hnil
  | cons t after =>
    dsimp only
    split
    · next ht =>
      have hread : Reaches (initialized K) (finished K) (t :: after) after := by
        refine .readOption (by simp [ht]) fun w hw => ?_
        have hsemicolon := (cons_mem_oneOf_mul.1 hw).1
        simp [ht] at hsemicolon
      exact .ofReaches hread (.andThen (expression_follows after (closes_semicolon hK))
        fun e rest _ => .andThen (expect_follows (by decide) hK rest) fun _ rest _ => .done _ .refl)
    · next ht =>
      have hskip : Reaches (initialized K) (oneOf [.semicolon] * K) (t :: after) (t :: after) :=
        .skipOption (by simpa using ht)
      exact .ofReaches hskip
        (.andThen (expect_follows (by decide) hK _) fun _ rest _ => .done _ .refl)

/-- An `else` that may follow a statement may as well be read as part of it. -/
def TakesElse (K : Language Token) : Prop :=
  ∀ t w, t.kind = .elseWord → t :: w ∈ K → w ∈ sentences .statement * K

theorem TakesElse.reads (h : TakesElse K) {t : Token} {w : List Token} (ht : t.kind = .elseWord)
    (hw : t :: w ∈ branched K) : w ∈ sentences .statement * K := by
  rcases hw with hw | hw
  · exact h t w ht hw
  · exact (cons_mem_oneOf_mul.1 hw).2

theorem TakesElse.branched (h : TakesElse K) : TakesElse (branched K) := by
  intro t w ht hw
  obtain ⟨ts, hts, us, hus, rfl⟩ := Language.mem_mul.1 (h.reads ht hw)
  exact Language.append_mem_mul hts (Or.inl hus)

/-- Behind declarations there is nothing or a closing brace. -/
def EndsBody (K : Language Token) : Prop := ∀ t w, t :: w ∈ K → t.kind = .rightBrace

theorem EndsBody.takesElse (h : EndsBody K) : TakesElse (sentences .declarations * K) := by
  intro t w ht hw
  rw [declarations_mul] at hw
  rcases hw with hw | hw
  · rw [h t w hw] at ht
    cases ht
  · have hstart := starts_of_cons_mem (by simp) hw
    rw [ht] at hstart
    exact absurd hstart (by decide)

/-- The body is over before a closing brace and at the end. -/
theorem Reaches.endBody {tokens : List Token} (h : ∀ k ∈ lookahead tokens, k = .rightBrace) :
    Reaches (sentences .declarations * K) K tokens tokens := by
  rw [declarations_mul]
  refine .select (fun w hw => Or.inl hw) fun w hhead hw => ?_
  rcases hw with hw | hw
  · exact hw
  · cases w with
    | nil => exact absurd hw (nil_not_mem (by simp))
    | cons t us =>
      have hbrace : t.kind = .rightBrace := h t.kind (by rw [lookahead, ← hhead]; rfl)
      have hstart := starts_of_cons_mem (by simp) hw
      rw [hbrace] at hstart
      exact absurd hstart (by decide)

theorem Reaches.nextDeclaration {t : Token} {after : List Token} (ht : ∀ w, t :: w ∉ K) :
    Reaches (sentences .declarations * K) (sentences .declaration * (sentences .declarations * K))
      (t :: after) (t :: after) := by
  refine .selectCons (fun w hw => ?_) fun w hw => ?_
  · rw [declarations_mul]
    exact Or.inr hw
  · rw [declarations_mul] at hw
    exact hw.resolve_left (ht w)

end Tails

theorem Follows.settle {L K : Language Token} {tokens : List Token} {s : Step Stmt tokens}
    (h : Follows L K tokens s.val) : Follows L K tokens (settle s).reply := by
  obtain ⟨⟨outcome, rest, reports⟩, hlen⟩ := s
  cases h with
  | reaches hreports hrest => exact .reaches hreports hrest
  | breaks hfirst hbreak =>
    refine .breaks ?_ hbreak
    cases outcome with
    | ok statement => exact hfirst
    | error f => exact hfirst

theorem Follows.prepend {L K M : Language Token} {tokens : List Token} {first next : Body}
    (h : Follows L K tokens first.reply) (hnext : Follows K M first.rest next.reply) :
    Follows L M tokens (first.prepend next).reply := by
  obtain ⟨statements, rest, reports⟩ := first
  cases h with
  | reaches hreports hrest => exact .withResult _ (.ofReaches hrest (.behind hreports hnext))
  | @breaks _ f hfirst hbreak =>
    refine .breaks ?_ hbreak
    have hreports : firstBreak reports = some f := hfirst
    change firstBreak (reports ++ next.reports) = some f
    rw [firstBreak_append, hreports]
    rfl

mutual

theorem statement_follows (tokens : List Token) {K : Language Token} (hK : ∃ w, w ∈ K)
    (helse : TakesElse K) :
    Follows (sentences .statement * K) K tokens (statement tokens).val := by
  have hdefault : ∀ w ∈ finished K, w ∈ sentences .statement * K := by
    intro w hw
    rw [statement_mul]
    exact Or.inr (Or.inr (Or.inr hw))
  match tokens with
  | [] =>
    rw [statement]
    refine .ofReaches (.select hdefault fun w hhead hw => ?_)
      (terminated_follows _ (by decide) hK [])
    rw [List.head?_eq_none_iff.1 hhead] at hw
    exact absurd hw (nil_not_mem (by simp))
  | t :: after =>
    -- The words and the brace that select a statement begin no expression.
    have hnot {k : Token.Kind} (hk : t.kind = k) (hstart : k ∉ expressionStarts) (w : List Token) :
        t :: w ∉ finished K := by
      intro hw
      have hmem : t.kind ∈ expressionStarts := starts_of_cons_mem (by simp) hw
      exact hstart (hk ▸ hmem)
    by_cases hif : t.kind = .ifWord
    · have hread : Reaches (sentences .statement * K) (oneOf [.leftParen] * (sentences .expression *
          (oneOf [.rightParen] * (sentences .statement * branched K)))) (t :: after) after := by
        refine .read fun w => ?_
        simp [cons_mem_statement_mul, hif, hnot hif (by decide)]
      obtain ⟨w, hw⟩ := hK
      have hbranched : ∃ w, w ∈ branched K := ⟨w, Or.inl hw⟩
      have hbranch : ∃ w, w ∈ sentences .statement * branched K :=
        exists_mem_mul (exists_mem_sentences _) hbranched
      have hclose : Closes (oneOf [.rightParen] * (sentences .statement * branched K)) :=
        .token ⟨rfl, by decide⟩ hbranch
      rw [statement]
      simp only [hif]
      rw [behind_val]
      refine .ofReaches hread (.andThen (expect_follows (by decide)
        (exists_mem_mul (exists_mem_sentences _) hclose.inhabited) after) fun _ rest hopen => ?_)
      refine .andThen (expression_follows rest hclose) fun condition rest hcondition => ?_
      refine .andThen (expect_follows (by decide) hbranch rest) fun _ rest hparen => ?_
      have hshort : rest.length < (t :: after).length := by
        simp only [List.length_cons]
        omega
      refine .andThen (statement_follows rest hbranched helse.branched) fun onTrue rest htrue => ?_
      match rest with
      | [] => exact .done _ (.skipOption (by simp))
      | e :: next =>
        have hshorter : next.length < (t :: after).length := by
          simp only [List.length_cons] at htrue ⊢
          omega
        dsimp only
        split
        · next he =>
          have hread : Reaches (branched K) (sentences .statement * K) (e :: next) next :=
            .readOption (by simp [he]) fun w hw => helse e w he hw
          exact .ofReaches hread (.andThen (statement_follows next ⟨w, hw⟩ helse)
            fun onFalse rest _ => .done _ .refl)
        · next he => exact .done _ (.skipOption (by simpa using he))
    · by_cases hprint : t.kind = .printWord
      · have hread : Reaches (sentences .statement * K) (finished K) (t :: after) after := by
          refine .read fun w => ?_
          simp [cons_mem_statement_mul, hprint, hnot hprint (by decide)]
        rw [statement_print hprint]
        exact .ofReaches hread (terminated_follows _ (by decide) hK after)
      · by_cases hbrace : t.kind = .leftBrace
        · have hread : Reaches (sentences .statement * K)
              (sentences .declarations * (oneOf [.rightBrace] * K)) (t :: after) after := by
            refine .read fun w => ?_
            simp [cons_mem_statement_mul, hbrace, hnot hbrace (by decide)]
          have hends : EndsBody (oneOf [.rightBrace] * K) :=
            fun t w hw => by simpa using (cons_mem_oneOf_mul.1 hw).1
          have hsome := exists_mem_mul (exists_mem_oneOf .rightBrace []) hK
          rw [statement]
          simp only [hbrace]
          rw [behind_val]
          exact .ofReaches hread (.andThen (block_follows after hsome hends) fun body rest _ =>
            .andThen (expect_follows (by decide) hK rest) fun _ rest _ => .done _ .refl)
        · rw [statement_default (by simp [hif, hprint, hbrace])]
          refine .ofReaches (.selectCons hdefault fun w hw => ?_)
            (terminated_follows _ (by decide) hK (t :: after))
          simpa [cons_mem_statement_mul, hif, hprint, hbrace] using hw
termination_by (tokens.length, 0)
decreasing_by
  · exact progress_of_lt hshort
  · exact progress_of_lt hshorter
  · exact progress_of_lt (Nat.lt_succ_self _)

theorem declared_follows (t : Token) (after : List Token) {K : Language Token} (hK : ∃ w, w ∈ K)
    (helse : TakesElse K) :
    Follows (sentences .declaration * K) K (t :: after) (declared t after).val.reply := by
  rw [declared]
  split
  · next ht =>
    have hread : Reaches (sentences .declaration * K) (oneOf [.identifier] * initialized K)
        (t :: after) after := by
      refine .read fun w => ?_
      have hnot : t :: w ∉ sentences .statement * K := by
        intro hw
        have hstart := starts_of_cons_mem (by simp) hw
        rw [ht] at hstart
        exact absurd hstart (by decide)
      simp [cons_mem_declaration_mul, ht, hnot]
    exact .ofReaches hread (.settle (declaration_follows hK after))
  · next ht =>
    refine .ofReaches (.selectCons (fun w hw => ?_) fun w hw => ?_)
      (.settle (statement_follows (t :: after) hK helse))
    · rw [declaration_mul]
      exact Or.inr hw
    · simpa [cons_mem_declaration_mul, ht] using hw
termination_by (after.length + 1, 1)
decreasing_by
  exact progress_of_le (Nat.le_refl _) (by omega)

theorem block_follows (tokens : List Token) {K : Language Token} (hK : ∃ w, w ∈ K)
    (hends : EndsBody K) :
    Follows (sentences .declarations * K) K tokens (block tokens).val.reply := by
  match tokens with
  | [] =>
    rw [block]
    exact .reaches rfl (.endBody (by simp))
  | t :: after =>
    rw [block]
    split
    · next ht => exact .reaches rfl (.endBody (by simpa using ht))
    · next ht =>
      have hmore : ∃ w, w ∈ sentences .declarations * K :=
        exists_mem_mul (exists_mem_sentences _) hK
      have hfirst := declared_follows t after hmore hends.takesElse
      generalize declared t after = d at hfirst
      obtain ⟨first, hshort⟩ := d
      exact .ofReaches (.nextDeclaration fun w hw => ht (hends t w hw))
        (.prepend hfirst (block_follows first.rest hK hends))
termination_by (tokens.length, 2)
decreasing_by
  · exact progress_of_le (Nat.le_refl _) (by omega)
  · exact progress_of_lt (Nat.lt_succ_of_le hshort)

end

theorem program_follows (tokens : List Token) :
    Follows (sentences .declarations * 1) 1 tokens (program tokens).reply := by
  have hends : EndsBody 1 := fun t w hw => absurd hw (by simp [Language.mem_one])
  have hmore : ∃ w, w ∈ sentences .declarations * 1 :=
    exists_mem_mul (exists_mem_sentences _) ⟨[], Language.nil_mem_one⟩
  induction tokens using program.induct with
  | case1 =>
    rw [program]
    exact .reaches rfl (.endBody (by simp))
  | case2 t after ih =>
    rw [program]
    exact .ofReaches (.nextDeclaration fun w hw => by simp [Language.mem_one] at hw)
      (.prepend (declared_follows t after hmore hends.takesElse) ih)

theorem sentence_or_breaks (tokens : List Token) :
    (firstBreak (program tokens).reports = none ∧ Sentence tokens) ∨
      ∃ f, firstBreak (program tokens).reports = some f ∧
        Breaks (sentences .declarations) tokens f.found := by
  have hfollows := program_follows tokens
  rw [mul_one] at hfollows
  generalize hreply : (program tokens).reply = reply at hfollows
  cases hfollows with
  | reaches hreports h =>
    obtain ⟨-, hrest, rfl⟩ := Reply.mk.inj hreply
    obtain ⟨ts, hts, hall, -⟩ := h
    rw [← hrest, program_rest, List.append_nil] at hts
    have hsentence := hall [] Language.nil_mem_one
    rw [List.append_nil, ← hts] at hsentence
    exact Or.inl ⟨hreports, hsentence⟩
  | breaks hfirst h =>
    subst hreply
    exact Or.inr ⟨_, hfirst, h⟩

theorem Breaks.viable {tokens : List Token} {found : Option Token}
    (h : Breaks (sentences .declarations) tokens found) :
    ∃ i, i ≤ tokens.length ∧ found = tokens[i]? ∧ Viable (tokens.take i) ∧ ¬ Sentence tokens ∧
      (found ≠ none → ¬ Viable (tokens.take (i + 1))) := by
  obtain ⟨ts, more, rfl, rfl, hviable, hnone⟩ := h
  refine ⟨ts.length, by simp, by cases more <;> simp, ?_, hnone more rfl, fun hsome => ?_⟩
  · rw [List.take_left]
    exact hviable
  · cases more with
    | nil => exact absurd rfl hsome
    | cons t us =>
      rintro ⟨w, hw⟩
      have htake : (ts ++ t :: us).take (ts.length + 1) = ts ++ [t] := by
        simp [List.take_append, List.take_of_length_le]
      rw [htake, List.append_assoc] at hw
      exact hnone (t :: w) rfl hw

theorem message_eq_iff {cause : Cause} :
    Bytes.ofString cause.message = Bytes.ofString "Invalid assignment target." ↔
      cause = .assignmentTarget := by
  cases cause <;> decide

theorem lastLine_marked {body : List Token} {mark : Token} (hmark : mark.kind = .endOfFile)
    (hbody : ∀ t ∈ body, t.kind ≠ .endOfFile) : lastLine (body ++ [mark]) = mark.line := by
  have hfind : (body ++ [mark]).find? (·.kind = .endOfFile) = some mark := by
    rw [List.find?_append, List.find?_eq_none.2 (by simpa using hbody)]
    simp [hmark]
  rw [lastLine, hfind]

end BlockScript.Parser

namespace BlockScript

open Grammar BlockScript.Parser

theorem find_diagnostic {body : List Token} {mark : Token} (hmark : mark.kind = .endOfFile)
    (hbody : ∀ t ∈ body, t.kind ≠ .endOfFile) :
    (Parsed.ofTokens (body ++ [mark])).diagnostics.find?
        (·.message ≠ Bytes.ofString "Invalid assignment target.") =
      (firstBreak (program body).reports).map (·.diagnostic mark.line) := by
  have hmessage (f : Parser.Fault) :
      (f.diagnostic mark.line).message = Bytes.ofString f.cause.message := by
    unfold Parser.Fault.diagnostic
    split <;> rfl
  simp only [Parsed.ofTokens, takeWhile_marked hmark hbody, lastLine_marked hmark hbody, firstBreak,
    List.find?_map]
  congr 2
  funext f
  simp [hmessage, message_eq_iff]

/-- Syntax errors are found at the earliest token. Apart from what is assigned to, reading a marked
token list finds no fault exactly in the sentences of the relaxed grammar, among which are all
programs. Otherwise the first fault is at a token such that the tokens before it can be continued
to a sentence, but not when this token comes next; at the mark, they are not a sentence yet. -/
theorem first_fault_at_first_hopeless_token (body : List Token) (mark : Token)
    (hmark : mark.kind = .endOfFile) (hbody : ∀ t ∈ body, t.kind ≠ .endOfFile) :
    let first := (Parsed.ofTokens (body ++ [mark])).diagnostics.find?
      (·.message ≠ Bytes.ofString "Invalid assignment target.")
    (∀ program, Program body program → Sentence body) ∧ (first = none ↔ Sentence body) ∧
      ∀ d, first = some d → ∃ i t, (body ++ [mark])[i]? = some t ∧ d.line = t.line ∧
        Viable (body.take i) ∧
        (t.kind ≠ .endOfFile →
          d.place = Diagnostic.atLexeme t.lexeme ∧ ¬ Viable (body.take (i + 1))) ∧
        (t.kind = .endOfFile →
          d.place = Bytes.ofString " at end" ∧ body.take i = body ∧ ¬ Sentence body) := by
  intro first
  have hfirst : first = _ := find_diagnostic hmark hbody
  refine ⟨fun program h => h.relaxed, ?_⟩
  rcases sentence_or_breaks body with ⟨hnone, hsentence⟩ | ⟨f, hf, hbreaks⟩
  · rw [hfirst, hnone]
    exact ⟨by simp [hsentence], by simp⟩
  · obtain ⟨i, hi, hfound, hviable, hsentence, hhopeless⟩ := hbreaks.viable
    rw [hfirst, hf]
    refine ⟨by simp [hsentence], ?_⟩
    rintro d hd
    obtain rfl := Option.some.inj hd
    obtain ⟨found, cause⟩ := f
    dsimp only at hfound hhopeless
    cases found with
    | some t =>
      have hkind := hbody t (List.mem_of_getElem? hfound.symm)
      have hlt := (List.getElem?_eq_some_iff.1 hfound.symm).1
      exact ⟨i, t, by rw [List.getElem?_append_left hlt, hfound], rfl, hviable,
        fun _ => ⟨rfl, hhopeless (by simp)⟩, fun hend => absurd hend hkind⟩
    | none =>
      obtain rfl : i = body.length := Nat.le_antisymm hi (List.getElem?_eq_none_iff.1 hfound.symm)
      exact ⟨body.length, mark, by simp, rfl, hviable, fun hne => absurd hmark hne,
        fun _ => ⟨rfl, List.take_length, hsentence⟩⟩

/-- The number that is assigned to is passed over, and the brace behind `if` is the fault. -/
theorem brace_behind_if_is_hopeless :
    let word (kind : Token.Kind) (line : Int) : Token := ⟨kind, [], line, .null⟩
    let body := [word .leftBrace 0, word .varWord 1, word .identifier 2, word .equal 3,
      word .number 4, word .equal 5, word .number 6, word .semicolon 7, word .ifWord 8,
      word .rightBrace 9]
    let mark := word .endOfFile 10
    mark.kind = .endOfFile ∧ (∀ t ∈ body, t.kind ≠ .endOfFile) ∧
      Viable (body.take 9) ∧ ¬ Viable (body.take 10) := by
  intro word body mark
  have hmark : mark.kind = .endOfFile := rfl
  have hbody : ∀ t ∈ body, t.kind ≠ .endOfFile := by decide
  have hfirst : (Parsed.ofTokens (body ++ [mark])).diagnostics.find?
      (·.message ≠ Bytes.ofString "Invalid assignment target.") =
        some ⟨.parse, 9, Diagnostic.atLexeme [], Bytes.ofString "Expect '(' after 'if'."⟩ := by
    decide +kernel
  obtain ⟨i, t, ht, hline, hviable, hhopeless, -⟩ :=
    (first_fault_at_first_hopeless_token body mark hmark hbody).2.2 _ hfirst
  obtain ⟨hlt, rfl⟩ := List.getElem?_eq_some_iff.1 ht
  -- Every token is on a line of its own.
  have hlines : ∀ j : Fin 11, ((body ++ [mark]).get j).line = j.val := by decide
  have hline : (9 : Int) = i := hline.trans (hlines ⟨i, hlt⟩)
  obtain rfl : i = 9 := by omega
  have hkind : Token.Kind.rightBrace ≠ .endOfFile := by decide
  exact ⟨hmark, hbody, hviable, (hhopeless hkind).2⟩

end BlockScript
