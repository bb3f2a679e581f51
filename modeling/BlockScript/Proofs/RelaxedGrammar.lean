import Mathlib.Computability.Language
import BlockScript.Proofs.Grammar

/-! The grammar without its one condition on trees: here any chain of operators may be assigned to.
Without that condition a phrase is no more than a list of tokens, so the phrases of a category are a
language, and the rules of a category say what its phrases begin with and what is left then. -/

namespace BlockScript.Grammar

open scoped Computability

inductive Category
  | primary
  | level (n : Nat)
  | expression
  | statement
  | declaration
  | declarations

def atoms : List Token.Kind := [.falseWord, .trueWord, .nullWord, .number, .string, .identifier]

/-- The rules of the grammar, with any chain of operators on the left of an assignment. -/
inductive Relaxed : Category → List Token → Prop
  | atom {t} (h : t.kind ∈ atoms) : Relaxed .primary [t]
  | grouping {l ts r} (hl : l.kind = .leftParen) (he : Relaxed .expression ts)
      (hr : r.kind = .rightParen) : Relaxed .primary (l :: (ts ++ [r]))
  | primary {ts} (h : Relaxed .primary ts) : Relaxed (.level 0) ts
  | unary {t ts} (ht : t.kind ∈ [.bang, .minus]) (he : Relaxed (.level 0) ts) :
      Relaxed (.level 0) (t :: ts)
  | operand {n ts} (h : Relaxed (.level n) ts) : Relaxed (.level (n + 1)) ts
  | chain {n ls t rs} (hl : Relaxed (.level (n + 1)) ls) (ht : t.kind ∈ operators (n + 1))
      (hr : Relaxed (.level n) rs) : Relaxed (.level (n + 1)) (ls ++ t :: rs)
  | loosest {ts} (h : Relaxed (.level 6) ts) : Relaxed .expression ts
  | assign {ls q ts} (hl : Relaxed (.level 6) ls) (hq : q.kind = .equal)
      (he : Relaxed .expression ts) : Relaxed .expression (ls ++ q :: ts)
  | expression {ts q} (he : Relaxed .expression ts) (hq : q.kind = .semicolon) :
      Relaxed .statement (ts ++ [q])
  | print {p ts q} (hp : p.kind = .printWord) (he : Relaxed .expression ts)
      (hq : q.kind = .semicolon) : Relaxed .statement (p :: (ts ++ [q]))
  | block {l ts r} (hl : l.kind = .leftBrace) (hb : Relaxed .declarations ts)
      (hr : r.kind = .rightBrace) : Relaxed .statement (l :: (ts ++ [r]))
  | ifThen {i l cs r ts} (hi : i.kind = .ifWord) (hl : l.kind = .leftParen)
      (hc : Relaxed .expression cs) (hr : r.kind = .rightParen) (hs : Relaxed .statement ts) :
      Relaxed .statement (i :: l :: (cs ++ r :: ts))
  | ifElse {i l cs r ts o us} (hi : i.kind = .ifWord) (hl : l.kind = .leftParen)
      (hc : Relaxed .expression cs) (hr : r.kind = .rightParen) (hs : Relaxed .statement ts)
      (ho : o.kind = .elseWord) (hf : Relaxed .statement us) :
      Relaxed .statement (i :: l :: (cs ++ r :: (ts ++ o :: us)))
  | declare {v x q} (hv : v.kind = .varWord) (hx : x.kind = .identifier)
      (hq : q.kind = .semicolon) : Relaxed .declaration [v, x, q]
  | declareWith {v x a ts q} (hv : v.kind = .varWord) (hx : x.kind = .identifier)
      (ha : a.kind = .equal) (he : Relaxed .expression ts) (hq : q.kind = .semicolon) :
      Relaxed .declaration (v :: x :: a :: (ts ++ [q]))
  | statement {ts} (h : Relaxed .statement ts) : Relaxed .declaration ts
  | none : Relaxed .declarations []
  | more {ts us} (hs : Relaxed .declaration ts) (hb : Relaxed .declarations us) :
      Relaxed .declarations (ts ++ us)

def Sentence (tokens : List Token) : Prop := Relaxed .declarations tokens

/-- The tokens can be continued to a sentence. -/
def Viable (tokens : List Token) : Prop := ∃ more, Sentence (tokens ++ more)

def Rank.category : Rank → Category
  | .primary => .primary
  | .level n => .level n
  | .expression => .expression

def Phrase.category : Phrase → Category
  | .statement _ => .statement
  | .declaration _ => .declaration
  | .declarations _ => .declarations

theorem Derives.relaxed {r : Rank} {ts : List Token} {e : Expr} (h : Derives r ts e) :
    Relaxed r.category ts := by
  have hname {t : Token} (h : t.kind = .identifier) : ∀ n, Relaxed (.level n) [t] := by
    intro n
    induction n with
    | zero => exact .primary (.atom (by simp [h, atoms]))
    | succ n ih => exact .operand ih
  induction h with
  | falseLiteral h | trueLiteral h | nullLiteral h | number h | string h | name h =>
    exact .atom (by simp [h, atoms])
  | grouping hl _ hr ih => exact .grouping hl ih hr
  | primary _ ih => exact .primary ih
  | unary ht _ ih => exact .unary ht ih
  | operand _ ih => exact .operand ih
  | binary _ ht _ _ ihl ihr | logical _ ht _ _ ihl ihr => exact .chain ihl ht ihr
  | loosest _ ih => exact .loosest ih
  | assign ht hq _ ih => exact .assign (hname ht 6) hq ih

/-- Every phrase of the grammar is one of the relaxed grammar. -/
theorem Reads.relaxed {ts : List Token} {p : Phrase} (h : Reads ts p) : Relaxed p.category ts := by
  induction h with
  | expression he hq => exact .expression he.relaxed hq
  | print hp he hq => exact .print hp he.relaxed hq
  | block hl _ hr ih => exact .block hl ih hr
  | ifThen hi hl hc hr _ ih => exact .ifThen hi hl hc.relaxed hr ih
  | @ifElse i l cs r ts o us c s f hi hl hc hr _ _ ho _ ihs ihf =>
    have hboth := Relaxed.ifElse hi hl hc.relaxed hr ihs ho ihf
    rw [show i :: l :: cs ++ r :: ts ++ o :: us = i :: l :: (cs ++ r :: (ts ++ o :: us)) by simp]
    exact hboth
  | declare hv hx hq => exact .declare hv hx hq
  | declareWith hv hx ha he hq => exact .declareWith hv hx ha he.relaxed hq
  | statement _ ih => exact .statement ih
  | none => exact .none
  | more _ _ ihs ihb => exact .more ihs ihb

def Category.starts : Category → List Token.Kind
  | .primary | .level _ | .expression => expressionStarts
  | .statement => [.printWord, .ifWord, .leftBrace] ++ expressionStarts
  | .declaration | .declarations => declarationStarts

theorem Relaxed.starts {c : Category} {ts : List Token} (h : Relaxed c ts) :
    (ts = [] ∧ c = .declarations) ∨ ∃ t us, ts = t :: us ∧ t.kind ∈ c.starts := by
  induction h with
  | atom h =>
    refine Or.inr ⟨_, _, rfl, ?_⟩
    exact List.mem_append_left [.leftParen, .bang, .minus] h
  | grouping hl _ _ _ => exact Or.inr ⟨_, _, rfl, by rw [hl]; decide⟩
  | unary ht _ _ => exact Or.inr ⟨_, _, rfl, List.mem_append_right (atoms ++ [.leftParen]) ht⟩
  | primary _ ih | operand _ ih | loosest _ ih => exact Or.inr (ih.resolve_left (by simp))
  | chain _ _ _ ih _ | assign _ _ _ ih _ =>
    obtain ⟨t, us, rfl, ht⟩ := ih.resolve_left (by simp)
    exact Or.inr ⟨t, _, rfl, ht⟩
  | expression _ _ ih =>
    obtain ⟨t, us, rfl, ht⟩ := ih.resolve_left (by simp)
    exact Or.inr ⟨t, _, rfl, List.mem_append_right _ ht⟩
  | print hp _ _ _ => exact Or.inr ⟨_, _, rfl, by rw [hp]; decide⟩
  | block hl _ _ _ => exact Or.inr ⟨_, _, rfl, by rw [hl]; decide⟩
  | ifThen hi _ _ _ _ _ _ => exact Or.inr ⟨_, _, rfl, by rw [hi]; decide⟩
  | ifElse hi _ _ _ _ _ _ _ _ _ => exact Or.inr ⟨_, _, rfl, by rw [hi]; decide⟩
  | declare hv _ _ => exact Or.inr ⟨_, _, rfl, by rw [hv]; decide⟩
  | declareWith hv _ _ _ _ _ => exact Or.inr ⟨_, _, rfl, by rw [hv]; decide⟩
  | statement _ ih =>
    obtain ⟨t, us, rfl, ht⟩ := ih.resolve_left (by simp)
    exact Or.inr ⟨t, us, rfl, List.mem_cons_of_mem _ ht⟩
  | none => exact Or.inl ⟨rfl, rfl⟩
  | more _ _ ihs _ =>
    obtain ⟨t, us, rfl, ht⟩ := ihs.resolve_left (by simp)
    exact Or.inr ⟨t, _, rfl, ht⟩

def sentences (c : Category) : Language Token := {ts | Relaxed c ts}

def oneOf (kinds : List Token.Kind) : Language Token := {ts | ∃ t, t.kind ∈ kinds ∧ ts = [t]}

section Languages

variable {kinds : List Token.Kind} {K : Language Token} {t : Token} {w : List Token}

theorem singleton_mem_oneOf {k : Token.Kind} (h : t.kind = k) : [t] ∈ oneOf [k] :=
  ⟨t, by simp [h], rfl⟩

theorem mem_oneOf_mul :
    w ∈ oneOf kinds * K ↔ ∃ t us, t.kind ∈ kinds ∧ us ∈ K ∧ w = t :: us := by
  rw [Language.mem_mul]
  constructor
  · rintro ⟨_, ⟨t, ht, rfl⟩, us, hus, rfl⟩
    exact ⟨t, us, ht, hus, rfl⟩
  · rintro ⟨t, us, ht, hus, rfl⟩
    exact ⟨[t], ⟨t, ht, rfl⟩, us, hus, rfl⟩

@[simp] theorem cons_mem_oneOf_mul : t :: w ∈ oneOf kinds * K ↔ t.kind ∈ kinds ∧ w ∈ K := by
  rw [mem_oneOf_mul]
  constructor
  · rintro ⟨_, _, ht, hw, heq⟩
    obtain ⟨rfl, rfl⟩ := List.cons.inj heq
    exact ⟨ht, hw⟩
  · rintro ⟨ht, hw⟩
    exact ⟨t, w, ht, hw, rfl⟩

@[simp] theorem nil_mem_oneOf_mul : [] ∈ oneOf kinds * K ↔ False := by
  simp [mem_oneOf_mul]

/-- What a phrase of some category can begin with when something follows it. -/
theorem starts_of_cons_mem {c : Category} (hc : c ≠ .declarations) (h : t :: w ∈ sentences c * K) :
    t.kind ∈ c.starts := by
  obtain ⟨ts, hts, us, -, heq⟩ := Language.mem_mul.1 h
  obtain ⟨t', rest, rfl, ht⟩ := (Relaxed.starts hts).resolve_left fun hnil => hc hnil.2
  obtain ⟨rfl, -⟩ := List.cons.inj heq
  exact ht

theorem nil_not_mem {c : Category} (hc : c ≠ .declarations) : [] ∉ sentences c * K := by
  intro h
  obtain ⟨ts, hts, us, -, heq⟩ := Language.mem_mul.1 h
  obtain ⟨t, rest, rfl, -⟩ := (Relaxed.starts hts).resolve_left fun hnil => hc hnil.2
  cases heq

end Languages

/-! The rules of each category as an equation, with `K` for what may follow. -/

section Rules

variable (K : Language Token)

theorem primary_mul : sentences .primary * K =
    oneOf atoms * K + oneOf [.leftParen] * (sentences .expression * (oneOf [.rightParen] * K)) := by
  have heq : sentences .primary =
      oneOf atoms + oneOf [.leftParen] * (sentences .expression * oneOf [.rightParen]) := by
    ext w
    constructor
    · rintro (h : Relaxed .primary w)
      cases h with
      | atom h => exact Or.inl ⟨_, h, rfl⟩
      | grouping hl he hr =>
        refine Or.inr (cons_mem_oneOf_mul.2 ⟨by simp [hl], ?_⟩)
        exact Language.append_mem_mul he (singleton_mem_oneOf hr)
    · rintro (⟨t, ht, rfl⟩ | h)
      · exact Relaxed.atom ht
      · obtain ⟨l, us, hl, hus, rfl⟩ := mem_oneOf_mul.1 h
        obtain ⟨ts, hts, _, ⟨r, hr, rfl⟩, rfl⟩ := Language.mem_mul.1 hus
        exact Relaxed.grouping (by simpa using hl) hts (by simpa using hr)
  rw [heq, add_mul, mul_assoc, mul_assoc]

theorem level_zero_mul : sentences (.level 0) * K =
    oneOf [.bang, .minus] * (sentences (.level 0) * K) + sentences .primary * K := by
  have heq : sentences (.level 0) =
      oneOf [.bang, .minus] * sentences (.level 0) + sentences .primary := by
    ext w
    constructor
    · rintro (h : Relaxed (.level 0) w)
      cases h with
      | primary h => exact Or.inr h
      | unary ht he => exact Or.inl (cons_mem_oneOf_mul.2 ⟨ht, he⟩)
    · rintro (h | h)
      · obtain ⟨t, us, ht, hus, rfl⟩ := mem_oneOf_mul.1 h
        exact Relaxed.unary ht hus
      · exact Relaxed.primary h
  exact (congrArg (· * K) heq).trans (by simp only [add_mul, mul_assoc])

def link (n : Nat) : Language Token := oneOf (operators (n + 1)) * sentences (.level n)

theorem level_succ_mul (n : Nat) :
    sentences (.level (n + 1)) * K = sentences (.level n) * ((link n)∗ * K) := by
  have hle : sentences (.level (n + 1)) ≤ sentences (.level n) * (link n)∗ := by
    rintro w (h : Relaxed (.level (n + 1)) w)
    generalize hc : Category.level (n + 1) = c at h
    induction h with
    | operand h =>
      cases hc
      have hmem := Language.append_mem_mul h (Language.nil_mem_kstar (link n))
      rwa [List.append_nil] at hmem
    | chain _ ht hr ihl _ =>
      cases hc
      have hlink : _ ∈ link n := cons_mem_oneOf_mul.2 ⟨ht, hr⟩
      have hmem := Language.append_mem_mul (ihl rfl) hlink
      have hle : sentences (.level n) * ((link n)∗ * link n) ≤ sentences (.level n) * (link n)∗ :=
        mul_le_mul_right kstar_mul_le_kstar _
      rw [mul_assoc] at hmem
      exact hle hmem
    | _ => cases hc
  have hge : sentences (.level n) * (link n)∗ ≤ sentences (.level (n + 1)) := by
    have hfirst : sentences (.level n) ≤ sentences (.level (n + 1)) := fun w h => Relaxed.operand h
    have hnext : sentences (.level (n + 1)) * link n ≤ sentences (.level (n + 1)) := by
      intro w h
      obtain ⟨ls, hls, us, hus, rfl⟩ := Language.mem_mul.1 h
      obtain ⟨t, rs, ht, hrs, rfl⟩ := mem_oneOf_mul.1 hus
      exact Relaxed.chain hls ht hrs
    exact (mul_le_mul_left hfirst _).trans (mul_kstar_le_self hnext)
  rw [le_antisymm hle hge, mul_assoc]

theorem link_mul (n : Nat) : (link n)∗ * K =
    K + oneOf (operators (n + 1)) * (sentences (.level n) * ((link n)∗ * K)) := by
  have heq := (Language.one_add_self_mul_kstar_eq_kstar (link n)).symm
  refine (congrArg (· * K) heq).trans ?_
  simp only [add_mul, one_mul, link, mul_assoc]

def assigned : Language Token := K + oneOf [.equal] * (sentences .expression * K)

theorem expression_mul : sentences .expression * K = sentences (.level 6) * assigned K := by
  have heq : sentences .expression =
      sentences (.level 6) * (1 + oneOf [.equal] * sentences .expression) := by
    ext w
    constructor
    · rintro (h : Relaxed .expression w)
      cases h with
      | loosest h =>
        rw [← List.append_nil w]
        exact Language.append_mem_mul h (Or.inl Language.nil_mem_one)
      | assign hl hq he =>
        exact Language.append_mem_mul hl (Or.inr (cons_mem_oneOf_mul.2 ⟨by simp [hq], he⟩))
    · intro h
      obtain ⟨ls, hls, us, hus | hus, rfl⟩ := Language.mem_mul.1 h
      · obtain rfl := (Language.mem_one us).1 hus
        rw [List.append_nil]
        exact Relaxed.loosest hls
      · obtain ⟨q, ts, hq, hts, rfl⟩ := mem_oneOf_mul.1 hus
        exact Relaxed.assign hls (by simpa using hq) hts
  exact (congrArg (· * K) heq).trans (by simp only [assigned, add_mul, one_mul, mul_assoc])

def finished : Language Token := sentences .expression * (oneOf [.semicolon] * K)

def branched : Language Token := K + oneOf [.elseWord] * (sentences .statement * K)

theorem statement_mul : sentences .statement * K =
    oneOf [.ifWord] * (oneOf [.leftParen] *
      (sentences .expression * (oneOf [.rightParen] * (sentences .statement * branched K)))) +
    (oneOf [.printWord] * finished K +
    (oneOf [.leftBrace] * (sentences .declarations * (oneOf [.rightBrace] * K)) + finished K)) := by
  have heq : sentences .statement =
      oneOf [.ifWord] * (oneOf [.leftParen] * (sentences .expression * (oneOf [.rightParen] *
        (sentences .statement * (1 + oneOf [.elseWord] * sentences .statement))))) +
      (oneOf [.printWord] * (sentences .expression * oneOf [.semicolon]) +
      (oneOf [.leftBrace] * (sentences .declarations * oneOf [.rightBrace]) +
        sentences .expression * oneOf [.semicolon])) := by
    ext w
    constructor
    · rintro (h : Relaxed .statement w)
      cases h with
      | expression he hq =>
        exact Or.inr (Or.inr (Or.inr (Language.append_mem_mul he (singleton_mem_oneOf hq))))
      | print hp he hq =>
        refine Or.inr (Or.inl (cons_mem_oneOf_mul.2 ⟨by simp [hp], ?_⟩))
        exact Language.append_mem_mul he (singleton_mem_oneOf hq)
      | block hl hb hr =>
        refine Or.inr (Or.inr (Or.inl (cons_mem_oneOf_mul.2 ⟨by simp [hl], ?_⟩)))
        exact Language.append_mem_mul hb (singleton_mem_oneOf hr)
      | @ifThen i l cs r ts hi hl hc hr hs =>
        refine Or.inl (cons_mem_oneOf_mul.2 ⟨by simp [hi], cons_mem_oneOf_mul.2 ⟨by simp [hl], ?_⟩⟩)
        refine Language.append_mem_mul hc (cons_mem_oneOf_mul.2 ⟨by simp [hr], ?_⟩)
        rw [← List.append_nil ts]
        exact Language.append_mem_mul hs (Or.inl Language.nil_mem_one)
      | ifElse hi hl hc hr hs ho hf =>
        refine Or.inl (cons_mem_oneOf_mul.2 ⟨by simp [hi], cons_mem_oneOf_mul.2 ⟨by simp [hl], ?_⟩⟩)
        refine Language.append_mem_mul hc (cons_mem_oneOf_mul.2 ⟨by simp [hr], ?_⟩)
        exact Language.append_mem_mul hs (Or.inr (cons_mem_oneOf_mul.2 ⟨by simp [ho], hf⟩))
    · rintro (h | h | h | h)
      · obtain ⟨i, _, hi, hopen, rfl⟩ := mem_oneOf_mul.1 h
        obtain ⟨l, _, hl, hcondition, rfl⟩ := mem_oneOf_mul.1 hopen
        obtain ⟨cs, hcs, _, hclose, rfl⟩ := Language.mem_mul.1 hcondition
        obtain ⟨r, _, hr, hbranches, rfl⟩ := mem_oneOf_mul.1 hclose
        obtain ⟨ts, hts, us, hus | hus, rfl⟩ := Language.mem_mul.1 hbranches
        · obtain rfl := (Language.mem_one us).1 hus
          rw [List.append_nil]
          exact Relaxed.ifThen (by simpa using hi) (by simpa using hl) hcs (by simpa using hr) hts
        · obtain ⟨o, _, ho, helse, rfl⟩ := mem_oneOf_mul.1 hus
          exact Relaxed.ifElse (by simpa using hi) (by simpa using hl) hcs (by simpa using hr) hts
            (by simpa using ho) helse
      · obtain ⟨p, _, hp, hrest, rfl⟩ := mem_oneOf_mul.1 h
        obtain ⟨ts, hts, _, ⟨q, hq, rfl⟩, rfl⟩ := Language.mem_mul.1 hrest
        exact Relaxed.print (by simpa using hp) hts (by simpa using hq)
      · obtain ⟨l, _, hl, hrest, rfl⟩ := mem_oneOf_mul.1 h
        obtain ⟨ts, hts, _, ⟨r, hr, rfl⟩, rfl⟩ := Language.mem_mul.1 hrest
        exact Relaxed.block (by simpa using hl) hts (by simpa using hr)
      · obtain ⟨ts, hts, _, ⟨q, hq, rfl⟩, rfl⟩ := Language.mem_mul.1 h
        exact Relaxed.expression hts (by simpa using hq)
  refine (congrArg (· * K) heq).trans ?_
  simp only [add_mul, one_mul, mul_assoc, finished, branched]

def initialized : Language Token := oneOf [.semicolon] * K + oneOf [.equal] * finished K

theorem declaration_mul : sentences .declaration * K =
    oneOf [.varWord] * (oneOf [.identifier] * initialized K) + sentences .statement * K := by
  have heq : sentences .declaration =
      oneOf [.varWord] * (oneOf [.identifier] *
        (oneOf [.semicolon] + oneOf [.equal] * (sentences .expression * oneOf [.semicolon]))) +
      sentences .statement := by
    ext w
    constructor
    · rintro (h : Relaxed .declaration w)
      cases h with
      | declare hv hx hq =>
        refine Or.inl (cons_mem_oneOf_mul.2 ⟨by simp [hv], cons_mem_oneOf_mul.2 ⟨by simp [hx], ?_⟩⟩)
        exact Or.inl (singleton_mem_oneOf hq)
      | declareWith hv hx ha he hq =>
        refine Or.inl (cons_mem_oneOf_mul.2 ⟨by simp [hv], cons_mem_oneOf_mul.2 ⟨by simp [hx], ?_⟩⟩)
        refine Or.inr (cons_mem_oneOf_mul.2 ⟨by simp [ha], ?_⟩)
        exact Language.append_mem_mul he (singleton_mem_oneOf hq)
      | statement h => exact Or.inr h
    · rintro (h | h)
      · obtain ⟨v, _, hv, hname, rfl⟩ := mem_oneOf_mul.1 h
        obtain ⟨x, us, hx, htail, rfl⟩ := mem_oneOf_mul.1 hname
        rcases htail with ⟨q, hq, rfl⟩ | htail
        · exact Relaxed.declare (by simpa using hv) (by simpa using hx) (by simpa using hq)
        · obtain ⟨a, _, ha, hvalue, rfl⟩ := mem_oneOf_mul.1 htail
          obtain ⟨ts, hts, _, ⟨q, hq, rfl⟩, rfl⟩ := Language.mem_mul.1 hvalue
          exact Relaxed.declareWith (by simpa using hv) (by simpa using hx) (by simpa using ha) hts
            (by simpa using hq)
      · exact Relaxed.statement h
  refine (congrArg (· * K) heq).trans ?_
  simp only [add_mul, mul_assoc, finished, initialized]

theorem declarations_mul : sentences .declarations * K =
    K + sentences .declaration * (sentences .declarations * K) := by
  have heq : sentences .declarations = 1 + sentences .declaration * sentences .declarations := by
    ext w
    constructor
    · rintro (h : Relaxed .declarations w)
      cases h with
      | none => exact Or.inl Language.nil_mem_one
      | more hs hb => exact Or.inr (Language.append_mem_mul hs hb)
    · rintro (h | h)
      · obtain rfl := (Language.mem_one w).1 h
        exact Relaxed.none
      · obtain ⟨ts, hts, us, hus, rfl⟩ := Language.mem_mul.1 h
        exact Relaxed.more hts hus
  exact (congrArg (· * K) heq).trans (by simp only [add_mul, one_mul, mul_assoc])

end Rules

/-! What the first token says about a phrase and what follows it. -/

section FirstToken

variable {K : Language Token} {t : Token} {w : List Token}

theorem cons_mem_primary_mul : t :: w ∈ sentences .primary * K ↔
    t.kind ∈ atoms ∧ w ∈ K ∨
      t.kind = .leftParen ∧ w ∈ sentences .expression * (oneOf [.rightParen] * K) := by
  rw [primary_mul, Language.mem_add, cons_mem_oneOf_mul, cons_mem_oneOf_mul, List.mem_singleton]

theorem cons_mem_level_zero_mul : t :: w ∈ sentences (.level 0) * K ↔
    t.kind ∈ [.bang, .minus] ∧ w ∈ sentences (.level 0) * K ∨ t :: w ∈ sentences .primary * K := by
  conv_lhs => rw [level_zero_mul, Language.mem_add, cons_mem_oneOf_mul]

theorem cons_mem_statement_mul : t :: w ∈ sentences .statement * K ↔
    t.kind = .ifWord ∧ w ∈ oneOf [.leftParen] * (sentences .expression *
        (oneOf [.rightParen] * (sentences .statement * branched K))) ∨
      t.kind = .printWord ∧ w ∈ finished K ∨
      t.kind = .leftBrace ∧ w ∈ sentences .declarations * (oneOf [.rightBrace] * K) ∨
      t :: w ∈ finished K := by
  conv_lhs => rw [statement_mul]
  simp only [Language.mem_add, cons_mem_oneOf_mul, List.mem_singleton]

theorem cons_mem_declaration_mul : t :: w ∈ sentences .declaration * K ↔
    t.kind = .varWord ∧ w ∈ oneOf [.identifier] * initialized K ∨
      t :: w ∈ sentences .statement * K := by
  rw [declaration_mul, Language.mem_add, cons_mem_oneOf_mul, List.mem_singleton]

end FirstToken

end BlockScript.Grammar
