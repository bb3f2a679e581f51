import BlockScript.Proofs.LineEnds
import BlockScript.Repl

/-! When an input is complete. Counting brackets and looking for an open string tells whether lines
typed so far are all of a program: the brackets of a program are nested, so a part of its lines has
more opening than closing ones of some kind exactly if one of them is closed further down. -/

namespace BlockScript

open Token Grammar

namespace Token

inductive Kind.Pairs : Kind → Kind → Prop
  | parens : Pairs .leftParen .rightParen
  | braces : Pairs .leftBrace .rightBrace

def Kind.isBracket : Kind → Bool
  | .leftParen | .rightParen | .leftBrace | .rightBrace => true
  | _ => false

theorem Kind.Pairs.ends {l r left right : Kind} (hlr : Kind.Pairs l r)
    (hpair : Kind.Pairs left right) :
    (l == left) = (r == right) ∧ (l == right) = false ∧ (r == left) = false := by
  cases hlr <;> cases hpair <;> decide

theorem Kind.Pairs.other {k left right : Kind} (hpair : Kind.Pairs left right)
    (hk : k.isBracket = false) : (k == left) = false ∧ (k == right) = false := by
  rw [beq_eq_false_iff_ne, beq_eq_false_iff_ne]
  constructor
  · rintro rfl
    cases hpair <;> cases hk
  · rintro rfl
    cases hpair <;> cases hk

/-- Brackets of both sorts are properly nested. Other kinds may stand anywhere. -/
inductive Bracketed : List Kind → Prop
  | none : Bracketed []
  | other {k ks} (hk : k.isBracket = false) (h : Bracketed ks) : Bracketed (k :: ks)
  | pair {left right inner rest} (hpair : Kind.Pairs left right) (hinner : Bracketed inner)
      (hrest : Bracketed rest) : Bracketed (left :: inner ++ right :: rest)

namespace Bracketed

variable {a b ks : List Kind} {left right : Kind}

theorem append (ha : Bracketed a) (hb : Bracketed b) : Bracketed (a ++ b) := by
  induction ha with
  | none => exact hb
  | other hk _ ih => exact .other hk ih
  | pair hpair hinner _ _ ih =>
    rw [List.append_assoc, List.cons_append]
    exact .pair hpair hinner ih

theorem single {k : Kind} (hk : k.isBracket = false) : Bracketed [k] := .other hk .none

theorem enclosed (hpair : Kind.Pairs left right) (h : Bracketed ks) :
    Bracketed (left :: ks ++ [right]) := .pair hpair h .none

/-- As many brackets of each sort are closed as are opened. -/
theorem balanced (h : Bracketed ks) (hpair : Kind.Pairs left right) :
    ks.count right = ks.count left := by
  induction h with
  | none => rfl
  | other hk _ ih =>
    obtain ⟨hleft, hright⟩ := hpair.other hk
    rw [List.count_cons, List.count_cons, hleft, hright, ih]
  | pair hlr _ _ ihinner ihrest =>
    obtain ⟨hends, hl, hr⟩ := hlr.ends hpair
    simp only [List.count_append, List.count_cons, hends, hl, hr, Bool.false_eq_true, if_false]
    omega

/-- A part at the front is nested itself, or the outermost bracket it leaves open is closed behind
it. -/
theorem front (h : Bracketed ks) (hks : ks = a ++ b) : Bracketed a ∨
    ∃ before left inner inner' right after, a = before ++ left :: inner ∧
      b = inner' ++ right :: after ∧ Kind.Pairs left right ∧ Bracketed before ∧
      Bracketed (inner ++ inner') := by
  induction h generalizing a with
  | none =>
    obtain ⟨rfl, -⟩ := List.append_eq_nil_iff.1 hks.symm
    exact Or.inl .none
  | @other k ks hk _ ih =>
    cases a with
    | nil => exact Or.inl .none
    | cons _ a =>
      obtain ⟨rfl, hrest⟩ := List.cons.inj hks
      rcases ih hrest with ha | ⟨before, l, inner, inner', r, after, rfl, rfl, hpair, hb, hi⟩
      · exact Or.inl (.other hk ha)
      · exact Or.inr ⟨k :: before, l, inner, inner', r, after, rfl, rfl, hpair, .other hk hb, hi⟩
  | @pair l r inner rest hlr hinner _ _ ih =>
    cases a with
    | nil => exact Or.inl .none
    | cons _ a =>
      obtain ⟨rfl, hrest⟩ := List.cons.inj hks
      -- The part ends behind the inner kinds of this bracket or within them.
      rcases List.append_eq_append_iff.1 hrest with ⟨c, rfl, htail⟩ | ⟨c, rfl, rfl⟩
      · cases c with
        | nil =>
          rw [← List.append_nil inner] at hinner
          exact Or.inr ⟨[], l, inner, [], r, rest, by simp, by simpa using htail.symm, hlr, .none,
            hinner⟩
        | cons _ c =>
          obtain ⟨rfl, hbehind⟩ := List.cons.inj htail
          rcases ih hbehind with ha | ⟨before, l', i, i', r', after, rfl, rfl, hpair, hb, hi⟩
          · exact Or.inl (.pair hlr hinner ha)
          · exact Or.inr ⟨l :: inner ++ r :: before, l', i, i', r', after, by simp, rfl, hpair,
              .pair hlr hinner hb, hi⟩
      · exact Or.inr ⟨[], l, a, c, r, rest, rfl, rfl, hlr, .none, hinner⟩

/-- No part at the front closes more brackets than it opens. -/
theorem count_front_le {a b : List Kind} (h : Bracketed (a ++ b)) (hpair : Kind.Pairs left right) :
    a.count right ≤ a.count left := by
  rcases h.front rfl with ha | ⟨before, l, inner, inner', r, after, rfl, rfl, hlr, hbefore, hinner⟩
  · exact Nat.le_of_eq (ha.balanced hpair)
  · have hfront := hbefore.balanced hpair
    have hback := count_front_le hinner hpair
    obtain ⟨-, hl, -⟩ := hlr.ends hpair
    simp only [List.count_append, List.count_cons, hl, Bool.false_eq_true, if_false]
    omega
termination_by a.length

end Bracketed

/-- A bracket is opened in the first part and closed in the second. -/
inductive Crosses : List Kind → List Kind → Prop
  | intro {before left inner inner' right after} (hpair : Kind.Pairs left right)
      (hinner : Bracketed (inner ++ inner')) :
      Crosses (before ++ left :: inner) (inner' ++ right :: after)

/-- Counting finds the brackets that are closed further on. -/
theorem Bracketed.crosses_iff {a b : List Kind} (h : Bracketed (a ++ b)) : Crosses a b ↔
    ∃ left right, Kind.Pairs left right ∧ a.count right < a.count left := by
  constructor
  · rintro @⟨before, left, inner, inner', right, after, hpair, hinner⟩
    rw [List.append_assoc] at h
    have hfront := h.count_front_le hpair
    have hback := hinner.count_front_le hpair
    obtain ⟨-, hright, -⟩ := hpair.ends hpair
    refine ⟨left, right, hpair, ?_⟩
    simp only [List.count_append, List.count_cons, hright, BEq.rfl, Bool.false_eq_true, if_false,
      if_true]
    omega
  · rintro ⟨left, right, hpair, hcount⟩
    rcases h.front rfl with ha | ⟨before, l, inner, inner', r, after, rfl, rfl, hlr, -, hinner⟩
    · have := ha.balanced hpair
      omega
    · exact .intro hlr hinner

end Token

namespace Grammar

theorem Derives.bracketed {r : Rank} {ts : List Token} {e : Expr} (h : Derives r ts e) :
    Bracketed (ts.map Token.kind) := by
  have hoperator {n : Nat} {k : Kind} (hk : k ∈ operators n) : k.isBracket = false :=
    operators_cases (P := fun _ k => k.isBracket = false)
      rfl rfl rfl rfl rfl rfl rfl rfl rfl rfl rfl rfl hk
  induction h with
  | falseLiteral h | trueLiteral h | nullLiteral h | number h | string h | name h =>
    exact .single (by rw [h]; rfl)
  | @grouping l r ts _ hl _ hr ih =>
    simpa [hl, hr] using Bracketed.enclosed .parens ih
  | primary _ ih | operand _ ih | loosest _ ih => exact ih
  | unary ht _ ih =>
    refine .other ?_ ih
    simp only [List.mem_cons, List.not_mem_nil, or_false] at ht
    rcases ht with ht | ht <;> rw [ht] <;> rfl
  | binary _ ht _ _ ihl ihr | logical _ ht _ _ ihl ihr =>
    rw [List.map_append]
    exact ihl.append (.other (hoperator ht) ihr)
  | assign ht hq _ ih => exact .other (by rw [ht]; rfl) (.other (by rw [hq]; rfl) ih)

/-- The brackets of whatever the grammar reads are nested. -/
theorem Reads.bracketed {ts : List Token} {p : Phrase} (h : Reads ts p) :
    Bracketed (ts.map Token.kind) := by
  have hother {t : Token} {k : Kind} (ht : t.kind = k) (hk : k.isBracket = false) :
      t.kind.isBracket = false := by rw [ht, hk]
  induction h with
  | expression he hq =>
    rw [List.map_append]
    exact he.bracketed.append (.single (hother hq rfl))
  | print hp he hq =>
    rw [List.map_append]
    exact .other (hother hp rfl) (he.bracketed.append (.single (hother hq rfl)))
  | block hl _ hr ih => simpa [hl, hr] using Bracketed.enclosed .braces ih
  | ifThen hi hl hc hr _ ih =>
    refine .other (hother hi rfl) ?_
    simpa [hl, hr] using Bracketed.pair .parens hc.bracketed ih
  | ifElse hi hl hc hr _ _ ho _ ihs ihf =>
    refine .other (hother hi rfl) ?_
    have hrest := ihs.append (.other (hother ho rfl) ihf)
    simpa [hl, hr] using Bracketed.pair .parens hc.bracketed hrest
  | declare hv hx hq =>
    exact .other (hother hv rfl) (.other (hother hx rfl) (.single (hother hq rfl)))
  | declareWith hv hx ha he hq =>
    rw [List.map_append]
    exact .other (hother hv rfl) (.other (hother hx rfl) (.other (hother ha rfl)
      (he.bracketed.append (.single (hother hq rfl)))))
  | statement _ ih => exact ih
  | none => exact .none
  | more _ _ ihs ihb =>
    rw [List.map_append]
    exact ihs.append ihb

end Grammar

namespace Token

open Segment

def Segment.kind? : Segment → Option Kind
  | .token kind _ _ => some kind
  | _ => none

def kindsOf (pieces : List Segment) : List Kind := pieces.filterMap Segment.kind?

theorem kinds_ofSegments (line : Int) (pieces : List Segment) :
    (Lexed.ofSegments line pieces).tokens.map Token.kind = kindsOf pieces ++ [.endOfFile] := by
  induction pieces generalizing line with
  | nil => rfl
  | cons s rest ih =>
    have hrest := ih (line + Bytes.lineFeeds s.text)
    cases s with
    | blank _ | comment _ | fault _ _ => exact hrest
    | token kind lexeme literal => exact congrArg (kind :: ·) hrest

theorem countP_kind (source : Bytes) {k : Kind} (hk : k ≠ .endOfFile) :
    (lex source).tokens.countP (·.kind = k) = (kindsOf (segments source)).count k := by
  have hmap : (lex source).tokens.countP (·.kind = k) =
      ((lex source).tokens.map Token.kind).count k := by
    simp only [List.count, List.countP_map, Function.comp_def, beq_eq_decide]
  rw [hmap, lex, kinds_ofSegments, List.count_append, List.count_singleton,
    if_neg (by simpa using hk.symm), Nat.add_zero]

theorem lex_clean_iff {source : Bytes} : (lex source).diagnostics = [] ↔
    (segments source).filterMap Segment.diagnostic? = [] := by
  rw [← ofSegments_diagnostics 1, List.map_eq_nil_iff]
  rfl

theorem mem_segments_nonempty {source : Bytes} {s : Segment} (h : s ∈ segments source) :
    s.text ≠ [] := by
  have hcuts := segments_cuts source
  obtain ⟨before, after, hsplit⟩ := List.append_of_mem h
  rw [hsplit] at hcuts
  exact hcuts.longest.piece.nonempty

theorem Segment.Longest.shorten {s : Segment} {rest more : Bytes}
    (h : s.Longest (s.text ++ (rest ++ more))) : s.Longest (s.text ++ rest) := by
  refine ⟨h.piece, ⟨rest, rfl⟩, fun other hother hfront => h.longest other hother ?_⟩
  rw [← List.append_assoc]
  exact hfront.trans (List.prefix_append _ _)

/-- A part of a string from its beginning is an open string. -/
theorem cuts_openString {head : Bytes} (h : Bytes.quoteMark ∉ head) :
    Cuts (Bytes.quoteMark :: head) [.fault .unterminatedString (Bytes.quoteMark :: head)] := by
  let s := Segment.fault .unterminatedString (Bytes.quoteMark :: head)
  have hlongest := cut_longest Bytes.quoteMark head
  rw [(Piece.openString h).cut_self rfl] at hlongest
  have hcuts : Cuts (s.text ++ []) [s] := .more (by simpa [s, text] using hlongest) .none
  simpa [s, text] using hcuts

theorem quoteMark_not_mem_head {body head tail : Bytes} (hbody : Bytes.quoteMark ∉ body)
    (h : quoted body = Bytes.quoteMark :: head ++ Bytes.lineFeed :: tail) :
    Bytes.quoteMark ∉ head := by
  have hinner := (List.cons.inj h).2
  rcases List.append_eq_append_iff.1 hinner with ⟨c, -, hc⟩ | ⟨c, rfl, -⟩
  · -- Otherwise the line feed would be the closing quote mark.
    cases c with
    | nil => exact absurd (List.cons.inj hc).1 (by decide)
    | cons _ c => simp at hc
  · intro hmem
    exact hbody (List.mem_append_left _ hmem)

/-- How a source is cut at one of its line feeds. That is a piece of its own between those of the
text above and of the text below; or it lies in a string, and the text above ends in an open one. -/
inductive LineCut (above below : Bytes) : List Segment → Prop
  | apart {before after} (habove : Cuts above before) (hbelow : Cuts below after) :
      LineCut above below (before ++ .blank Bytes.lineFeed :: after)
  | inString {before body after head tail}
      (hquoted : quoted body = Bytes.quoteMark :: head ++ Bytes.lineFeed :: tail)
      (habove : Cuts above (before ++ [.fault .unterminatedString (Bytes.quoteMark :: head)])) :
      LineCut above below (before ++ .token .string (quoted body) (.string body) :: after)

theorem LineCut.cons {s : Segment} {above below : Bytes} {pieces : List Segment}
    (hs : s.Longest (s.text ++ above)) (h : LineCut above below pieces) :
    LineCut (s.text ++ above) below (s :: pieces) := by
  cases h with
  | apart habove hbelow => exact .apart (.more hs habove) hbelow
  | inString hquoted habove =>
    have hfirst := Cuts.more hs habove
    rw [← List.cons_append] at hfirst
    exact .inString hquoted hfirst

/-- The first piece of a source reaches beyond a line feed. -/
theorem lineCut_of_beyond {s : Segment} {above below rest tail : Bytes} {pieces : List Segment}
    (hs : s.Piece) (hrest : Cuts rest pieces) (htext : s.text = above ++ Bytes.lineFeed :: tail)
    (hbelow : below = tail ++ rest) (hclosed : ∀ text, s ≠ .fault .unterminatedString text) :
    LineCut above below (s :: pieces) := by
  have hline : Bytes.lineFeed ∈ s.text := by simp [htext]
  rcases hs.string_or_line with ⟨body, hbody, rfl⟩ | ⟨body, rfl⟩ | ⟨-, hsingle⟩
  · cases above with
    | nil => exact absurd (List.cons.inj htext).1 (by decide)
    | cons b head =>
      obtain rfl : Bytes.quoteMark = b := (List.cons.inj htext).1
      have hopen := cuts_openString (quoteMark_not_mem_head hbody htext)
      rw [← List.nil_append [_]] at hopen
      exact .inString htext hopen
  · exact absurd rfl (hclosed _)
  · have hfeed : [Bytes.lineFeed] = above ++ Bytes.lineFeed :: tail := by
      rw [← htext, hsingle hline]
    obtain ⟨rfl, rfl⟩ : above = [] ∧ tail = [] := by
      cases above with
      | nil => exact ⟨rfl, (List.cons.inj hfeed).2.symm⟩
      | cons _ more => simp at hfeed
    have hblank : s = .blank Bytes.lineFeed := by
      rw [← hs.cut_self (hsingle hline), cut_of_isBlank _ rfl]
    rw [hblank, hbelow]
    exact .apart .none hrest

theorem Cuts.lineCut {source above below : Bytes} {pieces : List Segment} (h : Cuts source pieces)
    (hsource : source = above ++ Bytes.lineFeed :: below)
    (hclosed : ∀ text, .fault .unterminatedString text ∉ pieces) : LineCut above below pieces := by
  induction h generalizing above with
  | none => simp at hsource
  | @more s rest pieces hs hrest ih =>
    have hlater : ∀ text, .fault .unterminatedString text ∉ pieces :=
      fun text hmem => hclosed text (List.mem_cons_of_mem s hmem)
    -- The piece ends before the line feed, so the text above begins with it as well.
    have hwithin (c : Bytes) (habove : above = s.text ++ c)
        (hbehind : rest = c ++ Bytes.lineFeed :: below) : LineCut above below (s :: pieces) := by
      rw [hbehind] at hs
      rw [habove]
      exact .cons hs.shorten (ih hbehind hlater)
    rcases List.append_eq_append_iff.1 hsource with ⟨c, habove, hbehind⟩ | ⟨c, htext, hbehind⟩
    · exact hwithin c habove hbehind
    cases c with
    | nil => exact hwithin [] (by rw [htext, List.append_nil, List.append_nil]) hbehind.symm
    | cons _ tail =>
      obtain ⟨rfl, hbelow⟩ := List.cons.inj hbehind
      refine lineCut_of_beyond hs.piece hrest htext hbelow ?_
      rintro text rfl
      exact hclosed text List.mem_cons_self

/-- An opening bracket among the pieces of a source and the bracket that closes it. -/
structure Matched (pieces before : List Segment) (opening : Segment) (between : List Segment)
    (closing : Segment) (after : List Segment) : Prop where
  split : pieces = before ++ opening :: between ++ closing :: after
  pair : ∃ left ∈ opening.kind?, ∃ right ∈ closing.kind?, Kind.Pairs left right
  inner : Bracketed (kindsOf between)

/-- The line feed behind a text above lies in a string of the source. -/
def InString (above : Bytes) (pieces : List Segment) : Prop :=
  ∃ before lexeme literal after head tail,
    pieces = before ++ .token .string lexeme literal :: after ∧
      lexeme = head ++ Bytes.lineFeed :: tail ∧ above = before.flatMap Segment.text ++ head

def ClosedBelow (above below : Bytes) (pieces : List Segment) : Prop :=
  ∃ before opening between closing after, Matched pieces before opening between closing after ∧
    (before ++ [opening]).flatMap Segment.text <+: above ∧
      (closing :: after).flatMap Segment.text <:+ below

theorem kindsOf_append (p q : List Segment) : kindsOf (p ++ q) = kindsOf p ++ kindsOf q :=
  List.filterMap_append

theorem kindsOf_cons {s : Segment} {k : Kind} (hs : s.kind? = some k) (rest : List Segment) :
    kindsOf (s :: rest) = k :: kindsOf rest := List.filterMap_cons_some hs

theorem kindsOf_split {pieces : List Segment} {before after : List Kind} {k : Kind}
    (h : kindsOf pieces = before ++ k :: after) : ∃ p s q, pieces = p ++ s :: q ∧
      kindsOf p = before ∧ s.kind? = some k ∧ kindsOf q = after := by
  obtain ⟨p, behind, rfl, hp, hbehind⟩ := List.filterMap_eq_append_iff.1 h
  obtain ⟨blanks, s, q, rfl, hblanks, hs, hq⟩ := List.filterMap_eq_cons_iff.1 hbehind
  refine ⟨p ++ blanks, s, q, by simp, ?_, hs, hq⟩
  rw [kindsOf_append, show kindsOf blanks = [] from List.filterMap_eq_nil_iff.2 hblanks,
    List.append_nil]
  exact hp

/-- Of two parts at the front of the same pieces the one with less text is part of the other. -/
theorem front_of_text {pieces p q : List Segment} (hpieces : ∀ s ∈ pieces, s.text ≠ [])
    (hp : p <+: pieces) (hq : q <+: pieces)
    (h : (p.flatMap Segment.text).length ≤ (q.flatMap Segment.text).length) : p <+: q := by
  rcases List.prefix_or_prefix_of_prefix hp hq with hpq | ⟨extra, rfl⟩
  · exact hpq
  cases extra with
  | nil => exact ⟨[], by simp⟩
  | cons s extra =>
    have hs := hpieces s (hp.subset (by simp))
    have := List.length_pos_iff.2 hs
    simp only [List.flatMap_append, List.flatMap_cons, List.length_append] at h
    omega

section Apart

variable {above below : Bytes} {upper lower : List Segment}

theorem not_inString (hupper : Cuts above upper)
    (hpieces : ∀ s ∈ upper ++ .blank Bytes.lineFeed :: lower, s.text ≠ []) :
    ¬ InString above (upper ++ .blank Bytes.lineFeed :: lower) := by
  rintro ⟨before, lexeme, literal, after, head, tail, hsplit, hlexeme, habove⟩
  have htext := hupper.text_eq
  have hfront : before <+: upper := by
    refine front_of_text hpieces ⟨_, hsplit.symm⟩ (List.prefix_append _ _) ?_
    rw [htext, habove, List.length_append]
    omega
  obtain ⟨more, rfl⟩ := hfront
  rw [List.append_assoc, List.append_cancel_left_eq] at hsplit
  cases more with
  | nil => cases hsplit
  | cons s more =>
    obtain ⟨rfl, -⟩ := List.cons.inj hsplit
    have hlength := congrArg List.length (htext.trans habove)
    simp only [List.flatMap_append, List.flatMap_cons, List.length_append, Segment.text, hlexeme,
      List.length_cons] at hlength
    omega

/-- Where the line feed is a piece of its own, a bracket is closed below it exactly if one crosses
from the kinds above to the kinds below. -/
theorem closedBelow_iff (hupper : Cuts above upper) (hlower : Cuts below lower)
    (hpieces : ∀ s ∈ upper ++ .blank Bytes.lineFeed :: lower, s.text ≠ []) :
    ClosedBelow above below (upper ++ .blank Bytes.lineFeed :: lower) ↔
      Crosses (kindsOf upper) (kindsOf lower) := by
  constructor
  · rintro ⟨before, opening, between, closing, after,
      ⟨hsplit, ⟨left, hleft, right, hright, hpair⟩, hinner⟩, habove, hbelow⟩
    obtain ⟨i, rfl⟩ : before ++ [opening] <+: upper := by
      refine front_of_text hpieces ⟨between ++ closing :: after, ?_⟩ (List.prefix_append _ _) ?_
      · simp [hsplit]
      · rw [hupper.text_eq]
        exact habove.length_le
    have hmiddle : i ++ .blank Bytes.lineFeed :: lower = between ++ closing :: after := by
      simpa using hsplit
    rcases List.append_eq_append_iff.1 hmiddle with ⟨c, rfl, hc⟩ | ⟨c, -, hc⟩
    · cases c with
      | nil =>
        obtain ⟨rfl, -⟩ := List.cons.inj hc
        cases hright
      | cons _ i' =>
        rw [List.cons_append] at hc
        obtain ⟨rfl, rfl⟩ := List.cons.inj hc
        rw [List.append_assoc, List.singleton_append, kindsOf_append, kindsOf_append,
          kindsOf_cons hleft, kindsOf_cons hright]
        refine .intro hpair ?_
        rw [kindsOf_append] at hinner
        exact hinner
    · -- The closing bracket would stand before the line feed.
      have hlength := hbelow.length_le
      rw [hc, ← hlower.text_eq] at hlength
      simp only [List.flatMap_append, List.flatMap_cons, List.length_append, Segment.text,
        List.length_singleton] at hlength
      omega
  · intro h
    generalize hkinds : kindsOf upper = above' at h
    generalize hkinds' : kindsOf lower = below' at h
    cases h with
    | intro hpair hinner =>
      obtain ⟨before, opening, i, rfl, -, hleft, rfl⟩ := kindsOf_split hkinds
      obtain ⟨i', closing, after, rfl, rfl, hright, -⟩ := kindsOf_split hkinds'
      refine ⟨before, opening, i ++ .blank Bytes.lineFeed :: i', closing, after,
        ⟨by simp, ?_, ?_⟩, ?_, ?_⟩
      · exact ⟨_, hleft, _, hright, hpair⟩
      · rw [kindsOf_append]
        exact hinner
      · rw [← hupper.text_eq]
        simp [List.flatMap_append]
      · rw [← hlower.text_eq, List.flatMap_append]
        exact List.suffix_append _ _

end Apart

end Token

namespace Session

open Segment

theorem incomplete_of_openString {source text : Bytes}
    (h : .fault .unterminatedString text ∈ segments source) : incomplete source = true := by
  have hdiagnostic : ⟨.lex, 0, [], LexFault.unterminatedString.message⟩ ∈
      (lex source).diagnostics.map Diagnostic.unplaced := by
    rw [lex, ofSegments_diagnostics]
    exact List.mem_filterMap.2 ⟨_, h, rfl⟩
  obtain ⟨d, hd, hunplaced⟩ := List.mem_map.1 hdiagnostic
  have hmessage : d.message = LexFault.unterminatedString.message :=
    congrArg Diagnostic.message hunplaced
  have hany : ((lex source).diagnostics.any fun d =>
      d.message = LexFault.unterminatedString.message) = true :=
    List.any_eq_true.2 ⟨d, hd, by simpa using hmessage⟩
  simp only [incomplete, hany, Bool.true_or]

theorem incomplete_of_clean {source : Bytes} (h : (lex source).diagnostics = []) :
    incomplete source = true ↔ ∃ left right, Kind.Pairs left right ∧
      (kindsOf (segments source)).count right < (kindsOf (segments source)).count left := by
  simp only [incomplete, h, List.any_nil, Bool.false_or, Bool.or_eq_true, decide_eq_true_eq]
  rw [countP_kind _ (by decide), countP_kind _ (by decide), countP_kind _ (by decide),
    countP_kind _ (by decide)]
  constructor
  · rintro (hbrace | hparen)
    · exact ⟨_, _, .braces, hbrace⟩
    · exact ⟨_, _, .parens, hparen⟩
  · rintro ⟨left, right, hpair, hcount⟩
    cases hpair with
    | parens => exact Or.inr hcount
    | braces => exact Or.inl hcount

theorem bracketed_of_program {source : Bytes} (h : (Parsed.ofSource source).diagnostics = []) :
    Bracketed (kindsOf (segments source)) := by
  obtain ⟨ts, last, hlex, -, -, hprogram⟩ := lexical_program h
  have hkinds := kinds_ofSegments 1 (segments source)
  rw [← lex, hlex, List.map_append] at hkinds
  rw [← (List.append_inj' hkinds rfl).1]
  exact Reads.bracketed hprogram

/-- Above a line feed that is a piece of its own the brackets decide. -/
theorem incomplete_iff_closedBelow {above below : Bytes} {upper lower : List Segment}
    (hupper : Cuts above upper) (hlower : Cuts below lower)
    (hclean : (upper ++ .blank Bytes.lineFeed :: lower).filterMap Segment.diagnostic? = [])
    (hpieces : ∀ s ∈ upper ++ .blank Bytes.lineFeed :: lower, s.text ≠ [])
    (hbracketed : Bracketed (kindsOf (upper ++ .blank Bytes.lineFeed :: lower))) :
    incomplete above = true ↔
      ClosedBelow above below (upper ++ .blank Bytes.lineFeed :: lower) := by
  have habove : (lex above).diagnostics = [] := by
    rw [lex_clean_iff, ← hupper.eq_segments]
    rw [List.filterMap_append] at hclean
    exact (List.append_eq_nil_iff.1 hclean).1
  rw [kindsOf_append] at hbracketed
  rw [incomplete_of_clean habove, ← hupper.eq_segments, ← Bracketed.crosses_iff hbracketed,
    closedBelow_iff hupper hlower hpieces]
  rfl

/-- The brackets of a program are nested, so it is a complete input. Of its lines a part from the
first on is an incomplete input exactly if the line feed behind that part lies in a string, or a
bracket in it is closed by one behind the line feed. -/
theorem incomplete_exactly_within_program (source : Bytes)
    (h : (Parsed.ofSource source).diagnostics = []) :
    Bracketed ((lex source).tokens.map Token.kind) ∧ incomplete source = false ∧
      ∀ above below, source = above ++ Bytes.lineFeed :: below →
        (incomplete above = true ↔
          InString above (segments source) ∨ ClosedBelow above below (segments source)) := by
  have hbracketed := bracketed_of_program h
  have hclean : (lex source).diagnostics = [] := (List.append_eq_nil_iff.1 h).1
  refine ⟨?_, ?_, ?_⟩
  · rw [lex, kinds_ofSegments]
    exact hbracketed.append (.single rfl)
  · rw [← Bool.not_eq_true, incomplete_of_clean hclean]
    rintro ⟨left, right, hpair, hcount⟩
    exact absurd (hbracketed.balanced hpair) (Nat.ne_of_lt hcount)
  · intro above below hsource
    have hnone := lex_clean_iff.1 hclean
    have hpieces : ∀ s ∈ segments source, s.text ≠ [] := fun s hs => mem_segments_nonempty hs
    have hclosed : ∀ text, .fault .unterminatedString text ∉ segments source := by
      intro text hmem
      cases List.filterMap_eq_nil_iff.1 hnone _ hmem
    have hline := (segments_cuts source).lineCut hsource hclosed
    generalize segments source = pieces at *
    cases hline with
    | apart hupper hlower =>
      rw [or_iff_right (not_inString hupper hpieces)]
      exact incomplete_iff_closedBelow hupper hlower hnone hpieces hbracketed
    | @inString before _ after head tail hquoted habove =>
      have hopen : .fault .unterminatedString (Bytes.quoteMark :: head) ∈ segments above := by
        rw [← habove.eq_segments]
        exact List.mem_append_right _ List.mem_cons_self
      refine iff_of_true (incomplete_of_openString hopen) (Or.inl ?_)
      refine ⟨before, _, _, after, Bytes.quoteMark :: head, tail, rfl, hquoted, ?_⟩
      rw [← habove.text_eq]
      simp [Segment.text]

/-- A name on the first line, then a block, and in the block a string with a line feed: only the
first line could be the whole input. -/
theorem block_and_string_over_lines :
    let source := Bytes.ofString "a;\n\x7b\n\"\n\";\x7d"
    (Parsed.ofSource source).diagnostics = [] ∧ incomplete source = false ∧
      ¬ ClosedBelow (Bytes.ofString "a;") (Bytes.ofString "\x7b\n\"\n\";\x7d") (segments source) ∧
      (InString (Bytes.ofString "a;\n\x7b") (segments source) ∨
        ClosedBelow (Bytes.ofString "a;\n\x7b") (Bytes.ofString "\"\n\";\x7d") (segments source)) ∧
      (InString (Bytes.ofString "a;\n\x7b\n\"") (segments source) ∨
        ClosedBelow (Bytes.ofString "a;\n\x7b\n\"") (Bytes.ofString "\";\x7d") (segments source)) := by
  intro source
  let text : Token := ⟨.string, quoted [10], 0, .string [10]⟩
  let name : Token := ⟨.identifier, [97], 0, .null⟩
  have hname : Spells [97] [name] := spells_word (by decide) (List.all_eq_true.1 (by decide))
  have hstring : Spells (quoted [10]) [text] := spells_quoted (by decide)
  have hend : Spells [59, 125] [mark .semicolon, mark .rightBrace] :=
    spells_single rfl (spells_single rfl spells_nil)
  have hblock := spells_single (b := 123) rfl (spells_newLine (hstring.append rfl hend))
  have hscan := (hname.append rfl (spells_single (b := 59) rfl (spells_newLine hblock))).scan
  have hread (t : Token) {e : Expr} (h : Derives .primary [t] e) :
      Reads ([t] ++ [mark .semicolon]) (.declaration (.expression e)) :=
    .statement (.expression ((Derives.primary h).toExpression (by omega)) rfl)
  have hreads : Reads (mark .leftBrace :: ([text] ++ [mark .semicolon] ++ []) ++ [mark .rightBrace])
      (.declaration (.block [.expression (.literal (.string [10]))])) :=
    .statement (.block rfl (.more (hread text (.string rfl)) .none) rfl)
  have hprogram := Reads.more (hread name (.name rfl)) (.more hreads .none)
  have hclean : (Parsed.ofSource source).diagnostics = [] := (ofSource_of_scan hscan hprogram).1
  obtain ⟨-, hcomplete, hlines⟩ := incomplete_exactly_within_program source hclean
  refine ⟨hclean, hcomplete, ?_, ?_, ?_⟩
  · intro hclosed
    have hfirst := (hlines _ _ rfl).2 (Or.inr hclosed)
    have hwhole : incomplete (Bytes.ofString "a;") = false := by decide +kernel
    rw [hwhole] at hfirst
    cases hfirst
  · exact (hlines _ _ rfl).1 (by decide +kernel)
  · exact (hlines _ _ rfl).1 (by decide +kernel)

end Session

end BlockScript
