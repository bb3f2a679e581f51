import BlockScript.Proofs.QuotedText
import BlockScript.Proofs.Scan
import BlockScript.Tree

/-! The parts of a dump: words, quoted strings and lists in parentheses. Each can be told from what
follows it, so the text of a part determines what it is made of. -/

namespace BlockScript

open Token

section Parts

def endsWord (b : UInt8) : Bool := b == 32 || b == 34 || b == 40 || b == 41 || b == Bytes.lineFeed

structure IsWord (word : Bytes) : Prop where
  nonempty : word ≠ []
  bytes : ∀ b ∈ word, endsWord b = false

/-- What follows a part of a dump: another part, or the end of the list, of the line or of all. -/
def EndsPart (rest : Bytes) : Prop := ∀ b ∈ rest.head?, b = 32 ∨ b = 41 ∨ b = Bytes.lineFeed

/-- A part of a dump by what it is made of. -/
inductive Shape
  | word (text : Bytes)
  | quote (s : Bytes)
  | list (head : Bytes) (parts : List Bytes)

namespace Shape

def text : Shape → Bytes
  | word text => text
  | quote s => Text.quote s
  | list head parts => parenthesized head parts

def parts : Shape → List Bytes
  | list _ parts => parts
  | _ => []

def HasWords : Shape → Prop
  | word text => IsWord text
  | quote _ => True
  | list head _ => IsWord head

end Shape

inductive IsPart : Bytes → Prop
  | ofShape {shape : Shape} (hwords : shape.HasWords) (hparts : ∀ part ∈ shape.parts, IsPart part) :
      IsPart shape.text

theorem parenthesized_append (head : Bytes) (parts : List Bytes) (rest : Bytes) :
    parenthesized head parts ++ rest = 40 :: (head ++ (parts.flatMap (32 :: ·) ++ 41 :: rest)) := by
  simp [parenthesized]

theorem quote_append (s rest : Bytes) : ∃ more, Text.quote s ++ rest = 34 :: more := ⟨_, rfl⟩

theorem IsWord.head_ne {word : Bytes} (h : IsWord word) {b : UInt8} (hb : endsWord b = true)
    {x y : Bytes} : word ++ x ≠ b :: y := by
  obtain ⟨c, more, rfl⟩ := List.exists_cons_of_ne_nil h.nonempty
  intro heq
  have hc := h.bytes c List.mem_cons_self
  rw [(List.cons.inj heq).1, hb] at hc
  cases hc

theorem IsWord.append_inj {a b x y : Bytes} (ha : IsWord a) (hb : IsWord b)
    (hx : ∀ c ∈ x.head?, endsWord c = true) (hy : ∀ c ∈ y.head?, endsWord c = true)
    (h : a ++ x = b ++ y) : a = b ∧ x = y := by
  have hcut {a x : Bytes} (ha : IsWord a) (hx : ∀ c ∈ x.head?, endsWord c = true) :=
    @takeWhile_append_stop (fun c => !endsWord c) a x (fun c hc => by rw [ha.bytes c hc]; rfl)
      (fun c hc => by rw [hx c hc]; rfl)
  obtain ⟨htake, hdrop⟩ := hcut ha hx
  obtain ⟨htake', hdrop'⟩ := hcut hb hy
  rw [h, htake'] at htake
  rw [h, hdrop'] at hdrop
  exact ⟨htake.symm, hdrop.symm⟩

theorem EndsPart.endsWord {rest : Bytes} (h : EndsPart rest) :
    ∀ c ∈ rest.head?, endsWord c = true := by
  intro c hc
  rcases h c hc with rfl | rfl | rfl <;> rfl

theorem endsPart_nil : EndsPart [] := by
  intro b hb
  cases hb

theorem endsPart_cons {b : UInt8} (h : b = 32 ∨ b = 41 ∨ b = Bytes.lineFeed) (rest : Bytes) :
    EndsPart (b :: rest) := by
  intro c hc
  rwa [← Option.some.inj hc]

/-- A part that can be told from what follows it. -/
def ToldApart (part : Bytes) : Prop :=
  ∀ other x y, IsPart other → EndsPart x → EndsPart y → part ++ x = other ++ y →
    part = other ∧ x = y

theorem endsPart_parts {separator : UInt8} (hseparator : EndsPart [separator]) (parts : List Bytes)
    {x : Bytes} (hx : EndsPart x) : EndsPart (parts.flatMap (separator :: ·) ++ x) := by
  cases parts with
  | nil => exact hx
  | cons part parts => exact hseparator

/-- Parts behind separators can be told from what follows them, if that begins with no separator. -/
theorem parts_append_inj {separator : UInt8} (hseparator : EndsPart [separator])
    {parts others : List Bytes} {x y : Bytes} (hparts : ∀ part ∈ parts, ToldApart part)
    (hothers : ∀ part ∈ others, IsPart part) (hx : EndsPart x) (hy : EndsPart y)
    (hnx : x.head? ≠ some separator) (hny : y.head? ≠ some separator)
    (h : parts.flatMap (separator :: ·) ++ x = others.flatMap (separator :: ·) ++ y) :
    parts = others ∧ x = y := by
  induction parts generalizing others with
  | nil =>
    cases others with
    | nil => exact ⟨rfl, h⟩
    | cons other others => exact absurd (congrArg List.head? h) hnx
  | cons part parts ih =>
    cases others with
    | nil => exact absurd (congrArg List.head? h).symm hny
    | cons other others =>
      rw [List.flatMap_cons, List.flatMap_cons, List.append_assoc, List.append_assoc] at h
      obtain ⟨hfirst, hrest⟩ := hparts part List.mem_cons_self other _ _
        (hothers other List.mem_cons_self) (endsPart_parts hseparator parts hx)
        (endsPart_parts hseparator others hy) (List.cons.inj h).2
      obtain ⟨hmore, hafter⟩ := ih (fun p hp => hparts p (List.mem_cons_of_mem _ hp))
        (fun p hp => hothers p (List.mem_cons_of_mem _ hp)) hrest
      exact ⟨by rw [hfirst, hmore], hafter⟩

theorem list_append_inj {head head' : Bytes} {parts parts' : List Bytes} {x y : Bytes}
    (hhead : IsWord head) (hhead' : IsWord head') (hparts : ∀ part ∈ parts, ToldApart part)
    (hparts' : ∀ part ∈ parts', IsPart part)
    (h : parenthesized head parts ++ x = parenthesized head' parts' ++ y) :
    head = head' ∧ parts = parts' ∧ x = y := by
  rw [parenthesized_append, parenthesized_append] at h
  have hblank : EndsPart [32] := endsPart_cons (.inl rfl) []
  have hclose (x : Bytes) : EndsPart (41 :: x) := endsPart_cons (.inr (.inl rfl)) x
  have hother (x : Bytes) : (41 :: x).head? ≠ some 32 := by simp
  obtain ⟨hsame, hrest⟩ := hhead.append_inj hhead'
    (endsPart_parts hblank parts (hclose x)).endsWord
    (endsPart_parts hblank parts' (hclose y)).endsWord (List.cons.inj h).2
  obtain ⟨hall, hafter⟩ := parts_append_inj hblank hparts hparts' (hclose x) (hclose y) (hother x)
    (hother y) hrest
  exact ⟨hsame, hall, (List.cons.inj hafter).2⟩

theorem Shape.append_inj {a b : Shape} {x y : Bytes} (ha : a.HasWords) (hb : b.HasWords)
    (hparts : ∀ part ∈ a.parts, ToldApart part) (hothers : ∀ part ∈ b.parts, IsPart part)
    (hx : EndsPart x) (hy : EndsPart y) (h : a.text ++ x = b.text ++ y) : a = b ∧ x = y := by
  cases a with
  | word w =>
    cases b with
    | word v =>
      obtain ⟨rfl, hrest⟩ := IsWord.append_inj ha hb hx.endsWord hy.endsWord h
      exact ⟨rfl, hrest⟩
    | quote t =>
      obtain ⟨more, hquote⟩ := quote_append t y
      exact absurd (h.trans hquote) (IsWord.head_ne ha rfl)
    | list head parts =>
      exact absurd (h.trans (parenthesized_append ..)) (IsWord.head_ne ha rfl)
  | quote s =>
    obtain ⟨more, hquote⟩ := quote_append s x
    cases b with
    | word v => exact absurd (h.symm.trans hquote) (IsWord.head_ne hb rfl)
    | quote t =>
      obtain ⟨rfl, hrest⟩ := Text.quote_append_inj h
      exact ⟨rfl, hrest⟩
    | list head parts =>
      have hheads := hquote.symm.trans (h.trans (parenthesized_append ..))
      exact absurd (List.cons.inj hheads).1 (by decide)
  | list head parts =>
    cases b with
    | word v => exact absurd (h.symm.trans (parenthesized_append ..)) (IsWord.head_ne hb rfl)
    | quote t =>
      obtain ⟨more, hquote⟩ := quote_append t y
      have hheads := hquote.symm.trans (h.symm.trans (parenthesized_append ..))
      exact absurd (List.cons.inj hheads).1 (by decide)
    | list head' parts' =>
      obtain ⟨rfl, rfl, hrest⟩ := list_append_inj ha hb hparts hothers h
      exact ⟨rfl, hrest⟩

theorem IsPart.toldApart {part : Bytes} (h : IsPart part) : ToldApart part := by
  induction h with
  | ofShape hwords _ ih =>
    rintro _ x y ⟨hwords', hparts'⟩ hx hy heq
    obtain ⟨rfl, hrest⟩ := Shape.append_inj hwords hwords' ih hparts' hx hy heq
    exact ⟨rfl, hrest⟩

structure Shape.Sound (shape : Shape) : Prop where
  words : shape.HasWords
  parts : ∀ part ∈ shape.parts, IsPart part

/-- The text of a part tells its shape. -/
theorem Shape.Sound.text_inj {a b : Shape} (ha : a.Sound) (hb : b.Sound) (h : a.text = b.text) :
    a = b := by
  refine (Shape.append_inj (x := []) (y := []) ha.words hb.words ?_ hb.parts endsPart_nil
    endsPart_nil ?_).1
  · intro part hpart
    exact (ha.parts part hpart).toldApart
  · rw [h]

theorem Shape.Sound.isPart {shape : Shape} (h : shape.Sound) : IsPart shape.text :=
  .ofShape h.words h.parts

theorem IsWord.sound {text : Bytes} (h : IsWord text) : (Shape.word text).Sound := by
  refine ⟨h, ?_⟩
  intro part hpart
  cases hpart

theorem IsWord.isPart {text : Bytes} (h : IsWord text) : IsPart text :=
  h.sound.isPart

theorem IsPart.ne_nil {part : Bytes} (h : IsPart part) : part ≠ [] := by
  cases h with
  | @ofShape shape hwords _ =>
    cases shape with
    | word text => exact IsWord.nonempty hwords
    | quote s => exact List.cons_ne_nil _ _
    | list head parts => exact List.cons_ne_nil _ _

theorem join_cons (separator : UInt8) (part : Bytes) (parts : List Bytes) :
    Bytes.join [separator] (part :: parts) = part ++ parts.flatMap (separator :: ·) := by
  induction parts generalizing part with
  | nil => rw [Bytes.join, List.flatMap_nil, List.append_nil]
  | cons next parts ih =>
    rw [Bytes.join, ih, List.flatMap_cons, List.append_assoc, List.singleton_append,
      List.cons_append]

/-- Parts on lines of their own can be told apart. -/
theorem join_inj {parts others : List Bytes} (hparts : ∀ part ∈ parts, IsPart part)
    (hothers : ∀ part ∈ others, IsPart part)
    (h : Bytes.join [Bytes.lineFeed] parts = Bytes.join [Bytes.lineFeed] others) :
    parts = others := by
  have hline : EndsPart [Bytes.lineFeed] := endsPart_cons (.inr (.inr rfl)) []
  have hends (parts : List Bytes) : EndsPart (parts.flatMap (Bytes.lineFeed :: ·)) := by
    have hnone := endsPart_parts hline parts endsPart_nil
    rwa [List.append_nil] at hnone
  cases parts with
  | nil =>
    cases others with
    | nil => rfl
    | cons other others =>
      rw [join_cons] at h
      exact absurd (List.append_eq_nil_iff.1 h.symm).1 (hothers other List.mem_cons_self).ne_nil
  | cons part parts =>
    cases others with
    | nil =>
      rw [join_cons] at h
      exact absurd (List.append_eq_nil_iff.1 h).1 (hparts part List.mem_cons_self).ne_nil
    | cons other others =>
      rw [join_cons, join_cons] at h
      obtain ⟨hpart, hrest⟩ := List.forall_mem_cons.1 hparts
      obtain ⟨hother, hmore⟩ := List.forall_mem_cons.1 hothers
      obtain ⟨hfirst, hlines⟩ := hpart.toldApart other _ _ hother (hends parts) (hends others) h
      have hsame := parts_append_inj hline (x := []) (y := [])
        (fun p hp => (hrest p hp).toldApart) hmore endsPart_nil endsPart_nil (by simp) (by simp)
        (congrArg (· ++ []) hlines)
      rw [hfirst, hsame.1]

end Parts

section Words

theorem IsWord.ofAll {word : Bytes} (hne : word ≠ [])
    (h : (word.all fun b => !endsWord b) = true) : IsWord word := by
  refine ⟨hne, fun b hb => ?_⟩
  simpa using List.all_eq_true.1 h b hb

/-- A sort of bytes to which no end of a word belongs. -/
theorem not_endsWord {p : UInt8 → Bool}
    (hp : ([32, 34, 40, 41, Bytes.lineFeed].any p) = false) {b : UInt8} (hb : p b = true) :
    endsWord b = false := by
  by_contra hends
  have hmem : b ∈ [32, 34, 40, 41, Bytes.lineFeed] := by
    simp only [endsWord, Bool.not_eq_false, Bool.or_eq_true, beq_iff_eq, or_assoc] at hends
    simpa using hends
  exact absurd (List.any_eq_true.2 ⟨b, hmem, hb⟩) (by rw [hp]; exact Bool.false_ne_true)

theorem Token.IsName.isWord {word : Bytes} (h : IsName word) : IsWord word := by
  refine ⟨?_, fun b hb => not_endsWord rfl (h.bytes b hb)⟩
  rintro rfl
  cases h.letter

theorem isWord_lexeme {n : Segment.Numeral} (h : Decimal.WellWritten n) : IsWord n.lexeme := by
  refine ⟨Segment.Numeral.lexeme_ne_nil h.whole, fun b hb => ?_⟩
  rcases h.mem_lexeme hb with hdigit | rfl
  · exact not_endsWord rfl hdigit
  · rfl

namespace Decimal

variable {x y : Float}

/-- The text of a finite number is a word that begins with a digit, or a minus before such a
word. -/
theorem text_eq_lexeme (h : isFinite x = true) : ∃ n : Segment.Numeral, WellWritten n ∧
    n.value? = some (ofPlace (place x)) ∧
      Layout.program.text x = (if isNegative x then [45] else []) ++ n.lexeme := by
  cases hsign : isNegative x with
  | false =>
    obtain ⟨n, hn, hlexeme, hvalue⟩ := writes_text hsign h
    exact ⟨n, hn, by rwa [ofPlace_place hsign], hlexeme.symm⟩
  | true =>
    have hplace := place_lt_of_isFinite h
    obtain ⟨n, hn, hlexeme, hvalue⟩ :=
      writes_text (isNegative_ofPlace hplace) (isFinite_ofPlace hplace)
    refine ⟨n, hn, hvalue, ?_⟩
    rw [text_of_isNegative hsign h, hlexeme]
    rfl

theorem isWord_text (h : isFinite x = true) : IsWord (Layout.program.text x) := by
  obtain ⟨n, hn, -, htext⟩ := text_eq_lexeme h
  have hlexeme := isWord_lexeme hn
  rw [htext]
  cases isNegative x with
  | false => exact hlexeme
  | true => exact ⟨List.cons_ne_nil _ _, List.forall_mem_cons.2 ⟨rfl, hlexeme.bytes⟩⟩

theorem head_text (h : isFinite x = true) :
    (Layout.program.text x).head?.any Bytes.isLetter = false := by
  obtain ⟨n, hn, -, htext⟩ := text_eq_lexeme h
  obtain ⟨b, more, hlexeme, hdigit⟩ := hn.head_lexeme
  rw [htext, hlexeme]
  cases isNegative x with
  | true => rfl
  | false =>
    by_contra hletter
    rw [Bool.not_eq_false] at hletter
    rw [Segment.not_isDigit_of_isLetter hletter] at hdigit
    cases hdigit

/-- Numbers with the same text are the same. -/
theorem text_inj (hx : isFinite x = true) (hy : isFinite y = true)
    (h : Layout.program.text x = Layout.program.text y) : x = y := by
  obtain ⟨n, hn, hvalue, htext⟩ := text_eq_lexeme hx
  obtain ⟨m, hm, hvalue', htext'⟩ := text_eq_lexeme hy
  rw [htext, htext'] at h
  -- The first byte is a digit or a minus, which tells the sign.
  have hsign : isNegative x = isNegative y := by
    obtain ⟨b, more, hlexeme, hdigit⟩ := hn.head_lexeme
    obtain ⟨c, more', hlexeme', hdigit'⟩ := hm.head_lexeme
    rw [hlexeme, hlexeme'] at h
    cases hsx : isNegative x <;> cases hsy : isNegative y
    · rfl
    · rw [hsx, hsy] at h
      rw [(List.cons.inj h).1] at hdigit
      cases hdigit
    · rw [hsx, hsy] at h
      rw [← (List.cons.inj h).1] at hdigit'
      cases hdigit'
    · rfl
  rw [hsign] at h
  have hsame : n = m := by
    have hnone : Delimits [] := by
      intro b hb
      cases hb
    have htake := Segment.Numeral.take_lexeme hn hnone
    rw [List.append_cancel_left h, Segment.Numeral.take_lexeme hm hnone] at htake
    exact (Prod.mk.inj htake).1.symm
  rw [hsame, hvalue'] at hvalue
  have hmagnitude := Option.some.inj hvalue
  cases hsy : isNegative y with
  | false => rw [← ofPlace_place hsy, hmagnitude, ofPlace_place (hsign.trans hsy)]
  | true =>
    rw [← neg_ofPlace_place hsy hy, hmagnitude, neg_ofPlace_place (hsign.trans hsy) hx]

end Decimal

end Words

end BlockScript
