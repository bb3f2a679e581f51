import Mathlib.Algebra.Ring.Nat
import Mathlib.Tactic.SplitIfs
import BlockScript.Proofs.JsonStrings
import BlockScript.Text.Characters

/-! Quoted text can be told from what follows it, and two strings never have the same one. Between
the quote marks an item stands for itself, for a backslash with a letter, or for a backslash with a
mark and hexadecimal digits, whose number the mark tells. -/

namespace BlockScript.Text

open Utf8
open String (utf8EncodeChar)

theorem hexDigit_inj : ∀ a < 16, ∀ b < 16, Bytes.hexDigit a = Bytes.hexDigit b → a = b := by decide

theorem hex_inj {width a b : Nat} (ha : a < 16 ^ width) (hb : b < 16 ^ width)
    (h : Bytes.hex width a = Bytes.hex width b) : a = b := by
  induction width generalizing a b with
  | zero => omega
  | succ width ih =>
    rw [Bytes.hex, Bytes.hex] at h
    obtain ⟨hfront, hlast⟩ := List.append_inj' h rfl
    rw [Nat.pow_succ'] at ha hb
    have hquotient := ih (Nat.div_lt_of_lt_mul ha) (Nat.div_lt_of_lt_mul hb) hfront
    have hdigit := hexDigit_inj _ (Nat.mod_lt a (by decide)) _ (Nat.mod_lt b (by decide))
      (List.cons.inj hlast).1
    omega

/-- The encodings of characters can be told from what follows them. -/
theorem encode_append_inj {c d : Char} {x y : Bytes}
    (h : utf8EncodeChar c ++ x = utf8EncodeChar d ++ y) : c = d ∧ x = y := by
  obtain ⟨b, rest, htext⟩ : ∃ b rest, utf8EncodeChar c ++ x = b :: rest := by
    cases hc : utf8EncodeChar c with
    | nil => simp at hc
    | cons b rest => exact ⟨b, rest ++ x, rfl⟩
  have hfirst := next_encode c htext
  rw [next_encode d (h ▸ htext), Prod.mk.injEq, Prod.mk.injEq] at hfirst
  obtain ⟨hchar, -, hrest⟩ := hfirst
  exact ⟨Char.toNat_inj.1 (Item.char.inj hchar).symm, hrest.symm⟩

def letters : List (Nat × Char) :=
  [(7, 'a'), (8, 'b'), (12, 'f'), (10, 'n'), (13, 'r'), (9, 't'), (11, 'v'), (34, '"'), (92, '\\')]

theorem mem_letters {code : Nat} {c : Char} (h : escapeLetter? code = some c) :
    (code, c) ∈ letters := by
  unfold escapeLetter? at h
  split_ifs at h <;> cases h <;> subst code <;> decide

def marks : List (UInt8 × Nat) := [(120, 2), (117, 4), (85, 8)]

/-- What hexadecimal digits stand for: two for a byte, more for a character. -/
def meaning (mark : UInt8) (n : Nat) : Bytes := if mark = 120 then [n.toUInt8] else encode n

/-- A piece of a string and how it is written between quote marks. -/
inductive Written : Bytes → Bytes → Prop
  | plain {c : Char} (hquote : c.toNat ≠ 34) (hslash : c.toNat ≠ 92) :
      Written (utf8EncodeChar c) (utf8EncodeChar c)
  | letter {code : Nat} {c : Char} (h : (code, c) ∈ letters) :
      Written [code.toUInt8] [92, c.toNat.toUInt8]
  | hex {mark : UInt8} {width n : Nat} (hmark : (mark, width) ∈ marks) (hn : n < 16 ^ width) :
      Written (meaning mark n) (92 :: mark :: Bytes.hex width n)

theorem encode_ascii {c : Char} (h : c.toNat < 128) : utf8EncodeChar c = [c.toNat.toUInt8] := by
  rw [← encode_toNat, encode, if_pos h]

theorem written_quoteItem {item : Item × Bytes} (h : Spells item) :
    Written item.2 (quoteItem item) := by
  cases h with
  | stray b =>
    have hbyte : meaning 120 b.toNat = [b] := congrArg (fun b => [b]) UInt8.ofNat_toNat
    have hwritten := Written.hex (show (120, 2) ∈ marks by decide) b.toNat_lt
    rwa [hbyte] at hwritten
  | char c =>
    have hrange := char_range c
    rw [quoteItem]
    cases hletter : escapeLetter? c.toNat with
    | some letter =>
      have hmem := mem_letters hletter
      have hascii : c.toNat < 128 := by
        have hall : ∀ entry ∈ letters, entry.1 < 128 := by decide
        exact hall _ hmem
      rw [encode_ascii hascii]
      exact .letter hmem
    | none =>
      dsimp only
      by_cases hvisible : isVisible c.toNat = true
      · rw [if_pos hvisible]
        refine .plain ?_ ?_
        · intro hcode
          rw [hcode] at hletter
          cases hletter
        · intro hcode
          rw [hcode] at hletter
          cases hletter
      · rw [if_neg hvisible]
        by_cases hascii : c.toNat < 0x80
        · rw [if_pos hascii, encode_ascii hascii]
          exact .hex (show (120, 2) ∈ marks by decide) (by omega)
        · rw [if_neg hascii, ← encode_toNat]
          by_cases hunit : c.toNat < 0x10000
          · rw [if_pos hunit]
            exact .hex (show (117, 4) ∈ marks by decide) hunit
          · rw [if_neg hunit]
            exact .hex (show (85, 8) ∈ marks by decide) (by omega)

/-- Only the encoding of an ASCII character begins with it. -/
theorem encode_ne_cons {c d : Char} (hd : d.toNat < 128) (h : c.toNat ≠ d.toNat) {x y : Bytes} :
    utf8EncodeChar c ++ x ≠ d.toNat.toUInt8 :: y := by
  intro htext
  have hsame : utf8EncodeChar c ++ x = utf8EncodeChar d ++ y := by
    rw [htext, encode_ascii hd, List.singleton_append]
  exact h (congrArg Char.toNat (encode_append_inj hsame).1)

theorem encode_ne_slash {c : Char} (h : c.toNat ≠ 92) {x y : Bytes} :
    utf8EncodeChar c ++ x ≠ 92 :: y :=
  encode_ne_cons (d := '\\') (by decide) h

theorem Written.append_inj {s t a b x y : Bytes} (hs : Written s a) (ht : Written t b)
    (h : a ++ x = b ++ y) : s = t ∧ x = y := by
  cases hs with
  | @plain c hquote hslash =>
    cases ht with
    | plain hquote' hslash' =>
      obtain ⟨rfl, hrest⟩ := encode_append_inj h
      exact ⟨rfl, hrest⟩
    | letter _ => exact absurd h (encode_ne_slash hslash)
    | hex _ _ => exact absurd h (encode_ne_slash hslash)
  | @letter code c hletter =>
    cases ht with
    | plain hquote' hslash' => exact absurd h.symm (encode_ne_slash hslash')
    | letter hletter' =>
      have hall : ∀ a ∈ letters, ∀ b ∈ letters,
          a.2.toNat.toUInt8 = b.2.toNat.toUInt8 → a.1 = b.1 := by decide
      obtain ⟨hbyte, hrest⟩ := List.cons.inj (List.cons.inj h).2
      exact ⟨congrArg (fun n => [n.toUInt8]) (hall _ hletter _ hletter' hbyte), hrest⟩
    | hex hmark _ =>
      have hall : ∀ a ∈ letters, ∀ b ∈ marks, a.2.toNat.toUInt8 ≠ b.1 := by decide
      exact absurd (List.cons.inj (List.cons.inj h).2).1 (hall _ hletter _ hmark)
  | @hex mark width n hmark hn =>
    cases ht with
    | plain hquote' hslash' => exact absurd h.symm (encode_ne_slash hslash')
    | letter hletter' =>
      have hall : ∀ a ∈ letters, ∀ b ∈ marks, a.2.toNat.toUInt8 ≠ b.1 := by decide
      exact absurd (List.cons.inj (List.cons.inj h).2).1.symm (hall _ hletter' _ hmark)
    | @hex mark' width' n' hmark' hn' =>
      have hall : ∀ a ∈ marks, ∀ b ∈ marks, a.1 = b.1 → a.2 = b.2 := by decide
      obtain ⟨hsame, hdigits⟩ := List.cons.inj (List.cons.inj h).2
      have hwidth : width = width' := hall _ hmark _ hmark' hsame
      subst hsame hwidth
      obtain ⟨hhex, hrest⟩ := List.append_inj hdigits (by rw [Json.length_hex, Json.length_hex])
      rw [hex_inj hn hn' hhex]
      exact ⟨rfl, hrest⟩

theorem Written.ne_quote {s a x y : Bytes} (h : Written s a) : a ++ x ≠ 34 :: y := by
  cases h with
  | plain hquote _ => exact encode_ne_cons (d := '"') (by decide) hquote
  | letter _ =>
    intro htext
    exact absurd (List.cons.inj htext).1 (by decide)
  | hex _ _ =>
    intro htext
    exact absurd (List.cons.inj htext).1 (by decide)

/-- Items up to a quote mark can be told from what follows it. -/
theorem items_append_inj {items items' : List (Item × Bytes)} {x y : Bytes}
    (hitems : ∀ item ∈ items, Spells item) (hitems' : ∀ item ∈ items', Spells item)
    (h : items.flatMap quoteItem ++ 34 :: x = items'.flatMap quoteItem ++ 34 :: y) :
    items.flatMap (·.2) = items'.flatMap (·.2) ∧ x = y := by
  induction items generalizing items' with
  | nil =>
    cases items' with
    | nil => exact ⟨rfl, (List.cons.inj h).2⟩
    | cons item' items' =>
      rw [List.flatMap_cons, List.append_assoc] at h
      have hwritten := written_quoteItem (hitems' item' List.mem_cons_self)
      exact absurd h.symm hwritten.ne_quote
  | cons item items ih =>
    have hwritten := written_quoteItem (hitems item List.mem_cons_self)
    cases items' with
    | nil =>
      rw [List.flatMap_cons, List.append_assoc] at h
      exact absurd h hwritten.ne_quote
    | cons item' items' =>
      rw [List.flatMap_cons, List.flatMap_cons, List.append_assoc, List.append_assoc] at h
      have hwritten' := written_quoteItem (hitems' item' List.mem_cons_self)
      obtain ⟨hfirst, hmore⟩ := hwritten.append_inj hwritten' h
      obtain ⟨hrest, hafter⟩ := ih (fun i hi => hitems i (List.mem_cons_of_mem _ hi))
        (fun i hi => hitems' i (List.mem_cons_of_mem _ hi)) hmore
      rw [List.flatMap_cons, List.flatMap_cons, hfirst, hrest]
      exact ⟨rfl, hafter⟩

/-- A quoted string can be told from what follows it. -/
theorem quote_append_inj {s t x y : Bytes} (h : quote s ++ x = quote t ++ y) : s = t ∧ x = y := by
  have hquote (s x : Bytes) : quote s ++ x = 34 :: ((items s).flatMap quoteItem ++ 34 :: x) := by
    simp [quote, Bytes.ofChar]
  rw [hquote, hquote] at h
  have hitems :=
    items_append_inj (spells_of_mem_items s) (spells_of_mem_items t) (List.cons.inj h).2
  rwa [flatMap_items, flatMap_items] at hitems

end BlockScript.Text
