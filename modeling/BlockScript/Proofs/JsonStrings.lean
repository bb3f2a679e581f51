import BlockScript.Json
import BlockScript.Proofs.Utf8Items

/-! A JSON string is read back as the text it was written for, except that bytes belonging to no
character come back as the replacement character. -/

namespace BlockScript.Json

open Utf8 Reader
open String (utf8EncodeChar)

namespace Reader

def sanitizeItem : Item × Bytes → Bytes
  | (.char _, bytes) => bytes
  | (.stray _, _) => encode replacement

theorem sanitize_eq (s : Bytes) : sanitize s = (items s).flatMap sanitizeItem := by
  rw [sanitize]
  congr 1

theorem encode_replacement : encode replacement = utf8EncodeChar (Char.ofNat 0xFFFD) := by
  rw [← encode_toNat]
  rfl

theorem sanitize_isText (s : Bytes) : IsText (sanitize s) := by
  rw [sanitize_eq]
  apply IsText.flatMap
  intro item hitem
  cases spells_of_mem_items s item hitem with
  | char c => exact .char c
  | stray b =>
    rw [sanitizeItem, encode_replacement]
    exact .char _

theorem sanitize_of_isText {s : Bytes} (h : IsText s) : sanitize s = s := by
  obtain ⟨cs, rfl⟩ := h
  rw [sanitize_eq, items_ofChars, List.flatMap_map]
  rfl

/-- The text inside the quote marks is read as the given one. Its pieces are found and put together
whatever stands around it. -/
def Spelled (text meaning : Bytes) : Prop :=
  ∃ ps, (∀ done rest, pieces done (text ++ rest) = pieces (ps.reverse ++ done) rest) ∧
    ∀ done rest, assembleOnto done (ps ++ rest) = assembleOnto (meaning.reverse ++ done) rest

namespace Spelled

theorem nil : Spelled [] [] := ⟨[], by simp, by simp⟩

theorem append {a b x y : Bytes} (ha : Spelled a x) (hb : Spelled b y) :
    Spelled (a ++ b) (x ++ y) := by
  obtain ⟨ps, hps, hx⟩ := ha
  obtain ⟨qs, hqs, hy⟩ := hb
  refine ⟨ps ++ qs, ?_, ?_⟩
  · intro done rest
    rw [List.append_assoc, hps, hqs, List.reverse_append, List.append_assoc]
  · intro done rest
    rw [List.append_assoc, hx, hy, List.reverse_append, List.append_assoc]

theorem flatMap {α : Type} {xs : List α} {f g : α → Bytes} (h : ∀ x ∈ xs, Spelled (f x) (g x)) :
    Spelled (xs.flatMap f) (xs.flatMap g) := by
  induction xs with
  | nil => exact nil
  | cons x xs ih =>
    rw [List.flatMap_cons, List.flatMap_cons]
    exact (h x List.mem_cons_self).append (ih fun y hy => h y (List.mem_cons_of_mem x hy))

/-- One byte, found as it stands or behind a backslash. -/
theorem ofByte {text : Bytes} {b : UInt8}
    (h : ∀ done rest, pieces done (text ++ rest) = pieces (.byte b :: done) rest) :
    Spelled text [b] :=
  ⟨[.byte b], h, fun _ _ => rfl⟩

theorem byte {b : UInt8} (hcontrol : 32 ≤ b.toNat) (hquote : b ≠ 34) (hslash : b ≠ 92) :
    Spelled [b] [b] := by
  apply ofByte
  intro done rest
  have hplain : ¬ b < 32 := by
    rw [UInt8.lt_iff_toNat_lt]
    exact Nat.not_lt.2 hcontrol
  rw [List.singleton_append, pieces]
  · rw [if_neg (by simp [hplain, hslash])]
  · exact hquote
  · intro _ _ _ _ _ h
    exact absurd h hslash
  · intro _ _ h
    exact absurd h hslash

theorem escape {b c : UInt8} (h : escaped? b = some c) : Spelled [92, b] [c] := by
  apply ofByte
  intro done rest
  have hunit : b ≠ 117 := by
    rintro rfl
    simp [escaped?] at h
  rw [show [92, b] ++ rest = 92 :: b :: rest from rfl, pieces]
  · rw [h]
  · intro _ _ _ _ _ hb
    exact absurd hb hunit

theorem bytes {text : Bytes} (h : ∀ b ∈ text, 32 ≤ b.toNat ∧ b ≠ 34 ∧ b ≠ 92) :
    Spelled text text := by
  have htext := flatMap (f := fun b => [b]) (g := fun b => [b])
    fun b hb => byte (h b hb).1 (h b hb).2.1 (h b hb).2.2
  simpa using htext

theorem hexValue?_hexDigit : ∀ n < 16, hexValue? (Bytes.hexDigit n) = some n := by decide

/-- A code point given by its digits. Surrogates are never written so. -/
theorem unit {code : Nat} (hcode : code < 0xD800) :
    Spelled ([92, 117] ++ Bytes.hex 4 code) (encode code) := by
  have hunit : unit? (Bytes.hexDigit (code / 16 / 16 / 16 % 16))
      (Bytes.hexDigit (code / 16 / 16 % 16)) (Bytes.hexDigit (code / 16 % 16))
      (Bytes.hexDigit (code % 16)) = some code := by
    simp only [unit?, hexValue?_hexDigit _ (Nat.mod_lt _ (by decide)), Option.bind_eq_bind,
      Option.bind_some, Option.pure_def, Option.some.injEq]
    omega
  refine ⟨[.unit code], ?_, ?_⟩
  · intro done rest
    simp only [Bytes.hex, List.nil_append, List.cons_append, pieces, hunit]
    rfl
  · intro done rest
    have hhigh : isHighSurrogate code = false := by
      simp only [isHighSurrogate, Bool.and_eq_false_iff, decide_eq_false_iff_not]
      omega
    have hlow : isLowSurrogate code = false := by
      simp only [isLowSurrogate, Bool.and_eq_false_iff, decide_eq_false_iff_not]
      omega
    cases rest with
    | nil => simp [assembleOnto, ofUnit, hhigh, hlow]
    | cons p rest => cases p <;> simp [assembleOnto, ofUnit, hhigh, hlow]

end Spelled

end Reader

/-- A character is written as a letter behind a backslash, by the digits of its code, or as it
stands. -/
theorem escapeCode?_cases (code : Nat) :
    (∃ b, code < 128 ∧ (32 ≤ b.toNat ∧ b.toNat < 128) ∧ escaped? b = some code.toUInt8 ∧
        escapeCode? code = some [92, b]) ∨
      code < 0xD800 ∧ escapeCode? code = some ([92, 117] ++ Bytes.hex 4 code) ∨
      32 ≤ code ∧ code ≠ 34 ∧ code ≠ 92 ∧ escapeCode? code = none := by
  by_cases hquote : code = 34
  · exact .inl ⟨34, by subst hquote; decide⟩
  by_cases hslash : code = 92
  · exact .inl ⟨92, by subst hslash; decide⟩
  by_cases hback : code = 8
  · exact .inl ⟨98, by subst hback; decide⟩
  by_cases hfeed : code = 12
  · exact .inl ⟨102, by subst hfeed; decide⟩
  by_cases hline : code = 10
  · exact .inl ⟨110, by subst hline; decide⟩
  by_cases hreturn : code = 13
  · exact .inl ⟨114, by subst hreturn; decide⟩
  by_cases htab : code = 9
  · exact .inl ⟨116, by subst htab; decide⟩
  simp only [escapeCode?, hquote, hslash, hback, hfeed, hline, hreturn, htab, if_false]
  split
  · next hdigits =>
    simp only [Bool.or_eq_true, decide_eq_true_eq, beq_iff_eq] at hdigits
    exact .inr (.inl ⟨by omega, rfl⟩)
  · next hplain =>
    simp only [Bool.or_eq_true, decide_eq_true_eq, beq_iff_eq] at hplain
    exact .inr (.inr ⟨by omega, hquote, hslash, rfl⟩)

/-- What is neither a control character nor a quote mark nor a backslash stands for itself. -/
theorem spelled_char {c : Char} (hcontrol : 32 ≤ c.toNat) (hquote : c.toNat ≠ 34)
    (hslash : c.toNat ≠ 92) : Spelled (utf8EncodeChar c) (utf8EncodeChar c) := by
  apply Spelled.bytes
  intro b hb
  have htoNat := toNat_of_mem_encode hb
  simp only [Ne, ← UInt8.toNat_inj, UInt8.reduceToNat]
  omega

theorem spelled_item {item : Item × Bytes} (h : Utf8.Spells item) :
    Spelled (escapeItem item) (sanitizeItem item) := by
  cases h with
  | stray b =>
    rw [escapeItem, sanitizeItem, encode_replacement]
    exact spelled_char (by decide) (by decide) (by decide)
  | char c =>
    rw [escapeItem, sanitizeItem]
    rcases escapeCode?_cases c.toNat with ⟨b, hascii, -, hb, hescape⟩ | ⟨hcode, hescape⟩ |
      ⟨hcontrol, hquote, hslash, hescape⟩
    · rw [hescape, ← encode_toNat, encode, if_pos hascii]
      exact Spelled.escape hb
    · rw [hescape, ← encode_toNat]
      exact Spelled.unit hcode
    · rw [hescape]
      exact spelled_char hcontrol hquote hslash

theorem string?_quoted (s rest : Bytes) :
    string? ((items s).flatMap escapeItem ++ 34 :: rest) = some (sanitize s, rest) := by
  obtain ⟨ps, hpieces, hassemble⟩ := Spelled.flatMap fun item hitem =>
    spelled_item (spells_of_mem_items s item hitem)
  have hps : pieces [] ((items s).flatMap escapeItem ++ 34 :: rest) = some (ps, rest) := by
    rw [hpieces, pieces]
    simp
  have htext : assembleOnto [] ps = sanitize s := by
    have := hassemble [] []
    rw [List.append_nil] at this
    rw [this, sanitize_eq]
    simp [assembleOnto]
  rw [string?, hps, Option.map_some]
  dsimp only
  rw [htext, sanitize_of_isText (sanitize_isText s)]

structure Visible (text : Bytes) : Prop where
  isText : IsText text
  visible : ∀ b ∈ text, 32 ≤ b.toNat

namespace Visible

theorem append {a b : Bytes} (ha : Visible a) (hb : Visible b) : Visible (a ++ b) := by
  refine ⟨ha.isText.append hb.isText, ?_⟩
  intro c hc
  rcases List.mem_append.1 hc with hc | hc
  · exact ha.visible c hc
  · exact hb.visible c hc

theorem flatMap {α : Type} {xs : List α} {f : α → Bytes} (h : ∀ x ∈ xs, Visible (f x)) :
    Visible (xs.flatMap f) := by
  refine ⟨.flatMap fun x hx => (h x hx).isText, ?_⟩
  intro b hb
  obtain ⟨x, hx, hb⟩ := List.mem_flatMap.1 hb
  exact (h x hx).visible b hb

theorem nil : Visible [] := ⟨.nil, nofun⟩

theorem cons {b : UInt8} {rest : Bytes} (h : 32 ≤ b.toNat ∧ b.toNat < 128)
    (hrest : Visible rest) : Visible (b :: rest) := by
  refine ⟨hrest.isText.cons h.2, ?_⟩
  intro c hc
  rcases List.mem_cons.1 hc with rfl | hc
  · exact h.1
  · exact hrest.visible c hc

theorem concat {b : UInt8} {text : Bytes} (htext : Visible text)
    (h : 32 ≤ b.toNat ∧ b.toNat < 128) : Visible (text ++ [b]) :=
  htext.append (nil.cons h)

theorem ofAscii {text : Bytes} (h : ∀ b ∈ text, 32 ≤ b.toNat ∧ b.toNat < 128) : Visible text :=
  ⟨.ofAscii fun b hb => (h b hb).2, fun b hb => (h b hb).1⟩

end Visible

theorem visible_char {c : Char} (h : 32 ≤ c.toNat) : Visible (utf8EncodeChar c) := by
  refine ⟨.char c, ?_⟩
  intro b hb
  have := toNat_of_mem_encode hb
  omega

theorem visible_hexDigit :
    ∀ n < 16, 32 ≤ (Bytes.hexDigit n).toNat ∧ (Bytes.hexDigit n).toNat < 128 := by
  decide

theorem visible_hex (width n : Nat) : Visible (Bytes.hex width n) := by
  induction width generalizing n with
  | zero => exact .nil
  | succ width ih =>
    have hlast := visible_hexDigit (n % 16) (Nat.mod_lt n (by decide))
    exact (ih (n / 16)).concat hlast

theorem visible_item {item : Item × Bytes} (h : Utf8.Spells item) : Visible (escapeItem item) := by
  cases h with
  | stray b =>
    rw [escapeItem, encode_replacement]
    exact visible_char (by decide)
  | char c =>
    rw [escapeItem]
    rcases escapeCode?_cases c.toNat with ⟨b, -, hb, -, hescape⟩ | ⟨-, hescape⟩ |
      ⟨hcontrol, -, -, hescape⟩
    · rw [hescape]
      exact .cons (by decide) (.cons hb .nil)
    · rw [hescape]
      exact ((visible_hex 4 _).cons (by decide)).cons (by decide)
    · rw [hescape]
      exact visible_char hcontrol

theorem quoted_visible (s : Bytes) : Visible (quoted s) := by
  have hitems : Visible ((items s).flatMap escapeItem) :=
    .flatMap fun item hitem => visible_item (spells_of_mem_items s item hitem)
  exact (hitems.concat (by decide)).cons (by decide)

theorem length_hex (width n : Nat) : (Bytes.hex width n).length = width := by
  induction width generalizing n with
  | zero => rfl
  | succ width ih => rw [Bytes.hex, List.length_append, ih, List.length_singleton]

/-- No item gets shorter when it is written. -/
theorem length_le_escapeItem {item : Item × Bytes} (h : Utf8.Spells item) :
    item.2.length ≤ (escapeItem item).length := by
  cases h with
  | stray b => exact Nat.le_of_ble_eq_true rfl
  | char c =>
    have hsize : (utf8EncodeChar c).length = c.utf8Size := String.length_utf8EncodeChar c
    have hfour := c.utf8Size_le_four
    rw [escapeItem]
    rcases escapeCode?_cases c.toNat with ⟨b, hascii, -, -, hescape⟩ | ⟨-, hescape⟩ |
      ⟨-, -, -, hescape⟩
    · rw [hescape]
      have hbyte : utf8EncodeChar c = [c.toNat.toUInt8] := by
        rw [← encode_toNat, encode, if_pos hascii]
      rw [hbyte]
      exact Nat.le_of_ble_eq_true rfl
    · rw [hescape]
      simp only [Option.getD_some, List.length_append, length_hex, List.length_cons]
      omega
    · rw [hescape]
      exact Nat.le_refl _

/-- No text gets shorter when it is written. -/
theorem length_lt_quoted (s : Bytes) : s.length < (quoted s).length := by
  have hitems (l : List (Item × Bytes)) (h : ∀ item ∈ l, Utf8.Spells item) :
      (l.flatMap (·.2)).length ≤ (l.flatMap escapeItem).length := by
    induction l with
    | nil => exact Nat.le_refl _
    | cons item l ih =>
      have hfirst := length_le_escapeItem (h item List.mem_cons_self)
      have hrest := ih fun i hi => h i (List.mem_cons_of_mem _ hi)
      rw [List.flatMap_cons, List.flatMap_cons, List.length_append, List.length_append]
      exact Nat.add_le_add hfirst hrest
  have hall := hitems (items s) (spells_of_mem_items s)
  rw [flatMap_items] at hall
  rw [quoted, List.length_append, List.length_cons]
  omega

end BlockScript.Json
