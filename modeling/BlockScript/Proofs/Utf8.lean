import BlockScript.Text

/-! UTF-8 against the encoding of characters. A text begins with a character exactly if the encoding
of one stands at its front, and that character is then the one that is read; otherwise its first
byte belongs to none. -/

namespace BlockScript.Utf8

open String (utf8EncodeChar)

theorem continued_eq_some_iff {low high b : UInt8} {x : Nat} :
    continued low high b = some x ↔
      low.toNat ≤ b.toNat ∧ b.toNat ≤ high.toNat ∧ b.toNat % 64 = x := by
  simp only [continued, Bool.and_eq_true, decide_eq_true_eq, UInt8.le_iff_toNat_le]
  by_cases h : low.toNat ≤ b.toNat ∧ b.toNat ≤ high.toNat
  · simp [h]
  · rw [if_neg h]
    constructor
    · nofun
    · rintro ⟨hlow, hhigh, -⟩
      exact absurd ⟨hlow, hhigh⟩ h

theorem toNat_byte {n : Nat} (h : n < 256) : (UInt8.ofNat n).toNat = n := by
  simpa using Nat.mod_eq_of_lt h

theorem continued_byte {low high : UInt8} {n : Nat} (hn : n < 256) (hlow : low.toNat ≤ n)
    (hhigh : n ≤ high.toNat) : continued low high (.ofNat n) = some (n % 64) := by
  have hbyte := toNat_byte hn
  exact continued_eq_some_iff.2 ⟨by omega, by omega, by rw [hbyte]⟩

/-- The code of a character is in range and no surrogate. -/
theorem char_range (c : Char) :
    c.toNat < 0xD800 ∨ 0xDFFF < c.toNat ∧ c.toNat < 0x110000 := c.valid

theorem first?_encode (c : Char) {b : UInt8} {rest more : Bytes}
    (h : utf8EncodeChar c ++ more = b :: rest) :
    first? b rest = some (c.toNat, (utf8EncodeChar c).length) := by
  have hrange := char_range c
  simp only [utf8EncodeChar, show c.val.toNat = c.toNat from rfl] at h ⊢
  generalize c.toNat = v at h hrange ⊢
  simp only [first?, UInt8.lt_iff_toNat_lt, UInt8.reduceToNat, ← UInt8.toNat_inj]
  by_cases h1 : v ≤ 127
  · rw [if_pos h1] at h ⊢
    obtain ⟨rfl, rfl⟩ := List.cons.inj h
    rw [toNat_byte (by omega), if_pos (by omega)]
    rfl
  rw [if_neg h1] at h ⊢
  by_cases h2 : v ≤ 2047
  · rw [if_pos h2] at h ⊢
    obtain ⟨rfl, rfl⟩ := List.cons.inj h
    rw [toNat_byte (by omega), if_neg (by omega), if_neg (by omega), if_pos (by omega)]
    change Option.map _ (continued _ _ _) = _
    rw [continued_byte (by omega) (by simp) (by simp; omega)]
    simp
    omega
  rw [if_neg h2] at h ⊢
  by_cases h3 : v ≤ 65535
  · rw [if_pos h3] at h ⊢
    obtain ⟨rfl, rfl⟩ := List.cons.inj h
    rw [toNat_byte (by omega), if_neg (by omega), if_neg (by omega), if_neg (by omega),
      if_pos (by omega)]
    change (continued _ _ _).bind _ = _
    rw [continued_byte (by omega) (by split <;> simp; omega) (by split <;> simp <;> omega)]
    change (continued _ _ _).bind _ = _
    rw [continued_byte (by omega) (by simp) (by simp; omega)]
    simp
    omega
  · rw [if_neg h3] at h ⊢
    obtain ⟨rfl, rfl⟩ := List.cons.inj h
    rw [toNat_byte (by omega), if_neg (by omega), if_neg (by omega), if_neg (by omega),
      if_neg (by omega), if_pos (by omega)]
    change (continued _ _ _).bind _ = _
    rw [continued_byte (by omega) (by split <;> simp; omega) (by split <;> simp <;> omega)]
    change (continued _ _ _).bind _ = _
    rw [continued_byte (by omega) (by simp) (by simp; omega)]
    change (continued _ _ _).bind _ = _
    rw [continued_byte (by omega) (by simp) (by simp; omega)]
    simp
    omega

/-- A character outside ASCII has no byte in ASCII. -/
theorem large_of_mem_encode {c : Char} (h : 128 ≤ c.toNat) :
    ∀ b ∈ utf8EncodeChar c, 128 ≤ b.toNat := by
  have hrange := char_range c
  simp only [utf8EncodeChar, show c.val.toNat = c.toNat from rfl]
  generalize c.toNat = v at h hrange
  have hbyte {n : Nat} (hlow : 128 ≤ n) (hhigh : n < 256) : 128 ≤ (UInt8.ofNat n).toNat := by
    rwa [toNat_byte hhigh]
  rw [if_neg (by omega)]
  intro b hb
  split at hb
  · simp only [List.mem_cons, List.not_mem_nil, or_false] at hb
    rcases hb with rfl | rfl <;> exact hbyte (by omega) (by omega)
  split at hb
  · simp only [List.mem_cons, List.not_mem_nil, or_false] at hb
    rcases hb with rfl | rfl | rfl <;> exact hbyte (by omega) (by omega)
  · simp only [List.mem_cons, List.not_mem_nil, or_false] at hb
    rcases hb with rfl | rfl | rfl | rfl <;> exact hbyte (by omega) (by omega)

theorem byte_eq {n : Nat} {b : UInt8} (h : n = b.toNat) : UInt8.ofNat n = b := by
  subst h
  simp

theorem exists_char (code : Nat) (h : code < 0xD800 ∨ 0xDFFF < code ∧ code < 0x110000) :
    ∃ c : Char, c.val.toNat = code := by
  have hvalid : Nat.isValidChar code := h
  exact ⟨Char.ofNatAux code hvalid, rfl⟩

section Encodings

variable {b c d e : UInt8}

theorem encodes_one (hb : b.toNat < 0x80) : ∃ k, utf8EncodeChar k = [b] := by
  obtain ⟨k, hk⟩ := exists_char b.toNat (by omega)
  refine ⟨k, ?_⟩
  simp only [utf8EncodeChar, hk]
  rw [if_pos (by omega), byte_eq rfl]

theorem encodes_two (hb : 0xC2 ≤ b.toNat ∧ b.toNat < 0xE0) (hc : 0x80 ≤ c.toNat ∧ c.toNat ≤ 0xBF) :
    ∃ k, utf8EncodeChar k = [b, c] := by
  obtain ⟨k, hk⟩ := exists_char (b.toNat % 32 * 64 + c.toNat % 64) (by omega)
  refine ⟨k, ?_⟩
  simp only [utf8EncodeChar, hk]
  rw [if_neg (by omega), if_pos (by omega), byte_eq (b := b) (by omega),
    byte_eq (b := c) (by omega)]

/-- The two bounds on the second byte keep out longer encodings and surrogates. -/
theorem encodes_three (hb : 0xE0 ≤ b.toNat ∧ b.toNat < 0xF0)
    (hc : 0x80 ≤ c.toNat ∧ c.toNat ≤ 0xBF) (hshort : b.toNat = 0xE0 → 0xA0 ≤ c.toNat)
    (hsurrogate : b.toNat = 0xED → c.toNat ≤ 0x9F) (hd : 0x80 ≤ d.toNat ∧ d.toNat ≤ 0xBF) :
    ∃ k, utf8EncodeChar k = [b, c, d] := by
  obtain ⟨k, hk⟩ :=
    exists_char (b.toNat % 16 * 4096 + c.toNat % 64 * 64 + d.toNat % 64) (by omega)
  refine ⟨k, ?_⟩
  simp only [utf8EncodeChar, hk]
  rw [if_neg (by omega), if_neg (by omega), if_pos (by omega), byte_eq (b := b) (by omega),
    byte_eq (b := c) (by omega), byte_eq (b := d) (by omega)]

theorem encodes_four (hb : 0xF0 ≤ b.toNat ∧ b.toNat < 0xF5)
    (hc : 0x80 ≤ c.toNat ∧ c.toNat ≤ 0xBF) (hshort : b.toNat = 0xF0 → 0x90 ≤ c.toNat)
    (hlast : b.toNat = 0xF4 → c.toNat ≤ 0x8F) (hd : 0x80 ≤ d.toNat ∧ d.toNat ≤ 0xBF)
    (he : 0x80 ≤ e.toNat ∧ e.toNat ≤ 0xBF) : ∃ k, utf8EncodeChar k = [b, c, d, e] := by
  obtain ⟨k, hk⟩ := exists_char (b.toNat % 8 * 262144 + c.toNat % 64 * 4096 +
    d.toNat % 64 * 64 + e.toNat % 64) (by omega)
  refine ⟨k, ?_⟩
  simp only [utf8EncodeChar, hk]
  rw [if_neg (by omega), if_neg (by omega), if_neg (by omega), byte_eq (b := b) (by omega),
    byte_eq (b := c) (by omega), byte_eq (b := d) (by omega), byte_eq (b := e) (by omega)]

end Encodings

theorem encode_of_first? {b : UInt8} {rest : Bytes} {code size : Nat}
    (h : first? b rest = some (code, size)) :
    ∃ k, utf8EncodeChar k = b :: rest.take (size - 1) := by
  simp only [first?, UInt8.lt_iff_toNat_lt, UInt8.reduceToNat, ← UInt8.toNat_inj,
    Option.bind_eq_bind] at h
  by_cases h1 : b.toNat < 0x80
  · rw [if_pos h1] at h
    obtain ⟨rfl, rfl⟩ := Prod.mk.inj (Option.some.inj h)
    exact encodes_one h1
  rw [if_neg h1] at h
  split at h
  · cases h
  split at h
  · split at h
    · simp only [Option.map_eq_some_iff, continued_eq_some_iff, UInt8.reduceToNat,
        Prod.mk.injEq] at h
      obtain ⟨x, ⟨hlow, hhigh, -⟩, -, rfl⟩ := h
      exact encodes_two (by omega) ⟨hlow, hhigh⟩
    · cases h
  split at h
  · split at h
    · simp only [Option.bind_eq_some_iff, continued_eq_some_iff, apply_ite UInt8.toNat,
        UInt8.reduceToNat, Option.some.injEq, Prod.mk.injEq] at h
      obtain ⟨x, ⟨hlow, hhigh, -⟩, y, ⟨hlow', hhigh', -⟩, -, rfl⟩ := h
      split at hlow <;> split at hhigh <;>
        exact encodes_three (by omega) (by omega) (by omega) (by omega) ⟨hlow', hhigh'⟩
    · cases h
  split at h
  · split at h
    · simp only [Option.bind_eq_some_iff, continued_eq_some_iff, apply_ite UInt8.toNat,
        UInt8.reduceToNat, Option.some.injEq, Prod.mk.injEq] at h
      obtain ⟨x, ⟨hlow, hhigh, -⟩, y, ⟨hlow', hhigh', -⟩, z, ⟨hlow'', hhigh'', -⟩, -, rfl⟩ := h
      split at hlow <;> split at hhigh <;>
        exact encodes_four (by omega) (by omega) (by omega) (by omega) ⟨hlow', hhigh'⟩
          ⟨hlow'', hhigh''⟩
    · cases h
  · cases h

/-- A character at the front of a text is read whole. -/
theorem next_encode (c : Char) {b : UInt8} {rest more : Bytes}
    (h : utf8EncodeChar c ++ more = b :: rest) :
    next b rest = (.char c.toNat, utf8EncodeChar c, more) := by
  have hfirst := first?_encode c h
  cases hbytes : utf8EncodeChar c with
  | nil => simp at hbytes
  | cons b' bytes =>
    rw [hbytes, List.cons_append] at h
    obtain ⟨rfl, rfl⟩ := List.cons.inj h
    rw [hbytes] at hfirst
    simp [next, hfirst]

/-- A byte with which no character begins is read by itself. -/
theorem next_stray {b : UInt8} {rest : Bytes} (h : ∀ c, ¬ utf8EncodeChar c <+: b :: rest) :
    next b rest = (.stray b, [b], rest) := by
  cases hfirst : first? b rest with
  | none => simp [next, hfirst]
  | some found =>
    obtain ⟨c, hc⟩ := encode_of_first? hfirst
    refine absurd ?_ (h c)
    rw [hc]
    exact (List.prefix_cons_inj b).2 (List.take_prefix _ _)

end BlockScript.Utf8
