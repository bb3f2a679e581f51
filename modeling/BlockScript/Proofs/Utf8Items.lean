import BlockScript.Proofs.Utf8
import BlockScript.Text

/-! Texts as sequences of characters. The items of any text are characters with their encodings and
bytes that belong to none; a text made of encodings has these characters as its items, and nothing
else. -/

namespace BlockScript.Utf8

open String (utf8EncodeChar)

theorem itemsFrom_append (done more : List (Item × Bytes)) (text : Bytes) :
    itemsFrom (done ++ more) text = more.reverse ++ itemsFrom done text := by
  induction done, text using itemsFrom.induct with
  | case1 done => simp [itemsFrom]
  | case2 done b rest ih =>
    rw [itemsFrom, itemsFrom, ← ih]
    rfl

theorem items_nil : items [] = [] := by
  rw [items, itemsFrom]
  rfl

theorem items_cons (b : UInt8) (rest : Bytes) :
    items (b :: rest) = ((next b rest).1, (next b rest).2.1) :: items (next b rest).2.2 := by
  rw [items, itemsFrom]
  exact itemsFrom_append [] [_] _

theorem encode_toNat (c : Char) : encode c.toNat = utf8EncodeChar c := by
  have hrange := char_range c
  have hbyte {m n : Nat} (h : m = n) : m.toUInt8 = UInt8.ofNat n := congrArg UInt8.ofNat h
  simp only [encode, utf8EncodeChar, show c.val.toNat = c.toNat from rfl]
  generalize c.toNat = v at hrange
  by_cases h1 : v < 0x80
  · rw [if_pos h1, if_pos (show v ≤ 127 by omega)]
  rw [if_neg h1, if_neg (show ¬ v ≤ 127 by omega)]
  by_cases h2 : v < 0x800
  · rw [if_pos h2, if_pos (show v ≤ 2047 by omega), hbyte (show _ = v / 64 % 32 + 192 by omega),
      hbyte (show _ = v % 64 + 128 by omega)]
  rw [if_neg h2, if_neg (show ¬ v ≤ 2047 by omega)]
  by_cases h3 : v < 0x10000
  · rw [if_pos h3, if_pos (show v ≤ 65535 by omega), hbyte (show _ = v / 4096 % 16 + 224 by omega),
      hbyte (show _ = v / 64 % 64 + 128 by omega), hbyte (show _ = v % 64 + 128 by omega)]
  · rw [if_neg h3, if_neg (show ¬ v ≤ 65535 by omega),
      hbyte (show _ = v / 262144 % 8 + 240 by omega), hbyte (show _ = v / 4096 % 64 + 128 by omega),
      hbyte (show _ = v / 64 % 64 + 128 by omega), hbyte (show _ = v % 64 + 128 by omega)]

/-- The byte of an ASCII character is its code. -/
theorem toNat_of_mem_encode {c : Char} {b : UInt8} (h : b ∈ utf8EncodeChar c) :
    b.toNat = c.toNat ∨ 128 ≤ b.toNat := by
  by_cases hascii : c.toNat < 128
  · rw [← encode_toNat, encode, if_pos hascii] at h
    obtain rfl := List.mem_singleton.1 h
    exact .inl (toNat_byte (by omega))
  · exact .inr (large_of_mem_encode (Nat.not_lt.1 hascii) b h)

/-- An item is a character with its encoding, or a byte by itself. -/
inductive Spells : Item × Bytes → Prop
  | char (c : Char) : Spells (.char c.toNat, utf8EncodeChar c)
  | stray (b : UInt8) : Spells (.stray b, [b])

theorem next_spells (b : UInt8) (rest : Bytes) :
    Spells ((next b rest).1, (next b rest).2.1) := by
  by_cases h : ∃ c, utf8EncodeChar c <+: b :: rest
  · obtain ⟨c, more, hmore⟩ := h
    rw [next_encode c hmore]
    exact .char c
  · rw [next_stray (not_exists.1 h)]
    exact .stray b

theorem spells_of_mem_items (text : Bytes) : ∀ item ∈ items text, Spells item := by
  match text with
  | [] =>
    rw [items_nil]
    nofun
  | b :: rest =>
    rw [items_cons]
    intro item hitem
    rcases List.mem_cons.1 hitem with rfl | hitem
    · exact next_spells b rest
    · exact spells_of_mem_items (next b rest).2.2 item hitem
termination_by text.length
decreasing_by
  have := next_length b rest
  simp only [List.length_cons]
  omega

/-- Nothing of a text is outside its items. -/
theorem flatMap_items (text : Bytes) : (items text).flatMap (·.2) = text := by
  match text with
  | [] => rw [items_nil, List.flatMap_nil]
  | b :: rest =>
    rw [items_cons, List.flatMap_cons, flatMap_items (next b rest).2.2]
    exact next_append b rest
termination_by text.length
decreasing_by
  have := next_length b rest
  simp only [List.length_cons]
  omega

def ofChars (cs : List Char) : Bytes := cs.flatMap utf8EncodeChar

theorem items_ofChars (cs : List Char) :
    items (ofChars cs) = cs.map fun c => (.char c.toNat, utf8EncodeChar c) := by
  induction cs with
  | nil => exact items_nil
  | cons c cs ih =>
    cases htext : ofChars (c :: cs) with
    | nil => simp [ofChars] at htext
    | cons b rest =>
      have hfront : utf8EncodeChar c ++ ofChars cs = b :: rest := htext
      rw [items_cons, next_encode c hfront, ih]
      rfl

theorem ofChars_append (cs ds : List Char) : ofChars (cs ++ ds) = ofChars cs ++ ofChars ds :=
  List.flatMap_append

/-- A text without bytes that belong to no character. -/
def IsText (text : Bytes) : Prop := ∃ cs, text = ofChars cs

namespace IsText

theorem nil : IsText [] := ⟨[], rfl⟩

theorem append {a b : Bytes} (ha : IsText a) (hb : IsText b) : IsText (a ++ b) := by
  obtain ⟨cs, rfl⟩ := ha
  obtain ⟨ds, rfl⟩ := hb
  exact ⟨cs ++ ds, (ofChars_append cs ds).symm⟩

theorem char (c : Char) : IsText (utf8EncodeChar c) := ⟨[c], by simp [ofChars]⟩

theorem byte {b : UInt8} (h : b.toNat < 128) : IsText [b] := by
  obtain ⟨c, hc⟩ := encodes_one h
  exact hc ▸ char c

theorem cons {b : UInt8} {rest : Bytes} (h : b.toNat < 128) (hrest : IsText rest) :
    IsText (b :: rest) :=
  (byte h).append hrest

theorem flatMap {α : Type} {xs : List α} {f : α → Bytes} (h : ∀ x ∈ xs, IsText (f x)) :
    IsText (xs.flatMap f) := by
  induction xs with
  | nil => exact nil
  | cons x xs ih =>
    rw [List.flatMap_cons]
    exact (h x List.mem_cons_self).append (ih fun y hy => h y (List.mem_cons_of_mem x hy))

theorem ofAscii {text : Bytes} (h : ∀ b ∈ text, b.toNat < 128) : IsText text := by
  have htext := flatMap (f := fun b => [b]) fun b hb => byte (h b hb)
  simpa using htext

theorem ofString (s : String) : IsText (Bytes.ofString s) := by
  refine ⟨s.toList, ?_⟩
  have hbytes : s.toByteArray = (s.toList.flatMap utf8EncodeChar).toByteArray := by
    rw [← List.utf8Encode.eq_1, ← String.toByteArray_ofList, String.ofList_toList]
  rw [Bytes.ofString, String.toUTF8, hbytes, List.data_toByteArray]
  rfl

end IsText

end BlockScript.Utf8

namespace BlockScript.Text

open Utf8

/-- Trimming leaves a text whose first and last characters are no white space. -/
theorem trim_ofChars {cs : List Char} (hfirst : ∀ c ∈ cs.head?, isBlank c.toNat = false)
    (hlast : ∀ c ∈ cs.getLast?, isBlank c.toNat = false) : trim (ofChars cs) = ofChars cs := by
  have hkeep (ds : List Char) (h : ∀ c ∈ ds.head?, isBlank c.toNat = false) :
      (ds.map fun c => (Item.char c.toNat, String.utf8EncodeChar c)).dropWhile isBlankItem =
        ds.map fun c => (Item.char c.toNat, String.utf8EncodeChar c) := by
    cases ds with
    | nil => rfl
    | cons c ds => simp [isBlankItem, h c rfl]
  have hreverse := hkeep cs.reverse (by simpa using hlast)
  rw [trim, items_ofChars, hkeep cs hfirst, ← List.map_reverse, hreverse, List.map_reverse,
    List.reverse_reverse, List.flatMap_map]
  rfl

end BlockScript.Text
