import Mathlib.Algebra.Order.Field.Power
import Mathlib.Tactic.Linarith
import BlockScript.Datum
import BlockScript.Proofs.JsonRoundTrip
import BlockScript.Proofs.Scan
import BlockScript.Scope

/-! Numbers in JSON text. A finite double is written as digits with a point among them and perhaps
an exponent behind them. The text is one JSON number, and the double nearest to what its digits
stand for is the one it was written for. -/

namespace BlockScript.Decimal

open Bytes (digitsValue)
open Token.Segment (Numeral)

section Range

theorem infinityPlace_le_nearestPlace {num den k : Nat} (hden : 0 < den) (hk : 1025 ≤ k)
    (h : den * 2 ^ k ≤ num) : infinityPlace ≤ nearestPlace num den := by
  have hscaled (n : Nat) : 2 ^ (k + n) ≤ num * Nat.pow 2 n / den := by
    rw [Nat.le_div_iff_mul_le hden, Nat.pow_add, Nat.mul_right_comm, Nat.mul_comm (2 ^ k) den,
      Nat.pow_eq]
    exact Nat.mul_le_mul_right _ h
  have hlog : k + finest ≤ (num * Nat.pow 2 finest / den).log2 := by
    have hne : num * Nat.pow 2 finest / den ≠ 0 :=
      Nat.ne_of_gt (Nat.lt_of_lt_of_le (Nat.two_pow_pos _) (hscaled finest))
    exact (Nat.le_log2 hne).2 (hscaled finest)
  unfold nearestPlace infinityPlace
  dsimp only
  refine Nat.le_trans (Nat.mul_le_mul_right spacing ?_) (Nat.le_add_right _ _)
  have hfinest : finest = 1074 := rfl
  omega

theorem nearestPlace_eq_zero {num den k : Nat} (hk : finest < k) (h : num * 2 ^ k < den) :
    nearestPlace num den = 0 := by
  have hhalf : 2 * (num * Nat.pow 2 finest) < den := by
    have hpow : 2 ^ (finest + 1) ≤ 2 ^ k := Nat.pow_le_pow_right (by decide) hk
    calc 2 * (num * Nat.pow 2 finest)
      _ = num * 2 ^ (finest + 1) := by
        rw [Nat.pow_succ, Nat.pow_eq, Nat.mul_left_comm, Nat.mul_comm 2]
      _ ≤ num * 2 ^ k := Nat.mul_le_mul_left _ hpow
      _ < den := h
  unfold nearestPlace
  generalize num * Nat.pow 2 finest = scaled at hhalf
  have hquotient : scaled / den = 0 := Nat.div_eq_of_lt (by omega)
  have hremainder : scaled % den = scaled := Nat.mod_eq_of_lt (by omega)
  have hlog : Nat.log2 0 - 52 = 0 := rfl
  have hunit : den * Nat.pow 2 0 = den := Nat.mul_one den
  dsimp only
  rw [hquotient, hlog, hunit, Nat.zero_mul, Nat.zero_add, roundDiv, hquotient, hremainder, if_neg]
  simp
  omega

/-- What is read from a coefficient on a grid is read from the quotient of that grid. -/
theorem ReadsAs.onGrid {p c : Nat} {e : Int} (h : ReadsAs p (c * (10 : ℚ) ^ e)) :
    nearestPlace (Decimal.onGrid c e).1 (Decimal.onGrid c e).2 = p :=
  h _ _ (onGrid_pos c e) (onGrid_quotient c e)

theorem two_zpow_le_ten_zpow {n : Nat} {e : Int} (h : n ≤ e) : (2 : ℚ) ^ (3 * n) ≤ (10 : ℚ) ^ e :=
  calc (2 : ℚ) ^ (3 * n)
    _ = (8 : ℚ) ^ n := by rw [pow_mul]; norm_num
    _ ≤ (10 : ℚ) ^ n := pow_le_pow_left₀ (by norm_num) (by norm_num) n
    _ = (10 : ℚ) ^ (n : Int) := (zpow_natCast 10 n).symm
    _ ≤ (10 : ℚ) ^ e := zpow_le_zpow_right₀ (by norm_num) h

variable {p c digits : Nat} {e : Int}

/-- A coefficient with so many digits before the point is too large for a double. -/
theorem ReadsAs.large (h : ReadsAs p (c * (10 : ℚ) ^ e)) (hc : 10 ^ digits ≤ 10 * c)
    (he : 400 < e + digits) : infinityPlace ≤ p := by
  have hvalue : (2 : ℚ) ^ 1200 ≤ c * (10 : ℚ) ^ e := by
    have hc' : (10 : ℚ) ^ (digits : Int) ≤ 10 * c := by
      rw [zpow_natCast]
      exact_mod_cast hc
    calc (2 : ℚ) ^ 1200
      _ ≤ (10 : ℚ) ^ (digits - 1 + e) := two_zpow_le_ten_zpow (n := 400) (by omega)
      _ = (10 : ℚ) ^ (digits : Int) / 10 * (10 : ℚ) ^ e := by
        rw [zpow_add₀ (by norm_num), zpow_sub_one₀ (by norm_num), div_eq_mul_inv]
      _ ≤ 10 * c / 10 * (10 : ℚ) ^ e := by gcongr
      _ = c * (10 : ℚ) ^ e := by rw [mul_div_cancel_left₀ _ (by norm_num)]
  rw [← onGrid_quotient, le_div_iff₀ (by exact_mod_cast onGrid_pos c e)] at hvalue
  rw [← h.onGrid]
  refine infinityPlace_le_nearestPlace (onGrid_pos c e) (k := 1200) (by decide) ?_
  rw [Nat.mul_comm]
  exact_mod_cast hvalue

/-- A coefficient with so many zeros behind the point is nearest to zero. -/
theorem ReadsAs.small (h : ReadsAs p (c * (10 : ℚ) ^ e)) (hc : c < 10 ^ digits)
    (he : e + digits < -400) : p = 0 := by
  have hvalue : c * (10 : ℚ) ^ e * (2 : ℚ) ^ 1200 < 1 := by
    have hc' : (c : ℚ) < (10 : ℚ) ^ (digits : Int) := by
      rw [zpow_natCast]
      exact_mod_cast hc
    calc c * (10 : ℚ) ^ e * (2 : ℚ) ^ 1200
      _ < (10 : ℚ) ^ (digits : Int) * (10 : ℚ) ^ e * (2 : ℚ) ^ 1200 := by gcongr
      _ ≤ (10 : ℚ) ^ (digits : Int) * (10 : ℚ) ^ e * (10 : ℚ) ^ (-(e + digits)) := by
        gcongr
        exact two_zpow_le_ten_zpow (n := 400) (by omega)
      _ = 1 := by
        rw [← zpow_add₀ (by norm_num), ← zpow_add₀ (by norm_num)]
        ring_nf
        rfl
  rw [← onGrid_quotient, div_mul_eq_mul_div,
    div_lt_one₀ (by exact_mod_cast onGrid_pos c e)] at hvalue
  rw [← h.onGrid]
  exact nearestPlace_eq_zero (k := 1200) (by decide) (by exact_mod_cast hvalue)

theorem read?_of_place {places : Nat} (hplace : nearestPlace c (Nat.pow 10 places) = p)
    (hp : p < infinityPlace) : read? c places = some (ofPlace p) := by
  rw [read?, hplace, if_pos hp]

/-- The cut-offs of the exponent change nothing. -/
theorem readScaled?_of_readsAs (hp : p < infinityPlace) (hlow : c ≠ 0 → 10 ^ digits ≤ 10 * c)
    (hhigh : c < 10 ^ digits) (h : ReadsAs p (c * (10 : ℚ) ^ e)) :
    readScaled? c digits e = some (ofPlace p) := by
  unfold readScaled?
  by_cases hzero : c = 0
  · have hplace : p = 0 := by
      rw [← h 0 1 Nat.one_pos (by simp [hzero]), nearestPlace_zero Nat.one_pos]
    rw [if_pos hzero, hplace]
  · rw [if_neg hzero]
    by_cases hlarge : 400 < e + digits
    · exact absurd (h.large (hlow hzero) hlarge) (Nat.not_le.2 hp)
    · rw [if_neg hlarge]
      by_cases hsmall : e + digits < -400
      · rw [if_pos hsmall, h.small hhigh hsmall]
      · have hplace := h.onGrid
        rw [if_neg hsmall]
        cases e with
        | ofNat e => exact read?_of_place hplace hp
        | negSucc e => exact read?_of_place hplace hp

end Range

section Reading

theorem digitsValue_lt {digits : Bytes} (h : ∀ b ∈ digits, Bytes.isDigit b = true) :
    digitsValue digits < 10 ^ digits.length := by
  induction digits with
  | nil => exact Nat.one_pos
  | cons b rest ih =>
    obtain ⟨hb, hrest⟩ := List.forall_mem_cons.1 h
    have hdigit := Json.toNat_of_isDigit hb
    have hbound : (b.toNat - 48) * 10 ^ rest.length ≤ 9 * 10 ^ rest.length :=
      Nat.mul_le_mul_right _ (by omega)
    rw [digitsValue_cons, List.length_cons, Nat.pow_succ]
    have := ih hrest
    omega

/-- Digits with no zero in front stand for a number of that many digits. -/
theorem pow_le_digitsValue {b : UInt8} {rest : Bytes} (hb : Bytes.isDigit b = true) (hne : b ≠ 48) :
    10 ^ (b :: rest).length ≤ 10 * digitsValue (b :: rest) := by
  have hdigit := Json.toNat_of_isDigit hb
  have hpos : b.toNat ≠ 48 := fun h => hne (UInt8.toNat_inj.1 h)
  have hbound : 1 * 10 ^ rest.length ≤ (b.toNat - 48) * 10 ^ rest.length :=
    Nat.mul_le_mul_right _ (by omega)
  rw [digitsValue_cons, List.length_cons, Nat.pow_succ]
  omega

theorem digitsValue_dropWhile (digits : Bytes) :
    digitsValue (digits.dropWhile (· == 48)) = digitsValue digits := by
  induction digits with
  | nil => rfl
  | cons b rest ih =>
    by_cases hzero : b = 48
    · subst hzero
      rw [List.dropWhile_cons_of_pos (by decide), ih, digitsValue_cons]
      simp
    · rw [List.dropWhile_cons_of_neg (by simpa using hzero)]

def exponentText : Option Int → Bytes
  | none => []
  | some e => 101 :: (if e < 0 then 45 else 43) :: Bytes.natural e.natAbs

theorem exponent?_exponentText (e : Option Int) : exponent? (exponentText e) = some (e.getD 0) := by
  cases e with
  | none => rfl
  | some e =>
    obtain ⟨b, more, hnatural, -⟩ := Json.head_natural e.natAbs
    have hne : (Bytes.natural e.natAbs).isEmpty = false := by rw [hnatural]; rfl
    have hall : (Bytes.natural e.natAbs).all Bytes.isDigit = true :=
      List.all_eq_true.2 fun b hb => isDigit_of_mem_natural hb
    have hvalue : digitsValue (Bytes.natural e.natAbs) = e.natAbs := digitsValue_natural _
    by_cases hneg : e < 0
    · simp [exponentText, exponent?, hneg, hne, hall, hvalue, abs_of_neg hneg]
    · simp [exponentText, exponent?, hneg, hne, hall, hvalue, abs_of_nonneg (not_lt.1 hneg)]

theorem head_exponentText {e : Option Int} {rest : Bytes} {b : UInt8}
    (h : b ∈ (exponentText e ++ rest).head?) : b = 101 ∨ b ∈ rest.head? := by
  cases e with
  | none => exact .inr h
  | some e => exact .inl (Option.some.inj h).symm

/-- Digits with a point among them and perhaps an exponent behind them. -/
structure Scaled where
  numeral : Numeral
  exponent : Option Int := none

namespace Scaled

def text (s : Scaled) : Bytes := s.numeral.lexeme ++ exponentText s.exponent

def value (s : Scaled) : ℚ := numeralValue s.numeral * (10 : ℚ) ^ s.exponent.getD 0

theorem value_eq (s : Scaled) : s.value = digitsValue (s.numeral.whole ++ s.numeral.fraction) *
    (10 : ℚ) ^ (s.exponent.getD 0 - s.numeral.fraction.length) := by
  rw [value, numeralValue, zpow_sub₀ (by norm_num), zpow_natCast]
  ring

/-- No zero stands in front of other digits. -/
structure WellWritten (s : Scaled) : Prop extends Decimal.WellWritten s.numeral where
  lead : s.numeral.whole = [48] ∨ s.numeral.whole.head? ≠ some 48

end Scaled

theorem readScaled?_digits {digits : Bytes} {e : Int} {p : Nat} (hp : p < infinityPlace)
    (hdigits : ∀ b ∈ digits, Bytes.isDigit b = true)
    (h : ReadsAs p (digitsValue digits * (10 : ℚ) ^ e)) :
    readScaled? (digitsValue (digits.dropWhile (· == 48))) (digits.dropWhile (· == 48)).length e =
      some (ofPlace p) := by
  have hleft : ∀ b ∈ digits.dropWhile (· == 48), Bytes.isDigit b = true := fun b hb =>
    hdigits b ((List.dropWhile_suffix _).mem hb)
  rw [← digitsValue_dropWhile] at h
  refine readScaled?_of_readsAs hp (fun hne => ?_) (digitsValue_lt hleft) h
  have hlead := List.head?_dropWhile_not (· == (48 : UInt8)) digits
  cases hcase : digits.dropWhile (· == 48) with
  | nil =>
    rw [hcase] at hne
    exact absurd rfl hne
  | cons b rest =>
    rw [hcase] at hleft hlead
    exact pow_le_digitsValue (hleft b List.mem_cons_self) (by simpa using hlead)

theorem readText?_scaled {s : Scaled} {p : Nat} (hs : s.WellWritten) (hp : p < infinityPlace)
    (h : ReadsAs p s.value) : readText? s.text = some (ofPlace p) := by
  obtain ⟨⟨whole, fraction⟩, e⟩ := s
  have hwhole : ∀ c ∈ whole, Bytes.isDigit c = true := fun c hc =>
    hs.digits c (List.mem_append_left _ hc)
  have hfraction : ∀ c ∈ fraction, Bytes.isDigit c = true := fun c hc =>
    hs.digits c (List.mem_append_right _ hc)
  have hne : whole.isEmpty = false := by simpa using hs.whole
  have hstop : ∀ c ∈ (exponentText e).head?, Bytes.isDigit c = false ∧ c ≠ 46 := by
    intro c hc
    rw [← List.append_nil (exponentText e)] at hc
    rcases head_exponentText hc with rfl | hc
    · decide
    · cases hc
  have hexponent := exponent?_exponentText e
  rw [Scaled.value_eq] at h
  have hscaled := readScaled?_digits hp hs.digits h
  rw [Scaled.text, Numeral.lexeme]
  dsimp only
  cases fraction with
  | nil =>
    obtain ⟨htake, hdrop⟩ := Token.takeWhile_append_stop hwhole fun c hc => (hstop c hc).1
    have hpoint : ∀ rest, exponentText e ≠ 46 :: rest := fun rest heq =>
      (hstop 46 (by rw [heq]; rfl)).2 rfl
    rw [List.isEmpty_nil, if_pos rfl, readText?, htake, hdrop]
    split
    next fraction after hafter =>
      split at hafter
      · next rest heq => exact absurd heq (hpoint rest)
      · obtain ⟨rfl, rfl⟩ := Prod.mk.inj hafter
        simp only [hne, hexponent, Bool.false_and, Bool.false_eq_true, if_false]
        exact hscaled
  | cons c fraction =>
    have hpoint : ∀ b ∈ (46 :: (c :: fraction ++ exponentText e)).head?,
        Bytes.isDigit b = false := by
      simp [Bytes.isDigit]
    obtain ⟨htake, hdrop⟩ := Token.takeWhile_append_stop hwhole hpoint
    obtain ⟨htake', hdrop'⟩ := Token.takeWhile_append_stop hfraction fun c hc => (hstop c hc).1
    rw [List.isEmpty_cons, if_neg Bool.false_ne_true, List.append_assoc, List.cons_append,
      readText?, htake, hdrop]
    simp only [htake', hdrop', hne, hexponent, Bool.false_and, Bool.false_eq_true, if_false]
    exact hscaled

end Reading

end BlockScript.Decimal

namespace BlockScript.Json

open Reader Decimal Token.Segment

theorem whole?_append {whole rest : Bytes} (hdigits : ∀ b ∈ whole, Bytes.isDigit b = true)
    (hne : whole ≠ []) (hlead : whole = [48] ∨ whole.head? ≠ some 48)
    (hrest : ∀ b ∈ rest.head?, Bytes.isDigit b = false) :
    whole? (whole ++ rest) = some (whole, rest) := by
  rcases hlead with rfl | hlead
  · rfl
  · have hread := digits?_append hdigits hne hrest
    cases whole with
    | nil => exact absurd rfl hne
    | cons b whole =>
      rw [List.cons_append] at hread ⊢
      rw [whole?]
      · exact hread
      · intro _ hzero
        exact hlead (congrArg some (List.cons.inj hzero).1)

theorem exponent?_append (e : Option Int) {rest : Bytes} (hrest : Ends rest) :
    Reader.exponent? (exponentText e ++ rest) = some (exponentText e, rest) := by
  cases e with
  | none =>
    cases rest with
    | nil => rfl
    | cons b rest => rcases hrest b rfl with rfl | rfl | rfl <;> rfl
  | some e =>
    obtain ⟨b, more, hnatural, -⟩ := head_natural e.natAbs
    have hread := digits?_append (fun b hb => isDigit_of_mem_natural (n := e.natAbs) hb)
      (by simp [hnatural]) hrest.not_digit
    by_cases hneg : e < 0
    · simp [exponentText, Reader.exponent?, hneg, hread]
    · simp [exponentText, Reader.exponent?, hneg, hread]

theorem not_digit_exponentText {e : Option Int} {rest : Bytes} (hrest : Ends rest) :
    ∀ b ∈ (exponentText e ++ rest).head?, Bytes.isDigit b = false := by
  intro b hb
  rcases head_exponentText hb with rfl | hb
  · decide
  · exact hrest.not_digit b hb

theorem unsigned?_scaled {s : Scaled} (hs : s.WellWritten) {rest : Bytes} (hrest : Ends rest) :
    unsigned? (s.text ++ rest) = some (s.text, rest) := by
  obtain ⟨⟨whole, fraction⟩, e⟩ := s
  have hwhole : ∀ c ∈ whole, Bytes.isDigit c = true := fun c hc =>
    hs.digits c (List.mem_append_left _ hc)
  have hfraction : ∀ c ∈ fraction, Bytes.isDigit c = true := fun c hc =>
    hs.digits c (List.mem_append_right _ hc)
  have hafter := not_digit_exponentText (e := e) hrest
  have hexponent := exponent?_append e hrest
  rw [Scaled.text, Numeral.lexeme, List.append_assoc]
  dsimp only
  cases fraction with
  | nil =>
    have hread := whole?_append hwhole hs.whole hs.lead hafter
    have hnone : fraction? (exponentText e ++ rest) = some ([], exponentText e ++ rest) := by
      rw [fraction?]
      intro more heq
      have hpoint : (46 : UInt8) ∈ (exponentText e ++ rest).head? := by rw [heq]; rfl
      rcases head_exponentText hpoint with h | h
      · cases h
      · rcases hrest 46 h with h | h | h <;> cases h
    simp [unsigned?, hread, hnone, hexponent]
  | cons c fraction =>
    have hpoint : ∀ b ∈ (46 :: (c :: fraction ++ (exponentText e ++ rest))).head?,
        Bytes.isDigit b = false := by
      simp [Bytes.isDigit]
    have hread := whole?_append hwhole hs.whole hs.lead hpoint
    have hpart := digits?_append hfraction (List.cons_ne_nil c fraction) hafter
    rw [List.cons_append] at hread hpart
    simp [unsigned?, hread, fraction?, hpart, hexponent]

theorem visible_exponentText {e : Option Int} {b : UInt8} (h : b ∈ exponentText e) :
    32 ≤ b.toNat ∧ b.toNat < 128 := by
  cases e with
  | none => cases h
  | some e =>
    rcases List.mem_cons.1 h with rfl | h
    · decide
    · rcases List.mem_cons.1 h with rfl | h
      · by_cases hneg : e < 0
        · rw [if_pos hneg]
          decide
        · rw [if_neg hneg]
          decide
      · have := toNat_of_isDigit (isDigit_of_mem_natural h)
        omega

theorem isUnsigned_scaled {s : Scaled} (hs : s.WellWritten) : IsUnsigned s.text := by
  refine ⟨.ofAscii fun b hb => ?_, ?_, fun rest hrest => unsigned?_scaled hs hrest⟩
  · rcases List.mem_append.1 hb with hb | hb
    · rcases hs.mem_lexeme hb with hdigit | rfl
      · have := toNat_of_isDigit hdigit
        omega
      · decide
    · exact visible_exponentText hb
  · obtain ⟨b, more, hlexeme, hdigit⟩ := hs.head_lexeme
    refine ⟨b, ?_, hdigit⟩
    rw [Scaled.text, hlexeme]
    rfl

end BlockScript.Json

namespace BlockScript.Decimal

open Bytes (digitsValue)
open Token.Segment (Numeral)

section Writing

/-- The digits of a number do not begin with a zero. -/
theorem head_shortest {p : Nat} (hp : 0 < p) : (shortest p).digits.head? ≠ some 48 := by
  obtain ⟨c, grid, heq, hreads⟩ := shortest_readsAs p
  have hc := coefficient_pos hp hreads
  have hne := (ofCoefficient_digits grid hc).1
  obtain ⟨z, hz⟩ := eq_append_zeros (Bytes.natural c)
  obtain ⟨b, more, hnatural, -, hb⟩ := Json.head_natural c
  rw [heq]
  intro hzero
  have hhead : (Bytes.natural c).head? = some 48 := by
    rw [hz]
    exact (List.head?_append_of_ne_nil _ hne).trans hzero
  rw [hnatural] at hhead
  exact hb (Nat.pos_of_ne_zero hc) (Option.some.inj hhead)

theorem scientific_scaled {d : Digits} (hne : d.digits ≠ [])
    (hdigits : ∀ b ∈ d.digits, Bytes.isDigit b = true) (hlead : d.digits.head? ≠ some 48) :
    ∃ s : Scaled, s.WellWritten ∧ s.text = d.scientific 1 ∧ s.value = d.value := by
  obtain ⟨digits, point⟩ := d
  obtain ⟨b, rest, rfl⟩ := List.exists_cons_of_ne_nil hne
  refine ⟨⟨⟨[b], rest⟩, some (point - 1)⟩, ⟨⟨List.cons_ne_nil b [], hdigits⟩, .inr hlead⟩, ?_, ?_⟩
  · obtain ⟨c, more, hnatural, -⟩ := Json.head_natural (point - 1).natAbs
    have hwidth : zeros (1 - (Bytes.natural (point - 1).natAbs).length) = [] := by
      rw [hnatural, List.length_cons, Nat.sub_eq_zero_of_le (by omega)]
      rfl
    rw [Scaled.text, Digits.scientific, exponentText, hwidth, Numeral.lexeme]
    cases rest with
    | nil => simp
    | cons c rest => simp
  · rw [Scaled.value, numeralValue, Digits.value]
    dsimp only
    rw [List.singleton_append, Option.getD_some, ← zpow_natCast, div_mul_eq_mul_div, mul_div_assoc,
      ← zpow_sub₀ (by norm_num), List.length_cons]
    congr 2
    push_cast
    ring

/-- What is written for a finite number in JSON, its sign aside, reads as the number. -/
theorem exists_scaled {x : Float} (h : isFinite x = true) :
    ∃ s : Scaled, s.WellWritten ∧ ReadsAs (place x) s.value ∧
      Layout.json.text x = (if isNegative x then [45] else []) ++ s.text := by
  rw [Layout.json.text_of_isFinite h]
  by_cases hzero : place x = 0
  · refine ⟨⟨⟨[48], []⟩, none⟩, ⟨⟨by simp, by simp [Bytes.isDigit]⟩, .inl rfl⟩, ?_, ?_⟩
    · rw [hzero, Scaled.value, Option.getD_none, zpow_zero, mul_one]
      exact readsAs_zero
    · rw [if_pos hzero]
      rfl
  · have hpos := Nat.pos_of_ne_zero hzero
    obtain ⟨hne, hdigits, hreads⟩ := shortest_spec hpos
    have hlead := head_shortest hpos
    rw [if_neg hzero]
    by_cases hplain : Layout.json.plain ((shortest (place x)).point - 1) = true
    · obtain ⟨n, hwell, hlexeme, hvalue, hhead⟩ := plain_numeral hne hdigits
      refine ⟨⟨n, none⟩, ⟨hwell, hhead.imp_right fun hsame => hsame.trans_ne hlead⟩, ?_, ?_⟩
      · rwa [Scaled.value, Option.getD_none, zpow_zero, mul_one, hvalue]
      · rw [if_pos hplain, ← hlexeme, Scaled.text, exponentText, List.append_nil]
    · obtain ⟨s, hwell, htext, hvalue⟩ := scientific_scaled hne hdigits hlead
      refine ⟨s, hwell, hvalue ▸ hreads, ?_⟩
      rw [if_neg hplain, htext]
      rfl

theorem withSign_ofPlace {x : Float} (hneg : isNegative x = true) (hfin : isFinite x = true) :
    withSign true (ofPlace (place x)) = x := by
  have hbits : place x + signPlace = x.toBits.toNat := by
    have hlow : signPlace ≤ x.toBits.toNat := by simpa [isNegative] using hneg
    have hhigh := x.toBits.toNat_lt
    rw [place]
    simp only [signPlace] at *
    omega
  have hword : x.toBits.toNat.toUInt64 = x.toBits :=
    UInt64.toNat_inj.1 (toNat_toUInt64 x.toBits.toNat_lt)
  rw [withSign, if_pos rfl, place_ofPlace (place_lt_of_isFinite hfin), hbits, hword, ofBits_toBits]

/-- Digits that read as a number are decoded as that number, with its sign before them. -/
theorem numberOf_scaled {x : Float} (hfin : isFinite x = true) {s : Scaled} (hs : s.WellWritten)
    (h : ReadsAs (place x) s.value) :
    Datum.numberOf ((if isNegative x then [45] else []) ++ s.text) = x := by
  have hread := readText?_scaled hs (place_lt_of_isFinite hfin) h
  cases hsign : isNegative x with
  | true =>
    rw [if_pos rfl, List.singleton_append, Datum.numberOf, hread, Option.getD_some,
      withSign_ofPlace hsign hfin]
  | false =>
    obtain ⟨b, hb, hdigit⟩ := (Json.isUnsigned_scaled hs).head
    obtain ⟨more, htext⟩ := List.head?_eq_some_iff.1 hb
    rw [if_neg Bool.false_ne_true, List.nil_append, Datum.numberOf]
    · rw [hread, Option.getD_some, ofPlace_place hsign]
    · intro digits hminus
      rw [htext] at hminus
      rw [(List.cons.inj hminus).1] at hdigit
      cases hdigit

end Writing

section Integers

def toRat (x : Float) : ℚ :=
  (if isNegative x then -1 else 1) * (numeratorAt (place x) / (Nat.pow 2 finest : Nat))

/-- An integral quotient of natural numbers is their quotient. -/
theorem quotient_eq_iff (num : Nat) {den : Nat} (hden : 0 < den) (n : Int) :
    (num : ℚ) / den = n ↔ num % den = 0 ∧ ((num / den : Nat) : Int) = n := by
  have hden' : (den : ℚ) ≠ 0 := by exact_mod_cast hden.ne'
  rw [div_eq_iff hden']
  constructor
  · intro h
    have hnum : (num : Int) = n * den := by exact_mod_cast h
    have hdvd : den ∣ num := Int.natCast_dvd_natCast.1 ⟨n, by rw [hnum, Int.mul_comm]⟩
    refine ⟨Nat.mod_eq_zero_of_dvd hdvd, ?_⟩
    rw [Int.natCast_div, hnum, Int.mul_ediv_cancel _ (by exact_mod_cast hden.ne')]
  · rintro ⟨hmod, rfl⟩
    have hnum : num / den * den = num := Nat.div_mul_cancel (Nat.dvd_of_mod_eq_zero hmod)
    exact_mod_cast hnum.symm

theorem integer?_eq_some_iff {x : Float} (h : isFinite x = true) {n : Int} :
    Value.integer? x = some n ↔ toRat x = n := by
  have hquotient (m : Int) := quotient_eq_iff (numeratorAt (place x)) (pow_two_pos finest) m
  rw [Value.integer?, if_pos h, toRat]
  dsimp only
  generalize numeratorAt (place x) = num at *
  generalize Nat.pow 2 finest = den at *
  cases hsign : isNegative x with
  | true =>
    have hneg : (-1 : ℚ) * (num / den) = n ↔ (num : ℚ) / den = (-n : Int) := by
      push_cast
      constructor <;> intro h <;> linarith
    rw [if_pos rfl, if_pos rfl, hneg, hquotient]
    by_cases hmod : num % den = 0
    · rw [if_pos hmod, Option.some.injEq]
      omega
    · simp [hmod]
  | false =>
    rw [if_neg Bool.false_ne_true, if_neg Bool.false_ne_true, one_mul, hquotient]
    by_cases hmod : num % den = 0
    · rw [if_pos hmod, Option.some.injEq]
      omega
    · simp [hmod]

/-- A double is what is read for its exact value. -/
theorem readsAs_numeratorAt (p : Nat) : ReadsAs p (numeratorAt p / (Nat.pow 2 finest : Nat)) := by
  intro a b hb h
  rw [← nearestPlace_numeratorAt p]
  exact nearestPlace_eq_of_quotient hb (pow_two_pos finest) h

theorem natural_scaled (n : Nat) :
    ∃ s : Scaled, s.WellWritten ∧ s.text = Bytes.natural n ∧ s.value = n := by
  obtain ⟨b, more, hnatural, -, hb⟩ := Json.head_natural n
  refine ⟨⟨⟨Bytes.natural n, []⟩, none⟩, ⟨⟨by simp [hnatural], ?_⟩, ?_⟩, ?_, ?_⟩
  · intro b hb
    rw [List.append_nil] at hb
    exact isDigit_of_mem_natural hb
  · rcases Nat.eq_zero_or_pos n with rfl | hpos
    · exact .inl rfl
    · refine .inr ?_
      rw [hnatural]
      exact fun hzero => hb hpos (Option.some.inj hzero)
  · rw [Scaled.text, exponentText, List.append_nil]
    rfl
  · rw [Scaled.value, numeralValue]
    simp [digitsValue_natural]

theorem integer_eq (n : Int) :
    Bytes.integer n = (if n < 0 then [45] else []) ++ Bytes.natural n.natAbs := by
  cases n with
  | ofNat n => rfl
  | negSucc n =>
    rw [if_pos (Int.negSucc_lt_zero n)]
    rfl

theorem toRat_abs (x : Float) : |toRat x| = numeratorAt (place x) / (Nat.pow 2 finest : Nat) := by
  have hpos : (0 : ℚ) ≤ numeratorAt (place x) / (Nat.pow 2 finest : Nat) :=
    div_nonneg (Nat.cast_nonneg _) (Nat.cast_nonneg _)
  rw [toRat]
  split
  · rw [neg_one_mul, abs_neg, abs_of_nonneg hpos]
  · rw [one_mul, abs_of_nonneg hpos]

/-- A double other than zero has the sign of its value. -/
theorem isNegative_iff {x : Float} (h : toRat x ≠ 0) : isNegative x = true ↔ toRat x < 0 := by
  have hpos : (0 : ℚ) ≤ numeratorAt (place x) / (Nat.pow 2 finest : Nat) :=
    div_nonneg (Nat.cast_nonneg _) (Nat.cast_nonneg _)
  rw [toRat] at h ⊢
  generalize (numeratorAt (place x) / (Nat.pow 2 finest : Nat) : ℚ) = q at *
  cases hsign : isNegative x with
  | true =>
    have hne : q ≠ 0 := by simpa [hsign] using h
    simpa using lt_of_le_of_ne hpos hne.symm
  | false => simpa using hpos

/-- An integral double is equal to what is decoded for its digits. -/
theorem numberOf_integer {x : Float} (hfin : isFinite x = true) {n : Int} (hn : toRat x = n) :
    (Datum.numberOf (Bytes.integer n) == x) = true := by
  obtain ⟨s, hs, htext, hvalue⟩ := natural_scaled n.natAbs
  have hreads : ReadsAs (place x) s.value := by
    rw [hvalue, Nat.cast_natAbs, Int.cast_abs, ← hn, toRat_abs]
    exact readsAs_numeratorAt (place x)
  rw [integer_eq, ← htext]
  by_cases hzero : n = 0
  -- Minus zero is written without its sign, so it is only equal to what is decoded.
  · subst hzero
    have hplace : place x = 0 := by
      rw [← hreads 0 1 Nat.one_pos (by simp [hvalue]), nearestPlace_zero Nat.one_pos]
    have hread := numberOf_scaled (x := ofPlace 0) rfl hs (by rwa [hplace] at hreads)
    rw [if_neg (by decide)]
    exact hread ▸ beq_of_place_eq_zero hplace
  · have hsign : isNegative x = true ↔ n < 0 := by
      have hne : toRat x ≠ 0 := by rw [hn]; exact_mod_cast hzero
      rw [isNegative_iff hne, hn]
      exact_mod_cast Iff.rfl
    have hread := numberOf_scaled hfin hs hreads
    simp only [hsign] at hread
    rw [hread, beq_self hfin]

end Integers

end BlockScript.Decimal
