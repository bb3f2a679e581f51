import Mathlib.Algebra.Order.Field.Rat
import Mathlib.Tactic.FieldSimp
import Mathlib.Tactic.Ring
import BlockScript.Token
import BlockScript.Proofs.Binary64

/-! The text of a finite number reads back as that number. The nearest double depends only on the
quotient that is read, so it is enough that the digits found stand for a quotient that rounds to the
number, and that every layout of the digits keeps their value. -/

namespace BlockScript.Decimal

/-- Stated for a variable exponent: powers as large as `2 ^ finest` are not to be computed. -/
theorem pow_two_pos (k : Nat) : 0 < Nat.pow 2 k := Nat.two_pow_pos k

theorem roundDiv_mul_right (a b : Nat) {k : Nat} (hk : 0 < k) :
    roundDiv (a * k) (b * k) = roundDiv a b := by
  unfold roundDiv
  have hq : a * k / (b * k) = a / b := Nat.mul_div_mul_right a b hk
  have hr : a * k % (b * k) = a % b * k := Nat.mul_mod_mul_right k a b
  have hlt : b * k < 2 * (a % b * k) ↔ b < 2 * (a % b) := by
    rw [← Nat.mul_assoc]
    exact Nat.mul_lt_mul_right hk
  have heq : 2 * (a % b * k) = b * k ↔ 2 * (a % b) = b := by
    rw [← Nat.mul_assoc]
    exact Nat.mul_left_inj (by omega)
  simp only [hq, hr, hlt, Bool.or_eq_true, Bool.and_eq_true, beq_iff_eq, decide_eq_true_eq, heq]

theorem roundDiv_mul_cancel (a : Nat) {k : Nat} (hk : 0 < k) : roundDiv (a * k) k = a := by
  have h := roundDiv_mul_right a 1 hk
  rw [Nat.one_mul] at h
  rw [h]
  simp [roundDiv, Nat.mod_one]

theorem nearestPlace_mul_right (num den : Nat) {k : Nat} (hk : 0 < k) :
    nearestPlace (num * k) (den * k) = nearestPlace num den := by
  unfold nearestPlace
  have hscaled : num * k * Nat.pow 2 finest = num * Nat.pow 2 finest * k := by
    rw [Nat.mul_right_comm]
  have hpart (e : Nat) : den * k * Nat.pow 2 e = den * Nat.pow 2 e * k := by
    rw [Nat.mul_right_comm]
  simp only [hscaled, hpart, Nat.mul_div_mul_right _ _ hk, roundDiv_mul_right _ _ hk]

/-- The nearest double depends on the quotient alone. -/
theorem nearestPlace_congr {a b c d : Nat} (hb : 0 < b) (hd : 0 < d) (h : a * d = c * b) :
    nearestPlace a b = nearestPlace c d := by
  rw [← nearestPlace_mul_right a b hd, h, Nat.mul_comm b d, nearestPlace_mul_right c d hb]

/-- A double is the one nearest to its exact value. -/
theorem nearestPlace_numeratorAt (p : Nat) :
    nearestPlace (numeratorAt p) (Nat.pow 2 finest) = p := by
  have hpos := pow_two_pos finest
  unfold nearestPlace
  dsimp only
  generalize Nat.pow 2 finest = unit at hpos
  rw [Nat.mul_div_cancel _ hpos]
  unfold numeratorAt
  by_cases hp : p < spacing
  · have hlog : p.log2 - 52 = 0 := by
      by_cases hzero : p = 0
      · simp [hzero]
      · have := (Nat.log2_lt hzero).2 (show p < 2 ^ 52 from hp)
        omega
    rw [if_pos hp, hlog, Nat.zero_mul, Nat.zero_add]
    have : unit * Nat.pow 2 0 = unit := Nat.mul_one unit
    rw [this, roundDiv_mul_cancel p hpos]
  · rw [if_neg hp]
    have hmant : p % spacing < spacing := Nat.mod_lt _ (by decide)
    have hdiv := Nat.div_add_mod p spacing
    have hone : 1 ≤ p / spacing := (Nat.one_le_div_iff (by decide)).2 (Nat.le_of_not_lt hp)
    obtain ⟨k, hk⟩ : ∃ k, p / spacing = k + 1 := ⟨p / spacing - 1, by omega⟩
    rw [hk, Nat.add_sub_cancel]
    have hlog : ((spacing + p % spacing) * Nat.pow 2 k).log2 = 52 + k := by
      have hlow : 2 ^ 52 * 2 ^ k ≤ (spacing + p % spacing) * 2 ^ k :=
        Nat.mul_le_mul_right _ (Nat.le_add_right spacing _)
      have hhigh : (spacing + p % spacing) * 2 ^ k < 2 ^ 53 * 2 ^ k :=
        Nat.mul_lt_mul_of_pos_right (by simp only [spacing] at *; omega) (Nat.two_pow_pos k)
      rw [← Nat.pow_add] at hlow hhigh
      refine (Nat.log2_eq_iff ?_).2 ⟨hlow, ?_⟩
      · have := Nat.two_pow_pos (52 + k)
        exact Nat.ne_of_gt (Nat.lt_of_lt_of_le this hlow)
      · rwa [show 52 + k + 1 = 53 + k by omega]
    have hunit : 0 < unit * Nat.pow 2 k := Nat.mul_pos hpos (pow_two_pos k)
    rw [hlog, Nat.add_sub_cancel_left, Nat.mul_assoc, Nat.mul_comm (Nat.pow 2 k) unit,
      roundDiv_mul_cancel _ hunit]
    rw [hk] at hdiv
    rw [Nat.mul_comm, ← Nat.add_assoc, ← Nat.mul_succ]
    exact hdiv

theorem nearestPlace_zero {den : Nat} (hden : 0 < den) : nearestPlace 0 den = 0 :=
  calc nearestPlace 0 den
    _ = nearestPlace (numeratorAt 0) (Nat.pow 2 finest) :=
      nearestPlace_congr hden (pow_two_pos finest)
        (by rw [Nat.zero_mul]; exact (Nat.zero_mul _).symm)
    _ = 0 := nearestPlace_numeratorAt 0

open Bytes (digitsValue)
open Token.Segment (Numeral)

theorem digitsValue_cons (d : UInt8) (rest : Bytes) :
    digitsValue (d :: rest) = (d.toNat - 48) * 10 ^ rest.length + digitsValue rest := by
  have shift (digits : Bytes) (n : Nat) : digits.foldl (fun n d => n * 10 + (d.toNat - 48)) n =
      n * 10 ^ digits.length + digits.foldl (fun n d => n * 10 + (d.toNat - 48)) 0 := by
    induction digits generalizing n with
    | nil => simp
    | cons d rest ih =>
      rw [List.foldl_cons, ih, List.foldl_cons, ih (0 * 10 + _), List.length_cons]
      ring
  rw [digitsValue, List.foldl_cons, shift, Nat.zero_mul, Nat.zero_add]
  rfl

theorem digitsValue_append (a b : Bytes) :
    digitsValue (a ++ b) = digitsValue a * 10 ^ b.length + digitsValue b := by
  induction a with
  | nil => simp [digitsValue]
  | cons d rest ih =>
    rw [List.cons_append, digitsValue_cons, digitsValue_cons, ih, List.length_append]
    ring

theorem digitsValue_zeros (n : Nat) : digitsValue (zeros n) = 0 := by
  induction n with
  | zero => rfl
  | succ n ih =>
    rw [zeros, List.replicate_succ, digitsValue_cons]
    simpa [zeros] using ih

theorem toNat_of_mem_toDigits {n : Nat} {c : Char} (h : c ∈ Nat.toDigits 10 n) :
    c.toNat.toUInt8.toNat = c.toNat ∧ 48 ≤ c.toNat ∧ c.toNat ≤ 57 := by
  have hdigit := Nat.isDigit_of_mem_toDigits (by omega) (by omega) h
  rw [Char.isDigit_iff_toNat] at hdigit
  have hlow : 48 ≤ c.toNat := hdigit.1
  have hhigh : c.toNat ≤ 57 := hdigit.2
  refine ⟨?_, hlow, hhigh⟩
  simp
  omega

theorem digitsValue_natural (n : Nat) : digitsValue (Bytes.natural n) = n := by
  have hvalue := @Nat.ofDigitChars_ten_toDigits n
  rw [Nat.ofDigitChars_eq_foldl] at hvalue
  rw [digitsValue, Bytes.natural, List.foldl_map]
  refine Eq.trans (List.foldl_ext _ _ _ fun a c hc => ?_) hvalue
  rw [(toNat_of_mem_toDigits hc).1, Nat.mul_comm]
  rfl

theorem isDigit_of_mem_natural {n : Nat} {b : UInt8} (h : b ∈ Bytes.natural n) :
    Bytes.isDigit b = true := by
  obtain ⟨c, hc, rfl⟩ := List.mem_map.1 h
  obtain ⟨hbyte, hlow, hhigh⟩ := toNat_of_mem_toDigits hc
  simp only [Bytes.isDigit, Bool.and_eq_true, decide_eq_true_eq, UInt8.le_iff_toNat_le, hbyte]
  exact ⟨hlow, hhigh⟩

theorem nearestPlace_eq_of_quotient {a b c d : Nat} (hb : 0 < b) (hd : 0 < d)
    (h : (a : ℚ) / b = c / d) : nearestPlace a b = nearestPlace c d := by
  apply nearestPlace_congr hb hd
  have hb' : (b : ℚ) ≠ 0 := by exact_mod_cast hb.ne'
  have hd' : (d : ℚ) ≠ 0 := by exact_mod_cast hd.ne'
  rw [div_eq_div_iff hb' hd'] at h
  exact_mod_cast h

theorem onGrid_pos (c : Nat) (grid : Int) : 0 < (onGrid c grid).2 := by
  unfold onGrid
  split
  · exact Nat.one_pos
  · exact Nat.pow_pos (by omega)

theorem onGrid_quotient (c : Nat) (grid : Int) :
    ((onGrid c grid).1 : ℚ) / (onGrid c grid).2 = c * (10 : ℚ) ^ grid := by
  unfold onGrid
  split
  · simp
  · next g =>
    rw [zpow_negSucc, Nat.pow_eq]
    push_cast
    rfl

/-- `x` is the value of decimal digits that read back as the double at place `p`. -/
def ReadsAs (p : Nat) (x : ℚ) : Prop := ∀ a b : Nat, 0 < b → (a : ℚ) / b = x → nearestPlace a b = p

theorem readsAs_of_readsBack {p c : Nat} {grid : Int} (h : readsBack p c grid = true) :
    ReadsAs p (c * (10 : ℚ) ^ grid) := by
  intro a b hb hx
  have hplace : nearestPlace (onGrid c grid).1 (onGrid c grid).2 = p := by
    simpa [readsBack] using h
  rw [← hplace]
  exact nearestPlace_eq_of_quotient hb (onGrid_pos c grid) (by rw [hx, onGrid_quotient])

theorem readsAs_exact {p n : Nat} (h : n = finest) :
    ReadsAs p ((numeratorAt p * Nat.pow 5 n : Nat) * (10 : ℚ) ^ (-(n : Int))) := by
  intro a b hb hx
  rw [← nearestPlace_numeratorAt p, ← h]
  refine nearestPlace_eq_of_quotient hb (pow_two_pos n) ?_
  rw [hx, zpow_neg, zpow_natCast, Nat.pow_eq, Nat.pow_eq]
  push_cast
  rw [show (10 : ℚ) = 2 * 5 by norm_num, mul_pow]
  field_simp

theorem holds_of_first_or_second {P : Nat → Bool} {a b c : Nat}
    (h : (if P a then some a else if P b then some b else none) = some c) : P c = true := by
  split at h
  · next ha =>
    obtain rfl := Option.some.inj h
    exact ha
  · split at h
    · next hb =>
      obtain rfl := Option.some.inj h
      exact hb
    · cases h

theorem readsBack_of_neighbour {p num den c : Nat} {grid : Int}
    (h : neighbour? p num den grid = some c) : readsBack p c grid = true := by
  unfold neighbour? at h
  dsimp only at h
  exact holds_of_first_or_second (P := fun c => readsBack p c grid) h

/-- Digits that are found stand for a coefficient on a grid that reads back. -/
theorem shortestFrom_readsAs {p num den : Nat} {point : Int} {left used : Nat} {d : Digits}
    (h : shortestFrom? p num den point left used = some d) :
    ∃ c grid, d = .ofCoefficient c grid ∧ ReadsAs p (c * (10 : ℚ) ^ grid) := by
  induction left generalizing used with
  | zero => simp [shortestFrom?] at h
  | succ left ih =>
    rw [shortestFrom?] at h
    cases hc : neighbour? p num den (point - (used + 1 : Nat)) with
    | none => rw [hc] at h; exact ih h
    | some c =>
      rw [hc] at h
      obtain rfl := Option.some.inj h
      exact ⟨c, _, rfl, readsAs_of_readsBack (readsBack_of_neighbour hc)⟩

theorem shortest_readsAs (p : Nat) :
    ∃ c grid, shortest p = .ofCoefficient c grid ∧ ReadsAs p (c * (10 : ℚ) ^ grid) := by
  rw [shortest]
  cases hfound : shortestFrom? p (numeratorAt p) (Nat.pow 2 finest)
      (pointOf (numeratorAt p) (Nat.pow 2 finest)) 17 0 with
  | none => exact ⟨_, _, rfl, readsAs_exact rfl⟩
  | some d => exact shortestFrom_readsAs hfound

theorem coefficient_pos {p c : Nat} {grid : Int} (hp : 0 < p)
    (h : ReadsAs p (c * (10 : ℚ) ^ grid)) : c ≠ 0 := by
  rintro rfl
  have hzero := h 0 1 Nat.one_pos (by simp)
  rw [nearestPlace_zero Nat.one_pos] at hzero
  omega

def Digits.value (d : Digits) : ℚ :=
  digitsValue d.digits * (10 : ℚ) ^ (d.point - d.digits.length)

theorem eq_append_zeros (text : Bytes) :
    ∃ z, text = (text.reverse.dropWhile (· == 48)).reverse ++ zeros z := by
  refine ⟨(text.reverse.takeWhile (· == 48)).length, ?_⟩
  have hzeros : text.reverse.takeWhile (· == 48) =
      zeros (text.reverse.takeWhile (· == 48)).length := by
    apply List.eq_replicate_of_mem
    intro b hb
    have := List.all_takeWhile (p := (· == (48 : UInt8))) (l := text.reverse)
    simpa using List.all_eq_true.1 this b hb
  have hreverse : zeros (text.reverse.takeWhile (· == 48)).length =
      (text.reverse.takeWhile (· == 48)).reverse := by
    rw [hzeros]
    simp [zeros]
  rw [hreverse, ← List.reverse_append, List.takeWhile_append_dropWhile, List.reverse_reverse]

theorem ofCoefficient_value (c : Nat) (grid : Int) :
    (Digits.ofCoefficient c grid).value = c * (10 : ℚ) ^ grid := by
  obtain ⟨z, hz⟩ := eq_append_zeros (Bytes.natural c)
  have hvalue := digitsValue_natural c
  have hlength := congrArg List.length hz
  rw [hz, digitsValue_append, digitsValue_zeros] at hvalue
  simp only [Digits.value, Digits.ofCoefficient]
  generalize ((Bytes.natural c).reverse.dropWhile (· == 48)).reverse = digits at *
  rw [List.length_append] at hlength
  have hz' : (zeros z).length = z := List.length_replicate
  rw [hz'] at hvalue hlength
  rw [hlength, ← hvalue]
  push_cast
  rw [show (digits.length : Int) + z + grid - digits.length = z + grid by ring,
    zpow_add₀ (by norm_num), zpow_natCast]
  ring

theorem ofCoefficient_digits {c : Nat} (grid : Int) (hc : c ≠ 0) :
    (Digits.ofCoefficient c grid).digits ≠ [] ∧
      ∀ b ∈ (Digits.ofCoefficient c grid).digits, Bytes.isDigit b = true := by
  obtain ⟨z, hz⟩ := eq_append_zeros (Bytes.natural c)
  have hvalue := digitsValue_natural c
  constructor
  · intro hnil
    simp only [Digits.ofCoefficient] at hnil
    rw [hz, hnil, List.nil_append, digitsValue_zeros] at hvalue
    exact hc hvalue.symm
  · intro b hb
    apply isDigit_of_mem_natural (n := c)
    rw [hz]
    exact List.mem_append_left _ hb

theorem shortest_spec {p : Nat} (hp : 0 < p) :
    (shortest p).digits ≠ [] ∧ (∀ b ∈ (shortest p).digits, Bytes.isDigit b = true) ∧
      ReadsAs p (shortest p).value := by
  obtain ⟨c, grid, heq, hreads⟩ := shortest_readsAs p
  have hc := coefficient_pos hp hreads
  rw [heq, ofCoefficient_value]
  exact ⟨(ofCoefficient_digits grid hc).1, (ofCoefficient_digits grid hc).2, hreads⟩

theorem isDigit_of_mem_zeros {n : Nat} {b : UInt8} (h : b ∈ zeros n) : Bytes.isDigit b = true := by
  rw [List.eq_of_mem_replicate h]
  rfl

/-- A numeral in digits: there is one before the point, and nothing but digits around it. -/
structure WellWritten (n : Numeral) : Prop where
  whole : n.whole ≠ []
  digits : ∀ b ∈ n.whole ++ n.fraction, Bytes.isDigit b = true

namespace WellWritten

variable {n : Numeral}

theorem mem_lexeme (h : WellWritten n) {b : UInt8} (hb : b ∈ n.lexeme) :
    Bytes.isDigit b = true ∨ b = 46 := by
  unfold Numeral.lexeme at hb
  split at hb
  · exact .inl (h.digits b (List.mem_append_left _ hb))
  · rcases List.mem_append.1 hb with hb | hb
    · exact .inl (h.digits b (List.mem_append_left _ hb))
    · rcases List.mem_cons.1 hb with rfl | hb
      · exact .inr rfl
      · exact .inl (h.digits b (List.mem_append_right _ hb))

theorem head_lexeme (h : WellWritten n) :
    ∃ b more, n.lexeme = b :: more ∧ Bytes.isDigit b = true := by
  obtain ⟨b, digits, hwhole⟩ := List.exists_cons_of_ne_nil h.whole
  have hdigit := h.digits b (by simp [hwhole])
  by_cases hnone : n.fraction = []
  · exact ⟨b, digits, by simp [Numeral.lexeme, hnone, hwhole], hdigit⟩
  · exact ⟨b, digits ++ 46 :: n.fraction, by simp [Numeral.lexeme, hnone, hwhole], hdigit⟩

end WellWritten

def numeralValue (n : Numeral) : ℚ :=
  digitsValue (n.whole ++ n.fraction) / (10 : ℚ) ^ n.fraction.length

theorem plain_numeral {d : Digits} (hne : d.digits ≠ [])
    (hdigits : ∀ b ∈ d.digits, Bytes.isDigit b = true) :
    ∃ n, WellWritten n ∧ n.lexeme = d.plain ∧ numeralValue n = d.value ∧
      (n.whole = [48] ∨ n.whole.head? = d.digits.head?) := by
  obtain ⟨digits, point⟩ := d
  have hlength : 0 < digits.length := List.length_pos_iff.2 hne
  unfold Digits.plain Digits.value
  dsimp only at *
  split
  · next n =>
    split
    · next hle =>
      -- all digits stand before the point
      obtain ⟨z, rfl⟩ := Nat.exists_eq_add_of_le hle
      refine ⟨⟨digits ++ zeros z, []⟩, ⟨by simp [hne], ?_⟩, ?_, ?_, .inr ?_⟩
      · intro b hb
        rw [List.append_nil, List.mem_append] at hb
        exact hb.elim (hdigits b) isDigit_of_mem_zeros
      · rw [if_neg (by omega), Nat.add_sub_cancel_left]
        rfl
      · have hz : (zeros z).length = z := List.length_replicate
        simp [numeralValue, digitsValue_append, digitsValue_zeros, hz]
      · exact List.head?_append_of_ne_nil _ hne
    · next hlt =>
      split
      · next hzero =>
        subst hzero
        refine ⟨⟨[48], digits⟩, ⟨by simp, ?_⟩, ?_, ?_, .inl rfl⟩
        · simpa using ⟨rfl, hdigits⟩
        · simp [Numeral.lexeme, hne]
        · simp [numeralValue, digitsValue_cons, div_eq_mul_inv]
      · next hpos =>
        refine ⟨⟨digits.take n, digits.drop n⟩, ⟨by simp [hne, hpos], ?_⟩, ?_, ?_, .inr ?_⟩
        · rwa [List.take_append_drop]
        · have : digits.drop n ≠ [] := by simp; omega
          simp [Numeral.lexeme, this]
        · have hcast : ((digits.length - n : Nat) : Int) = digits.length - n := by omega
          simp only [numeralValue, List.take_append_drop, List.length_drop, div_eq_mul_inv]
          rw [← zpow_natCast, hcast, ← zpow_neg]
          congr 2
          simp
        · simp [List.head?_take, hpos]
  · next n =>
    refine ⟨⟨[48], zeros (n + 1) ++ digits⟩, ⟨by simp, ?_⟩, ?_, ?_, .inl rfl⟩
    · intro b hb
      simp only [List.cons_append, List.nil_append, List.mem_cons, List.mem_append] at hb
      rcases hb with rfl | hb | hb
      · rfl
      · exact isDigit_of_mem_zeros hb
      · exact hdigits b hb
    · simp [Numeral.lexeme, hne]
    · have hz : (zeros (n + 1)).length = n + 1 := List.length_replicate
      simp only [numeralValue, List.cons_append, List.nil_append, digitsValue_cons,
        digitsValue_append, digitsValue_zeros, List.length_append, hz, div_eq_mul_inv]
      rw [← zpow_natCast, ← zpow_neg]
      congr 2
      · simp
      · push_cast
        rw [Int.negSucc_eq]
        ring

theorem value_of_readsAs {n : Numeral} {p : Nat} (hp : p < infinityPlace)
    (h : ReadsAs p (numeralValue n)) : n.value? = some (ofPlace p) := by
  have hplace :
      nearestPlace (digitsValue (n.whole ++ n.fraction)) (Nat.pow 10 n.fraction.length) = p :=
    h _ _ (Nat.pow_pos (by omega)) (by simp [numeralValue])
  simp only [Numeral.value?, read?, hplace, if_pos hp]

/-- The text is a numeral that reads as the number. -/
def Writes (text : Bytes) (x : Float) : Prop :=
  ∃ n : Numeral, WellWritten n ∧ n.lexeme = text ∧ n.value? = some x

theorem place_lt_of_isFinite {x : Float} (h : isFinite x = true) : place x < infinityPlace := by
  simpa [isFinite] using h

theorem Layout.text_of_isFinite (layout : Layout) {x : Float} (h : isFinite x = true) :
    layout.text x = (if isNegative x then [45] else []) ++
      if place x = 0 then [48]
      else if layout.plain ((shortest (place x)).point - 1) then (shortest (place x)).plain
      else (shortest (place x)).scientific layout.exponentWidth := by
  have hplace := place_lt_of_isFinite h
  have hinf : isInfinite x = false := by
    simp only [isInfinite, beq_eq_false_iff_ne]
    omega
  simp only [Layout.text, hinf, h, Bool.false_eq_true, if_false, Bool.not_true]
  by_cases hzero : place x = 0
  · rw [if_pos hzero, if_pos hzero]
  · rw [if_neg hzero, if_neg hzero]

theorem text_of_isFinite {x : Float} (h : isFinite x = true) :
    Layout.program.text x = (if isNegative x then [45] else []) ++
      if place x = 0 then [48] else (shortest (place x)).plain := by
  rw [Layout.program.text_of_isFinite h, Layout.program, if_pos rfl]

theorem readsAs_zero : ReadsAs 0 (numeralValue ⟨[48], []⟩) := by
  intro a b hb h
  have hb' : (b : ℚ) ≠ 0 := by exact_mod_cast hb.ne'
  have ha : a = 0 := by simpa [numeralValue, digitsValue_cons, digitsValue, hb'] using h
  rw [ha, nearestPlace_zero hb]

/-- What programs print for a finite number without a sign reads as that number. -/
theorem writes_text {x : Float} (hsign : isNegative x = false) (hfin : isFinite x = true) :
    Writes (Layout.program.text x) x := by
  have hplace := place_lt_of_isFinite hfin
  rw [text_of_isFinite hfin, hsign]
  by_cases hzero : place x = 0
  · have hreads : ReadsAs (place x) (numeralValue ⟨[48], []⟩) := hzero ▸ readsAs_zero
    refine ⟨⟨[48], []⟩, ⟨by simp, by simp [Bytes.isDigit]⟩, by simp [Numeral.lexeme, hzero], ?_⟩
    rw [value_of_readsAs hplace hreads, ofPlace_place hsign]
  · obtain ⟨hne, hdigits, hreads⟩ := shortest_spec (Nat.pos_of_ne_zero hzero)
    obtain ⟨n, hwell, hlexeme, hvalue, -⟩ := plain_numeral hne hdigits
    refine ⟨n, hwell, ?_, ?_⟩
    · rw [hlexeme, if_neg hzero, if_neg Bool.false_ne_true, List.nil_append]
    · rw [value_of_readsAs hplace (hvalue ▸ hreads), ofPlace_place hsign]

/-- A number with a sign is printed as its absolute value behind a minus. -/
theorem text_of_isNegative {x : Float} (hsign : isNegative x = true) (hfin : isFinite x = true) :
    Layout.program.text x = 45 :: Layout.program.text (ofPlace (place x)) := by
  have hplace := place_lt_of_isFinite hfin
  rw [text_of_isFinite hfin, text_of_isFinite (isFinite_ofPlace hplace), hsign,
    isNegative_ofPlace hplace, place_ofPlace hplace]
  rfl

end BlockScript.Decimal
