import Mathlib.Algebra.Order.Ring.Nat
import BlockScript.Decimal

/-! Doubles and their bits. A word is a sign, an exponent and a mantissa, and a double that is not
invalid is the same as its word. -/

namespace BlockScript.Decimal

open Float.Model (Format UnpackedFloat)
open Float.Model.UnpackedFloat

abbrev Word := BitVec Format.binary64.numBits

theorem toNat_packComponents (s : Sign) (e : BitVec 11) (m : BitVec 52) :
    (packComponents Format.binary64 s e m).toNat =
      s.toBitVec.toNat * 2 ^ 63 + e.toNat * 2 ^ 52 + m.toNat := by
  have he := e.isLt
  have hm := m.isLt
  unfold packComponents
  rw [BitVec.toNat_append, ← Nat.shiftLeft_add_eq_or_of_lt hm, BitVec.toNat_append,
    ← Nat.shiftLeft_add_eq_or_of_lt he]
  simp only [Nat.shiftLeft_eq]
  omega

theorem toNat_unpackMantissa (b : Word) : (unpackMantissa b).toNat = b.toNat % 2 ^ 52 := by
  simp [unpackMantissa, BitVec.extractLsb]

theorem toNat_unpackExponent (b : Word) :
    (unpackExponent b).toNat = b.toNat / 2 ^ 52 % 2 ^ 11 := by
  simp [unpackExponent, BitVec.extractLsb, Nat.shiftRight_eq_div_pow]

theorem toNat_unpackSign (b : Word) : (unpackSign b).toNat = b.toNat / 2 ^ 63 % 2 := by
  delta unpackSign
  simp [BitVec.extractLsb, Nat.shiftRight_eq_div_pow]

theorem toBitVec_ofBitVec (b : BitVec 1) : (Sign.ofBitVec b).toBitVec = b := by
  revert b
  decide

theorem ofBitVec_toBitVec (s : Sign) : Sign.ofBitVec s.toBitVec = s := by cases s <;> rfl

/-- A word is made of its sign, exponent and mantissa. -/
theorem exists_components (b : Word) :
    ∃ (s : Sign) (e : BitVec 11) (m : BitVec 52), b = packComponents Format.binary64 s e m := by
  refine ⟨.ofBitVec (unpackSign b), unpackExponent b, unpackMantissa b, ?_⟩
  apply BitVec.eq_of_toNat_eq
  have hb : b.toNat < 2 ^ 64 := b.isLt
  rw [toNat_packComponents, toBitVec_ofBitVec, toNat_unpackSign, toNat_unpackExponent,
    toNat_unpackMantissa]
  omega

theorem unpackSign_packComponents (s : Sign) (e : BitVec 11) (m : BitVec 52) :
    unpackSign (packComponents Format.binary64 s e m) = s.toBitVec := by
  apply BitVec.eq_of_toNat_eq
  have he := e.isLt
  have hm := m.isLt
  have hs := s.toBitVec.isLt
  rw [toNat_unpackSign, toNat_packComponents]
  omega

variable (s : Sign) (e : BitVec 11) (m : BitVec 52)

theorem toNat_one_append : (1#1 ++ m).toNat = 2 ^ 52 + m.toNat := by
  rw [BitVec.toNat_append, ← Nat.shiftLeft_add_eq_or_of_lt m.isLt]
  rfl

/-- What the components of a word stand for. -/
theorem unpack_packComponents :
    unpack Format.binary64 (packComponents Format.binary64 s e m) =
      if e = -1#11 then if m = 0#52 then .infinity s else .notANumber
      else if e = 0#11 then
        if h : m = 0#52 then .zero s
        else .finite s m.toNat (e.toNat - 1075 + 1)
          (Nat.pos_of_ne_zero fun hm => h (BitVec.eq_of_toNat_eq hm))
      else .finite s (1#1 ++ m).toNat (e.toNat - 1075) (by rw [toNat_one_append]; omega) := by
  have hm : unpackMantissa (packComponents Format.binary64 s e m) = m :=
    unpackMantissa_packComponents
  have he : unpackExponent (packComponents Format.binary64 s e m) = e :=
    unpackExponent_packComponents
  have hs : s = .ofBitVec (unpackSign (packComponents Format.binary64 s e m)) := by
    rw [unpackSign_packComponents, ofBitVec_toBitVec]
  generalize packComponents Format.binary64 s e m = b at hm he hs ⊢
  subst hm he hs
  rfl

theorem neg_unpack_packComponents :
    (unpack Format.binary64 (packComponents Format.binary64 s e m)).neg =
      unpack Format.binary64 (packComponents Format.binary64 (-s) e m) := by
  rw [unpack_packComponents, unpack_packComponents]
  by_cases hexp : e = -1#11
  · rw [if_pos hexp, if_pos hexp]
    by_cases hman : m = 0#52
    · rw [if_pos hman, if_pos hman]
      rfl
    · rw [if_neg hman, if_neg hman]
      rfl
  · rw [if_neg hexp, if_neg hexp]
    by_cases hzero : e = 0#11
    · rw [if_pos hzero, if_pos hzero]
      by_cases hman : m = 0#52
      · rw [dif_pos hman, dif_pos hman]
        rfl
      · rw [dif_neg hman, dif_neg hman]
        rfl
    · rw [if_neg hzero, if_neg hzero]
      rfl

theorem pack_unpack_packComponents
    (valid : Format.binary64.Valid (packComponents Format.binary64 s e m)) :
    pack Format.binary64 (unpack Format.binary64 (packComponents Format.binary64 s e m)) =
      packComponents Format.binary64 s e m := by
  have hnan := valid.eq_packedNaN
  simp only [unpackMantissa_packComponents, unpackExponent_packComponents] at hnan
  have hm := m.isLt
  have he := e.isLt
  rw [unpack_packComponents]
  by_cases hexp : e = -1#11
  · rw [if_pos hexp]
    by_cases hman : m = 0#52
    · rw [if_pos hman, hexp, hman]
      rfl
    · rw [if_neg hman]
      exact (hnan hexp hman).symm
  · rw [if_neg hexp]
    by_cases hzero : e = 0#11
    · rw [if_pos hzero]
      by_cases hman : m = 0#52
      · rw [dif_pos hman, hzero, hman]
        rfl
      · rw [dif_neg hman]
        have hpos : m.toNat ≠ 0 := fun h => hman (BitVec.eq_of_toNat_eq h)
        have hlog : m.toNat.log2 < 52 := (Nat.log2_lt hpos).2 hm
        have hbits : Format.binary64.mantissaBits = 53 := rfl
        subst hzero
        delta UnpackedFloat.pack
        dsimp only
        rw [if_neg (by decide), hbits, if_neg (by omega)]
        simp
    · rw [if_neg hzero]
      have hexp' : e.toNat ≠ 2047 := fun h => hexp (BitVec.eq_of_toNat_eq h)
      have hlog : (2 ^ 52 + m.toNat).log2 = 52 :=
        (Nat.log2_eq_iff (by omega)).2 ⟨by omega, by omega⟩
      delta UnpackedFloat.pack
      dsimp only
      rw [toNat_one_append, if_neg (by simp [Format.exponentBias]; omega),
        if_pos (by rw [hlog]; rfl)]
      congr 1
      · apply BitVec.eq_of_toNat_eq
        simp [Format.exponentBias]
        omega
      · apply BitVec.eq_of_toNat_eq
        simpa using hm

/-- Reading a word and writing it again changes nothing, since invalid numbers have one form. -/
theorem pack_unpack {b : Word} (valid : Format.binary64.Valid b) :
    pack Format.binary64 (unpack Format.binary64 b) = b := by
  obtain ⟨s, e, m, rfl⟩ := exists_components b
  exact pack_unpack_packComponents s e m valid

theorem ofBits_toBits (x : Float) : Float.ofBits x.toBits = x := by
  obtain ⟨bits, valid⟩ := x
  unfold Float.ofBits Float.toBits
  congr 1
  unfold Float.Model.ofBits Float.Model.pack
  congr 1
  rw [pack_unpack valid]

theorem toBits_ofBits {w : UInt64} (h : w.toNat % signPlace < infinityPlace) :
    (Float.ofBits w).toBits = w := by
  have valid : Format.binary64.Valid w.toBitVec := by
    refine ⟨fun hexp _ => ?_⟩
    have := congrArg BitVec.toNat hexp
    rw [toNat_unpackExponent] at this
    have hw : w.toBitVec.toNat = w.toNat := rfl
    simp [signPlace, infinityPlace, spacing, hw] at this h
    omega
  unfold Float.ofBits Float.toBits Float.Model.ofBits Float.Model.pack
  dsimp only
  rw [pack_unpack valid]

theorem toNat_toUInt64 {n : Nat} (h : n < 2 ^ 64) : n.toUInt64.toNat = n := by
  simpa using Nat.mod_eq_of_lt h

theorem ofPlace_place {x : Float} (h : isNegative x = false) : ofPlace (place x) = x := by
  have hplace : place x = x.toBits.toNat := by
    simp only [isNegative, decide_eq_false_iff_not, Nat.not_le] at h
    exact Nat.mod_eq_of_lt h
  have hword : x.toBits.toNat.toUInt64 = x.toBits := by
    apply UInt64.toNat_inj.1
    exact toNat_toUInt64 x.toBits.toNat_lt
  rw [ofPlace, hplace, hword, ofBits_toBits]

theorem toBits_ofPlace {p : Nat} (h : p < infinityPlace) : (ofPlace p).toBits.toNat = p := by
  have hp : p < 2 ^ 64 := by simp [infinityPlace, spacing] at h; omega
  have hword : p.toUInt64.toNat = p := toNat_toUInt64 hp
  rw [ofPlace, toBits_ofBits, hword]
  rw [hword]
  simp [infinityPlace, spacing, signPlace] at h ⊢; omega

theorem place_ofPlace {p : Nat} (h : p < infinityPlace) : place (ofPlace p) = p := by
  rw [place, toBits_ofPlace h]
  simp [infinityPlace, spacing, signPlace] at h ⊢; omega

theorem isNegative_ofPlace {p : Nat} (h : p < infinityPlace) : isNegative (ofPlace p) = false := by
  simp [isNegative, toBits_ofPlace h]
  simp [infinityPlace, spacing, signPlace] at h ⊢; omega

theorem isFinite_ofPlace {p : Nat} (h : p < infinityPlace) : isFinite (ofPlace p) = true := by
  simpa [isFinite, place_ofPlace h] using h

theorem float_ext {x y : Float} (h : x.toBits = y.toBits) : x = y := by
  rw [← ofBits_toBits x, h, ofBits_toBits]

theorem toBits_neg (x : Float) : (-x).toBits =
    .ofBitVec (pack Format.binary64 (unpack Format.binary64 x.toBits.toBitVec).neg) := rfl

theorem neg_ofPlace_place {x : Float} (hneg : isNegative x = true) (hfin : isFinite x = true) :
    -(ofPlace (place x)) = x := by
  have hx : place x < infinityPlace := by simpa [isFinite] using hfin
  have hbits := toBits_ofPlace hx
  obtain ⟨s, e, m, hword⟩ := exists_components x.toBits.toBitVec
  have hsum : x.toBits.toNat = s.toBitVec.toNat * 2 ^ 63 + e.toNat * 2 ^ 52 + m.toNat := by
    rw [← toNat_packComponents, ← hword]
    rfl
  have he := e.isLt
  have hm := m.isLt
  have hplace : place x = e.toNat * 2 ^ 52 + m.toNat := by
    rw [place, hsum, signPlace]
    omega
  obtain rfl : s = .negative := by
    cases s with
    | negative => rfl
    | positive =>
      have hzero : Sign.positive.toBitVec.toNat = 0 := rfl
      simp [isNegative, signPlace, hsum, hzero] at hneg
      omega
  have hpositive : (ofPlace (place x)).toBits.toBitVec =
      packComponents Format.binary64 .positive e m := by
    apply BitVec.eq_of_toNat_eq
    have hzero : Sign.positive.toBitVec.toNat = 0 := rfl
    rw [toNat_packComponents, hzero, Nat.zero_mul, Nat.zero_add, ← hplace]
    exact hbits
  apply float_ext
  rw [toBits_neg, hpositive, neg_unpack_packComponents]
  have hneg' : packComponents Format.binary64 (-.positive) e m = x.toBits.toBitVec := hword.symm
  have hvalid : Format.binary64.Valid x.toBits.toBitVec := x.toModel.valid
  rw [hneg', pack_unpack hvalid]

theorem compare_self {u : UnpackedFloat} (h : u ≠ .notANumber) : u.compare u = some .eq := by
  cases u with
  | notANumber => exact absurd rfl h
  | infinity s => cases s <;> rfl
  | zero s => rfl
  | finite s m e hm =>
    cases s with
    | positive =>
      change some ((compare e e).then (compare m m)) = some .eq
      simp
    | negative =>
      change some ((compare e e).then (compare m m)).swap = some .eq
      simp

theorem beq_self {x : Float} (h : isFinite x = true) : (x == x) = true := by
  have hvalid : x.toModel.unpack ≠ .notANumber := by
    change unpack Format.binary64 x.toBits.toBitVec ≠ .notANumber
    obtain ⟨s, e, m, hword⟩ := exists_components x.toBits.toBitVec
    have he : e ≠ -1#11 := by
      rintro rfl
      have hsum : x.toBits.toNat = s.toBitVec.toNat * 2 ^ 63 + 2047 * 2 ^ 52 + m.toNat := by
        have := congrArg BitVec.toNat hword
        rw [toNat_packComponents] at this
        exact this
      have hm := m.isLt
      have hs := s.toBitVec.isLt
      simp [isFinite, place, signPlace, infinityPlace, spacing, hsum] at h
      omega
    rw [hword, unpack_packComponents, if_neg he]
    by_cases hzero : e = 0#11
    · rw [if_pos hzero]
      by_cases hman : m = 0#52
      · rw [dif_pos hman]
        nofun
      · rw [dif_neg hman]
        nofun
    · rw [if_neg hzero]
      nofun
  change (UnpackedFloat.compare _ _ == some .eq) = true
  rw [compare_self hvalid]
  rfl

/-- Zero and minus zero are equal. -/
theorem beq_of_place_eq_zero {x : Float} (h : place x = 0) : (ofPlace 0 == x) = true := by
  have hfin : isFinite x = true := by
    rw [isFinite, h]
    rfl
  cases hsign : isNegative x with
  | true =>
    rw [← neg_ofPlace_place hsign hfin, h]
    decide
  | false =>
    rw [← ofPlace_place hsign, h]
    decide

end BlockScript.Decimal
