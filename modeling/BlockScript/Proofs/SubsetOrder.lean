import Mathlib.Data.List.Sort
import BlockScript.Datum
import BlockScript.Proofs.Binary64

/-! When an expectation is met is a partial order: on values as JSON has them, meeting an expectation
is reflexive and transitive, and two values that meet each other are the same, the sign of zero
aside. -/

namespace BlockScript

namespace Decimal

open Float.Model (Format UnpackedFloat)
open Float.Model.UnpackedFloat

def unsigned (x : Float) : Float := if x = -0 then 0 else x

theorem unpack_zero : (0 : Float).toModel.unpack = .zero .positive := by rfl
theorem unpack_negZero : (-0 : Float).toModel.unpack = .zero .negative := by rfl

theorem unpack_injective {x y : Float} (h : x.toModel.unpack = y.toModel.unpack) : x = y := by
  apply float_ext
  have hx : pack Format.binary64 x.toModel.unpack = _ := pack_unpack x.toModel.valid
  have hy : pack Format.binary64 y.toModel.unpack = _ := pack_unpack y.toModel.valid
  rw [h, hy] at hx
  exact UInt64.toBitVec_inj.1 hx.symm

theorem compare_eq_iff {u v : UnpackedFloat} : u.compare v = some .eq ↔
    u = v ∧ u ≠ .notANumber ∨ ∃ s t, u = .zero s ∧ v = .zero t := by
  constructor
  · intro h
    cases u with
    | notANumber => cases v <;> cases h
    | infinity s =>
      cases v with
      | infinity t =>
        cases s with
        | positive =>
          cases t with
          | positive => exact .inl ⟨rfl, by simp⟩
          | negative => cases h
        | negative =>
          cases t with
          | positive => cases h
          | negative => exact .inl ⟨rfl, by simp⟩
      | _ => cases s <;> cases h
    | zero s =>
      cases v with
      | zero t => exact .inr ⟨s, t, rfl, rfl⟩
      | infinity t => cases t <;> cases h
      | finite t m e hm => cases t <;> cases h
      | notANumber => cases h
    | finite s m e hm =>
      cases v with
      | finite t n f hn =>
        refine .inl ⟨?_, nofun⟩
        have heq (hthen : (compare e f).then (compare m n) = .eq) : e = f ∧ m = n := by
          rw [Ordering.then_eq_eq] at hthen
          exact ⟨Std.LawfulEqOrd.eq_of_compare hthen.1, Std.LawfulEqOrd.eq_of_compare hthen.2⟩
        cases s with
        | positive =>
          cases t with
          | positive =>
            obtain ⟨rfl, rfl⟩ := heq (Option.some.inj h)
            rfl
          | negative => cases h
        | negative =>
          cases t with
          | positive => cases h
          | negative =>
            obtain ⟨rfl, rfl⟩ := heq (Ordering.swap_eq_eq.1 (Option.some.inj h))
            rfl
      | zero t => cases s <;> cases h
      | infinity t => cases s <;> cases t <;> cases h
      | notANumber => cases s <;> cases h
  · rintro (⟨rfl, hvalid⟩ | ⟨s, t, rfl, rfl⟩)
    · exact compare_self hvalid
    · rfl

theorem isNaN_eq_false_iff {x : Float} : x.isNaN = false ↔ x.toModel.unpack ≠ .notANumber := by
  change x.toModel.unpack.isNaN = false ↔ _
  cases x.toModel.unpack with
  | notANumber => exact ⟨fun h => absurd h Bool.noConfusion, fun h => absurd rfl h⟩
  | _ => exact ⟨fun _ => nofun, fun _ => rfl⟩

theorem unsigned_eq_zero_iff {x : Float} :
    unsigned x = 0 ↔ ∃ s, x.toModel.unpack = .zero s := by
  constructor
  · intro h
    unfold unsigned at h
    split at h
    · next hminus => exact ⟨.negative, by rw [hminus, unpack_negZero]⟩
    · exact ⟨.positive, by rw [h, unpack_zero]⟩
  · rintro ⟨s, hs⟩
    cases s with
    | positive =>
      rw [unpack_injective (hs.trans unpack_zero.symm)]
      decide
    | negative =>
      rw [unpack_injective (hs.trans unpack_negZero.symm)]
      decide

theorem unsigned_of_ne_zero {x : Float} (h : unsigned x ≠ 0) : unsigned x = x := by
  unfold unsigned at h ⊢
  split at h
  · exact absurd rfl h
  · next hplus => exact if_neg hplus

/-- Doubles are equal if they are the same number, the sign of zero aside. -/
theorem beq_iff {x y : Float} :
    (x == y) = true ↔ x.isNaN = false ∧ y.isNaN = false ∧ unsigned x = unsigned y := by
  have hcompare : (x == y) = (x.toModel.unpack.compare y.toModel.unpack == some .eq) := rfl
  rw [hcompare, beq_iff_eq, compare_eq_iff, isNaN_eq_false_iff, isNaN_eq_false_iff]
  constructor
  · rintro (⟨hsame, hvalid⟩ | ⟨s, t, hx, hy⟩)
    · exact ⟨hvalid, hsame ▸ hvalid, congrArg unsigned (unpack_injective hsame)⟩
    · have hzero := (unsigned_eq_zero_iff.2 ⟨s, hx⟩).trans (unsigned_eq_zero_iff.2 ⟨t, hy⟩).symm
      exact ⟨by simp [hx], by simp [hy], hzero⟩
  · rintro ⟨hx, hy, hsame⟩
    by_cases hzero : unsigned x = 0
    · obtain ⟨s, hs⟩ := unsigned_eq_zero_iff.1 hzero
      obtain ⟨t, ht⟩ := unsigned_eq_zero_iff.1 (hsame ▸ hzero)
      exact .inr ⟨s, t, hs, ht⟩
    · have hother : unsigned y ≠ 0 := hsame ▸ hzero
      rw [unsigned_of_ne_zero hzero, unsigned_of_ne_zero hother] at hsame
      exact .inl ⟨by rw [hsame], hx⟩

end Decimal

namespace Datum

/-- Values as JSON has them. An object has one member of each name, and a number is never invalid. -/
inductive IsValue : Datum → Prop
  | null : IsValue .null
  | bool (b : Bool) : IsValue (.bool b)
  | number {x : Float} (h : x.isNaN = false) : IsValue (.number x)
  | string (s : Bytes) : IsValue (.string s)
  | array {items : List Datum} (h : ∀ d ∈ items, IsValue d) : IsValue (.array items)
  | object {members : List (Bytes × Datum)} (hnames : (members.map (·.1)).Pairwise (· < ·))
      (h : ∀ m ∈ members, IsValue m.2) : IsValue (.object members)

mutual

/-- A datum in which zero has no sign. -/
@[simp] def unsigned : Datum → Datum
  | .null => .null
  | .bool b => .bool b
  | .number x => .number (Decimal.unsigned x)
  | .numeral text => .numeral text
  | .string s => .string s
  | .array items => .array (unsignedItems items)
  | .object members => .object (unsignedMembers members)
  | .nameless => .nameless

@[simp] def unsignedItems : List Datum → List Datum
  | [] => []
  | d :: rest => unsigned d :: unsignedItems rest

@[simp] def unsignedMembers : List (Bytes × Datum) → List (Bytes × Datum)
  | [] => []
  | (name, d) :: rest => (name, unsigned d) :: unsignedMembers rest

end

theorem unsignedItems_eq_map (items : List Datum) : unsignedItems items = items.map unsigned := by
  induction items with
  | nil => rfl
  | cons d items ih => exact congrArg (d.unsigned :: ·) ih

theorem unsignedMembers_eq_map (members : List (Bytes × Datum)) :
    unsignedMembers members = members.map fun m => (m.1, m.2.unsigned) := by
  induction members with
  | nil => rfl
  | cons m members ih => exact congrArg ((m.1, m.2.unsigned) :: ·) ih

theorem names_unsignedMembers (members : List (Bytes × Datum)) :
    (unsignedMembers members).map (·.1) = members.map (·.1) := by
  rw [unsignedMembers_eq_map, List.map_map]
  rfl

theorem mem_unsignedMembers {members : List (Bytes × Datum)} {m : Bytes × Datum} :
    m ∈ unsignedMembers members ↔ ∃ d, (m.1, d) ∈ members ∧ d.unsigned = m.2 := by
  rw [unsignedMembers_eq_map, List.mem_map]
  constructor
  · rintro ⟨⟨name, d⟩, hd, rfl⟩
    exact ⟨d, hd, rfl⟩
  · rintro ⟨d, hd, hm⟩
    exact ⟨(m.1, d), hd, by rw [hm]⟩

attribute [simp] isSubset isSubsetItems isSubsetMembers

/-- What an expected array asks of the items of another, place by place. -/
theorem isSubsetItems_iff {items others : List Datum} : isSubsetItems items others = true ↔
    ∀ (i : Nat) d, items[i]? = some d → ∃ e, others[i]? = some e ∧ isSubset d e = true := by
  induction items generalizing others with
  | nil => simp
  | cons first items ih =>
    cases others with
    | nil =>
      rw [isSubsetItems]
      constructor
      · intro h
        cases h
      · intro h
        obtain ⟨e, he, -⟩ := h 0 first rfl
        cases he
    | cons other others =>
      rw [isSubsetItems, Bool.and_eq_true, ih]
      constructor
      · rintro ⟨hfirst, hrest⟩ i d hd
        cases i with
        | zero =>
          cases hd
          exact ⟨other, rfl, hfirst⟩
        | succ i => exact hrest i d hd
      · intro h
        refine ⟨?_, fun i d hd => h (i + 1) d hd⟩
        obtain ⟨e, he, hsubset⟩ := h 0 first rfl
        cases he
        exact hsubset

/-- What an expected object asks of the members of another, name by name. -/
theorem isSubsetMembers_iff {members others : List (Bytes × Datum)} :
    isSubsetMembers members others = true ↔
      ∀ name d, (name, d) ∈ members → ∃ e, others.lookup name = some e ∧ isSubset d e = true := by
  induction members with
  | nil => simp
  | cons m members ih =>
    obtain ⟨first, d⟩ := m
    rw [isSubsetMembers, Bool.and_eq_true, ih]
    cases hother : others.lookup first with
    | none =>
      constructor
      · rintro ⟨h, -⟩
        cases h
      · intro h
        obtain ⟨e, he, -⟩ := h first d List.mem_cons_self
        cases hother.symm.trans he
    | some e =>
      constructor
      · rintro ⟨hfirst, hrest⟩ name d' hmem
        rcases List.mem_cons.1 hmem with heq | hmem
        · cases heq
          exact ⟨e, hother, hfirst⟩
        · exact hrest name d' hmem
      · intro h
        refine ⟨?_, fun name d' hmem => h name d' (List.mem_cons_of_mem _ hmem)⟩
        obtain ⟨e', he', hsubset⟩ := h first d List.mem_cons_self
        cases hother.symm.trans he'
        exact hsubset

section Members

variable {members others : List (Bytes × Datum)}

theorem mem_of_lookup {name : Bytes} {d : Datum} (h : members.lookup name = some d) :
    (name, d) ∈ members := by
  obtain ⟨before, after, rfl, -⟩ := List.lookup_eq_some_iff.1 h
  simp

/-- In an object a name has one member. -/
theorem lookup_of_mem (hnames : (members.map (·.1)).Pairwise (· < ·)) {name : Bytes} {d : Datum}
    (h : (name, d) ∈ members) : members.lookup name = some d := by
  induction members with
  | nil => cases h
  | cons m members ih =>
    obtain ⟨hfirst, hrest⟩ := List.pairwise_cons.1 hnames
    rcases List.mem_cons.1 h with rfl | h
    · exact List.lookup_cons_self
    · have hbefore : m.1 < name := hfirst name (List.mem_map_of_mem h)
      have hother : name ≠ m.1 := fun heq => List.lt_irrefl name (heq ▸ hbefore)
      rw [List.lookup_cons, beq_eq_false_iff_ne.2 hother]
      exact ih hrest h

/-- Members in the order of their names are determined by which members there are. -/
theorem members_eq_of_mem_iff (hnames : (members.map (·.1)).Pairwise (· < ·))
    (hothers : (others.map (·.1)).Pairwise (· < ·)) (h : ∀ m, m ∈ members ↔ m ∈ others) :
    members = others := by
  rw [List.pairwise_map] at hnames hothers
  have : Std.Irrefl fun p q : Bytes × Datum => p.1 < q.1 := ⟨fun p => List.lt_irrefl p.1⟩
  have : Std.Antisymm fun p q : Bytes × Datum => p.1 < q.1 :=
    ⟨fun p q hpq hqp => absurd hqp (List.lt_asymm hpq)⟩
  exact hnames.eq_of_mem_iff hothers h

end Members

theorem isSubset_null_iff {d : Datum} : isSubset .null d = true ↔ .null = d := by
  cases d <;> simp

theorem isSubset_bool_iff {b : Bool} {d : Datum} : isSubset (.bool b) d = true ↔ .bool b = d := by
  cases d <;> simp

theorem isSubset_number_iff {x : Float} {d : Datum} :
    isSubset (.number x) d = true ↔ ∃ y, d = .number y ∧ (x == y) = true := by
  cases d <;> simp

theorem isSubset_string_iff {s : Bytes} {d : Datum} :
    isSubset (.string s) d = true ↔ .string s = d := by
  cases d <;> simp

theorem isSubset_array_iff {items : List Datum} {d : Datum} :
    isSubset (.array items) d = true ↔ ∃ others, d = .array others ∧
      isSubsetItems items others = true := by
  cases d <;> simp

theorem isSubset_object_iff {members : List (Bytes × Datum)} {d : Datum} :
    isSubset (.object members) d = true ↔ ∃ others, d = .object others ∧
      isSubsetMembers members others = true := by
  cases d <;> simp

variable {a b : Datum}

/-- A value is met by one that differs from it in the signs of zeros only. -/
theorem IsValue.isSubset_of_unsigned_eq (ha : a.IsValue) (hb : b.IsValue)
    (h : a.unsigned = b.unsigned) : isSubset a b = true := by
  induction ha generalizing b with
  | null | bool _ | string _ =>
    cases hb <;> simp_all
  | number hx =>
    cases hb with
    | number hy =>
      rw [unsigned, unsigned, number.injEq] at h
      exact Decimal.beq_iff.2 ⟨hx, hy, h⟩
    | _ => simp at h
  | @array items _ ih =>
    cases hb with
    | @array others hothers =>
      rw [unsigned, unsigned, array.injEq, unsignedItems_eq_map, unsignedItems_eq_map] at h
      rw [isSubset, isSubsetItems_iff]
      intro i d hd
      have hplace := congrArg (·[i]?) h
      simp only [List.getElem?_map, hd, Option.map_some] at hplace
      obtain ⟨e, he, hsame⟩ := Option.map_eq_some_iff.1 hplace.symm
      exact ⟨e, he, ih d (List.mem_of_getElem? hd) (hothers e (List.mem_of_getElem? he)) hsame.symm⟩
    | _ => simp at h
  | @object members _ _ ih =>
    cases hb with
    | @object others hnames hothers =>
      rw [unsigned, unsigned, object.injEq] at h
      rw [isSubset, isSubsetMembers_iff]
      intro name d hd
      have hmem : (name, d.unsigned) ∈ unsignedMembers others := by
        rw [← h, mem_unsignedMembers]
        exact ⟨d, hd, rfl⟩
      obtain ⟨e, he, hsame⟩ := mem_unsignedMembers.1 hmem
      exact ⟨e, lookup_of_mem hnames he, ih _ hd (hothers _ he) hsame.symm⟩
    | _ => simp at h

theorem IsValue.isSubset_trans {c : Datum} (ha : a.IsValue) (hab : isSubset a b = true)
    (hbc : isSubset b c = true) : isSubset a c = true := by
  induction ha generalizing b c with
  | null => rwa [← isSubset_null_iff.1 hab] at hbc
  | bool _ => rwa [← isSubset_bool_iff.1 hab] at hbc
  | string _ => rwa [← isSubset_string_iff.1 hab] at hbc
  | number _ =>
    obtain ⟨y, rfl, hxy⟩ := isSubset_number_iff.1 hab
    obtain ⟨z, rfl, hyz⟩ := isSubset_number_iff.1 hbc
    obtain ⟨hx, -, hsame⟩ := Decimal.beq_iff.1 hxy
    obtain ⟨-, hz, hnext⟩ := Decimal.beq_iff.1 hyz
    exact Decimal.beq_iff.2 ⟨hx, hz, hsame.trans hnext⟩
  | array _ ih =>
    obtain ⟨others, rfl, hothers⟩ := isSubset_array_iff.1 hab
    obtain ⟨thirds, rfl, hthirds⟩ := isSubset_array_iff.1 hbc
    rw [isSubset, isSubsetItems_iff]
    intro i d hd
    obtain ⟨e, he, hde⟩ := isSubsetItems_iff.1 hothers i d hd
    obtain ⟨f, hf, hef⟩ := isSubsetItems_iff.1 hthirds i e he
    exact ⟨f, hf, ih d (List.mem_of_getElem? hd) hde hef⟩
  | object _ _ ih =>
    obtain ⟨others, rfl, hothers⟩ := isSubset_object_iff.1 hab
    obtain ⟨thirds, rfl, hthirds⟩ := isSubset_object_iff.1 hbc
    rw [isSubset, isSubsetMembers_iff]
    intro name d hd
    obtain ⟨e, he, hde⟩ := isSubsetMembers_iff.1 hothers name d hd
    obtain ⟨f, hf, hef⟩ := isSubsetMembers_iff.1 hthirds name e (mem_of_lookup he)
    exact ⟨f, hf, ih _ hd hde hef⟩

/-- Values that meet each other are the same, the signs of zeros aside. -/
theorem IsValue.unsigned_eq_of_isSubset (ha : a.IsValue) (hb : b.IsValue)
    (hab : isSubset a b = true) (hba : isSubset b a = true) : a.unsigned = b.unsigned := by
  induction ha generalizing b with
  | null => rw [isSubset_null_iff.1 hab]
  | bool _ => rw [isSubset_bool_iff.1 hab]
  | string _ => rw [isSubset_string_iff.1 hab]
  | number _ =>
    obtain ⟨y, rfl, hxy⟩ := isSubset_number_iff.1 hab
    rw [unsigned, unsigned, (Decimal.beq_iff.1 hxy).2.2]
  | @array items _ ih =>
    obtain ⟨others, rfl, hothers⟩ := isSubset_array_iff.1 hab
    rw [isSubset, isSubsetItems_iff] at hba
    cases hb with
    | array hvalues =>
      rw [unsigned, unsigned, unsignedItems_eq_map, unsignedItems_eq_map]
      refine congrArg Datum.array (List.ext_getElem? fun i => ?_)
      rw [List.getElem?_map, List.getElem?_map]
      cases he : others[i]? with
      | some e =>
        obtain ⟨d, hd, hed⟩ := hba i e he
        obtain ⟨e', he', hde⟩ := isSubsetItems_iff.1 hothers i d hd
        obtain rfl := Option.some.inj (he.symm.trans he')
        rw [hd]
        have hvalue := hvalues e (List.mem_of_getElem? he)
        exact congrArg some (ih d (List.mem_of_getElem? hd) hvalue hde hed)
      | none =>
        cases hd : items[i]? with
        | none => rfl
        | some d =>
          obtain ⟨e, he', -⟩ := isSubsetItems_iff.1 hothers i d hd
          cases he.symm.trans he'
  | @object members hnames _ ih =>
    obtain ⟨others, rfl, hothers⟩ := isSubset_object_iff.1 hab
    rw [isSubset, isSubsetMembers_iff] at hba
    rw [isSubsetMembers_iff] at hothers
    cases hb with
    | object hothernames hvalues =>
      -- Members of one name are met by each other, in whichever object the name is found first.
      have hsame {name : Bytes} {d e : Datum} (hd : (name, d) ∈ members) (he : (name, e) ∈ others) :
          d.unsigned = e.unsigned := by
        obtain ⟨e', he', hde⟩ := hothers name d hd
        obtain ⟨d', hd', hed⟩ := hba name e he
        rw [lookup_of_mem hothernames he] at he'
        rw [lookup_of_mem hnames hd] at hd'
        cases he'
        cases hd'
        exact ih _ hd (hvalues _ he) hde hed
      rw [unsigned, unsigned]
      refine congrArg Datum.object (members_eq_of_mem_iff ?_ ?_ fun m => ?_)
      · rwa [names_unsignedMembers]
      · rwa [names_unsignedMembers]
      · rw [mem_unsignedMembers, mem_unsignedMembers]
        constructor
        · rintro ⟨d, hd, hm⟩
          obtain ⟨e, he, -⟩ := hothers _ d hd
          exact ⟨e, mem_of_lookup he, (hsame hd (mem_of_lookup he)).symm.trans hm⟩
        · rintro ⟨e, he, hm⟩
          obtain ⟨d, hd, -⟩ := hba _ e he
          exact ⟨d, mem_of_lookup hd, (hsame (mem_of_lookup hd) he).trans hm⟩

/-- Meeting an expectation is a partial order on values: each value meets itself, what meets a value
that meets a third one meets that too, and exactly the values that are the same, the signs of zeros
aside, meet each other. -/
theorem isSubset_is_partial_order (ha : a.IsValue) (hb : b.IsValue) (c : Datum) :
    isSubset a a = true ∧
      (isSubset a b = true → isSubset b c = true → isSubset a c = true) ∧
      (isSubset a b = true ∧ isSubset b a = true ↔ a.unsigned = b.unsigned) := by
  refine ⟨ha.isSubset_of_unsigned_eq ha rfl, ha.isSubset_trans, ?_, ?_⟩
  · rintro ⟨hab, hba⟩
    exact ha.unsigned_eq_of_isSubset hb hab hba
  · intro h
    exact ⟨ha.isSubset_of_unsigned_eq hb h, hb.isSubset_of_unsigned_eq ha h.symm⟩

/-- More members and items may be found than are expected, a member that is null is not the same as
none, and the sign of zero is not looked at. -/
theorem nested_expectation_is_met :
    let a := object [(Bytes.ofString "k", .array [.null, .number (-0)])]
    let b := object [(Bytes.ofString "k", .array [.null, .number 0]), (Bytes.ofString "n", .null)]
    let c := object [(Bytes.ofString "k", .array [.null, .number 0, .bool true]),
      (Bytes.ofString "m", .string []), (Bytes.ofString "n", .null)]
    a.IsValue ∧ b.IsValue ∧ c.IsValue ∧ isSubset a b = true ∧ isSubset b c = true ∧
      isSubset a c = true ∧ a.unsigned ≠ b.unsigned := by
  intro a b c
  have hzero (x : Float) (hx : x.isNaN = false) : ∀ d ∈ [.null, .number x], IsValue d :=
    List.forall_mem_cons.2 ⟨.null, List.forall_mem_singleton.2 (.number hx)⟩
  have ha : a.IsValue :=
    .object (by decide) (List.forall_mem_singleton.2 (.array (hzero (-0) (by decide))))
  have hb : b.IsValue :=
    .object (by decide) (List.forall_mem_cons.2
      ⟨.array (hzero 0 (by decide)), List.forall_mem_singleton.2 .null⟩)
  have hc : c.IsValue := by
    refine .object (by decide) (List.forall_mem_cons.2 ⟨.array ?_, List.forall_mem_cons.2
      ⟨.string [], List.forall_mem_singleton.2 .null⟩⟩)
    exact List.forall_mem_append.2
      ⟨hzero 0 (by decide), List.forall_mem_singleton.2 (.bool true)⟩
  have hab : isSubset a b = true := by decide
  have hbc : isSubset b c = true := by decide
  obtain ⟨-, htrans, hsame⟩ := isSubset_is_partial_order ha hb c
  refine ⟨ha, hb, hc, hab, hbc, htrans hab hbc, fun h => ?_⟩
  exact absurd (hsame.2 h).2 (by decide)

end Datum

end BlockScript
