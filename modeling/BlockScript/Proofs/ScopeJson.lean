import BlockScript.Proofs.JsonNumbers
import BlockScript.Proofs.ScopeHistory

/-! A scope as a JSON object. The object can be read, its members are the names of the scope in
increasing order, and each of them is decoded to the value of its name as far as JSON can tell
values apart. -/

namespace BlockScript

open Decimal

/-- A JSON value that is decoded to a value of a program. What has no number in JSON is decoded to
its text. -/
inductive Json.DecodesTo : Json → Value → Prop
  | unset : DecodesTo .null .unset
  | null : DecodesTo .null .null
  | bool (b : Bool) : DecodesTo (.bool b) (.bool b)
  | string (s : Bytes) : DecodesTo (.string (Reader.sanitize s)) (.string s)
  | finite {x : Float} {text : Bytes} (hfinite : isFinite x = true)
      (hvalue : (Datum.numberOf text == x) = true)
      (hplain : ∀ n : Int, toRat x = n → n.natAbs < 2 ^ 53 → text = Bytes.integer n) :
      DecodesTo (.number text) (.number x)
  | other {x : Float} (hother : isFinite x = false) :
      DecodesTo (.string (Layout.program.text x)) (.number x)

namespace Value

theorem numberJson_cases {x : Float} (h : isFinite x = true) :
    (∃ n : Int, toRat x = n ∧ numberJson x = .int n) ∨
      (∀ n : Int, toRat x = n → 2 ^ 53 ≤ n.natAbs) ∧
        numberJson x = .number (Layout.json.text x) := by
  rw [numberJson, if_pos h]
  cases hinteger : integer? x with
  | none =>
    refine .inr ⟨fun n hn => ?_, rfl⟩
    rw [← integer?_eq_some_iff h, hinteger] at hn
    cases hn
  | some n =>
    dsimp only
    by_cases hsmall : n.natAbs < 0x20000000000000
    · exact .inl ⟨n, (integer?_eq_some_iff h).1 hinteger, if_pos hsmall⟩
    · refine .inr ⟨fun m hm => ?_, if_neg hsmall⟩
      rw [← integer?_eq_some_iff h, hinteger] at hm
      obtain rfl := Option.some.inj hm
      omega

theorem isNumber_text {x : Float} (h : isFinite x = true) :
    Json.Reader.IsNumber (Layout.json.text x) := by
  obtain ⟨s, hs, -, htext⟩ := exists_scaled h
  have hunsigned := Json.isUnsigned_scaled hs
  rw [htext]
  cases isNegative x with
  | true => exact hunsigned.minus
  | false => exact hunsigned.isNumber

theorem fits_toJson (v : Value) (depth : Nat) : v.toJson.Fits depth := by
  cases v with
  | unset => cases depth <;> trivial
  | null => cases depth <;> trivial
  | bool b => cases depth <;> trivial
  | string s => exact Json.fits_string depth s
  | number x =>
    rw [toJson]
    cases hfinite : isFinite x with
    | false =>
      rw [numberJson, hfinite]
      exact Json.fits_string depth _
    | true =>
      rcases numberJson_cases hfinite with ⟨n, -, hint⟩ | ⟨-, htext⟩
      · rw [hint]
        exact Json.fits_int depth n
      · have hnumber := isNumber_text hfinite
        rw [htext]
        cases depth <;> simpa [Json.Fits] using hnumber

theorem isText_of_not_finite {x : Float} (h : isFinite x = false) :
    Utf8.IsText (Layout.program.text x) := by
  rw [Layout.text, h]
  by_cases hinfinite : isInfinite x = true
  · rw [if_pos hinfinite]
    by_cases hsign : isNegative x = true
    · rw [if_pos hsign]
      exact .ofString "-Inf"
    · rw [if_neg hsign]
      exact .ofString "+Inf"
  · rw [if_neg hinfinite]
    exact .ofString "NaN"

theorem clean_number (text : Bytes) : (Json.number text).clean = .number text := by
  simp [Json.clean]

/-- What is read for a value is decoded to it. -/
theorem decodesTo_clean_toJson (v : Value) : v.toJson.clean.DecodesTo v := by
  cases v with
  | unset => exact .unset
  | null => exact .null
  | bool b => exact .bool b
  | string s =>
    rw [toJson, Json.clean]
    exact .string s
  | number x =>
    rw [toJson]
    cases hfinite : isFinite x with
    | false =>
      have htext := Json.Reader.sanitize_of_isText (isText_of_not_finite hfinite)
      rw [numberJson, hfinite, if_neg Bool.false_ne_true, Json.clean, htext]
      exact .other hfinite
    | true =>
      rcases numberJson_cases hfinite with ⟨n, hn, hint⟩ | ⟨hlarge, htext⟩
      · rw [hint, Json.int, clean_number]
        refine .finite hfinite (numberOf_integer hfinite hn) fun m hm _ => ?_
        rw [hn] at hm
        rw [Int.cast_injective hm]
      · obtain ⟨s, hs, hreads, hscaled⟩ := exists_scaled hfinite
        rw [htext, clean_number]
        refine .finite hfinite ?_ fun m hm hsmall => ?_
        · rw [hscaled, numberOf_scaled hfinite hs hreads, beq_self hfinite]
        · exact absurd (hlarge m hm) (Nat.not_le.2 hsmall)

end Value

namespace Scope

/-- What definitions and assignments, one after the other, make of an empty scope. -/
def ofDefinitions (definitions : List (Bytes × Value)) : Scope :=
  definitions.foldl (fun s d => s.define d.1 d.2) .empty

theorem ofDefinitions_concat (definitions : List (Bytes × Value)) (d : Bytes × Value) :
    ofDefinitions (definitions ++ [d]) = (ofDefinitions definitions).define d.1 d.2 :=
  List.foldl_concat ..

theorem mem_names_ofDefinitions {definitions : List (Bytes × Value)} {name : Bytes} :
    name ∈ (ofDefinitions definitions).names ↔ name ∈ definitions.map (·.1) := by
  induction definitions using List.reverseRecOn with
  | nil => exact Iff.rfl
  | append_singleton definitions d ih =>
    rw [ofDefinitions_concat, mem_names_define, ih, List.map_append, List.mem_append, or_comm,
      List.map_singleton, List.mem_singleton]

/-- A name has the value it was given last. -/
theorem get?_ofDefinitions (definitions : List (Bytes × Value)) (name : Bytes) :
    (ofDefinitions definitions).get? name = definitions.reverse.lookup name := by
  induction definitions using List.reverseRecOn with
  | nil => rfl
  | append_singleton definitions d ih =>
    obtain ⟨n, v⟩ := d
    rw [ofDefinitions_concat, List.reverse_append, List.reverse_singleton, List.singleton_append,
      List.lookup_cons]
    by_cases hname : n = name
    · subst hname
      rw [get?_define_self, beq_self_eq_true]
    · have hne : (name == n) = false := by simpa using Ne.symm hname
      rw [get?_define_of_ne _ _ hname, hne, ih]

theorem mem_of_get? {s : Scope} {name : Bytes} {v : Value} (h : s.get? name = some v) :
    (name, v) ∈ s.bindings := by
  obtain ⟨before, after, hbindings, -⟩ := List.lookup_eq_some_iff.1 h
  rw [hbindings]
  exact List.mem_append_right _ List.mem_cons_self

theorem parse?_toJson (s : Scope) : Json.parse? s.toJson.render =
    some (.object (s.bindings.map fun b => (Json.Reader.sanitize b.1, b.2.toJson.clean))) := by
  have hfits : s.toJson.Fits Json.Reader.deepest := by
    rw [toJson, show Json.Reader.deepest = 9999 + 1 from rfl, Json.Fits, Json.fitMembers_iff]
    intro m hm
    obtain ⟨entry, -, rfl⟩ := List.mem_map.1 hm
    exact entry.2.fits_toJson 9999
  rw [Json.parse?_render hfits, toJson, Json.clean, Json.cleanMembers_eq_map, List.map_map]
  rfl

/-- The JSON text of a scope whose names are texts is an object. Its members stand in increasing
order without repetition, their names are those that were defined, and each is decoded to the value
that its name was given last. -/
theorem json_object_is_faithful (definitions : List (Bytes × Value))
    (hnames : ∀ d ∈ definitions, Utf8.IsText d.1) :
    ∃ members, Json.parse? (ofDefinitions definitions).toJson.render = some (.object members) ∧
      (members.map (·.1)).Pairwise (· < ·) ∧
      (∀ name, name ∈ members.map (·.1) ↔ name ∈ definitions.map (·.1)) ∧
      ∀ name v, definitions.reverse.lookup name = some v →
        ∃ j, (name, j) ∈ members ∧ j.DecodesTo v := by
  have hkept : ∀ b ∈ (ofDefinitions definitions).bindings, Json.Reader.sanitize b.1 = b.1 := by
    intro b hb
    have hmem : b.1 ∈ definitions.map (·.1) :=
      mem_names_ofDefinitions.1 (List.mem_map_of_mem hb)
    obtain ⟨d, hd, hname⟩ := List.mem_map.1 hmem
    exact Json.Reader.sanitize_of_isText (hname ▸ hnames d hd)
  have hmembers : ((ofDefinitions definitions).bindings.map fun b =>
      (Json.Reader.sanitize b.1, b.2.toJson.clean)).map (·.1) =
        (ofDefinitions definitions).names := by
    rw [List.map_map]
    exact List.map_congr_left hkept
  refine ⟨_, parse?_toJson _, ?_, ?_, ?_⟩
  · rw [hmembers]
    exact (ofDefinitions definitions).ordered
  · intro name
    rw [hmembers]
    exact mem_names_ofDefinitions
  · intro name v hlast
    rw [← get?_ofDefinitions] at hlast
    have hmem := mem_of_get? hlast
    refine ⟨_, ?_, v.decodesTo_clean_toJson⟩
    have hmember := List.mem_map_of_mem
      (f := fun b : Bytes × Value => (Json.Reader.sanitize b.1, b.2.toJson.clean)) hmem
    rwa [hkept _ hmem] at hmember

/-- A string that is no text, and a name that is given zero and then minus infinity. -/
theorem json_object_of_odd_values :
    let x := Bytes.ofString "x"
    let e := Bytes.ofString "é"
    let definitions : List (Bytes × Value) :=
      [(x, .number (ofPlace 0)), (e, .string [97, 255]), (x, .number (infinity true))]
    (∀ d ∈ definitions, Utf8.IsText d.1) ∧
      ∃ members, Json.parse? (ofDefinitions definitions).toJson.render = some (.object members) ∧
        (members.map (·.1)).Pairwise (· < ·) ∧
        (∀ name, name ∈ members.map (·.1) ↔ name = x ∨ name = e) ∧
        (x, Json.text "-Inf") ∈ members ∧ (e, Json.text "a\uFFFD") ∈ members := by
  intro x e definitions
  have hnames : ∀ d ∈ definitions, Utf8.IsText d.1 := by
    intro d hd
    simp only [definitions, List.mem_cons, List.not_mem_nil, or_false] at hd
    rcases hd with rfl | rfl | rfl <;> exact .ofString _
  obtain ⟨members, hread, hsorted, hmem, hvalues⟩ := json_object_is_faithful definitions hnames
  refine ⟨hnames, members, hread, hsorted, fun name => ?_, ?_, ?_⟩
  · rw [hmem]
    simp only [definitions, List.map_cons, List.map_nil, List.mem_cons, List.not_mem_nil, or_false]
    tauto
  · obtain ⟨j, hj, hdecodes⟩ := hvalues x (.number (infinity true)) (by decide)
    cases hdecodes with
    | finite hfinite => exact absurd hfinite (by decide)
    | other _ => exact hj
  · obtain ⟨j, hj, hdecodes⟩ := hvalues e (.string [97, 255]) (by decide)
    have hclean : Json.Reader.sanitize [97, 255] = Bytes.ofString "a\uFFFD" := by decide +kernel
    cases hdecodes with
    | string _ =>
      rw [hclean] at hj
      exact hj

end Scope

end BlockScript
