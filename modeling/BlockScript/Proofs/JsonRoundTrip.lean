import BlockScript.Proofs.JsonStrings
import BlockScript.Proofs.NumberText

/-! JSON text is read back as the value it was written for. Members keep their order and numbers
their text; strings come back without the bytes that belong to no character. -/

namespace BlockScript.Json

open Reader

namespace Reader

/-- What may follow a value: its list goes on or ends, or the text does. -/
def Ends (rest : Bytes) : Prop := ∀ b ∈ rest.head?, b = 44 ∨ b = 93 ∨ b = 125

/-- A text that is read as one number wherever a value ends. -/
structure IsNumber (text : Bytes) : Prop where
  visible : Visible text
  head : ∃ b ∈ text.head?, Bytes.isDigit b ∨ b = 45
  reads : ∀ rest, Ends rest → number? (text ++ rest) = some (text, rest)

end Reader

mutual

/-- The value without the bytes that belong to no character. -/
def clean : Json → Json
  | string s => .string (sanitize s)
  | array items => .array (cleanItems items)
  | object members => .object (cleanMembers members)
  | j => j

def cleanItems : List Json → List Json
  | [] => []
  | j :: rest => clean j :: cleanItems rest

def cleanMembers : List (Bytes × Json) → List (Bytes × Json)
  | [] => []
  | (name, j) :: rest => (sanitize name, clean j) :: cleanMembers rest

end

mutual

/-- The numbers of the value can be read, and it is nested at most this deep. -/
def Fits : (depth : Nat) → Json → Prop
  | _, number text => IsNumber text
  | 0, array _ | 0, object _ => False
  | depth + 1, array items => FitItems depth items
  | depth + 1, object members => FitMembers depth members
  | _, _ => True

def FitItems (depth : Nat) : List Json → Prop
  | [] => True
  | j :: rest => Fits depth j ∧ FitItems depth rest

def FitMembers (depth : Nat) : List (Bytes × Json) → Prop
  | [] => True
  | (_, j) :: rest => Fits depth j ∧ FitMembers depth rest

end

theorem skip_cons {b : UInt8} (h : 32 < b.toNat) (rest : Bytes) : skip (b :: rest) = b :: rest := by
  have hblank : isBlank b = false := by
    simp only [isBlank, Bool.or_eq_false_iff, beq_eq_false_iff_ne, Ne, ← UInt8.toNat_inj,
      UInt8.reduceToNat]
    omega
  simp [skip, hblank]

theorem toNat_of_isDigit {b : UInt8} (h : Bytes.isDigit b = true) :
    48 ≤ b.toNat ∧ b.toNat ≤ 57 := by
  simpa [Bytes.isDigit, UInt8.le_iff_toNat_le] using h

/-- A value begins neither with a blank nor with the end of an array. -/
theorem head_render {j : Json} {depth : Nat} (h : j.Fits depth) :
    ∃ b rest, render j = b :: rest ∧ 32 < b.toNat ∧ b ≠ 93 := by
  cases j with
  | null => exact ⟨110, _, rfl, by decide, by decide⟩
  | bool b => cases b <;> exact ⟨_, _, rfl, by decide, by decide⟩
  | number text =>
    obtain ⟨b, hb, hhead⟩ := (show IsNumber text by simpa [Fits] using h).head
    obtain ⟨rest, rfl⟩ := List.head?_eq_some_iff.1 hb
    refine ⟨b, rest, by rw [render], ?_⟩
    rcases hhead with hdigit | rfl
    · have := toNat_of_isDigit hdigit
      simp only [Ne, ← UInt8.toNat_inj, UInt8.reduceToNat]
      omega
    · decide
  | string s => exact ⟨34, _, by rw [render, quoted]; rfl, by decide, by decide⟩
  | array items => exact ⟨91, _, by rw [render]; rfl, by decide, by decide⟩
  | object members => exact ⟨123, _, by rw [render]; rfl, by decide, by decide⟩

theorem head_renderItems {j : Json} {items : List Json} {depth : Nat}
    (h : FitItems depth (j :: items)) :
    ∃ b rest, renderItems (j :: items) = b :: rest ∧ 32 < b.toNat ∧ b ≠ 93 := by
  obtain ⟨b, rest, hhead, hb⟩ := head_render h.1
  cases items with
  | nil => exact ⟨b, rest, by rw [renderItems, hhead], hb⟩
  | cons k items => exact ⟨b, _, by rw [renderItems, hhead, List.cons_append], hb⟩

theorem head_renderMembers (name : Bytes) (j : Json) (members : List (Bytes × Json)) :
    ∃ rest, renderMembers ((name, j) :: members) = quoted name ++ 58 :: rest := by
  cases members with
  | nil => exact ⟨_, by rw [renderMembers]⟩
  | cons member members => exact ⟨_, by rw [renderMembers, List.append_assoc, List.cons_append]⟩

section Values

variable {steps depth : Nat} {rest : Bytes}

theorem value_string (s : Bytes) :
    Reader.value (steps + 1) depth (quoted s ++ rest) = some (.string (sanitize s), rest) := by
  have htext : quoted s ++ rest = 34 :: ((Utf8.items s).flatMap escapeItem ++ 34 :: rest) := by
    simp [quoted]
  rw [htext, Reader.value, skip_cons (by decide)]
  simp [string?_quoted]

theorem value_number {text : Bytes} (h : IsNumber text) (hrest : Ends rest) :
    Reader.value (steps + 1) depth (text ++ rest) = some (.number text, rest) := by
  obtain ⟨b, hb, hhead⟩ := h.head
  obtain ⟨more, rfl⟩ := List.head?_eq_some_iff.1 hb
  have hb : b.toNat = 45 ∨ 48 ≤ b.toNat ∧ b.toNat ≤ 57 := by
    rcases hhead with hdigit | rfl
    · exact .inr (toNat_of_isDigit hdigit)
    · exact .inl rfl
  have hne {c : UInt8} (hc : 57 < c.toNat ∨ c.toNat < 45) : b ≠ c := by
    rintro rfl
    omega
  have hreads := h.reads rest hrest
  rw [List.cons_append] at hreads ⊢
  rw [Reader.value, skip_cons (by omega)]
  simp only [hne (c := 34) (by decide), hne (c := 91) (by decide), hne (c := 123) (by decide),
    hne (c := 110) (by decide), hne (c := 116) (by decide), hne (c := 102) (by decide), if_false,
    hreads, Option.map_some]

theorem word?_self (word : String) (j : Json) :
    word? word j (Bytes.ofString word ++ rest) = some (j, rest) := by
  have hlength : word.utf8ByteSize = (Bytes.ofString word).length := rfl
  have hprefix : (Bytes.ofString word).isPrefixOf (Bytes.ofString word ++ rest) = true :=
    List.isPrefixOf_iff_prefix.2 (List.prefix_append _ _)
  rw [word?, hlength, List.drop_left, if_pos hprefix]

theorem value_null : Reader.value (steps + 1) depth (Bytes.ofString "null" ++ rest) =
    some (.null, rest) := by
  have hhead : Bytes.ofString "null" ++ rest = 110 :: ([117, 108, 108] ++ rest) := rfl
  have hword : word? "null" .null (110 :: ([117, 108, 108] ++ rest)) = _ := word?_self "null" .null
  rw [Reader.value, hhead, skip_cons (by decide)]
  simpa using hword

theorem value_true : Reader.value (steps + 1) depth (Bytes.ofString "true" ++ rest) =
    some (.bool true, rest) := by
  have hhead : Bytes.ofString "true" ++ rest = 116 :: ([114, 117, 101] ++ rest) := rfl
  have hword : word? "true" (.bool true) (116 :: ([114, 117, 101] ++ rest)) = _ :=
    word?_self "true" (.bool true)
  rw [Reader.value, hhead, skip_cons (by decide)]
  simpa using hword

theorem value_false : Reader.value (steps + 1) depth (Bytes.ofString "false" ++ rest) =
    some (.bool false, rest) := by
  have hhead : Bytes.ofString "false" ++ rest = 102 :: ([97, 108, 115, 101] ++ rest) := rfl
  have hword : word? "false" (.bool false) (102 :: ([97, 108, 115, 101] ++ rest)) = _ :=
    word?_self "false" (.bool false)
  rw [Reader.value, hhead, skip_cons (by decide)]
  simpa using hword

section Lists

variable {text : Bytes} {j : Json}

theorem elements_more {done : List Json}
    (h : Reader.value steps depth text = some (j, 44 :: rest)) :
    Reader.elements (steps + 1) depth done text =
      Reader.elements steps depth (j :: done) rest := by
  simp [Reader.elements, h, skip_cons]

theorem elements_last {done : List Json}
    (h : Reader.value steps depth text = some (j, 93 :: rest)) :
    Reader.elements (steps + 1) depth done text = some (.array (j :: done).reverse, rest) := by
  simp [Reader.elements, h, skip_cons]

/-- The name of a member and the colon behind it. -/
theorem quoted_append (name : Bytes) : quoted name ++ 58 :: text =
    34 :: ((Utf8.items name).flatMap escapeItem ++ 34 :: 58 :: text) := by
  simp [quoted]

theorem members_more {done : List (Bytes × Json)} (name : Bytes)
    (h : Reader.value steps depth text = some (j, 44 :: rest)) :
    Reader.members (steps + 1) depth done (quoted name ++ 58 :: text) =
      Reader.members steps depth ((sanitize name, j) :: done) rest := by
  rw [quoted_append]
  simp [Reader.members, h, skip_cons, string?_quoted]

theorem members_last {done : List (Bytes × Json)} (name : Bytes)
    (h : Reader.value steps depth text = some (j, 125 :: rest)) :
    Reader.members (steps + 1) depth done (quoted name ++ 58 :: text) =
      some (.object ((sanitize name, j) :: done).reverse, rest) := by
  rw [quoted_append]
  simp [Reader.members, h, skip_cons, string?_quoted]

theorem value_array {t : UInt8} (ht : 32 < t.toNat ∧ t ≠ 93) :
    Reader.value (steps + 1) (depth + 1) (91 :: t :: text) =
      Reader.elements steps depth [] (t :: text) := by
  rw [Reader.value, skip_cons (by decide)]
  simp [skip_cons, ht]

theorem value_object (name : Bytes) :
    Reader.value (steps + 1) (depth + 1) (123 :: (quoted name ++ 58 :: text)) =
      Reader.members steps depth [] (quoted name ++ 58 :: text) := by
  rw [quoted_append, Reader.value, skip_cons (by decide)]
  simp [skip_cons]

end Lists

end Values

mutual

theorem value_render (j : Json) {steps depth : Nat} {rest : Bytes} (hfits : j.Fits depth)
    (hsteps : 2 * (render j).length ≤ steps) (hrest : Ends rest) :
    Reader.value steps depth (render j ++ rest) = some (j.clean, rest) := by
  obtain ⟨b, tail, hhead, hb, -⟩ := head_render hfits
  obtain ⟨steps, rfl⟩ : ∃ n, steps = n + 1 := by
    rw [hhead, List.length_cons] at hsteps
    exact ⟨steps - 1, by omega⟩
  cases j with
  | null =>
    rw [render]
    exact value_null
  | bool b =>
    cases b with
    | true => rw [render]; exact value_true
    | false => rw [render]; exact value_false
  | number text =>
    rw [render]
    exact value_number (by simpa [Fits] using hfits) hrest
  | string s =>
    rw [render]
    exact value_string s
  | array items =>
    cases depth with
    | zero => simp [Fits] at hfits
    | succ depth =>
      rw [render, clean]
      rw [render] at hsteps
      cases items with
      | nil => simp [Reader.value, renderItems, cleanItems, skip_cons]
      | cons item items =>
        simp only [List.length_append, List.length_cons] at hsteps
        have hitems : FitItems depth (item :: items) := by simpa [Fits] using hfits
        have hread : Reader.elements steps depth []
            (renderItems (item :: items) ++ 93 :: rest) = _ :=
          elements_render item items hitems (by omega)
        obtain ⟨t, more, hfirst, ht⟩ := head_renderItems hitems
        rw [hfirst, List.cons_append] at hread
        rw [hfirst]
        simp only [List.cons_append, List.append_assoc, List.nil_append]
        rw [value_array ht, hread]
        rfl
  | object members =>
    cases depth with
    | zero => simp [Fits] at hfits
    | succ depth =>
      rw [render, clean]
      rw [render] at hsteps
      cases members with
      | nil => simp [Reader.value, renderMembers, cleanMembers, skip_cons]
      | cons member members =>
        obtain ⟨name, k⟩ := member
        simp only [List.length_append, List.length_cons] at hsteps
        have hmembers : FitMembers depth ((name, k) :: members) := by simpa [Fits] using hfits
        have hread : Reader.members steps depth []
            (renderMembers ((name, k) :: members) ++ 125 :: rest) = _ :=
          members_render name k members hmembers (by omega)
        obtain ⟨more, hfirst⟩ := head_renderMembers name k members
        rw [hfirst, List.append_assoc, List.cons_append] at hread
        rw [hfirst]
        simp only [List.cons_append, List.append_assoc, List.nil_append]
        rw [value_object, hread]
        rfl
termination_by steps

theorem elements_render (j : Json) (items : List Json) {steps depth : Nat} {done : List Json}
    {rest : Bytes} (hfits : FitItems depth (j :: items))
    (hsteps : 2 * (renderItems (j :: items)).length < steps) :
    Reader.elements steps depth done (renderItems (j :: items) ++ 93 :: rest) =
      some (.array (done.reverse ++ cleanItems (j :: items)), rest) := by
  obtain ⟨hfirst, hrest⟩ := hfits
  obtain ⟨steps, rfl⟩ : ∃ n, steps = n + 1 := ⟨steps - 1, by omega⟩
  cases items with
  | nil =>
    rw [renderItems] at hsteps ⊢
    rw [elements_last (value_render j hfirst (by omega) (by simp [Ends]))]
    simp [cleanItems]
  | cons k items =>
    rw [renderItems, List.length_append, List.length_cons] at hsteps
    have hvalue : Reader.value steps depth
        (render j ++ 44 :: (renderItems (k :: items) ++ 93 :: rest)) = _ :=
      value_render j hfirst (by omega) (by simp [Ends])
    rw [renderItems, List.append_assoc, List.cons_append, elements_more hvalue,
      elements_render k items hrest (by omega)]
    simp [cleanItems]
termination_by steps

theorem members_render (name : Bytes) (j : Json) (members : List (Bytes × Json))
    {steps depth : Nat} {done : List (Bytes × Json)} {rest : Bytes}
    (hfits : FitMembers depth ((name, j) :: members))
    (hsteps : 2 * (renderMembers ((name, j) :: members)).length < steps) :
    Reader.members steps depth done (renderMembers ((name, j) :: members) ++ 125 :: rest) =
      some (.object (done.reverse ++ cleanMembers ((name, j) :: members)), rest) := by
  obtain ⟨hfirst, hrest⟩ := hfits
  obtain ⟨steps, rfl⟩ : ∃ n, steps = n + 1 := ⟨steps - 1, by omega⟩
  cases members with
  | nil =>
    rw [renderMembers] at hsteps ⊢
    simp only [List.length_append, List.length_cons] at hsteps
    rw [List.append_assoc, List.cons_append,
      members_last name (value_render j hfirst (by omega) (by simp [Ends]))]
    simp [cleanMembers]
  | cons member members =>
    obtain ⟨next, k⟩ := member
    rw [renderMembers] at hsteps ⊢
    simp only [List.length_append, List.length_cons] at hsteps
    have hvalue : Reader.value steps depth
        (render j ++ 44 :: (renderMembers ((next, k) :: members) ++ 125 :: rest)) = _ :=
      value_render j hfirst (by omega) (by simp [Ends])
    rw [List.append_assoc, List.append_assoc, List.cons_append, List.cons_append,
      members_more name hvalue, members_render next k members hrest (by omega)]
    simp [cleanMembers]
termination_by steps

end

/-- Rendering and reading are inverse, up to the bytes that belong to no character. -/
theorem parse?_render {j : Json} (h : j.Fits deepest) : parse? (render j) = some j.clean := by
  have hvalue := value_render j h (Nat.le_add_right _ 2) (show Ends [] by simp [Ends])
  rw [List.append_nil] at hvalue
  rw [parse?, hvalue]
  rfl

mutual

theorem render_visible (j : Json) {depth : Nat} (h : j.Fits depth) : Visible (render j) := by
  cases j with
  | null =>
    rw [render]
    exact .cons (by decide) <| .cons (by decide) <| .cons (by decide) <| .cons (by decide) .nil
  | bool b =>
    cases b with
    | true =>
      rw [render]
      exact .cons (by decide) <| .cons (by decide) <| .cons (by decide) <| .cons (by decide) .nil
    | false =>
      rw [render]
      exact .cons (by decide) <| .cons (by decide) <| .cons (by decide) <| .cons (by decide) <|
        .cons (by decide) .nil
  | number text =>
    rw [render]
    exact (show IsNumber text by simpa [Fits] using h).visible
  | string s =>
    rw [render]
    exact quoted_visible s
  | array items =>
    cases depth with
    | zero => simp [Fits] at h
    | succ depth =>
      rw [render]
      have hitems := renderItems_visible items (by simpa [Fits] using h)
      exact (hitems.concat (by decide)).cons (by decide)
  | object members =>
    cases depth with
    | zero => simp [Fits] at h
    | succ depth =>
      rw [render]
      have hmembers := renderMembers_visible members (by simpa [Fits] using h)
      exact (hmembers.concat (by decide)).cons (by decide)

theorem renderItems_visible (items : List Json) {depth : Nat} (h : FitItems depth items) :
    Visible (renderItems items) := by
  match items, h with
  | [], _ =>
    rw [renderItems]
    exact .nil
  | [j], h =>
    rw [renderItems]
    exact render_visible j h.1
  | j :: k :: rest, h =>
    rw [renderItems]
    exact (render_visible j h.1).append ((renderItems_visible (k :: rest) h.2).cons (by decide))

theorem renderMembers_visible (members : List (Bytes × Json)) {depth : Nat}
    (h : FitMembers depth members) : Visible (renderMembers members) := by
  match members, h with
  | [], _ =>
    rw [renderMembers]
    exact .nil
  | [(name, j)], h =>
    rw [renderMembers]
    exact (quoted_visible name).append ((render_visible j h.1).cons (by decide))
  | (name, j) :: m :: rest, h =>
    rw [renderMembers]
    have hmore := (renderMembers_visible (m :: rest) h.2).cons (b := 44) (by decide)
    have hfirst := (quoted_visible name).append ((render_visible j h.1).cons (b := 58) (by decide))
    exact hfirst.append hmore

end

theorem cleanMembers_eq_map (members : List (Bytes × Json)) :
    cleanMembers members = members.map fun m => (Reader.sanitize m.1, m.2.clean) := by
  induction members with
  | nil => rw [cleanMembers, List.map_nil]
  | cons m members ih =>
    obtain ⟨name, j⟩ := m
    rw [cleanMembers, ih, List.map_cons]

theorem fitMembers_iff {depth : Nat} {members : List (Bytes × Json)} :
    FitMembers depth members ↔ ∀ m ∈ members, m.2.Fits depth := by
  induction members with
  | nil => simp [FitMembers]
  | cons m members ih =>
    obtain ⟨name, j⟩ := m
    rw [FitMembers, ih, List.forall_mem_cons]

theorem fits_string (depth : Nat) (s : Bytes) : (Json.string s).Fits depth := by
  cases depth <;> simp [Fits]

section Integers

/-- A text that is read as one number without a sign wherever a value ends. -/
structure IsUnsigned (text : Bytes) : Prop where
  visible : Visible text
  head : ∃ b ∈ text.head?, Bytes.isDigit b = true
  reads : ∀ rest, Ends rest → unsigned? (text ++ rest) = some (text, rest)

theorem IsUnsigned.isNumber {text : Bytes} (h : IsUnsigned text) : IsNumber text := by
  obtain ⟨b, hb, hdigit⟩ := h.head
  refine ⟨h.visible, ⟨b, hb, .inl hdigit⟩, fun rest hrest => ?_⟩
  have hunsigned := h.reads rest hrest
  have hminus : b ≠ 45 := by
    rintro rfl
    cases hdigit
  obtain ⟨more, rfl⟩ := List.head?_eq_some_iff.1 hb
  rw [List.cons_append] at hunsigned ⊢
  rw [number?]
  · exact hunsigned
  · intro _ hsign
    exact hminus (List.cons.inj hsign).1

theorem IsUnsigned.minus {text : Bytes} (h : IsUnsigned text) : IsNumber (45 :: text) := by
  refine ⟨h.visible.cons (by decide), ⟨45, rfl, .inr rfl⟩, fun rest hrest => ?_⟩
  rw [List.cons_append, number?, h.reads rest hrest]
  rfl

theorem Reader.Ends.not_digit {rest : Bytes} (h : Ends rest) :
    ∀ b ∈ rest.head?, Bytes.isDigit b = false := by
  intro b hb
  rcases h b hb with rfl | rfl | rfl <;> rfl

/-- Only zero begins with a zero. -/
theorem head_toDigits {n : Nat} (h : 0 < n) :
    ∃ c rest, Nat.toDigits 10 n = c :: rest ∧ c ≠ '0' := by
  by_cases hsmall : n < 10
  · have hdigit : ∀ d : Fin 10, 0 < d.val → Nat.digitChar d.val ≠ '0' := by decide
    exact ⟨Nat.digitChar n, [], Nat.toDigits_of_lt_base hsmall, hdigit ⟨n, hsmall⟩ h⟩
  · obtain ⟨c, rest, hdigits, hc⟩ := head_toDigits (n := n / 10) (by omega)
    refine ⟨c, rest ++ [Nat.digitChar (n % 10)], ?_, hc⟩
    rw [Nat.toDigits_of_base_le (by decide) (by omega), hdigits, List.cons_append]

theorem head_natural (n : Nat) :
    ∃ b rest, Bytes.natural n = b :: rest ∧ Bytes.isDigit b = true ∧ (0 < n → b ≠ 48) := by
  rcases Nat.eq_zero_or_pos n with rfl | hpos
  · exact ⟨48, [], rfl, rfl, fun h => absurd h (by decide)⟩
  · obtain ⟨c, rest, hdigits, hc⟩ := head_toDigits hpos
    have hnatural : Bytes.natural n = c.toNat.toUInt8 :: rest.map fun c => c.toNat.toUInt8 := by
      rw [Bytes.natural, hdigits, List.map_cons]
    have hbyte : c.toNat.toUInt8.toNat = c.toNat :=
      (Decimal.toNat_of_mem_toDigits (hdigits ▸ List.mem_cons_self)).1
    refine ⟨_, _, hnatural, Decimal.isDigit_of_mem_natural (hnatural ▸ List.mem_cons_self), ?_⟩
    intro _ hzero
    rw [hzero] at hbyte
    exact hc (Char.toNat_inj.1 hbyte.symm)

theorem digits?_append {digits rest : Bytes} (hdigits : ∀ b ∈ digits, Bytes.isDigit b = true)
    (hne : digits ≠ []) (hrest : ∀ b ∈ rest.head?, Bytes.isDigit b = false) :
    digits? (digits ++ rest) = some (digits, rest) := by
  have hstop : rest.takeWhile Bytes.isDigit = [] ∧ rest.dropWhile Bytes.isDigit = rest := by
    cases rest with
    | nil => exact ⟨rfl, rfl⟩
    | cons b rest => simp [hrest b rfl]
  have htake : (digits ++ rest).takeWhile Bytes.isDigit = digits := by
    rw [List.takeWhile_append_of_pos hdigits, hstop.1, List.append_nil]
  have hdrop : (digits ++ rest).dropWhile Bytes.isDigit = rest := by
    rw [List.dropWhile_append_of_pos hdigits, hstop.2]
  rw [digits?, htake, hdrop]
  cases digits with
  | nil => exact absurd rfl hne
  | cons b digits => rfl

theorem unsigned?_natural (n : Nat) {rest : Bytes} (hrest : Ends rest) :
    unsigned? (Bytes.natural n ++ rest) = some (Bytes.natural n, rest) := by
  have hfraction : fraction? rest = some ([], rest) := by
    cases rest with
    | nil => rfl
    | cons b rest => rcases hrest b rfl with rfl | rfl | rfl <;> rfl
  have hexponent : exponent? rest = some ([], rest) := by
    cases rest with
    | nil => rfl
    | cons b rest => rcases hrest b rfl with rfl | rfl | rfl <;> rfl
  have hwhole : whole? (Bytes.natural n ++ rest) = some (Bytes.natural n, rest) := by
    rcases Nat.eq_zero_or_pos n with rfl | hpos
    · rfl
    · obtain ⟨b, more, hnatural, -, hb⟩ := head_natural n
      have hdigits := digits?_append (fun b hb => Decimal.isDigit_of_mem_natural (n := n) hb)
        (by simp [hnatural]) hrest.not_digit
      rw [hnatural, List.cons_append] at hdigits ⊢
      rw [whole?]
      · exact hdigits
      · intro _ hzero
        exact hb hpos (List.cons.inj hzero).1
  simp [unsigned?, hwhole, hfraction, hexponent]

theorem isUnsigned_natural (n : Nat) : IsUnsigned (Bytes.natural n) := by
  obtain ⟨b, more, hnatural, hdigit, -⟩ := head_natural n
  refine ⟨.ofAscii ?_, ⟨b, by simp [hnatural], hdigit⟩, fun _ hrest => unsigned?_natural n hrest⟩
  intro c hc
  have := toNat_of_isDigit (Decimal.isDigit_of_mem_natural hc)
  omega

theorem isNumber_integer (n : Int) : IsNumber (Bytes.integer n) := by
  cases n with
  | ofNat n => exact (isUnsigned_natural n).isNumber
  | negSucc n => exact (isUnsigned_natural (n + 1)).minus

theorem fits_int (depth : Nat) (n : Int) : (Json.int n).Fits depth := by
  have hnumber := isNumber_integer n
  cases depth <;> simpa [int, Fits] using hnumber

end Integers

end BlockScript.Json
