import Mathlib.Data.List.DropRight
import BlockScript.Proofs.Utf8Items
import BlockScript.Text

/-! Texts cut at white space, at separators and at line ends. Characters are found the same way in a
text and in its parts, as long as no part begins in the middle of a character; trimming and words
can therefore be described by the parts alone. -/

namespace BlockScript.Utf8

open String (utf8EncodeChar)

/-- A byte with which no character begins, though one may go on with it. -/
def IsContinuation (b : UInt8) : Prop := 128 ≤ b.toNat ∧ b.toNat < 192

theorem encode_continues {c : Char} {b : UInt8} {more : Bytes} (h : utf8EncodeChar c = b :: more) :
    ¬ IsContinuation b ∧ ∀ d ∈ more, IsContinuation d := by
  have hrange := char_range c
  rw [← encode_toNat, encode] at h
  generalize c.toNat = v at h hrange
  have hlead {n : Nat} (hsmall : n < 256) (hn : n < 128 ∨ 192 ≤ n) :
      ¬ IsContinuation n.toUInt8 := by
    rw [IsContinuation, toNat_byte hsmall]
    omega
  have htail {n : Nat} (hlow : 128 ≤ n) (hhigh : n < 192) : IsContinuation n.toUInt8 := by
    rw [IsContinuation, toNat_byte (by omega)]
    exact ⟨hlow, hhigh⟩
  split at h
  · obtain ⟨rfl, rfl⟩ := List.cons.inj h
    exact ⟨hlead (by omega) (by omega), by simp⟩
  split at h
  · obtain ⟨rfl, rfl⟩ := List.cons.inj h
    refine ⟨hlead (by omega) (by omega), ?_⟩
    simp only [List.forall_mem_cons]
    exact ⟨htail (by omega) (by omega), by simp⟩
  split at h
  · obtain ⟨rfl, rfl⟩ := List.cons.inj h
    refine ⟨hlead (by omega) (by omega), ?_⟩
    simp only [List.forall_mem_cons]
    exact ⟨htail (by omega) (by omega), htail (by omega) (by omega), by simp⟩
  · obtain ⟨rfl, rfl⟩ := List.cons.inj h
    refine ⟨hlead (by omega) (by omega), ?_⟩
    simp only [List.forall_mem_cons]
    exact ⟨htail (by omega) (by omega), htail (by omega) (by omega), htail (by omega) (by omega),
      by simp⟩

theorem items_encode_append (c : Char) (more : Bytes) :
    items (utf8EncodeChar c ++ more) = (.char c.toNat, utf8EncodeChar c) :: items more := by
  cases htext : utf8EncodeChar c ++ more with
  | nil => simp at htext
  | cons b rest => rw [items_cons, next_encode c htext]

theorem items_stray_cons {b : UInt8} {rest : Bytes} (h : ∀ c, ¬ utf8EncodeChar c <+: b :: rest) :
    items (b :: rest) = (.stray b, [b]) :: items rest := by
  rw [items_cons, next_stray h]

/-- What follows changes nothing about the next character, unless it goes on with one. -/
theorem next_of_append {b : UInt8} {rest after : Bytes}
    (h : ∀ d ∈ after.head?, ¬ IsContinuation d) :
    next b (rest ++ after) =
      ((next b rest).1, (next b rest).2.1, (next b rest).2.2 ++ after) := by
  by_cases hchar : ∃ c, utf8EncodeChar c <+: b :: rest
  · obtain ⟨c, more, hmore⟩ := hchar
    have hlonger : utf8EncodeChar c ++ (more ++ after) = b :: (rest ++ after) := by
      rw [← List.append_assoc, hmore, List.cons_append]
    rw [next_encode c hmore, next_encode c hlonger]
  · rw [not_exists] at hchar
    have hstray (c : Char) : ¬ utf8EncodeChar c <+: b :: (rest ++ after) := by
      intro hc
      rcases List.prefix_or_prefix_of_prefix hc (List.prefix_append (b :: rest) after) with
        hshort | ⟨more, hmore⟩
      · exact hchar c hshort
      -- The character would end behind the seam, so a byte of it begins what follows.
      · cases more with
        | nil => exact hchar c ⟨[], by simpa using hmore.symm⟩
        | cons d more =>
          rw [← hmore, ← List.cons_append, List.prefix_append_right_inj] at hc
          obtain ⟨last, rfl⟩ := hc
          exact h d rfl ((encode_continues hmore.symm).2 d (by simp))
    rw [next_stray hchar, next_stray hstray]

/-- A text has the items of its parts, unless the second goes on with a character. -/
theorem items_append {a b : Bytes} (h : ∀ d ∈ b.head?, ¬ IsContinuation d) :
    items (a ++ b) = items a ++ items b := by
  match a with
  | [] => rw [items_nil, List.nil_append, List.nil_append]
  | first :: rest =>
    rw [List.cons_append, items_cons, next_of_append h, items_append h, items_cons first rest,
      List.cons_append]
termination_by a.length
decreasing_by
  have := next_length first rest
  simp only [List.length_cons]
  omega

/-- A text cut between two items has parts with these items. -/
theorem items_of_append {text : Bytes} {xs ys : List (Item × Bytes)} (h : items text = xs ++ ys) :
    items (xs.flatMap (·.2)) = xs ∧ items (ys.flatMap (·.2)) = ys := by
  induction xs generalizing text with
  | nil =>
    rw [List.nil_append] at h
    exact ⟨items_nil, by rw [← h, flatMap_items]⟩
  | cons x xs ih =>
    cases text with
    | nil => simp [items_nil] at h
    | cons b rest =>
      rw [items_cons, List.cons_append] at h
      obtain ⟨rfl, htail⟩ := List.cons.inj h
      obtain ⟨hxs, hys⟩ := ih htail
      refine ⟨?_, hys⟩
      rw [List.flatMap_cons]
      by_cases hchar : ∃ c, utf8EncodeChar c <+: b :: rest
      · obtain ⟨c, more, hmore⟩ := hchar
        rw [next_encode c hmore, items_encode_append, hxs]
      · rw [next_stray (not_exists.1 hchar)] at htail ⊢
        have hrest : rest = xs.flatMap (·.2) ++ ys.flatMap (·.2) := by
          rw [← flatMap_items rest, htail, List.flatMap_append]
        have hstray (c : Char) : ¬ utf8EncodeChar c <+: b :: xs.flatMap (·.2) := by
          intro hc
          refine hchar ⟨c, hc.trans ?_⟩
          rw [hrest, ← List.cons_append]
          exact List.prefix_append _ _
        exact (items_stray_cons hstray).trans (by rw [hxs])

theorem items_of_slice {text : Bytes} {xs ys zs : List (Item × Bytes)}
    (h : items text = xs ++ ys ++ zs) : items (ys.flatMap (·.2)) = ys :=
  (items_of_append (items_of_append h).1).2

theorem items_ne_nil {text : Bytes} (h : text ≠ []) : items text ≠ [] := by
  intro hnil
  rw [← flatMap_items text, hnil] at h
  exact h rfl

theorem flatMap_ne_nil {xs : List (Item × Bytes)} (hspells : ∀ x ∈ xs, Spells x) (hne : xs ≠ []) :
    xs.flatMap (·.2) ≠ [] := by
  obtain ⟨x, hx⟩ := List.exists_mem_of_ne_nil xs hne
  intro hnil
  have hbytes := List.flatMap_eq_nil_iff.1 hnil x hx
  cases hspells x hx with
  | char c => simp at hbytes
  | stray b => cases hbytes

end BlockScript.Utf8

namespace BlockScript.Text

open Utf8
open String (utf8EncodeChar)

/-- White space: characters that are blank, and nothing else. -/
def Blanks (ws : Bytes) : Prop :=
  ∃ cs : List Char, ws = ofChars cs ∧ ∀ c ∈ cs, isBlank c.toNat = true

namespace Blanks

variable {ws ws' : Bytes}

theorem nil : Blanks [] := ⟨[], rfl, by simp⟩

theorem append (h : Blanks ws) (h' : Blanks ws') : Blanks (ws ++ ws') := by
  obtain ⟨cs, rfl, hcs⟩ := h
  obtain ⟨ds, rfl, hds⟩ := h'
  refine ⟨cs ++ ds, (ofChars_append cs ds).symm, fun c hc => ?_⟩
  exact (List.mem_append.1 hc).elim (hcs c) (hds c)

theorem byte {b : UInt8} (hascii : b.toNat < 128) (h : isBlank b.toNat = true) : Blanks [b] := by
  obtain ⟨c, hc⟩ := encodes_one hascii
  have hcode : c.toNat = b.toNat := by
    have hmem : b ∈ utf8EncodeChar c := by rw [hc]; exact List.mem_singleton_self b
    rcases toNat_of_mem_encode hmem with heq | hlarge
    · exact heq.symm
    · omega
  refine ⟨[c], by simp [ofChars, hc], fun d hd => ?_⟩
  rw [List.mem_singleton.1 hd, hcode]
  exact h

theorem isBlankItem_of_mem (h : Blanks ws) : ∀ item ∈ items ws, isBlankItem item = true := by
  obtain ⟨cs, rfl, hcs⟩ := h
  rw [items_ofChars]
  intro item hitem
  obtain ⟨c, hc, rfl⟩ := List.mem_map.1 hitem
  exact hcs c hc

theorem ofItems {xs : List (Item × Bytes)} (hspells : ∀ x ∈ xs, Spells x)
    (h : ∀ x ∈ xs, isBlankItem x = true) : Blanks (xs.flatMap (·.2)) := by
  induction xs with
  | nil => exact nil
  | cons x xs ih =>
    rw [List.forall_mem_cons] at h hspells
    refine append ?_ (ih hspells.2 h.2)
    have hx := h.1
    cases hspells.1 with
    | char c => exact ⟨[c], by simp [ofChars], by simpa [isBlankItem] using hx⟩
    | stray b => cases hx

/-- An ASCII byte that is not blank does not occur in white space. -/
theorem not_mem (h : Blanks ws) {b : UInt8} (hascii : b.toNat < 128)
    (hb : isBlank b.toNat = false) : b ∉ ws := by
  obtain ⟨cs, rfl, hcs⟩ := h
  intro hmem
  obtain ⟨c, hc, hbc⟩ := List.mem_flatMap.1 hmem
  rcases toNat_of_mem_encode hbc with heq | hlarge
  · rw [heq, hcs c hc] at hb
    cases hb
  · omega

theorem not_isContinuation_head (h : Blanks ws) : ∀ d ∈ ws.head?, ¬ IsContinuation d := by
  obtain ⟨cs, rfl, -⟩ := h
  cases cs with
  | nil => simp [ofChars]
  | cons c cs =>
    intro d hd
    cases hbytes : utf8EncodeChar c with
    | nil => simp at hbytes
    | cons b more =>
      rw [ofChars, List.flatMap_cons, hbytes] at hd
      obtain rfl : b = d := Option.some.inj hd
      exact (encode_continues hbytes).1

theorem items_before (h : Blanks ws) (text : Bytes) :
    items (ws ++ text) = items ws ++ items text := by
  obtain ⟨cs, rfl, -⟩ := h
  rw [items_ofChars]
  induction cs with
  | nil => rfl
  | cons c cs ih =>
    rw [ofChars, List.flatMap_cons, List.append_assoc, items_encode_append, List.map_cons,
      List.cons_append]
    exact congrArg _ ih

theorem items_behind (h : Blanks ws) (text : Bytes) : items (text ++ ws) = items text ++ items ws :=
  items_append h.not_isContinuation_head

theorem items_between (h : Blanks ws) (hne : ws ≠ []) (text text' : Bytes) :
    items (text ++ ws ++ text') = items text ++ items ws ++ items text' := by
  have hhead : (ws ++ text').head? = ws.head? := List.head?_append_of_ne_nil ws hne
  rw [List.append_assoc, items_append (hhead ▸ h.not_isContinuation_head), h.items_before,
    List.append_assoc]

end Blanks

/-! ### Trimming -/

theorem trim_blanks_append {ws : Bytes} (h : Blanks ws) (text : Bytes) :
    trim (ws ++ text) = trim text := by
  rw [trim, trim, h.items_before, List.dropWhile_append_of_pos h.isBlankItem_of_mem]

theorem trim_append_blanks {ws : Bytes} (h : Blanks ws) (text : Bytes) :
    trim (text ++ ws) = trim text := by
  have hws : (items ws).dropWhile isBlankItem = [] :=
    List.dropWhile_eq_nil_iff.2 h.isBlankItem_of_mem
  have hrev : ∀ item ∈ (items ws).reverse, isBlankItem item = true := by
    simpa using h.isBlankItem_of_mem
  rw [trim, trim, h.items_behind, List.dropWhile_append, hws]
  split
  · rename_i hempty
    rw [List.isEmpty_iff.1 hempty]
  · simp only [List.reverse_append]
    rw [List.dropWhile_append_of_pos hrev]

/-- Trimming takes white space away, and nothing else. -/
theorem exists_trim (text : Bytes) :
    ∃ ws ws', Blanks ws ∧ Blanks ws' ∧ text = ws ++ trim text ++ ws' := by
  have hspells := spells_of_mem_items text
  have hfront := List.takeWhile_append_dropWhile (p := isBlankItem) (l := items text)
  have hback := List.rdropWhile_append_rtakeWhile (p := isBlankItem)
    (l := (items text).dropWhile isBlankItem)
  refine ⟨((items text).takeWhile isBlankItem).flatMap (·.2),
    (((items text).dropWhile isBlankItem).rtakeWhile isBlankItem).flatMap (·.2),
    .ofItems (fun x hx => hspells x ((List.takeWhile_prefix _).subset hx))
      fun x hx => List.mem_takeWhile_imp hx,
    .ofItems (fun x hx => hspells x ((List.dropWhile_suffix _).subset
      ((List.rtakeWhile_suffix _ _).subset hx))) fun x hx => List.mem_rtakeWhile_imp hx, ?_⟩
  calc text = (items text).flatMap (·.2) := (flatMap_items text).symm
    _ = ((items text).takeWhile isBlankItem).flatMap (·.2) ++
        ((items text).dropWhile isBlankItem).flatMap (·.2) := by rw [← List.flatMap_append, hfront]
    _ = ((items text).takeWhile isBlankItem).flatMap (·.2) ++
        (trim text ++ (((items text).dropWhile isBlankItem).rtakeWhile isBlankItem).flatMap (·.2)) := by
      rw [← hback, List.flatMap_append, hback]
      rfl
    _ = _ := (List.append_assoc _ _ _).symm

theorem length_trim_le (text : Bytes) : (trim text).length ≤ text.length := by
  obtain ⟨ws, ws', -, -, htext⟩ := exists_trim text
  have hlength := congrArg List.length htext
  simp only [List.length_append] at hlength
  omega

structure Trimmed (text : Bytes) : Prop where
  front : ∀ ws rest, Blanks ws → text = ws ++ rest → ws = []
  back : ∀ ws rest, Blanks ws → text = rest ++ ws → ws = []

theorem trim_eq_self_iff {text : Bytes} : trim text = text ↔ Trimmed text := by
  constructor
  · intro h
    have hnil (ws rest : Bytes) (hrest : trim text = trim rest)
        (hlength : text.length = ws.length + rest.length) : ws = [] := by
      have hshort := length_trim_le rest
      rw [← hrest, h] at hshort
      exact List.eq_nil_of_length_eq_zero (by omega)
    constructor
    · rintro ws rest hws rfl
      exact hnil ws rest (trim_blanks_append hws rest) List.length_append
    · rintro ws rest hws rfl
      exact hnil ws rest (trim_append_blanks hws rest) (by rw [List.length_append, Nat.add_comm])
  · intro h
    obtain ⟨ws, ws', hws, hws', htext⟩ := exists_trim text
    obtain rfl := h.back ws' _ hws' htext
    rw [List.append_nil] at htext
    obtain rfl := h.front ws _ hws htext
    exact htext.symm

theorem trimmed_trim (text : Bytes) : Trimmed (trim text) := by
  obtain ⟨ws, ws', hws, hws', htext⟩ := exists_trim text
  rw [← trim_eq_self_iff]
  calc trim (trim text) = trim (ws ++ trim text ++ ws') := by
        rw [trim_append_blanks hws', trim_blanks_append hws]
    _ = trim text := by rw [← htext]

/-! ### Words -/

/-- A text with no white space in it, and not empty. -/
structure IsWord (w : Bytes) : Prop where
  nonempty : w ≠ []
  solid : ∀ c : Char, isBlank c.toNat = true → ¬ utf8EncodeChar c <:+: w

theorem IsWord.isBlankItem_of_mem {w : Bytes} (h : IsWord w) :
    ∀ item ∈ items w, isBlankItem item = false := by
  intro item hitem
  cases hspelled : spells_of_mem_items w item hitem with
  | stray b => rfl
  | char c =>
    rw [← Bool.not_eq_true]
    intro hblank
    apply h.solid c hblank
    rw [← flatMap_items w, List.flatMap_def]
    exact List.infix_of_mem_flatten (List.mem_map_of_mem hitem)

theorem isWord_of_items {w : Bytes} (hne : items w ≠ [])
    (h : ∀ item ∈ items w, isBlankItem item = false) : IsWord w where
  nonempty := by
    rintro rfl
    exact hne items_nil
  solid c hc := by
    rintro ⟨before, behind, rfl⟩
    have hblank : Blanks (utf8EncodeChar c) := ⟨[c], by simp [ofChars], by simpa using hc⟩
    have hitem := h (.char c.toNat, utf8EncodeChar c) (by
      rw [hblank.items_between (by simp), ← List.append_nil (utf8EncodeChar c),
        items_encode_append]
      simp)
    rw [isBlankItem, hc] at hitem
    cases hitem

def runs (xs : List (Item × Bytes)) : List Bytes :=
  xs.foldr (fun item pieces =>
    if isBlankItem item then [] :: pieces
    else match pieces with
      | [] => [item.2]
      | piece :: rest => (item.2 ++ piece) :: rest) [[]]

def wordsOf (xs : List (Item × Bytes)) : List Bytes := (runs xs).filter (!·.isEmpty)

section

variable {x : Item × Bytes} {xs ys : List (Item × Bytes)}

theorem words_eq (text : Bytes) : words text = wordsOf (items text) := rfl

theorem runs_cons_blank (h : isBlankItem x = true) : runs (x :: xs) = [] :: runs xs := by
  rw [runs, List.foldr_cons, if_pos h]
  rfl

theorem runs_cons {run : Bytes} {rest : List Bytes} (h : isBlankItem x = false)
    (hxs : runs xs = run :: rest) : runs (x :: xs) = (x.2 ++ run) :: rest := by
  rw [runs] at hxs
  rw [runs, List.foldr_cons, hxs, h]
  rfl

theorem exists_runs (xs : List (Item × Bytes)) : ∃ run rest, runs xs = run :: rest := by
  induction xs with
  | nil => exact ⟨[], [], rfl⟩
  | cons x xs ih =>
    obtain ⟨run, rest, hxs⟩ := ih
    cases hx : isBlankItem x with
    | true => exact ⟨_, _, runs_cons_blank hx⟩
    | false => exact ⟨_, _, runs_cons hx hxs⟩

theorem runs_append {rest : List Bytes} (h : runs ys = [] :: rest) :
    runs (xs ++ ys) = runs xs ++ rest := by
  induction xs with
  | nil => exact h
  | cons x xs ih =>
    rw [List.cons_append]
    cases hx : isBlankItem x with
    | true => rw [runs_cons_blank hx, runs_cons_blank hx, ih, List.cons_append]
    | false =>
      obtain ⟨run, more, hxs⟩ := exists_runs xs
      rw [hxs, List.cons_append] at ih
      rw [runs_cons hx hxs, runs_cons hx ih, List.cons_append]

/-- No word goes over a blank item. -/
theorem wordsOf_append (h : ∀ y ∈ ys.head?, isBlankItem y = true) :
    wordsOf (xs ++ ys) = wordsOf xs ++ wordsOf ys := by
  obtain ⟨rest, hys⟩ : ∃ rest, runs ys = [] :: rest := by
    cases ys with
    | nil => exact ⟨[], rfl⟩
    | cons y ys => exact ⟨_, runs_cons_blank (h y rfl)⟩
  rw [wordsOf, wordsOf, wordsOf, runs_append hys, hys, List.filter_append]
  rfl

theorem wordsOf_blanks (h : ∀ x ∈ xs, isBlankItem x = true) : wordsOf (xs ++ ys) = wordsOf ys := by
  induction xs with
  | nil => rfl
  | cons x xs ih =>
    rw [List.forall_mem_cons] at h
    rw [List.cons_append, wordsOf, runs_cons_blank h.1]
    exact ih h.2

theorem wordsOf_eq_nil (h : ∀ x ∈ xs, isBlankItem x = true) : wordsOf xs = [] :=
  calc wordsOf xs = wordsOf (xs ++ []) := by rw [List.append_nil]
    _ = wordsOf [] := wordsOf_blanks h
    _ = [] := rfl

theorem wordsOf_run (hspells : ∀ x ∈ xs, Spells x) (hne : xs ≠ [])
    (h : ∀ x ∈ xs, isBlankItem x = false) : wordsOf xs = [xs.flatMap (·.2)] := by
  have hruns : runs xs = [xs.flatMap (·.2)] := by
    clear hne hspells
    induction xs with
    | nil => rfl
    | cons x xs ih =>
      rw [List.forall_mem_cons] at h
      rw [runs_cons h.1 (ih h.2), List.flatMap_cons]
  have hbytes := flatMap_ne_nil hspells hne
  rw [wordsOf, hruns]
  simp [hbytes]

/-- Words are found one after the other: items that are not all blank begin with blank ones, then
come those of the first word, and the rest begins with a blank one or is empty. -/
theorem wordsOf_cases (hspells : ∀ x ∈ xs, Spells x) :
    (∀ x ∈ xs, isBlankItem x = true) ∧ wordsOf xs = [] ∨
    ∃ blanks run rest, xs = blanks ++ run ++ rest ∧ (∀ x ∈ blanks, isBlankItem x = true) ∧
      run ≠ [] ∧ (∀ x ∈ run, isBlankItem x = false) ∧ (∀ x ∈ rest.head?, isBlankItem x = true) ∧
      wordsOf xs = run.flatMap (·.2) :: wordsOf rest := by
  have hxs : xs.takeWhile isBlankItem ++ xs.dropWhile isBlankItem = xs :=
    List.takeWhile_append_dropWhile
  have hblanks : ∀ x ∈ xs.takeWhile isBlankItem, isBlankItem x = true := fun _ =>
    List.mem_takeWhile_imp
  have hhead := List.head?_dropWhile_not isBlankItem xs
  generalize xs.takeWhile isBlankItem = blanks at hxs hblanks
  generalize xs.dropWhile isBlankItem = solid at hxs hhead
  subst hxs
  cases solid with
  | nil =>
    rw [List.append_nil]
    exact .inl ⟨hblanks, wordsOf_eq_nil hblanks⟩
  | cons x after =>
    have hsolid : (x :: after).takeWhile (!isBlankItem ·) ++ (x :: after).dropWhile (!isBlankItem ·) =
        x :: after := List.takeWhile_append_dropWhile
    have hne : (x :: after).takeWhile (!isBlankItem ·) ≠ [] := by
      simp [show isBlankItem x = false from hhead]
    have hrun : ∀ y ∈ (x :: after).takeWhile (!isBlankItem ·), isBlankItem y = false := fun y hy => by
      simpa using List.mem_takeWhile_imp hy
    have hrest : ∀ y ∈ ((x :: after).dropWhile (!isBlankItem ·)).head?, isBlankItem y = true := by
      intro y hy
      have hnext := List.head?_dropWhile_not (!isBlankItem ·) (x :: after)
      rw [Option.mem_def.1 hy] at hnext
      simpa using hnext
    generalize (x :: after).takeWhile (!isBlankItem ·) = run at hsolid hne hrun
    generalize (x :: after).dropWhile (!isBlankItem ·) = rest at hsolid hrest
    rw [← hsolid] at hspells ⊢
    have hword := wordsOf_run (fun y hy => hspells y (by simp [hy])) hne hrun
    refine .inr ⟨blanks, run, rest, by simp, hblanks, hne, hrun, hrest, ?_⟩
    rw [wordsOf_blanks hblanks, wordsOf_append hrest, hword]
    rfl

theorem exists_of_wordsOf_cons {w : Bytes} {ws : List Bytes} (hspells : ∀ x ∈ xs, Spells x)
    (h : wordsOf xs = w :: ws) :
    ∃ blanks run rest, xs = blanks ++ run ++ rest ∧ (∀ x ∈ blanks, isBlankItem x = true) ∧
      run ≠ [] ∧ (∀ x ∈ run, isBlankItem x = false) ∧ (∀ x ∈ rest.head?, isBlankItem x = true) ∧
      run.flatMap (·.2) = w ∧ wordsOf rest = ws := by
  rcases wordsOf_cases hspells with ⟨-, hnil⟩ |
    ⟨blanks, run, rest, hxs, hblanks, hne, hrun, hrest, hcons⟩
  · rw [hnil] at h
    cases h
  · obtain ⟨hword, hwords⟩ := List.cons.inj (hcons.symm.trans h)
    exact ⟨blanks, run, rest, hxs, hblanks, hne, hrun, hrest, hword, hwords⟩

theorem isBlankItem_of_wordsOf_nil (hspells : ∀ x ∈ xs, Spells x) (h : wordsOf xs = []) :
    ∀ x ∈ xs, isBlankItem x = true := by
  rcases wordsOf_cases hspells with ⟨hblanks, -⟩ | ⟨_, _, _, -, -, -, -, -, hcons⟩
  · exact hblanks
  · rw [hcons] at h
    cases h

end

theorem words_append_blanks {ws : Bytes} (h : Blanks ws) (text : Bytes) :
    words (text ++ ws) = words text := by
  have hblank := h.isBlankItem_of_mem
  rw [words_eq, h.items_behind, wordsOf_append fun x hx => hblank x (List.mem_of_mem_head? hx),
    wordsOf_eq_nil hblank, List.append_nil]
  rfl

theorem IsWord.wordsOf_items {w : Bytes} (h : IsWord w) : wordsOf (items w) = [w] := by
  rw [wordsOf_run (spells_of_mem_items w) (items_ne_nil h.nonempty) h.isBlankItem_of_mem,
    flatMap_items]

theorem isWord_of_run {text : Bytes} {xs run zs : List (Item × Bytes)}
    (h : items text = xs ++ run ++ zs) (hne : run ≠ []) (hrun : ∀ x ∈ run, isBlankItem x = false) :
    IsWord (run.flatMap (·.2)) := by
  apply isWord_of_items
  · rwa [items_of_slice h]
  · rwa [items_of_slice h]

theorem words_pair {v w ws ws₁ ws₂ : Bytes} (hv : IsWord v) (hw : IsWord w) (hws : Blanks ws)
    (hws₁ : Blanks ws₁) (hne : ws₁ ≠ []) (hws₂ : Blanks ws₂) :
    words (ws ++ v ++ ws₁ ++ w ++ ws₂) = [v, w] := by
  have hitems : items (ws ++ v ++ ws₁ ++ w ++ ws₂) =
      items ws ++ (items v ++ (items ws₁ ++ (items w ++ items ws₂))) := by
    rw [List.append_assoc _ w, hws₁.items_between hne, hws₂.items_behind, hws.items_before]
    simp only [List.append_assoc]
  have hhead : ∀ x ∈ (items ws₁ ++ (items w ++ items ws₂)).head?, isBlankItem x = true := by
    intro x hx
    rw [List.head?_append_of_ne_nil _ (items_ne_nil hne)] at hx
    exact hws₁.isBlankItem_of_mem x (List.mem_of_mem_head? hx)
  rw [words_eq, hitems, wordsOf_blanks hws.isBlankItem_of_mem, wordsOf_append hhead,
    wordsOf_blanks hws₁.isBlankItem_of_mem, hv.wordsOf_items, wordsOf_append
      fun x hx => hws₂.isBlankItem_of_mem x (List.mem_of_mem_head? hx), hw.wordsOf_items,
    wordsOf_eq_nil hws₂.isBlankItem_of_mem]
  rfl

/-- A text has two words if it consists of them with white space around and between them. -/
theorem words_eq_pair_iff {text v w : Bytes} :
    words text = [v, w] ↔ IsWord v ∧ IsWord w ∧ ∃ ws ws₁ ws₂, Blanks ws ∧ Blanks ws₁ ∧ ws₁ ≠ [] ∧
      Blanks ws₂ ∧ text = ws ++ v ++ ws₁ ++ w ++ ws₂ := by
  constructor
  · intro h
    have hspells := spells_of_mem_items text
    obtain ⟨blanks, run, rest, hitems, hblanks, hrun, hsolid, hhead, rfl, hrest⟩ :=
      exists_of_wordsOf_cons hspells h
    rw [hitems, List.forall_mem_append, List.forall_mem_append] at hspells
    obtain ⟨blanks₁, run₁, rest₁, rfl, hblanks₁, hrun₁, hsolid₁, -, rfl, hrest₁⟩ :=
      exists_of_wordsOf_cons hspells.2 hrest
    rw [List.forall_mem_append, List.forall_mem_append] at hspells
    obtain ⟨⟨hspells, -⟩, ⟨hspells₁, -⟩, hspells₂⟩ := hspells
    have hbetween : blanks₁ ≠ [] := by
      rintro rfl
      obtain ⟨x, run₁, rfl⟩ := List.exists_cons_of_ne_nil hrun₁
      have hx := hsolid₁ x List.mem_cons_self
      rw [hhead x rfl] at hx
      cases hx
    have hitems₁ : items text = blanks ++ run ++ blanks₁ ++ run₁ ++ rest₁ := by
      rw [hitems]
      simp only [List.append_assoc]
    refine ⟨isWord_of_run hitems hrun hsolid, isWord_of_run hitems₁ hrun₁ hsolid₁, _, _, _,
      .ofItems hspells hblanks, .ofItems hspells₁ hblanks₁, flatMap_ne_nil hspells₁ hbetween,
      .ofItems hspells₂ (isBlankItem_of_wordsOf_nil hspells₂ hrest₁), ?_⟩
    rw [← flatMap_items text, hitems₁]
    simp only [List.flatMap_append]
  · rintro ⟨hv, hw, ws, ws₁, ws₂, hws, hws₁, hne, hws₂, rfl⟩
    exact words_pair hv hw hws hws₁ hne hws₂

end BlockScript.Text

namespace BlockScript.Bytes

variable {separator : UInt8} {b : Bytes}

/-! ### Pieces between separators -/

theorem splitAt_cons_separator : splitAt separator (separator :: b) = [] :: splitAt separator b := by
  rw [splitAt, List.foldr_cons, if_pos rfl]
  rfl

theorem splitAt_cons {c : UInt8} {piece : Bytes} {rest : List Bytes} (h : c ≠ separator)
    (hb : splitAt separator b = piece :: rest) :
    splitAt separator (c :: b) = (c :: piece) :: rest := by
  rw [splitAt] at hb
  rw [splitAt, List.foldr_cons, if_neg h, hb]

theorem exists_splitAt (separator : UInt8) (b : Bytes) :
    ∃ piece rest, splitAt separator b = piece :: rest := by
  induction b with
  | nil => exact ⟨[], [], rfl⟩
  | cons c b ih =>
    obtain ⟨piece, rest, hb⟩ := ih
    by_cases h : c = separator
    · exact h ▸ ⟨_, _, splitAt_cons_separator⟩
    · exact ⟨_, _, splitAt_cons h hb⟩

theorem splitAt_of_not_mem (h : separator ∉ b) : splitAt separator b = [b] := by
  induction b with
  | nil => rfl
  | cons c b ih =>
    rw [List.mem_cons, not_or] at h
    exact splitAt_cons (Ne.symm h.1) (ih h.2)

theorem splitAt_append {piece : Bytes} (h : separator ∉ piece) (rest : Bytes) :
    splitAt separator (piece ++ separator :: rest) = piece :: splitAt separator rest := by
  induction piece with
  | nil => exact splitAt_cons_separator
  | cons c piece ih =>
    rw [List.mem_cons, not_or] at h
    exact splitAt_cons (Ne.symm h.1) (ih h.2)

/-- A text without separators makes the last piece longer. -/
theorem exists_splitAt_append {more : Bytes} (h : separator ∉ more) :
    ∃ pieces last, splitAt separator b = pieces ++ [last] ∧
      splitAt separator (b ++ more) = pieces ++ [last ++ more] := by
  induction b with
  | nil => exact ⟨[], [], rfl, splitAt_of_not_mem h⟩
  | cons c b ih =>
    obtain ⟨pieces, last, hb, hmore⟩ := ih
    rw [List.cons_append]
    by_cases hc : c = separator
    · subst hc
      exact ⟨[] :: pieces, last, by rw [splitAt_cons_separator, hb, List.cons_append],
        by rw [splitAt_cons_separator, hmore, List.cons_append]⟩
    · cases pieces with
      | nil => exact ⟨[], c :: last, splitAt_cons hc hb, splitAt_cons hc hmore⟩
      | cons piece pieces =>
        exact ⟨(c :: piece) :: pieces, last, splitAt_cons hc hb, splitAt_cons hc hmore⟩

/-- The pieces of a text hold no separator, and make the text when they are joined again. -/
theorem splitAt_eq_iff {pieces : List Bytes} :
    splitAt separator b = pieces ↔
      pieces ≠ [] ∧ (∀ piece ∈ pieces, separator ∉ piece) ∧ b = join [separator] pieces := by
  constructor
  · rintro rfl
    induction b with
    | nil => simp [splitAt, join]
    | cons c b ih =>
      obtain ⟨piece, rest, hb⟩ := exists_splitAt separator b
      rw [hb] at ih
      obtain ⟨-, hpieces, hjoin⟩ := ih
      by_cases hc : c = separator
      · subst hc
        rw [splitAt_cons_separator, hb]
        exact ⟨by simp, List.forall_mem_cons.2 ⟨by simp, hpieces⟩, by rw [hjoin, join]; rfl⟩
      · rw [splitAt_cons hc hb]
        rw [List.forall_mem_cons] at hpieces
        refine ⟨by simp, List.forall_mem_cons.2 ⟨?_, hpieces.2⟩, ?_⟩
        · simpa [Ne.symm hc] using hpieces.1
        · rw [hjoin]
          cases rest <;> rfl
  · rintro ⟨hne, hpieces, rfl⟩
    induction pieces with
    | nil => exact absurd rfl hne
    | cons piece rest ih =>
      rw [List.forall_mem_cons] at hpieces
      cases rest with
      | nil => exact splitAt_of_not_mem hpieces.1
      | cons next rest =>
        rw [join, List.append_assoc, List.singleton_append, splitAt_append hpieces.1,
          ih (by simp) hpieces.2]

end BlockScript.Bytes

namespace BlockScript.Text

/-! ### Lines -/

/-- The lines of a text. Each ends with a line feed, except that the last need not. -/
inductive Lines : Bytes → List Bytes → Prop
  | finish : Lines [] []
  | last {line : Bytes} (hne : line ≠ []) (h : Bytes.lineFeed ∉ line) : Lines line [line]
  | line {line rest : Bytes} {lines : List Bytes} (h : Bytes.lineFeed ∉ line)
      (hrest : Lines rest lines) : Lines (line ++ Bytes.lineFeed :: rest) (line :: lines)

theorem rawLines_append {line : Bytes} (h : Bytes.lineFeed ∉ line) (rest : Bytes) :
    rawLines (line ++ Bytes.lineFeed :: rest) = line :: rawLines rest := by
  have hne : (Bytes.splitAt Bytes.lineFeed rest).reverse ≠ [] := by
    obtain ⟨piece, pieces, hrest⟩ := Bytes.exists_splitAt Bytes.lineFeed rest
    simp [hrest]
  rw [rawLines, Bytes.splitAt_append h, List.reverse_cons, rawLines]
  obtain ⟨last, pieces, hlast⟩ := List.exists_cons_of_ne_nil hne
  rw [hlast]
  cases last <;> simp

theorem Lines.rawLines_eq {text : Bytes} {lines : List Bytes} (h : Lines text lines) :
    rawLines text = lines := by
  induction h with
  | finish => rfl
  | last hne h =>
    rw [rawLines, Bytes.splitAt_of_not_mem h]
    obtain ⟨b, line, rfl⟩ := List.exists_cons_of_ne_nil hne
    rfl
  | line h _ ih => rw [rawLines_append h, ih]

theorem Lines.lineFeed_not_mem {text : Bytes} {lines : List Bytes} (h : Lines text lines) :
    ∀ line ∈ lines, Bytes.lineFeed ∉ line := by
  induction h with
  | finish => simp
  | last _ h => simpa using h
  | line h _ ih => exact List.forall_mem_cons.2 ⟨h, ih⟩

/-- Every text has lines. -/
theorem lines_rawLines (text : Bytes) : Lines text (rawLines text) := by
  by_cases h : Bytes.lineFeed ∈ text
  · obtain ⟨line, rest, rfl, hline⟩ := List.eq_append_cons_of_mem h
    rw [rawLines_append hline]
    exact .line hline (lines_rawLines rest)
  · by_cases hne : text = []
    · subst hne
      exact .finish
    · have hlast : Lines text [text] := .last hne h
      rw [hlast.rawLines_eq]
      exact hlast
termination_by text.length
decreasing_by
  grind

theorem lines_iff {text : Bytes} {lines : List Bytes} : Lines text lines ↔ rawLines text = lines :=
  ⟨Lines.rawLines_eq, fun h => h ▸ lines_rawLines text⟩

/-- Lines that are ended by line feeds are read back. -/
theorem rawLines_flatMap {lines : List Bytes} (h : ∀ line ∈ lines, Bytes.lineFeed ∉ line) :
    rawLines (lines.flatMap (· ++ [Bytes.lineFeed])) = lines := by
  apply Lines.rawLines_eq
  induction lines with
  | nil => exact .finish
  | cons line lines ih =>
    rw [List.forall_mem_cons] at h
    rw [List.flatMap_cons, List.append_assoc]
    exact .line h.1 (ih h.2)

/-- A carriage return at the end of a line is white space. -/
theorem trim_dropReturn (line : Bytes) : trim (dropReturn line) = trim line := by
  rw [dropReturn]
  split
  · rename_i hlast
    obtain ⟨front, rfl⟩ := List.getLast?_eq_some_iff.1 hlast
    rw [List.dropLast_concat, trim_append_blanks (.byte (by decide) (by decide))]
  · rfl

end BlockScript.Text
