import Mathlib.Data.List.Forall2
import BlockScript.NodeGrammar
import BlockScript.Proofs.TextCuts

/-! The ways in which nodes can be written down, and that reading knows exactly these. White space
may stand around every word, ignored lines may stand everywhere, and a header may be repeated. A text
that is no layout of any nodes is refused at its first line that has no meaning where it stands. -/

namespace BlockScript.NodeGrammar

open Text

/-- A line that says nothing: only white space, or a number sign first. -/
def IgnoredLine (line : Bytes) : Prop :=
  Blanks line ∨ ∃ ws rest, Blanks ws ∧ line = ws ++ numberSign :: rest

def HeaderLine (family : Family) (line : Bytes) : Prop :=
  ∃ ws ws', Blanks ws ∧ Blanks ws' ∧ line = ws ++ family.header ++ ws'

def FieldText (field : Field) (text : Bytes) : Prop :=
  ∃ ws ws₁ ws₂, Blanks ws ∧ Blanks ws₁ ∧ ws₁ ≠ [] ∧ Blanks ws₂ ∧
    text = ws ++ field.type ++ ws₁ ++ field.name ++ ws₂

def NodeLine (node : Node) (line : Bytes) : Prop :=
  ∃ ws ws' texts, Blanks ws ∧ Blanks ws' ∧ List.Forall₂ FieldText node.fields texts ∧
    line = ws ++ node.name ++ ws' ++ colon :: Bytes.join [comma] texts

/-- A node that can be written down so that its parts can be told apart. -/
structure Node.Expressible (node : Node) : Prop where
  trimmed : Trimmed node.name
  colon : colon ∉ node.name
  lineFeed : Bytes.lineFeed ∉ node.name
  numberSign : node.name.head? ≠ some numberSign
  fields : node.fields ≠ []
  types : ∀ field ∈ node.fields, IsWord field.type ∧ comma ∉ field.type
  names : ∀ field ∈ node.fields, IsWord field.name ∧ comma ∉ field.name

/-- Lines that describe the given nodes, below the header `family?` if there has been one. -/
inductive LaidOut : Option Family → List Bytes → List Node → Prop
  | finish (family? : Option Family) : LaidOut family? [] []
  | ignored {family? : Option Family} {line : Bytes} {lines : List Bytes} {nodes : List Node}
      (h : IgnoredLine line) (rest : LaidOut family? lines nodes) :
      LaidOut family? (line :: lines) nodes
  | header {family? : Option Family} {family : Family} {line : Bytes} {lines : List Bytes}
      {nodes : List Node} (h : HeaderLine family line) (rest : LaidOut (some family) lines nodes) :
      LaidOut family? (line :: lines) nodes
  | node {node : Node} {line : Bytes} {lines : List Bytes} {nodes : List Node}
      (h : NodeLine node line) (rest : LaidOut (some node.family) lines nodes) :
      LaidOut (some node.family) (line :: lines) (node :: nodes)

/-! ### One line -/

/-- A byte that occurs in neither end of a text occurs in the middle. -/
theorem exists_split_middle {x : UInt8} {a b c d e : Bytes} (h : a ++ b ++ c = d ++ x :: e)
    (ha : x ∉ a) (hc : x ∉ c) :
    ∃ front back, b = front ++ x :: back ∧ d = a ++ front ∧ e = back ++ c := by
  induction a generalizing d with
  | nil =>
    rw [List.nil_append] at h
    induction b generalizing d with
    | nil => simp [show c = d ++ x :: e from h] at hc
    | cons y b ih =>
      cases d with
      | nil =>
        obtain ⟨rfl, rfl⟩ := List.cons.inj h
        exact ⟨[], b, rfl, rfl, rfl⟩
      | cons z d =>
        obtain ⟨rfl, hrest⟩ := List.cons.inj h
        obtain ⟨front, back, rfl, hd, rfl⟩ := ih hrest
        exact ⟨y :: front, back, rfl, congrArg (y :: ·) hd, rfl⟩
  | cons y a ih =>
    rw [List.mem_cons, not_or] at ha
    cases d with
    | nil => exact absurd (List.cons.inj h).1.symm ha.1
    | cons z d =>
      obtain ⟨rfl, hrest⟩ := List.cons.inj h
      obtain ⟨front, back, rfl, rfl, rfl⟩ := ih hrest ha.2
      exact ⟨front, back, rfl, rfl, rfl⟩

theorem blanks_colon {ws : Bytes} (h : Blanks ws) : colon ∉ ws := h.not_mem (by decide) (by decide)

theorem blanks_comma {ws : Bytes} (h : Blanks ws) : comma ∉ ws := h.not_mem (by decide) (by decide)

/-- A number sign in front stays in front. -/
theorem head_trim {text : Bytes} (h : text.head? = some numberSign) :
    (trim text).head? = some numberSign := by
  obtain ⟨ws, ws', hws, hws', htext⟩ := exists_trim text
  have hnot {w : Bytes} (hw : Blanks w) : numberSign ∉ w := hw.not_mem (by decide) (by decide)
  rw [htext] at h
  cases ws with
  | cons b ws =>
    obtain rfl := Option.some.inj h
    exact absurd List.mem_cons_self (hnot hws)
  | nil =>
    cases htrim : trim text with
    | nil =>
      rw [htrim] at h
      exact absurd (List.mem_of_mem_head? h) (hnot hws')
    | cons b rest =>
      rw [htrim] at h
      exact h

theorem ofTrimmed_eq_ignored_iff {text : Bytes} :
    Line.ofTrimmed text = .ignored ↔ text = [] ∨ text.head? = some numberSign := by
  rw [Line.ofTrimmed]
  split
  · rename_i h
    simpa using h
  · rename_i h
    split
    · split
      · simpa using h
      split
      all_goals simpa using h
    · simpa using h

theorem ofTrimmed_node {front back : Bytes} (h : colon ∉ front)
    (hhead : (front ++ colon :: back).head? ≠ some numberSign) :
    Line.ofTrimmed (front ++ colon :: back) = .node (trim front) (Bytes.splitAt comma back) := by
  have hfront : ∀ b ∈ front, (b != colon) = true := by
    intro b hb
    rw [bne_iff_ne]
    rintro rfl
    exact h hb
  rw [Line.ofTrimmed, if_neg (by simpa using hhead), List.dropWhile_append_of_pos hfront,
    List.takeWhile_append_of_pos hfront]
  simp

/-- What a line can be, by its first byte and its first colon. -/
theorem ofTrimmed_cases (text : Bytes) :
    Line.ofTrimmed text = .ignored ∨
    (Line.ofTrimmed text = if text = Family.expr.header then .header .expr
      else if text = Family.stmt.header then .header .stmt else .unknown text) ∨
    ∃ front back, text = front ++ colon :: back ∧ colon ∉ front ∧ text.head? ≠ some numberSign ∧
      Line.ofTrimmed text = .node (trim front) (Bytes.splitAt comma back) := by
  by_cases hignored : text = [] ∨ text.head? = some numberSign
  · exact .inl (ofTrimmed_eq_ignored_iff.2 hignored)
  rw [not_or] at hignored
  obtain ⟨hne, hhead⟩ := hignored
  by_cases hcolon : colon ∈ text
  · obtain ⟨front, back, rfl, hnot⟩ := List.eq_append_cons_of_mem hcolon
    exact .inr (.inr ⟨front, back, rfl, hnot, hhead, ofTrimmed_node hnot hhead⟩)
  · have hdrop : text.dropWhile (· != colon) = [] := by
      rw [List.dropWhile_eq_nil_iff]
      intro b hb
      rw [bne_iff_ne]
      rintro rfl
      exact hcolon hb
    refine .inr (.inl ?_)
    rw [Line.ofTrimmed, if_neg (by simpa using ⟨hne, hhead⟩), hdrop]

theorem ofText_eq_ignored_iff {line : Bytes} : Line.ofText line = .ignored ↔ IgnoredLine line := by
  rw [Line.ofText, ofTrimmed_eq_ignored_iff]
  obtain ⟨ws, ws', hws, hws', htext⟩ := exists_trim line
  constructor
  · rintro (hnil | hhead)
    · rw [hnil, List.append_nil] at htext
      exact .inl (htext ▸ hws.append hws')
    · obtain ⟨rest, hrest⟩ := List.head?_eq_some_iff.1 hhead
      refine .inr ⟨ws, rest ++ ws', hws, ?_⟩
      rw [hrest] at htext
      simpa using htext
  · rintro (hblank | ⟨ws, rest, hws, rfl⟩)
    · left
      have htrim := trim_blanks_append hblank []
      rw [List.append_nil] at htrim
      exact htrim.trans (List.eq_nil_of_length_eq_zero (Nat.le_zero.1 (length_trim_le [])))
    · right
      rw [trim_blanks_append hws]
      exact head_trim rfl

theorem ofTrimmed_header (family : Family) : Line.ofTrimmed family.header = .header family := by
  cases family <;> decide +kernel

theorem trim_header (family : Family) : trim family.header = family.header := by
  cases family <;> decide +kernel

theorem ofText_eq_header_iff {family : Family} {line : Bytes} :
    Line.ofText line = .header family ↔ HeaderLine family line := by
  constructor
  · intro h
    rw [Line.ofText] at h
    obtain ⟨ws, ws', hws, hws', htext⟩ := exists_trim line
    refine ⟨ws, ws', hws, hws', ?_⟩
    rcases ofTrimmed_cases (trim line) with hignored | hother | ⟨front, back, -, -, -, hnode⟩
    · rw [hignored] at h
      cases h
    · rw [hother] at h
      split at h
      · rename_i hexpr
        obtain rfl := Line.header.inj h
        rwa [hexpr] at htext
      split at h
      · rename_i hstmt
        obtain rfl := Line.header.inj h
        rwa [hstmt] at htext
      · cases h
    · rw [hnode] at h
      cases h
  · rintro ⟨ws, ws', hws, hws', rfl⟩
    rw [Line.ofText, trim_append_blanks hws', trim_blanks_append hws, trim_header, ofTrimmed_header]

/-- The name of a node ends at the first colon, less white space. -/
theorem exists_of_ofText_node {line name : Bytes} {texts : List Bytes}
    (h : Line.ofText line = .node name texts) :
    ∃ ws ws₁ ws₂ back, Blanks ws ∧ Blanks ws₁ ∧ Blanks ws₂ ∧ Trimmed name ∧ colon ∉ name ∧
      name.head? ≠ some numberSign ∧ texts = Bytes.splitAt comma back ∧
      line = ws ++ name ++ ws₁ ++ colon :: (back ++ ws₂) := by
  rw [Line.ofText] at h
  obtain ⟨ws, ws₂, hws, hws₂, htext⟩ := exists_trim line
  rcases ofTrimmed_cases (trim line) with hignored | hother |
    ⟨front, back, hcore, hnot, hhead, hnode⟩
  · rw [hignored] at h
    cases h
  · rw [hother] at h
    split at h
    · cases h
    split at h <;> cases h
  · rw [hnode] at h
    obtain ⟨rfl, rfl⟩ := Line.node.inj h
    obtain ⟨w, ws₁, hw, hws₁, hfront⟩ := exists_trim front
    -- Nothing white stands before the name, for the whole line has been trimmed.
    obtain rfl : w = [] := by
      refine (trimmed_trim line).front w (trim front ++ ws₁ ++ colon :: back) hw ?_
      rw [hcore]
      nth_rewrite 1 [hfront]
      simp
    rw [List.nil_append] at hfront
    have hsign : (trim front).head? ≠ some numberSign := by
      intro hsign
      apply hhead
      obtain ⟨rest, hrest⟩ := List.head?_eq_some_iff.1 hsign
      rw [hcore, hfront, hrest]
      rfl
    refine ⟨ws, ws₁, ws₂, back, hws, hws₁, hws₂, trimmed_trim front, ?_, hsign, rfl, ?_⟩
    · intro hmem
      apply hnot
      rw [hfront]
      exact List.mem_append_left ws₁ hmem
    · calc line = ws ++ trim line ++ ws₂ := htext
        _ = ws ++ (trim front ++ ws₁ ++ colon :: back) ++ ws₂ := by rw [hcore, ← hfront]
        _ = ws ++ trim front ++ ws₁ ++ colon :: (back ++ ws₂) := by simp

theorem ofText_node {name ws ws₁ : Bytes} (hws : Blanks ws) (hws₁ : Blanks ws₁)
    (hname : Trimmed name) (hcolon : colon ∉ name) (hsign : name.head? ≠ some numberSign)
    (back : Bytes) :
    ∃ front ws₂, Blanks ws₂ ∧ back = front ++ ws₂ ∧
      Line.ofText (ws ++ name ++ ws₁ ++ colon :: back) = .node name (Bytes.splitAt comma front) := by
  obtain ⟨w, w', hw, hw', htext⟩ := exists_trim (ws ++ name ++ ws₁ ++ colon :: back)
  obtain ⟨front, rest, hcore, hfront, hback⟩ :=
    exists_split_middle htext.symm (blanks_colon hw) (blanks_colon hw')
  have hnot : colon ∉ front := by
    have hall : colon ∉ w ++ front := by
      rw [← hfront]
      simp [blanks_colon hws, blanks_colon hws₁, hcolon]
    exact fun hmem => hall (List.mem_append_right w hmem)
  have htrim : trim front = name := by
    calc trim front = trim (w ++ front) := (trim_blanks_append hw front).symm
      _ = trim (ws ++ name ++ ws₁) := by rw [hfront]
      _ = trim name := by rw [trim_append_blanks hws₁, trim_blanks_append hws]
      _ = name := trim_eq_self_iff.2 hname
  refine ⟨rest, w', hw', hback, ?_⟩
  rw [Line.ofText, hcore, ofTrimmed_node hnot, htrim]
  cases front with
  | nil => simp [colon, numberSign]
  | cons b front =>
    intro hhead
    apply hsign
    rw [← htrim]
    exact head_trim hhead

/-! ### The fields of a node -/

theorem read?_eq_some_iff {field : Field} {text : Bytes} :
    Field.read? text = some field ↔ words text = [field.type, field.name] := by
  obtain ⟨type, name⟩ := field
  rw [Field.read?]
  split
  · rename_i v w hwords
    simp [hwords]
  · rename_i hno
    simpa using hno type name

theorem readFields_eq_ok_iff {texts : List Bytes} {fields : List Field} :
    readFields texts = .ok fields ↔
      List.Forall₂ (fun field text => words text = [field.type, field.name]) fields texts := by
  induction texts generalizing fields with
  | nil => simp [readFields, eq_comm]
  | cons text texts ih =>
    rw [readFields]
    cases hread : Field.read? text with
    | none =>
      rw [List.forall₂_cons_right_iff]
      constructor
      · intro h
        cases h
      · rintro ⟨field, rest, hwords, -, -⟩
        rw [read?_eq_some_iff.2 hwords] at hread
        cases hread
    | some field =>
      rw [List.forall₂_cons_right_iff]
      constructor
      · intro h
        cases hrest : readFields texts with
        | error text =>
          rw [hrest] at h
          cases h
        | ok rest =>
          rw [hrest] at h
          exact ⟨field, rest, read?_eq_some_iff.1 hread, ih.1 hrest, (Except.ok.inj h).symm⟩
      · rintro ⟨first, rest, hwords, hrest, rfl⟩
        obtain rfl := Option.some.inj (hread.symm.trans (read?_eq_some_iff.2 hwords))
        rw [ih.2 hrest]
        rfl

theorem read?_append_blanks {ws : Bytes} (h : Blanks ws) (text : Bytes) :
    Field.read? (text ++ ws) = Field.read? text := by
  simp only [Field.read?, words_append_blanks h]

/-- White space at the end of a line changes none of its fields, nor what is said of them. -/
theorem readFields_append_blanks {ws : Bytes} (h : Blanks ws) (text : Bytes) :
    readFields (Bytes.splitAt comma (text ++ ws)) = readFields (Bytes.splitAt comma text) := by
  obtain ⟨pieces, last, htext, hmore⟩ := Bytes.exists_splitAt_append (b := text) (blanks_comma h)
  rw [htext, hmore]
  clear htext hmore
  induction pieces with
  | nil =>
    simp only [List.nil_append, readFields, read?_append_blanks h, trim_append_blanks h]
  | cons piece pieces ih => rw [List.cons_append, List.cons_append, readFields, readFields, ih]

theorem fieldText_iff {field : Field} {text : Bytes} (h : comma ∉ text) :
    words text = [field.type, field.name] ↔
      FieldText field text ∧ (IsWord field.type ∧ comma ∉ field.type) ∧
        (IsWord field.name ∧ comma ∉ field.name) := by
  rw [words_eq_pair_iff]
  constructor
  · rintro ⟨htype, hname, ws, ws₁, ws₂, hws, hws₁, hne, hws₂, rfl⟩
    simp only [List.mem_append, not_or] at h
    exact ⟨⟨ws, ws₁, ws₂, hws, hws₁, hne, hws₂, rfl⟩, ⟨htype, h.1.1.1.2⟩, hname, h.1.2⟩
  · rintro ⟨⟨ws, ws₁, ws₂, hws, hws₁, hne, hws₂, rfl⟩, ⟨htype, -⟩, hname, -⟩
    exact ⟨htype, hname, ws, ws₁, ws₂, hws, hws₁, hne, hws₂, rfl⟩

theorem forall₂_fieldText_iff {fields : List Field} {texts : List Bytes}
    (h : ∀ text ∈ texts, comma ∉ text) :
    List.Forall₂ (fun field text => words text = [field.type, field.name]) fields texts ↔
      List.Forall₂ FieldText fields texts ∧
        (∀ field ∈ fields, IsWord field.type ∧ comma ∉ field.type) ∧
        ∀ field ∈ fields, IsWord field.name ∧ comma ∉ field.name := by
  induction texts generalizing fields with
  | nil => cases fields <;> simp
  | cons text texts ih =>
    rw [List.forall_mem_cons] at h
    cases fields with
    | nil => simp
    | cons field fields =>
      rw [List.forall₂_cons, List.forall₂_cons, List.forall_mem_cons, List.forall_mem_cons,
        fieldText_iff h.1, ih h.2]
      tauto

theorem comma_not_mem_texts {fields : List Field} {texts : List Bytes}
    (h : List.Forall₂ FieldText fields texts)
    (htypes : ∀ field ∈ fields, IsWord field.type ∧ comma ∉ field.type)
    (hnames : ∀ field ∈ fields, IsWord field.name ∧ comma ∉ field.name) :
    ∀ text ∈ texts, comma ∉ text := by
  induction h with
  | nil => simp
  | cons hfield _ ih =>
    rw [List.forall_mem_cons] at htypes hnames ⊢
    refine ⟨?_, ih htypes.2 hnames.2⟩
    obtain ⟨ws, ws₁, ws₂, hws, hws₁, -, hws₂, rfl⟩ := hfield
    simp [blanks_comma hws, blanks_comma hws₁, blanks_comma hws₂, htypes.1.2, hnames.1.2]

/-- A line is read as a node if it is written as one. -/
theorem nodeLine_iff {node : Node} {line : Bytes} (hline : Bytes.lineFeed ∉ line) :
    (∃ texts, Line.ofText line = .node node.name texts ∧ readFields texts = .ok node.fields) ↔
      node.Expressible ∧ NodeLine node line := by
  constructor
  · rintro ⟨texts, hnode, hread⟩
    obtain ⟨ws, ws₁, ws₂, back, hws, hws₁, hws₂, htrimmed, hcolon, hsign, rfl, rfl⟩ :=
      exists_of_ofText_node hnode
    obtain ⟨hne, hcomma, hjoin⟩ :=
      Bytes.splitAt_eq_iff.1 (rfl : Bytes.splitAt comma (back ++ ws₂) = _)
    rw [← readFields_append_blanks hws₂, readFields_eq_ok_iff] at hread
    have hlength := hread.length_eq
    rw [forall₂_fieldText_iff hcomma] at hread
    obtain ⟨hfields, htypes, hnames⟩ := hread
    have hname : Bytes.lineFeed ∉ node.name := fun hmem => hline (by simp [hmem])
    refine ⟨⟨htrimmed, hcolon, hname, hsign, ?_, htypes, hnames⟩, ws, ws₁, _, hws, hws₁, hfields,
      ?_⟩
    · rintro hnil
      rw [hnil] at hlength
      exact hne (List.eq_nil_of_length_eq_zero hlength.symm)
    · rw [← hjoin]
  · rintro ⟨hnode, ws, ws₁, texts, hws, hws₁, hfields, rfl⟩
    have hcomma := comma_not_mem_texts hfields hnode.types hnode.names
    have hne : texts ≠ [] := by
      rintro rfl
      exact hnode.fields (List.forall₂_nil_right_iff.1 hfields)
    obtain ⟨front, ws₂, hws₂, hback, hread⟩ := ofText_node hws hws₁ hnode.trimmed hnode.colon
      hnode.numberSign (Bytes.join [comma] texts)
    refine ⟨_, hread, ?_⟩
    rw [← readFields_append_blanks hws₂, ← hback, Bytes.splitAt_eq_iff.2 ⟨hne, hcomma, rfl⟩,
      readFields_eq_ok_iff, forall₂_fieldText_iff hcomma]
    exact ⟨hfields, hnode.types, hnode.names⟩

/-! ### All lines -/

/-- A line that has a meaning where it stands; a node has one only below a header. -/
def Readable (headed : Prop) (line : Bytes) : Prop :=
  IgnoredLine line ∨ (∃ family, HeaderLine family line) ∨
    headed ∧ ∃ node : Node, node.Expressible ∧ NodeLine node line

def Fault.NamesLine (fault : Fault) (number : Nat) : Prop :=
  ∃ reason, fault.message =
    Bytes.ofString "line " ++ Bytes.natural number ++ Bytes.ofString ": " ++ reason

def Fault.line? : Fault → Option Nat
  | .unknownHeader line _ => some line
  | .nodeBeforeHeader line _ => some line
  | .malformedField line _ => some line
  | .lineTooLong => none

theorem namesLine_of_line? {fault : Fault} {number : Nat} (h : fault.line? = some number) :
    fault.NamesLine number := by
  have hreason {text : Bytes} (reason more : Bytes) (htext : text = Bytes.ofString ": " ++ reason) :
      ∃ r, Bytes.ofString "line " ++ Bytes.natural number ++ text ++ more =
        Bytes.ofString "line " ++ Bytes.natural number ++ Bytes.ofString ": " ++ r :=
    ⟨reason ++ more, by rw [htext]; simp only [List.append_assoc]⟩
  cases fault with
  | unknownHeader line text =>
    obtain rfl := Option.some.inj h
    exact hreason (Bytes.ofString "unknown base ") _ (by decide)
  | nodeBeforeHeader line name =>
    obtain rfl := Option.some.inj h
    rw [Fault.NamesLine, Fault.message, List.append_assoc _ (quote name)]
    exact hreason (Bytes.ofString "node ") _ (by decide)
  | malformedField line text =>
    obtain rfl := Option.some.inj h
    exact hreason (Bytes.ofString "malformed field ") _ (by decide)
  | lineTooLong => cases h

/-- What reading does with one line. -/
theorem readLines_cases (number : Nat) (family? : Option Family) {line : Bytes} (rest : List Bytes)
    (hline : Bytes.lineFeed ∉ line) :
    (IgnoredLine line ∧
      readLines number family? (line :: rest) = readLines (number + 1) family? rest) ∨
    (∃ family, HeaderLine family line ∧
      readLines number family? (line :: rest) = readLines (number + 1) (some family) rest) ∨
    (∃ node : Node, family? = some node.family ∧ node.Expressible ∧ NodeLine node line ∧
      readLines number family? (line :: rest) =
        (readLines (number + 1) family? rest).map (node :: ·)) ∨
    ∃ fault, readLines number family? (line :: rest) = .error fault ∧ fault.line? = some number ∧
      ¬ Readable (family?.isSome = true) line := by
  have hnot (hignored : Line.ofText line ≠ .ignored) (hheader : ∀ f, Line.ofText line ≠ .header f)
      (hnode : family?.isSome = true → ∀ (node : Node) texts,
        Line.ofText line = .node node.name texts → readFields texts ≠ .ok node.fields) :
      ¬ Readable (family?.isSome = true) line := by
    rintro (h | ⟨f, h⟩ | ⟨hheaded, node, h⟩)
    · exact hignored (ofText_eq_ignored_iff.2 h)
    · exact hheader f (ofText_eq_header_iff.2 h)
    · obtain ⟨texts, htext, hfields⟩ := (nodeLine_iff hline).2 h
      exact hnode hheaded node texts htext hfields
  rw [readLines]
  cases hkind : Line.ofText line with
  | ignored => exact .inl ⟨ofText_eq_ignored_iff.1 hkind, rfl⟩
  | header family => exact .inr (.inl ⟨family, ofText_eq_header_iff.1 hkind, rfl⟩)
  | unknown text =>
    refine .inr (.inr (.inr ⟨_, rfl, rfl, hnot ?_ ?_ ?_⟩))
    all_goals simp [hkind]
  | node name texts =>
    refine .inr (.inr ?_)
    cases family? with
    | none => exact .inr ⟨_, rfl, rfl, hnot (by simp [hkind]) (by simp [hkind]) (by simp)⟩
    | some family =>
      dsimp only
      cases hfields : readFields texts with
      | error text =>
        refine .inr ⟨_, rfl, rfl, hnot (by simp [hkind]) (by simp [hkind]) ?_⟩
        rintro - node texts' htexts
        obtain ⟨-, rfl⟩ := Line.node.inj (hkind.symm.trans htexts)
        simp [hfields]
      | ok fields =>
        have hnode : Node.Expressible ⟨name, family, fields⟩ ∧ NodeLine ⟨name, family, fields⟩ line :=
          (nodeLine_iff hline).1 ⟨texts, hkind, hfields⟩
        exact .inl ⟨⟨name, family, fields⟩, rfl, hnode.1, hnode.2, rfl⟩

theorem readLines_of_laidOut {family? : Option Family} {lines : List Bytes} {nodes : List Node}
    (h : LaidOut family? lines nodes) (hlines : ∀ line ∈ lines, Bytes.lineFeed ∉ line)
    (hnodes : ∀ node ∈ nodes, node.Expressible) (number : Nat) :
    readLines number family? lines = .ok nodes := by
  induction h generalizing number with
  | finish family? => rfl
  | ignored h _ ih =>
    rw [List.forall_mem_cons] at hlines
    rw [readLines, ofText_eq_ignored_iff.2 h]
    exact ih hlines.2 hnodes (number + 1)
  | header h _ ih =>
    rw [List.forall_mem_cons] at hlines
    rw [readLines, ofText_eq_header_iff.2 h]
    exact ih hlines.2 hnodes (number + 1)
  | node h _ ih =>
    rw [List.forall_mem_cons] at hlines hnodes
    obtain ⟨texts, htext, hfields⟩ := (nodeLine_iff hlines.1).2 ⟨hnodes.1, h⟩
    rw [readLines, htext]
    dsimp only
    rw [hfields]
    dsimp only
    rw [ih hlines.2 hnodes.2 (number + 1)]
    rfl

theorem laidOut_of_readLines {number : Nat} {family? : Option Family} {lines : List Bytes}
    {nodes : List Node} (hlines : ∀ line ∈ lines, Bytes.lineFeed ∉ line)
    (h : readLines number family? lines = .ok nodes) :
    (∀ node ∈ nodes, node.Expressible) ∧ LaidOut family? lines nodes := by
  induction lines generalizing number family? nodes with
  | nil =>
    obtain rfl := Except.ok.inj h
    exact ⟨by simp, .finish family?⟩
  | cons line lines ih =>
    rw [List.forall_mem_cons] at hlines
    rcases readLines_cases number family? lines hlines.1 with ⟨hline, hstep⟩ |
      ⟨family, hline, hstep⟩ | ⟨node, rfl, hnode, hline, hstep⟩ | ⟨fault, hstep, -, -⟩
    all_goals rw [hstep] at h
    · obtain ⟨hnodes, hrest⟩ := ih hlines.2 h
      exact ⟨hnodes, .ignored hline hrest⟩
    · obtain ⟨hnodes, hrest⟩ := ih hlines.2 h
      exact ⟨hnodes, .header hline hrest⟩
    · cases hread : readLines (number + 1) (some node.family) lines with
      | error fault =>
        rw [hread] at h
        cases h
      | ok rest =>
        rw [hread] at h
        obtain rfl := Except.ok.inj h
        obtain ⟨hnodes, hrest⟩ := ih hlines.2 hread
        exact ⟨List.forall_mem_cons.2 ⟨hnode, hnodes⟩, .node hline hrest⟩
    · cases h

def Headed (lines : List Bytes) : Prop := ∃ line ∈ lines, ∃ family, HeaderLine family line

theorem headed_cons {line : Bytes} {lines : List Bytes} :
    Headed (line :: lines) ↔ (∃ family, HeaderLine family line) ∨ Headed lines :=
  List.exists_mem_cons_iff _ line lines

/-- A fault is found on the first line that has no meaning where it stands. -/
theorem unreadable_of_readLines {number : Nat} {family? : Option Family} {lines : List Bytes}
    {fault : Fault} (hlines : ∀ line ∈ lines, Bytes.lineFeed ∉ line)
    (h : readLines number family? lines = .error fault) :
    ∃ before line after, lines = before ++ line :: after ∧
      (∀ above l below, before = above ++ l :: below →
        Readable (family?.isSome = true ∨ Headed above) l) ∧
      ¬ Readable (family?.isSome = true ∨ Headed before) line ∧
      fault.line? = some (number + before.length) := by
  induction lines generalizing number family? with
  | nil => cases h
  | cons line lines ih =>
    rw [List.forall_mem_cons] at hlines
    -- A line that has been read counts for the lines below only by being a header.
    have hbelow {state? : Option Family}
        (hline : Readable (family?.isSome = true ∨ Headed []) line)
        (hstate : ∀ above, (family?.isSome = true ∨ Headed (line :: above)) ↔
          state?.isSome = true ∨ Headed above)
        (hrest : readLines (number + 1) state? lines = .error fault) :
        ∃ before l after, line :: lines = before ++ l :: after ∧
          (∀ above m below, before = above ++ m :: below →
            Readable (family?.isSome = true ∨ Headed above) m) ∧
          ¬ Readable (family?.isSome = true ∨ Headed before) l ∧
          fault.line? = some (number + before.length) := by
      obtain ⟨before, l, after, rfl, hbefore, hl, hnumber⟩ := ih hlines.2 hrest
      refine ⟨line :: before, l, after, rfl, ?_, by rwa [hstate], ?_⟩
      · intro above m below hm
        cases above with
        | nil =>
          obtain ⟨rfl, -⟩ := List.cons.inj hm
          exact hline
        | cons y above =>
          obtain ⟨rfl, hrest⟩ := List.cons.inj hm
          rw [hstate]
          exact hbefore above m below hrest
      · rw [hnumber, List.length_cons, Nat.add_assoc, Nat.add_comm 1]
    rcases readLines_cases number family? lines hlines.1 with ⟨hline, hstep⟩ |
      ⟨family, hline, hstep⟩ | ⟨node, rfl, hnode, hline, hstep⟩ | ⟨fault', hstep, hnumber, hline⟩
    all_goals rw [hstep] at h
    · refine hbelow (.inl hline) (fun above => ?_) h
      have hno : ¬ ∃ family, HeaderLine family line := by
        rintro ⟨family, hheader⟩
        have hkind := ofText_eq_header_iff.2 hheader
        rw [ofText_eq_ignored_iff.2 hline] at hkind
        cases hkind
      rw [headed_cons, or_iff_right hno]
    · refine hbelow (.inr (.inl ⟨family, hline⟩)) (fun above => ?_) h
      rw [headed_cons]
      exact iff_of_true (.inr (.inl ⟨family, hline⟩)) (.inl rfl)
    · cases hread : readLines (number + 1) (some node.family) lines with
      | error found =>
        rw [hread] at h
        obtain rfl := Except.error.inj h
        exact hbelow (.inr (.inr ⟨.inl rfl, node, hnode, hline⟩))
          (fun above => iff_of_true (.inl rfl) (.inl rfl)) hread
      | ok nodes =>
        rw [hread] at h
        cases h
    · obtain rfl := Except.error.inj h
      refine ⟨[], line, lines, rfl, by simp, ?_, hnumber⟩
      simpa [Headed] using hline

theorem readLines_dropReturn (number : Nat) (family? : Option Family) (lines : List Bytes) :
    readLines number family? (lines.map dropReturn) = readLines number family? lines := by
  induction lines generalizing number family? with
  | nil => rfl
  | cons line lines ih =>
    simp only [List.map_cons, readLines, Line.ofText, trim_dropReturn, ih]

theorem read_eq_readLines {text : Bytes} {lines : List Bytes} (h : Lines text lines)
    (hshort : ∀ line ∈ lines, line.length < 65536) : read text = readLines 1 none lines := by
  have hreadable : lines.takeWhile (·.length < lineLimit) = lines := by
    rw [List.takeWhile_eq_self_iff]
    exact fun line hline => decide_eq_true (hshort line hline)
  have hbounded : boundedLines text = (lines.map dropReturn, false) := by
    rw [boundedLines, h.rawLines_eq]
    simp only [hreadable, Nat.lt_irrefl, decide_false]
  rw [read, hbounded]
  dsimp only
  rw [readLines_dropReturn]
  cases readLines 1 none lines <;> rfl

def Field.plain (field : Field) : Bytes :=
  Bytes.ofString " " ++ field.type ++ Bytes.ofString " " ++ field.name

def Node.plain (node : Node) : Bytes :=
  node.name ++ Bytes.ofString " :" ++ Bytes.join [comma] (node.fields.map Field.plain)

def plainLines (family? : Option Family) : List Node → List Bytes
  | [] => []
  | node :: nodes =>
    if family? = some node.family then node.plain :: plainLines family? nodes
    else node.family.header :: node.plain :: plainLines (some node.family) nodes

theorem nodeLine_plain (node : Node) : NodeLine node node.plain := by
  have hspace : Blanks (Bytes.ofString " ") := Blanks.byte (b := 32) (by decide) (by decide)
  have hfield (field : Field) : FieldText field field.plain :=
    ⟨_, _, [], hspace, hspace, by decide, .nil, by simp [Field.plain]⟩
  have hcolon : Bytes.ofString " :" = Bytes.ofString " " ++ [colon] := by decide
  refine ⟨[], Bytes.ofString " ", node.fields.map Field.plain, .nil, hspace, ?_, ?_⟩
  · rw [List.forall₂_map_right_iff, List.forall₂_same]
    exact fun field _ => hfield field
  · rw [Node.plain, hcolon]
    simp

theorem laidOut_plainLines (family? : Option Family) (nodes : List Node) :
    LaidOut family? (plainLines family? nodes) nodes := by
  induction nodes generalizing family? with
  | nil => exact .finish family?
  | cons node nodes ih =>
    rw [plainLines]
    split
    · rename_i hfamily
      subst hfamily
      exact .node (nodeLine_plain node) (ih _)
    · exact .header ⟨[], [], .nil, .nil, by simp⟩ (.node (nodeLine_plain node) (ih _))

/-- Reading gives back the nodes of every layout and accepts nothing else. What it refuses it refuses
for the first line that has no meaning where it stands, and the message names this line. -/
theorem read_decodes_layouts {text : Bytes} {lines : List Bytes} (hlines : Lines text lines)
    (hshort : ∀ line ∈ lines, line.length < 65536) :
    (∀ nodes, LaidOut none (plainLines none nodes) nodes) ∧
    (∀ nodes, read text = .ok nodes ↔
      (∀ node ∈ nodes, node.Expressible) ∧ LaidOut none lines nodes) ∧
    ∀ fault, read text = .error fault →
      ∃ before line after, lines = before ++ line :: after ∧
        (∀ above l below, before = above ++ l :: below → Readable (Headed above) l) ∧
        ¬ Readable (Headed before) line ∧ fault.NamesLine (before.length + 1) := by
  rw [read_eq_readLines hlines hshort]
  refine ⟨laidOut_plainLines none, fun nodes => ⟨?_, ?_⟩, fun fault hfault => ?_⟩
  · exact laidOut_of_readLines hlines.lineFeed_not_mem
  · rintro ⟨hnodes, hlaid⟩
    exact readLines_of_laidOut hlaid hlines.lineFeed_not_mem hnodes 1
  · obtain ⟨before, line, after, hsplit, hbefore, hline, hnumber⟩ :=
      unreadable_of_readLines hlines.lineFeed_not_mem hfault
    simp only [Option.isSome_none, Bool.false_eq_true, false_or] at hbefore hline
    rw [Nat.add_comm] at hnumber
    exact ⟨before, line, after, hsplit, hbefore, hline, namesLine_of_line? hnumber⟩

theorem spaced_layout_is_read :
    (read "#\n\u00a0Expr\t\r\n\nUnary:token.Token  Operator ,Expr Right" =
        .ok [⟨"Unary", .expr, [⟨"token.Token", "Operator"⟩, ⟨"Expr", "Right"⟩]⟩] ∧
      LaidOut none ["#", "\u00a0Expr\t\r", "", "Unary:token.Token  Operator ,Expr Right"]
        [⟨"Unary", .expr, [⟨"token.Token", "Operator"⟩, ⟨"Expr", "Right"⟩]⟩]) ∧
    ∃ fault before line after, read "Expr\n# one word\nUnary : Expr\n" = .error fault ∧
      (["Expr", "# one word", "Unary : Expr"] : List Bytes) = before ++ line :: after ∧
      ¬ Readable (Headed before) line ∧ fault.NamesLine (before.length + 1) := by
  have hgood : Lines "#\n\u00a0Expr\t\r\n\nUnary:token.Token  Operator ,Expr Right"
      ["#", "\u00a0Expr\t\r", "", "Unary:token.Token  Operator ,Expr Right"] :=
    lines_iff.2 (by decide +kernel)
  have hbad : Lines "Expr\n# one word\nUnary : Expr\n" ["Expr", "# one word", "Unary : Expr"] :=
    lines_iff.2 (by decide +kernel)
  have hread : read "#\n\u00a0Expr\t\r\n\nUnary:token.Token  Operator ,Expr Right" =
      .ok [⟨"Unary", .expr, [⟨"token.Token", "Operator"⟩, ⟨"Expr", "Right"⟩]⟩] := by decide +kernel
  have hfault : read "Expr\n# one word\nUnary : Expr\n" = .error (.malformedField 3 "Expr") := by
    decide +kernel
  refine ⟨⟨hread, (((read_decodes_layouts hgood (by decide)).2.1 _).1 hread).2⟩, ?_⟩
  obtain ⟨before, line, after, hsplit, -, hline, hnames⟩ :=
    (read_decodes_layouts hbad (by decide)).2.2 _ hfault
  exact ⟨_, before, line, after, hfault, hsplit, hline, hnames⟩

end BlockScript.NodeGrammar
