import BlockScript.Proofs.EventLines
import BlockScript.Proofs.JsonRoundTrip
import BlockScript.Proofs.TextCuts
import BlockScript.Repl

/-! What is left of a trace when its file is read again. Every line that is short enough is read
back as the record it was written for, up to bytes that belong to no character; the first line that
is too long ends the reading, and nothing tells that there was more. -/

namespace BlockScript

open Trace

namespace Json

/-- An object is longer than any value in it. -/
theorem length_render_lt {members : List (Bytes × Json)} {m : Bytes × Json} (h : m ∈ members) :
    (render m.2).length < (render (.object members)).length := by
  have hmembers : (render m.2).length ≤ (renderMembers members).length := by
    induction members with
    | nil => cases h
    | cons first members ih =>
      obtain ⟨name, j⟩ := first
      cases members with
      | nil =>
        obtain rfl := List.mem_singleton.1 h
        rw [renderMembers, List.length_append, List.length_cons]
        dsimp only
        omega
      | cons second members =>
        rw [renderMembers, List.length_append, List.length_append, List.length_cons,
          List.length_cons]
        rcases List.mem_cons.1 h with rfl | h
        · dsimp only
          omega
        · have := ih h
          omega
  rw [render, List.length_append, List.length_cons]
  omega

/-- The text of an object is left alone where white space is cut off. -/
theorem trim_render {members : List (Bytes × Json)} {depth : Nat}
    (h : (Json.object members).Fits depth) :
    Text.trim (Text.dropReturn (render (.object members))) = render (.object members) := by
  have hrender : render (.object members) = 123 :: renderMembers members ++ [125] := by rw [render]
  have hreturn : Text.dropReturn (render (.object members)) = render (.object members) := by
    rw [Text.dropReturn, hrender, List.getLast?_concat, if_neg (by decide)]
  obtain ⟨cs, hcs⟩ : Utf8.IsText (renderMembers members) := by
    cases depth with
    | zero => simp [Fits] at h
    | succ depth => exact (renderMembers_visible members (by simpa [Fits] using h)).isText
  have hchars : render (.object members) = Utf8.ofChars ('\x7b' :: cs ++ ['\x7d']) := by
    rw [hrender, hcs, Utf8.ofChars_append]
    rfl
  rw [hreturn, hchars]
  apply Text.trim_ofChars
  · intro c hc
    obtain rfl := Option.some.inj hc
    decide
  · intro c hc
    rw [List.getLast?_concat] at hc
    obtain rfl := Option.some.inj hc
    decide

end Json

/-- A number of 64 bits, as lines are. -/
def Trace.Fits64 (n : Int) : Prop := -2 ^ 63 ≤ n ∧ n < 2 ^ 63

namespace Trace.Record

def clean (r : Record) : Record :=
  { time := Json.Reader.sanitize r.time
    run := Json.Reader.sanitize r.run
    event := Json.Reader.sanitize r.event
    line := r.line
    data := r.data.map fun (key, v) => (Json.Reader.sanitize key, Json.Reader.sanitize v) }

theorem sanitize_ofString (s : String) :
    Json.Reader.sanitize (Bytes.ofString s) = Bytes.ofString s :=
  Json.Reader.sanitize_of_isText (.ofString s)

theorem fits_toJson (r : Record) : r.toJson.Fits Json.Reader.deepest := by
  have hdata (depth : Nat) :
      Json.FitMembers depth (r.data.map fun (key, v) => (key, Json.string v)) := by
    rw [Json.fitMembers_iff]
    intro m hm
    obtain ⟨entry, -, rfl⟩ := List.mem_map.1 hm
    exact Json.fits_string _ _
  rw [toJson, show Json.Reader.deepest = 9998 + 1 + 1 from rfl, Json.Fits, Json.fitMembers_iff,
    List.forall_mem_append, List.forall_mem_append]
  refine ⟨⟨?_, ?_⟩, ?_⟩
  · intro m hm
    simp only [List.mem_cons, List.not_mem_nil, or_false] at hm
    rcases hm with rfl | rfl | rfl <;> exact Json.fits_string _ _
  · split
    · exact List.forall_mem_nil _
    · exact List.forall_mem_singleton.2 (Json.fits_int _ _)
  · split
    · exact List.forall_mem_nil _
    · rw [List.forall_mem_singleton, Json.member, Json.Fits]
      exact hdata _

/-- An integer of 64 bits is read back. -/
theorem integer?_integer {n : Int} (h : Fits64 n) :
    integer? (Bytes.integer n) = some n := by
  have hdigits (k : Nat) : (Bytes.natural k).all Bytes.isDigit = true :=
    List.all_eq_true.2 fun _ hb => Decimal.isDigit_of_mem_natural hb
  have hrange {n : Int} (h : Fits64 n) :
      (decide (-0x8000000000000000 ≤ n) && decide (n < 0x8000000000000000)) = true := by
    simp only [Bool.and_eq_true, decide_eq_true_eq]
    exact h
  cases n with
  | ofNat k =>
    have hsign : ∀ rest, Bytes.natural k ≠ 45 :: rest := by
      intro rest hrest
      have hb := Decimal.isDigit_of_mem_natural (n := k) (hrest ▸ List.mem_cons_self)
      exact absurd hb (by decide)
    rw [Bytes.integer, integer?, if_pos (hdigits k), Decimal.digitsValue_natural]
    · exact if_pos (hrange h)
    · exact hsign
  | negSucc k =>
    rw [Bytes.integer, integer?, if_pos (hdigits _), Decimal.digitsValue_natural]
    exact if_pos (hrange h)

section Absorb

variable (r : Record) (s : Bytes)

theorem absorb?_time : r.absorb? (Bytes.ofString "ts") (.string s) = some { r with time := s } := by
  have hkey : folded (Bytes.ofString "ts") = Bytes.ofString "TS" := by decide +kernel
  delta absorb?
  simp only [hkey, if_true, text?, Option.map_some]

theorem absorb?_run :
    r.absorb? (Bytes.ofString "runId") (.string s) = some { r with run := s } := by
  have hkey : folded (Bytes.ofString "runId") = Bytes.ofString "RUNID" := by decide +kernel
  delta absorb?
  simp [hkey, ofString_inj, text?]

theorem absorb?_event :
    r.absorb? (Bytes.ofString "event") (.string s) = some { r with event := s } := by
  have hkey : folded (Bytes.ofString "event") = Bytes.ofString "EVENT" := by decide +kernel
  delta absorb?
  simp [hkey, ofString_inj, text?]

theorem absorb?_line (text : Bytes) : r.absorb? (Bytes.ofString "line") (.number text) =
    (integer? text).map fun n => { r with line := n } := by
  have hkey : folded (Bytes.ofString "line") = Bytes.ofString "LINE" := by decide +kernel
  delta absorb?
  simp [hkey, ofString_inj]

theorem absorb?_data (members : List (Bytes × Json)) :
    r.absorb? (Bytes.ofString "data") (.object members) =
      (entries? members).map fun more => { r with data := r.data ++ more } := by
  have hkey : folded (Bytes.ofString "data") = Bytes.ofString "DATA" := by decide +kernel
  delta absorb?
  simp [hkey, ofString_inj]

end Absorb

theorem entries?_strings (entries : List (Bytes × Bytes)) :
    entries? (entries.map fun (key, v) => (key, Json.string v)) = some entries := by
  induction entries with
  | nil => rfl
  | cons entry entries ih =>
    rw [List.map_cons, entries?, ih]
    rfl

theorem clean_toJson (r : Record) : r.toJson.clean = r.clean.toJson := by
  by_cases hline : r.line = 0 <;> by_cases hdata : r.data = [] <;>
    simp [toJson, clean, Json.clean, Json.cleanMembers_eq_map, Json.member, Json.int,
      sanitize_ofString, hline, hdata]

/-- A record whose line has 64 bits is what its object is read as. -/
theorem ofJson?_toJson {r : Record} (h : Fits64 r.line) : ofJson? r.toJson = some r := by
  obtain ⟨time, run, event, line, data⟩ := r
  have hinteger : integer? (Bytes.integer line) = some line := integer?_integer h
  rw [toJson, ofJson?]
  -- An omitted member leaves the default, which is what it was omitted for.
  by_cases hline : line = 0 <;> by_cases hdata : data = [] <;>
    simp [Json.member, Json.int, absorb?_time, absorb?_run, absorb?_event, absorb?_line,
      absorb?_data, entries?_strings, hinteger, hline, hdata]

theorem parse?_render {r : Record} (h : Fits64 r.line) :
    parse? r.toJson.render = some r.clean := by
  rw [parse?, Json.parse?_render r.fits_toJson, Option.bind_some, clean_toJson]
  exact ofJson?_toJson h

theorem trim_render (r : Record) :
    Text.trim (Text.dropReturn r.toJson.render) = r.toJson.render :=
  Json.trim_render r.fits_toJson

theorem lineFeed_not_mem_render (r : Record) : Bytes.lineFeed ∉ r.toJson.render := by
  intro h
  have hvisible := (Json.render_visible r.toJson r.fits_toJson).visible _ h
  exact absurd hvisible (by decide)

/-- A line is longer than any text that its event carries. -/
theorem length_lt_render {r : Record} {key v : Bytes} (h : (key, v) ∈ r.data) :
    v.length < r.render.length := by
  have hdata : r.data ≠ [] := List.ne_nil_of_mem h
  have hinner : (Json.render (.string v)).length <
      (Json.render (.object (r.data.map fun (key, v) => (key, .string v)))).length :=
    Json.length_render_lt (m := (key, .string v)) (List.mem_map.2 ⟨_, h, rfl⟩)
  have houter : (Json.render (.object (r.data.map fun (key, v) => (key, .string v)))).length <
      r.toJson.render.length := by
    rw [toJson]
    exact Json.length_render_lt (m := Json.member "data" _) (by simp [hdata])
  have hquoted : v.length < (Json.render (.string v)).length := by
    rw [Json.render]
    exact Json.length_lt_quoted v
  rw [render, List.length_append]
  omega

end Trace.Record

namespace Trace

/-- An event without the bytes that belong to no character. -/
def Event.clean : Event → Event
  | .print line text json =>
    .print line (Json.Reader.sanitize text) (Json.Reader.sanitize json)
  | .runtimeError line code message =>
    .runtimeError line (.ofName (Json.Reader.sanitize code.name)) (Json.Reader.sanitize message)
  | e => e

@[simp] theorem Event.name_clean (e : Event) : e.clean.name = e.name := by
  cases e <;> rfl

theorem Event.faultCode?_clean (e : Event) :
    e.clean.faultCode? = e.faultCode?.map Json.Reader.sanitize := by
  cases e with
  | runtimeError line code message => exact congrArg some (Diagnostic.Code.name_ofName _)
  | _ => rfl

/-- Reading a record back loses nothing else that a summary counts. -/
theorem Record.reports_clean (time run : Bytes) (e : Event) :
    (ofEvent time run e).clean.Reports e.clean := by
  constructor
  · rw [Event.name_clean]
    exact sanitize_ofString e.name
  · intro line code message he
    cases e with
    | runtimeError line code message =>
      cases he
      simp [get, clean, ofEvent, Event.data, sanitize_ofString, ofString_inj,
        Diagnostic.Code.name_ofName]
    | _ => cases he

end Trace

namespace Trace

/-- Of a file made of records, those before the first line that is too long are read back. -/
theorem Summary.ofFile_render {rs : List Record} (h : ∀ r ∈ rs, Fits64 r.line) :
    ofFile (rs.flatMap Record.render) = ofRecords
      ((rs.takeWhile fun r => r.render.length ≤ Text.lineLimit).map Record.clean) := by
  have hlines : rs.flatMap Record.render =
      (rs.map fun r => r.toJson.render).flatMap (· ++ [Bytes.lineFeed]) := by
    rw [List.flatMap_map]
    rfl
  have hraw : Text.rawLines (rs.flatMap Record.render) = rs.map fun r => r.toJson.render := by
    rw [hlines]
    apply Text.rawLines_flatMap
    intro line hline
    obtain ⟨r, -, rfl⟩ := List.mem_map.1 hline
    exact r.lineFeed_not_mem_render
  have hshort : ((fun line : Bytes => decide (line.length < Text.lineLimit)) ∘
      fun r : Record => r.toJson.render) = fun r => decide (r.render.length ≤ Text.lineLimit) := by
    funext r
    rw [Function.comp_apply, Record.render, List.length_append, List.length_singleton]
    exact decide_eq_decide.2 Nat.lt_iff_add_one_le
  have hread (r : Record) (hr : r ∈ rs.takeWhile fun r => r.render.length ≤ Text.lineLimit) :
      Record.parse? (Text.trim (Text.dropReturn r.toJson.render)) = some r.clean := by
    rw [r.trim_render, Record.parse?_render (h r ((List.takeWhile_prefix _).subset hr))]
  rw [ofFile, Text.boundedLines, hraw, List.takeWhile_map, hshort, List.filterMap_map,
    List.filterMap_map]
  refine congrArg ofRecords ((List.filterMap_congr hread).trans ?_)
  exact congrFun List.filterMap_eq_map _

def named (name : String) (es : List Event) : Nat := es.countP (·.name = name)

@[simp] theorem named_clean (name : String) (es : List Event) :
    named name (es.map Event.clean) = named name es := by
  rw [named, List.countP_map]
  exact List.countP_congr fun e _ => by simp

/-- The number of blocks that were entered and not yet left. -/
def opened (es : List Event) : Int := named "block_enter" es - named "block_exit" es

@[simp] theorem opened_clean (es : List Event) : opened (es.map Event.clean) = opened es := by
  simp only [opened, named_clean]

theorem opened_cons (e : Event) (es : List Event) : opened (e :: es) = opened [e] + opened es := by
  simp only [opened, named, List.countP_cons, List.countP_nil]
  omega

theorem foldl_tick_named (es : List Event) (c : Counts) :
    (es.foldl Counts.tick c).events = c.events + es.length ∧
      (es.foldl Counts.tick c).statements = c.statements + named "stmt_start" es ∧
      (es.foldl Counts.tick c).prints = c.prints + named "print" es ∧
      (es.foldl Counts.tick c).faults = c.faults + named "runtime_error" es := by
  induction es generalizing c with
  | nil => simp [named]
  | cons e es ih =>
    obtain ⟨hevents, hstatements, hprints, hfaults⟩ := ih (c.tick e)
    rw [List.foldl_cons, hevents, hstatements, hprints, hfaults]
    cases e <;> simp [Counts.tick, named, Event.name] <;> omega

theorem tick_depth (e : Event) {c : Counts} (h : c.depth ≤ c.maxDepth) :
    (c.tick e).depth = c.depth + opened [e] ∧
      (c.tick e).maxDepth = max c.maxDepth (c.depth + opened [e]) := by
  cases e <;> simp [Counts.tick, opened, named, Event.name] <;> omega

theorem foldl_tick_maxDepth (es : List Event) {c : Counts} (h : c.depth ≤ c.maxDepth) :
    c.maxDepth ≤ (es.foldl Counts.tick c).maxDepth ∧
      (∀ k, c.depth + opened (es.take k) ≤ (es.foldl Counts.tick c).maxDepth) ∧
      ((es.foldl Counts.tick c).maxDepth = c.maxDepth ∨
        ∃ k, (es.foldl Counts.tick c).maxDepth = c.depth + opened (es.take k)) := by
  induction es generalizing c with
  | nil =>
    have hnone (k : Nat) : opened (([] : List Event).take k) = 0 := by
      rw [List.take_nil]
      rfl
    refine ⟨le_rfl, fun k => ?_, .inl rfl⟩
    rw [hnone k, add_zero]
    exact h
  | cons e es ih =>
    obtain ⟨hdepth, hmax⟩ := tick_depth e h
    have htick : (c.tick e).depth ≤ (c.tick e).maxDepth := by
      rw [hdepth, hmax]
      exact le_max_right _ _
    have hstep (k : Nat) : c.depth + opened ((e :: es).take (k + 1)) =
        (c.tick e).depth + opened (es.take k) := by
      rw [List.take_succ_cons, opened_cons, hdepth, add_assoc]
    obtain ⟨hgrows, hbound, hreached⟩ := ih htick
    rw [List.foldl_cons]
    have hkept : c.maxDepth ≤ (es.foldl Counts.tick (c.tick e)).maxDepth :=
      le_trans (hmax ▸ le_max_left _ _) hgrows
    refine ⟨hkept, fun k => ?_, ?_⟩
    · cases k with
      | zero => exact le_trans (le_of_eq (add_zero _)) (le_trans h hkept)
      | succ k => exact (hstep k).trans_le (hbound k)
    · rcases hreached with hsame | ⟨k, hk⟩
      · rcases max_choice c.maxDepth (c.depth + opened [e]) with hleft | hright
        · exact .inl (hsame.trans (hmax.trans hleft))
        · exact .inr ⟨1, hsame.trans (hmax.trans hright)⟩
      · exact .inr ⟨k + 1, hk.trans (hstep k).symm⟩

/-- The greatest number of open blocks at any point of a trace. -/
theorem maxDepth_of (es : List Event) :
    IsGreatest {depth | ∃ k, depth = opened (es.take k)} (Counts.of es).maxDepth := by
  obtain ⟨hstart, hbound, hreached⟩ := foldl_tick_maxDepth es (c := {}) le_rfl
  constructor
  · rcases hreached with hsame | ⟨k, hk⟩
    · exact ⟨0, hsame⟩
    · exact ⟨k, hk.trans (zero_add _)⟩
  · rintro _ ⟨k, rfl⟩
    exact le_trans (le_of_eq (zero_add _).symm) (hbound k)

end Trace

namespace Trace

/-- The events whose lines stand before the first that is too long. -/
def readable (time : Nat → Bytes) (run : Bytes) (es : List Event) : List Event :=
  es.take ((recordsOf time run es).takeWhile (·.render.length ≤ Text.lineLimit)).length

theorem reports_clean_recordsOf (time : Nat → Bytes) (run : Bytes) (es : List Event) :
    List.Forall₂ Record.Reports ((recordsOf time run es).map Record.clean)
      (es.map Event.clean) := by
  induction es generalizing time with
  | nil => exact .nil
  | cons e es ih =>
    rw [recordsOf_cons, List.map_cons, List.map_cons]
    exact .cons (Record.reports_clean _ _ e) (ih fun i => time (i + 1))

theorem recordsOf_const (now run : Bytes) (es : List Event) :
    recordsOf (fun _ => now) run es = es.map (Record.ofEvent now run) := by
  apply List.ext_getElem?
  intro i
  rw [recordsOf, List.getElem?_mapIdx, List.getElem?_map]

/-- Records with one time are those that the program writes. -/
theorem flatMap_recordsOf (now run : Bytes) (events : Array Event) :
    (recordsOf (fun _ => now) run events.toList).flatMap Record.render =
      Repl.records now run events := by
  rw [recordsOf_const, List.flatMap_map]
  rfl

/-- Reading ends before an event whose line is too long. -/
theorem readable_append {now run : Bytes} (before : List Event) {after : List Event} {e : Event}
    (hbefore : ∀ e ∈ before, (Record.ofEvent now run e).render.length ≤ Text.lineLimit)
    (he : Text.lineLimit < (Record.ofEvent now run e).render.length) :
    readable (fun _ => now) run (before ++ e :: after) = before := by
  have hshort : ∀ r ∈ before.map (Record.ofEvent now run),
      decide (r.render.length ≤ Text.lineLimit) = true := by
    intro r hr
    obtain ⟨e, he, rfl⟩ := List.mem_map.1 hr
    exact decide_eq_true (hbefore e he)
  have hlong : decide ((Record.ofEvent now run e).render.length ≤ Text.lineLimit) = false :=
    decide_eq_false (Nat.not_le.2 he)
  rw [readable, recordsOf_const, List.map_append, List.map_cons,
    List.takeWhile_append_of_pos hshort, List.takeWhile_cons, hlong, if_neg Bool.false_ne_true,
    List.append_nil, List.length_map, List.take_left]

/-- A summary of a file counts the events that can be read. -/
theorem Summary.counts_ofFile {sink : Sink} (hsink : sink.RaisesIn Fits64) {sources : List Bytes}
    (hsources : ∀ source ∈ sources, Bytes.lineFeeds source < 2 ^ 63 - 1) (time : Nat → Bytes)
    (run : Bytes) :
    let events := (Engine.after { sink := sink } sources).events.toList
    (ofFile ((recordsOf time run events).flatMap Record.render)).counts =
      Counts.of ((readable time run events).map Event.clean) := by
  intro events
  have hlines : ∀ e ∈ events, Fits64 e.line := by
    refine (Engine.after_in (P := Fits64) ⟨by decide, by decide⟩ ?_ ⟨?_, hsink⟩).events
    · intro source hsource line hlow hhigh
      have := hsources source hsource
      rw [Fits64]
      omega
    · exact List.forall_mem_nil _
  have hrecords : ∀ r ∈ recordsOf time run events, Fits64 r.line := by
    intro r hr
    obtain ⟨i, hi, rfl⟩ := List.mem_mapIdx.1 hr
    exact hlines _ (List.getElem_mem hi)
  have hkept : (recordsOf time run events).takeWhile (·.render.length ≤ Text.lineLimit) =
      recordsOf time run (readable time run events) := by
    rw [List.prefix_iff_eq_take.1 (List.takeWhile_prefix _), take_recordsOf]
    rfl
  rw [ofFile_render hrecords, hkept]
  exact counts_ofRecords (reports_clean_recordsOf time run _)

theorem exists_mem_recordsOf (time : Nat → Bytes) (run : Bytes) {es : List Event} {e : Event}
    (h : e ∈ es) : ∃ now, Record.ofEvent now run e ∈ recordsOf time run es := by
  obtain ⟨i, hi, rfl⟩ := List.getElem_of_mem h
  exact ⟨time i, List.mem_mapIdx.2 ⟨i, hi, rfl⟩⟩

theorem length_readable_eq_iff {time : Nat → Bytes} {run : Bytes} {es : List Event} :
    (readable time run es).length = es.length ↔
      ∀ r ∈ recordsOf time run es, r.render.length ≤ Text.lineLimit := by
  have hlength : (recordsOf time run es).length = es.length := List.length_mapIdx
  have hprefix : (recordsOf time run es).takeWhile (·.render.length ≤ Text.lineLimit) <+:
    recordsOf time run es := List.takeWhile_prefix _
  rw [readable, List.length_take, ← hlength, min_eq_left hprefix.length_le]
  constructor
  · intro heq r hr
    rw [← hprefix.eq_of_length heq] at hr
    have hshort := List.mem_takeWhile_imp hr
    exact of_decide_eq_true hshort
  · intro h
    rw [List.takeWhile_eq_self_iff.2 fun r hr => decide_eq_true (h r hr)]

theorem Record.length_lt_render_print (now run : Bytes) (line : Int) (text json : Bytes) :
    text.length < (Record.ofEvent now run (.print line text json)).render.length := by
  have hvalue : (Bytes.ofString "value", text) ∈
      (Record.ofEvent now run (.print line text json)).data := by
    simp [Record.ofEvent, Event.data]
  exact Record.length_lt_render hvalue

/-- A printed text that is too long for a line is lost. -/
theorem length_readable_lt {time : Nat → Bytes} {run : Bytes} {es : List Event} {line : Int}
    {text json : Bytes} (hprint : .print line text json ∈ es)
    (hlong : Text.lineLimit ≤ text.length) : (readable time run es).length < es.length := by
  obtain ⟨now, hrecord⟩ := exists_mem_recordsOf time run hprint
  have hline := Record.length_lt_render_print now run line text json
  have hle : (readable time run es).length ≤ es.length := (List.take_sublist _ _).length_le
  have hne : (readable time run es).length ≠ es.length := by
    intro heq
    have hshort := length_readable_eq_iff.1 heq _ hrecord
    omega
  omega

end Trace

theorem lineFeeds_printing {text : Bytes} (h : Bytes.lineFeed ∉ text) :
    Bytes.lineFeeds (printing text) = 1 := by
  rw [Bytes.lineFeeds, printing, List.count_append, List.count_append, List.count_eq_zero.2 h]
  rfl

theorem Sink.RaisesIn.default {P : Int → Prop} : ({} : Sink).RaisesIn P := by
  rintro _ _ _ _ ⟨⟩

theorem Engine.events_printing {text : Bytes} (h : Bytes.quoteMark ∉ text) :
    (after {} [printing text]).events.toList =
      [.runStart, .stmtStart 0 "Print", .print 0 text (Json.quoted text), .stmtEnd 0, .runEnd] := by
  obtain ⟨hclean, hstatements⟩ := ofSource_printing h
  have hrun : after {} [printing text] =
      (Machine.run {} [.print (.literal (.string text))]).2 := by
    have hafter := (run_result hclean {}).1
    rwa [hstatements] at hafter
  rw [hrun]
  simp [Machine.run, execAll, Stmt.exec, Stmt.line, Expr.line, Machine.withValue, Machine.eval,
    Expr.eval, Value.ofLiteral, Machine.print, Sink.write, Machine.begun, Machine.ended,
    Machine.emit, Stmt.kind, Stmt.finish, Value.text, Value.toJson, Json.render]

/-- Of a run that prints a text too long for a line, only the beginning is counted. -/
theorem counts_printing_long {text : Bytes} (hquote : Bytes.quoteMark ∉ text)
    (hfeed : Bytes.lineFeed ∉ text) (hlong : Text.lineLimit ≤ text.length) :
    let events := (Engine.after {} [printing text]).events
    let summary := Summary.ofFile (Repl.records [] [] events)
    events.size = 5 ∧ summary.events = 2 ∧ summary.prints = 0 := by
  intro events summary
  have hfeeds : Bytes.lineFeeds (printing text) < 2 ^ 63 - 1 :=
    (lineFeeds_printing hfeed).trans_lt (by decide)
  have hevents : events.toList = _ := Engine.events_printing hquote
  have hkept : readable (fun _ => []) [] events.toList = [.runStart, .stmtStart 0 "Print"] := by
    rw [hevents]
    apply readable_append [.runStart, .stmtStart 0 "Print"] (by decide +kernel)
    exact hlong.trans_lt (Record.length_lt_render_print [] [] 0 text (Json.quoted text))
  have hcounts : (Summary.ofFile
      ((recordsOf (fun _ => []) [] events.toList).flatMap Record.render)).counts =
        Counts.of ((readable (fun _ => []) [] events.toList).map Event.clean) :=
    Summary.counts_ofFile .default (List.forall_mem_singleton.2 hfeeds) (fun _ => []) []
  rw [flatMap_recordsOf, hkept] at hcounts
  refine ⟨?_, congrArg Counts.events hcounts, congrArg Counts.prints hcounts⟩
  rw [← Array.length_toList, hevents]
  rfl

/-- What a summary tells of the trace file of some runs. The counts are those of the events before
the first whose line is too long: all of them, the statements, the prints and the faults, the faults
by their codes up to bytes that belong to no character, and the greatest number of open blocks.
Nothing is lost exactly if no line is too long, and printing a long text always loses events. Lines
are numbers of 64 bits, in the sources and in the faults that the sink may raise. -/
theorem trace_file_counts_up_to_first_long_line (sink : Sink) (hsink : sink.RaisesIn Fits64)
    (sources : List Bytes) (hsources : ∀ source ∈ sources, Bytes.lineFeeds source < 2 ^ 63 - 1)
    (time : Nat → Bytes) (run : Bytes) :
    let events := (Engine.after { sink := sink } sources).events
    let records := recordsOf time run events.toList
    let summary := Summary.ofFile (records.flatMap Record.render)
    let kept := readable time run events.toList
    (∀ now, time = (fun _ => now) → records.flatMap Record.render = Repl.records now run events) ∧
      summary.events = kept.length ∧
      summary.statements = named "stmt_start" kept ∧
      summary.prints = named "print" kept ∧
      summary.faults = named "runtime_error" kept ∧
      (∀ code, (summary.faultsByCode.lookup code).getD 0 =
        ((kept.filterMap Event.faultCode?).map Json.Reader.sanitize).count code) ∧
      IsGreatest {depth | ∃ k, depth = opened (kept.take k)} summary.maxDepth ∧
      (summary.events = events.size ↔ ∀ r ∈ records, r.render.length ≤ Text.lineLimit) ∧
      ∀ line text json, .print line text json ∈ events → Text.lineLimit ≤ text.length →
        summary.events < events.size := by
  intro events records summary kept
  have hcounts : summary.counts = Counts.of (kept.map Event.clean) :=
    Summary.counts_ofFile hsink hsources time run
  obtain ⟨hevents, hstatements, hprints, hfaults⟩ := foldl_tick_named (kept.map Event.clean) {}
  simp only [named_clean, List.length_map] at hevents hstatements hprints hfaults
  obtain ⟨-, -, hcodes⟩ := faults_of (kept.map Event.clean)
  have hall : summary.events = kept.length :=
    (congrArg Counts.events hcounts).trans (hevents.trans (Nat.zero_add _))
  have hcomplete : summary.events = events.size ↔
      ∀ r ∈ records, r.render.length ≤ Text.lineLimit := by
    rw [hall, ← Array.length_toList]
    exact length_readable_eq_iff
  refine ⟨?_, hall, ?_, ?_, ?_, fun code => ?_, ?_, hcomplete, ?_⟩
  · rintro now rfl
    exact flatMap_recordsOf now run events
  · exact (congrArg Counts.statements hcounts).trans (hstatements.trans (Nat.zero_add _))
  · exact (congrArg Counts.prints hcounts).trans (hprints.trans (Nat.zero_add _))
  · exact (congrArg Counts.faults hcounts).trans (hfaults.trans (Nat.zero_add _))
  · have hbyCode : summary.faultsByCode = (Counts.of (kept.map Event.clean)).faultsByCode :=
      congrArg Counts.faultsByCode hcounts
    have hclean : (kept.map Event.clean).filterMap Event.faultCode? =
        (kept.filterMap Event.faultCode?).map Json.Reader.sanitize := by
      rw [List.filterMap_map, List.map_filterMap]
      exact List.filterMap_congr fun e _ => e.faultCode?_clean
    rw [hbyCode, ← hclean]
    exact hcodes code
  · have hmax : summary.maxDepth = (Counts.of (kept.map Event.clean)).maxDepth :=
      congrArg Counts.maxDepth hcounts
    have hgreatest := maxDepth_of (kept.map Event.clean)
    simp only [← List.map_take, opened_clean] at hgreatest
    rwa [hmax]
  · intro line text json hprint hlong
    rw [hall, ← Array.length_toList]
    exact length_readable_lt hprint.val hlong

/-- A short text is printed, and nothing is lost. -/
theorem trace_file_of_short_print :
    let source := printing [97]
    let events := (Engine.after {} [source]).events
    let summary := Summary.ofFile (Repl.records [] [] events)
    Bytes.lineFeeds source < 2 ^ 63 - 1 ∧ summary.events = events.size ∧ summary.statements = 1 ∧
      summary.prints = 1 ∧ summary.faults = 0 := by
  intro source events summary
  have hfeeds : Bytes.lineFeeds source < 2 ^ 63 - 1 :=
    (lineFeeds_printing (by decide)).trans_lt (by decide)
  have hevents : events.toList = _ := Engine.events_printing (by decide)
  obtain ⟨hfile, hall, hstatements, hprints, hfaults, -⟩ :=
    trace_file_counts_up_to_first_long_line {} .default [source]
      (List.forall_mem_singleton.2 hfeeds) (fun _ => []) []
  rw [hfile [] rfl] at hall hstatements hprints hfaults
  have hkept : readable (fun _ => []) [] events.toList = events.toList := by
    rw [hevents]
    decide +kernel
  rw [hkept] at hall hstatements hprints hfaults
  refine ⟨hfeeds, hall, ?_, ?_, ?_⟩
  · exact hstatements.trans (by rw [hevents]; rfl)
  · exact hprints.trans (by rw [hevents]; rfl)
  · exact hfaults.trans (by rw [hevents]; rfl)

/-- A text of as many bytes as a line may have is printed, and of five events two are left. -/
theorem trace_file_of_long_print :
    let source := printing (List.replicate Text.lineLimit 97)
    let events := (Engine.after {} [source]).events
    let summary := Summary.ofFile (Repl.records [] [] events)
    events.size = 5 ∧ summary.events = 2 ∧ summary.prints = 0 := by
  have hletter {b : UInt8} (hb : b ≠ 97) : b ∉ List.replicate Text.lineLimit 97 :=
    fun h => hb (List.eq_of_mem_replicate h)
  exact counts_printing_long (hletter (by decide)) (hletter (by decide))
    (le_of_eq List.length_replicate.symm)

end BlockScript
