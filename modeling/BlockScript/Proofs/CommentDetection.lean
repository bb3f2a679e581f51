import BlockScript.Proofs.MaximalMunch
import BlockScript.Tree

/-! Comments are found without a lexer. The warning before formatting only follows the quote marks
of a source and looks for two slashes outside of strings. It stays in step with the lexer up to the
first comment: before that, quote marks only begin and end strings, and no two slashes stand
together outside of them. -/

namespace BlockScript

open Token Segment

namespace Token.Segment

def isComment : Segment → Bool
  | .comment _ => true
  | _ => false

def isPlain (b : UInt8) : Bool := b != Bytes.quoteMark && b != 47

theorem isPlain_iff {b : UInt8} : isPlain b = true ↔ b ≠ Bytes.quoteMark ∧ b ≠ 47 := by
  simp [isPlain]

/-- A class of bytes without the quote mark and the slash is plain. -/
theorem isPlain_of {p : UInt8 → Prop} (hquote : ¬ p Bytes.quoteMark) (hslash : ¬ p 47) {b : UInt8}
    (hb : p b) : isPlain b = true := by
  rw [isPlain_iff]
  constructor
  · rintro rfl
    exact hquote hb
  · rintro rfl
    exact hslash hb

theorem spelling_plain {k : Kind} (h : k ≠ .slash) : ∀ b ∈ k.spelling, isPlain b = true := by
  apply List.all_eq_true.1
  cases k with
  | slash => exact absurd rfl h
  | unknown _ => rfl
  | _ => decide

theorem Numeral.lexeme_plain {n : Numeral} (h : Decimal.WellWritten n) :
    ∀ b ∈ n.lexeme, isPlain b = true := by
  intro b hb
  rcases h.mem_lexeme hb with hdigit | rfl
  · exact isPlain_of (p := fun b => Bytes.isDigit b = true) (by decide) (by decide) hdigit
  · rfl

/-- A piece by its quote marks and slashes: these stand in strings, in comments and in the token of
a single slash only. -/
inductive Shape : Segment → Prop
  | string {s body} (hbody : Bytes.quoteMark ∉ body) (htext : s.text = quoted body)
      (hs : s.isComment = false) : Shape s
  | openString {body} (hbody : Bytes.quoteMark ∉ body) :
      Shape (.fault .unterminatedString (Bytes.quoteMark :: body))
  | comment {body} : Shape (.comment body)
  | slash {s} (htext : s.text = Kind.slash.spelling) (hs : s.isComment = false) : Shape s
  | plain {s} (htext : ∀ b ∈ s.text, isPlain b = true) (hs : s.isComment = false) : Shape s

theorem Piece.shape {s : Segment} (h : s.Piece) : s.Shape := by
  cases h with
  | openString h => exact .openString h
  | comment _ => exact .comment
  | blank h =>
    refine .plain ?_ rfl
    intro c hc
    obtain rfl := List.mem_singleton.1 hc
    exact isPlain_of (by decide) (by decide) h
  | @token kind _ _ h =>
    cases h with
    | string h => exact .string h rfl rfl
    | fixed _ =>
      by_cases hslash : kind = .slash
      · subst hslash
        exact .slash rfl rfl
      · exact .plain (spelling_plain hslash) rfl
    | name h =>
      refine .plain ?_ rfl
      intro b hb
      exact isPlain_of (p := fun b => Bytes.isWordByte b = true) (by decide) (by decide)
        (h.bytes b hb)
    | number h =>
      obtain ⟨n, hn, rfl, -⟩ := h
      exact .plain (Numeral.lexeme_plain hn) rfl
  | hugeNumber hn _ => exact .plain (Numeral.lexeme_plain hn) rfl
  | character h =>
    refine .plain ?_ rfl
    intro b hb
    exact isPlain_of (p := fun b => 128 ≤ b.toNat) (by decide) (by decide)
      (Utf8.large_of_mem_encode h b hb)
  | byte h =>
    refine .plain ?_ rfl
    intro b hb
    obtain rfl := List.mem_singleton.1 hb
    exact isPlain_iff.2 ⟨h.quote, fun hslash => h.mark .slash (by rw [hslash]; rfl)⟩

end Token.Segment

/-- Outside of strings plain bytes are passed over. -/
theorem hasComment_plain {text : Bytes} (rest : Bytes) (h : ∀ b ∈ text, isPlain b = true) :
    hasComment false (text ++ rest) = hasComment false rest := by
  induction text with
  | nil => rfl
  | cons b text ih =>
    obtain ⟨hquote, hslash⟩ := isPlain_iff.1 (h b List.mem_cons_self)
    rw [List.cons_append, hasComment, if_neg hquote, if_neg (by simp [hslash])]
    exact ih fun c hc => h c (List.mem_cons_of_mem b hc)

/-- Inside of a string everything is passed over up to the next quote mark. -/
theorem hasComment_inside {body : Bytes} (rest : Bytes) (h : Bytes.quoteMark ∉ body) :
    hasComment true (body ++ rest) = hasComment true rest := by
  induction body with
  | nil => rfl
  | cons b body ih =>
    rw [List.mem_cons, not_or] at h
    rw [List.cons_append, hasComment, if_neg (Ne.symm h.1), if_neg (by simp)]
    exact ih h.2

/-- The detector is outside of strings wherever a piece begins, and stops only at comments. -/
theorem hasComment_piece {s : Segment} {rest : Bytes} (h : s.Longest (s.text ++ rest)) :
    hasComment false (s.text ++ rest) = (s.isComment || hasComment false rest) := by
  cases h.piece.shape with
  | @string _ body hbody htext hs =>
    calc hasComment false (s.text ++ rest)
        = hasComment true (body ++ Bytes.quoteMark :: rest) := by
          rw [htext, quoted, List.append_assoc, List.cons_append, hasComment, if_pos rfl]
          rfl
      _ = hasComment true (Bytes.quoteMark :: rest) := hasComment_inside _ hbody
      _ = hasComment false rest := by rw [hasComment, if_pos rfl]; rfl
      _ = (s.isComment || hasComment false rest) := by rw [hs, Bool.false_or]
  | @openString body hbody =>
    have hrest := h.ends.openString _ rfl
    subst hrest
    exact hasComment_inside [] hbody
  | comment => rfl
  | slash htext hs =>
    -- A slash is a token only if no other follows.
    have hnext := h.ends.slash htext
    rw [htext, hs, Bool.false_or, show Kind.slash.spelling = [47] from rfl, List.singleton_append,
      hasComment, if_neg (by decide), if_neg (by simpa using hnext)]
  | plain htext hs => rw [hasComment_plain rest htext, hs, Bool.false_or]

theorem hasComment_cuts {source : Bytes} {pieces : List Segment} (h : Cuts source pieces) :
    hasComment false source = pieces.any isComment := by
  induction h with
  | none => rfl
  | more hs _ ih => rw [hasComment_piece hs, ih, List.any_cons]

/-- The detector finds a comment in a source, whatever its bytes, exactly if the lexer skips one. -/
theorem hasComment_iff_lexer_skips_one (source : Bytes) :
    hasComment false source = true ↔ ∃ body, .comment body ∈ segments source := by
  rw [hasComment_cuts (segments_cuts source), List.any_eq_true]
  constructor
  · rintro ⟨s, hs, hcomment⟩
    cases s with
    | comment body => exact ⟨body, hs⟩
    | blank _ | token _ _ _ | fault _ _ => cases hcomment
  · rintro ⟨body, hbody⟩
    exact ⟨_, hbody, rfl⟩

end BlockScript
