import BlockScript.Proofs.Survivors

/-! Tokens do not depend on how they are laid out. Every token is read as itself wherever a blank is
behind it, and between two tokens there may be any blanks and comments. -/

namespace BlockScript.Token

/-- Blanks and comments, each comment with the line feed that ends it. -/
inductive Filler : Bytes → Prop
  | none : Filler []
  | blank {b more} (hb : b ∈ [32, 9, 13, 10]) (h : Filler more) : Filler (b :: more)
  | comment {body more} (hbody : Bytes.lineFeed ∉ body) (h : Filler more) :
      Filler (47 :: 47 :: body ++ Bytes.lineFeed :: more)

/-- What keeps two tokens apart: a filler that begins with a blank. -/
structure Separator (text : Bytes) : Prop where
  blank : ∃ b ∈ text.head?, b ∈ [32, 9, 13, 10]
  filler : Filler text

/-- The lexemes in their order, with a separator between each two. -/
inductive LaidOut : List Bytes → Bytes → Prop
  | none : LaidOut [] []
  | last {lexeme} : LaidOut [lexeme] lexeme
  | more {lexeme next rest separator text} (hseparator : Separator separator)
      (h : LaidOut (next :: rest) text) :
      LaidOut (lexeme :: next :: rest) (lexeme ++ separator ++ text)

theorem cut_comment {body : Bytes} (rest : Bytes) (h : Bytes.lineFeed ∉ body) :
    Segment.cut 47 (47 :: body ++ Bytes.lineFeed :: rest) =
      (.comment body, Bytes.lineFeed :: rest) := by
  have hstop : ∀ c ∈ (Bytes.lineFeed :: rest).head?, (c != Bytes.lineFeed) = false := by simp
  obtain ⟨htake, hdrop⟩ := takeWhile_append_stop (Segment.bne_of_not_mem h) hstop
  change (Segment.comment ((body ++ Bytes.lineFeed :: rest).takeWhile _),
    (body ++ Bytes.lineFeed :: rest).dropWhile _) = _
  rw [htake, hdrop]

theorem spells_comment {body text : Bytes} {tokens : List Token} (hbody : Bytes.lineFeed ∉ body)
    (h : Spells text tokens) : Spells (47 :: 47 :: body ++ Bytes.lineFeed :: text) tokens := by
  have hline : Spells (Bytes.lineFeed :: text) tokens := spells_blank rfl h
  intro rest hrest
  have hcut := cut_comment (text ++ rest) hbody
  rw [show 47 :: 47 :: body ++ Bytes.lineFeed :: text ++ rest =
    47 :: (47 :: body ++ Bytes.lineFeed :: (text ++ rest)) by simp, scan?_cons, hcut]
  exact hline rest hrest

theorem Filler.spells {filler text : Bytes} {tokens : List Token} (h : Filler filler)
    (htext : Spells text tokens) : Spells (filler ++ text) tokens := by
  induction h with
  | none => exact htext
  | blank hb _ ih => exact spells_blank (Segment.isBlank_iff.2 hb) ih
  | comment hbody _ ih =>
    rw [List.append_assoc, List.cons_append]
    exact spells_comment hbody ih

/-- A text behind a separator is read apart from the text before it. -/
theorem Spells.separated {text separator next : Bytes} {tokens others : List Token}
    (h : Spells text tokens) (hseparator : Separator separator) (hnext : Spells next others) :
    Spells (text ++ separator ++ next) (tokens ++ others) := by
  obtain ⟨b, hhead, hb⟩ := hseparator.blank
  obtain ⟨more, rfl⟩ := List.head?_eq_some_iff.1 hhead
  have hdelimiter : isDelimiter b = true := by simp [isDelimiter, Segment.isBlank_iff.2 hb]
  rw [List.append_assoc]
  exact h.append hdelimiter (hseparator.filler.spells hnext)

/-- A token is read as itself before every delimiter. -/
theorem Lexical.spells {t : Token} (h : Lexical t) : Spells t.lexeme [t.unplaced] := by
  cases h with
  | fixed h => exact spells_mark h
  | name h => exact h.spells
  | number h => exact spells_number h
  | string h => exact spells_quoted h

theorem LaidOut.spells {lexemes : List Bytes} {text : Bytes} (h : LaidOut lexemes text)
    {tokens : List Token} (htokens : ∀ t ∈ tokens, Lexical t)
    (hlexemes : tokens.map Token.lexeme = lexemes) : Spells text (tokens.map unplaced) := by
  induction h generalizing tokens with
  | none =>
    obtain rfl := List.map_eq_nil_iff.1 hlexemes
    exact spells_nil
  | last =>
    obtain ⟨t, rfl, rfl⟩ := List.map_eq_singleton_iff.1 hlexemes
    exact (htokens t (by simp)).spells
  | more hseparator _ ih =>
    obtain ⟨t, others, rfl, rfl, hothers⟩ := List.map_eq_cons_iff.1 hlexemes
    have ht := (htokens t (by simp)).spells
    exact ht.separated hseparator (ih (fun u hu => htokens u (List.mem_cons_of_mem t hu)) hothers)

/-- The tokens of any source, broken or not, are read again from their lexemes alone, whatever
blanks and comments are between them: without diagnostics, in the same order, with the same kinds,
lexemes and literals, and with the end marker behind them. -/
theorem tokens_read_again_in_any_layout (source text : Bytes)
    (h : LaidOut (((lex source).tokens.filter (·.kind ≠ .endOfFile)).map Token.lexeme) text) :
    (lex text).diagnostics = [] ∧
      (lex text).tokens.map unplaced = (lex source).tokens.map unplaced := by
  obtain ⟨body, last, htokens, hlexical⟩ := lexical_of_lex source
  have hbody : (lex source).tokens.filter (·.kind ≠ .endOfFile) = body := by
    have hself : body.filter (·.kind ≠ .endOfFile) = body :=
      List.filter_eq_self.2 fun t ht => by simpa using (hlexical t ht).kind_ne_endOfFile
    rw [htokens, List.filter_append, hself]
    simp [finish]
  rw [hbody] at h
  obtain ⟨hclean, hagain⟩ := scan?_eq_some_iff.1 (h.spells hlexical rfl).scan
  refine ⟨hclean, ?_⟩
  rw [hagain, htokens, List.map_append]
  rfl

/-- A slash before a comment and operators that could be one. -/
theorem slash_and_operators_in_another_layout :
    let source := Bytes.ofString "a/=b#!="
    let text := Bytes.ofString "a\t/ //=\n=\rb !="
    (lex source).diagnostics ≠ [] ∧
      LaidOut (((lex source).tokens.filter (·.kind ≠ .endOfFile)).map Token.lexeme) text ∧
      (lex text).diagnostics = [] ∧
      (lex text).tokens.map unplaced = (lex source).tokens.map unplaced := by
  intro source text
  have hbroken : (lex source).diagnostics.length = 1 := by decide +kernel
  have hlexemes : ((lex source).tokens.filter (·.kind ≠ .endOfFile)).map Token.lexeme =
      ["a", "/", "=", "b", "!="].map Bytes.ofString := by decide +kernel
  have hlaid : LaidOut (["a", "/", "=", "b", "!="].map Bytes.ofString) text := by
    have hblank (b : UInt8) (hb : b ∈ [32, 9, 13, 10]) : Separator [b] :=
      ⟨⟨b, rfl, hb⟩, .blank hb .none⟩
    have hbody : Bytes.lineFeed ∉ [61] := by decide
    have hcomment : Separator (Bytes.ofString " //=\n") :=
      ⟨⟨32, rfl, by decide⟩, .blank (by decide) (.comment hbody .none)⟩
    exact .more (hblank 9 (by decide)) (.more hcomment (.more (hblank 13 (by decide))
      (.more (hblank 32 (by decide)) .last)))
  rw [← hlexemes] at hlaid
  refine ⟨?_, hlaid, tokens_read_again_in_any_layout source text hlaid⟩
  intro hnone
  rw [hnone] at hbroken
  cases hbroken

end BlockScript.Token
