import ToolScript.Proofs.Script.Lexing
import ToolScript.Proofs.Script.Numbers
import ToolScript.Proofs.Text.Search

/-! # Sources in pieces

    A source is divided into the lexemes of its tokens and the gaps around them in one way only, and nothing of it is
    lost; a source that cannot be divided has a first lexeme that cannot be completed (`Broken`). The lexer reads the
    tokens of the one with the places of their lexemes, and of the other reports where that lexeme begins. -/

namespace ToolScript.Script
open Text

/-! ### Places -/

/-- Where a character stands that comes after a text: its line and its column, both counted from one. -/
def place (before : List Char) : Position :=
  ⟨1 + before.count '\n', 1 + (before.reverse.takeWhile (· != '\n')).length⟩

theorem next_place (s : List Char) (c : Char) : (place s).next c = place (s ++ [c]) := by
  by_cases hc : c = '\n'
  · simp [place, Position.next, hc, Nat.add_assoc]
  · simp [place, Position.next, hc, Nat.add_assoc]

theorem after_place (s t : List Char) : (place s).after t = place (s ++ t) := by
  induction t generalizing s with
  | nil => simp
  | cons c t ih => rw [Position.after_cons, next_place, ih, List.append_assoc, List.singleton_append]

/-! ### Pieces -/

/-- A token with what it is written as and the gap before that. -/
structure Piece where
  gap : List Char
  lexeme : List Char
  token : Token

def written (pieces : List Piece) : List Char :=
  pieces.flatMap fun piece => piece.gap ++ piece.lexeme

/-- What comes after `before` falls into pieces and a rest; no character after a lexeme would belong to it. -/
inductive Splits : (before s : List Char) → List Piece → (rest : List Char) → Prop
  | nil {before s : List Char} : Splits before s [] s
  | cons {before gap lexeme after rest : List Char} {kind : TokenKind} {pieces : List Piece} (hgap : Gap gap)
      (hlexeme : Lexeme kind lexeme) (hend : ∀ c ∈ after.head?, kind.continues c = false)
      (h : Splits (before ++ (gap ++ lexeme)) after pieces rest) :
      Splits before (gap ++ (lexeme ++ after)) (⟨gap, lexeme, kind, place (before ++ gap)⟩ :: pieces) rest

/-- The gap at the end of a source; a comment in it may end with the source. -/
inductive LastGap : List Char → Prop
  | gap {s : List Char} (h : Gap s) : LastGap s
  | comment {gap text : List Char} (hgap : Gap gap) (ht : '\n' ∉ text) : LastGap (gap ++ '#' :: text)

/-- A lexeme that cannot be completed begins a text. -/
inductive Broken : LexFault → List Char → Prop
  | unexpected {c : Char} {s : List Char} (hplain : Plain c) (hdigit : c.isDigit = false) (hstart : isWordStart c = false) :
      Broken (.unexpected c) (c :: s)
  /-- No quote ends the string. -/
  | unterminated {quote : Char} {s : List Char} (hquote : quote = '"' ∨ quote = '\'')
      (h : ∀ value body after, Quoted quote value body → s ≠ body ++ quote :: after) : Broken .unterminated (quote :: s)
  | malformedNumber {c : Char} {row after : List Char} (hc : c.isDigit = true) (hrow : IsRow row)
      (hend : ∀ d ∈ after.head?, d.isDigit = false ∧ d ≠ '.') (hpoints : 1 < row.count '.') :
      Broken (.malformedNumber (String.ofList (c :: row))) (c :: (row ++ after))

theorem Splits.lexeme {before s rest : List Char} {pieces : List Piece} (h : Splits before s pieces rest) :
    ∀ piece ∈ pieces, Lexeme piece.token.kind piece.lexeme := by
  induction h with
  | nil => simp
  | cons hgap hlexeme hend h ih => exact List.forall_mem_cons.mpr ⟨hlexeme, ih⟩

theorem Splits.eq_append {before s rest : List Char} {pieces : List Piece} (h : Splits before s pieces rest) :
    s = written pieces ++ rest := by
  induction h with
  | nil => rfl
  | cons hgap hlexeme hend h ih => rw [ih]; simp [written]

/-- An identifier is made of characters of words. -/
theorem isWordChar_of_lexeme {name : String} {lexeme : List Char} (h : Lexeme (.identifier name) lexeme) :
    ∀ c ∈ name.toList, isWordChar c = true := by
  cases h with
  | word hc hname hne =>
    rw [String.toList_ofList]
    exact List.forall_mem_cons.mpr ⟨isWordChar_of_isWordStart hc, hname⟩

/-- A number is what its lexeme stands for. -/
theorem standsFor_of_lexeme {n : Number} {lexeme : List Char} (h : Lexeme (.number n) lexeme) : StandsFor lexeme n := by
  cases h with
  | number hc hrow h => exact h

/-! ### Lexemes by their first characters -/

section
variable {c : Char} {kind : TokenKind} {t : List Char}

theorem Lexeme.ne_nil (h : Lexeme kind t) : t ≠ [] := by
  cases h <;> simp

theorem lexeme_cons (h : Lexeme kind (c :: t)) :
    (isWordStart c = true ∧ kind = wordKind (String.ofList (c :: t)) ∧ ∀ d ∈ t, isWordChar d = true) ∨
      (c = '$' ∧ kind = .reference (String.ofList t) ∧ ∀ d ∈ t, isWordChar d = true) ∨
      ((c = '"' ∨ c = '\'') ∧
        ∃ value body, kind = .string (String.ofList value) ∧ Quoted c value body ∧ t = body ++ [c]) ∨
      (c.isDigit = true ∧ ∃ n, kind = .number n ∧ IsRow t ∧ StandsFor (c :: t) n) ∨
      (punctuation? c = some kind ∧ t = []) := by
  cases h with
  | async => exact Or.inl ⟨by decide, rfl, List.all_eq_true.mp (by decide)⟩
  | word hc hname hne => exact Or.inl ⟨hc, (wordKind_of_ne hne).symm, hname⟩
  | reference hname => exact Or.inr (Or.inl ⟨rfl, rfl, hname⟩)
  | string hquote hquoted => exact Or.inr (Or.inr (Or.inl ⟨hquote, _, _, rfl, hquoted, rfl⟩))
  | number hc hrow hn => exact Or.inr (Or.inr (Or.inr (Or.inl ⟨hc, _, rfl, hrow, hn⟩)))
  | equals | openParen | closeParen | comma => exact Or.inr (Or.inr (Or.inr (Or.inr ⟨rfl, rfl⟩)))

theorem lexeme_word_iff (hc : isWordStart c = true) :
    Lexeme kind (c :: t) ↔ kind = wordKind (String.ofList (c :: t)) ∧ ∀ d ∈ t, isWordChar d = true := by
  have hplain := plain_of_isWordChar (isWordChar_of_isWordStart hc)
  constructor
  · intro h
    rcases lexeme_cons h with ⟨-, h⟩ | ⟨hreference, -⟩ | ⟨hquote, -⟩ | ⟨hd, -⟩ | ⟨hk, -⟩
    · exact h
    · exact absurd hreference hplain.reference
    · exact absurd hquote hplain.quote
    · rw [isDigit_of_isWordStart hc] at hd; cases hd
    · rw [hplain.punctuation?_eq] at hk; cases hk
  · rintro ⟨rfl, hname⟩
    exact lexeme_word hc hname

theorem lexeme_number_iff (hc : c.isDigit = true) :
    Lexeme kind (c :: t) ↔ ∃ n, kind = .number n ∧ IsRow t ∧ StandsFor (c :: t) n := by
  have hplain := plain_of_isWordChar (isWordChar_of_isDigit hc)
  constructor
  · intro h
    rcases lexeme_cons h with ⟨hw, -⟩ | ⟨hreference, -⟩ | ⟨hquote, -⟩ | ⟨-, h⟩ | ⟨hk, -⟩
    · rw [isDigit_of_isWordStart hw] at hc; cases hc
    · exact absurd hreference hplain.reference
    · exact absurd hquote hplain.quote
    · exact h
    · rw [hplain.punctuation?_eq] at hk; cases hk
  · rintro ⟨n, rfl, hrow, hn⟩
    exact .number hc hrow hn

theorem lexeme_reference_iff :
    Lexeme kind ('$' :: t) ↔ kind = .reference (String.ofList t) ∧ ∀ d ∈ t, isWordChar d = true := by
  constructor
  · intro h
    rcases lexeme_cons h with ⟨hw, -⟩ | ⟨-, h⟩ | ⟨hquote, -⟩ | ⟨hd, -⟩ | ⟨hk, -⟩
    · exact absurd rfl (plain_of_isWordChar (isWordChar_of_isWordStart hw)).reference
    · exact h
    · exact absurd hquote (by decide)
    · cases hd
    · cases hk
  · rintro ⟨rfl, hname⟩
    exact .reference hname

theorem lexeme_quote_iff (hc : c = '"' ∨ c = '\'') :
    Lexeme kind (c :: t) ↔ ∃ value body, kind = .string (String.ofList value) ∧ Quoted c value body ∧ t = body ++ [c] := by
  constructor
  · intro h
    rcases lexeme_cons h with ⟨hw, -⟩ | ⟨rfl, -⟩ | ⟨-, h⟩ | ⟨hd, -⟩ | ⟨hk, -⟩
    · exact absurd hc (plain_of_isWordChar (isWordChar_of_isWordStart hw)).quote
    · exact absurd hc (by decide)
    · exact h
    · exact absurd hc (plain_of_isWordChar (isWordChar_of_isDigit hd)).quote
    · rcases hc with rfl | rfl
      · cases hk
      · cases hk
  · rintro ⟨value, body, rfl, hquoted, rfl⟩
    exact .string hc hquoted

theorem lexeme_punctuation_iff {mark : TokenKind} (hc : punctuation? c = some mark) :
    Lexeme kind (c :: t) ↔ kind = mark ∧ t = [] := by
  have hplain : ¬Plain c := fun hplain => by
    rw [hplain.punctuation?_eq] at hc
    cases hc
  constructor
  · intro h
    rcases lexeme_cons h with ⟨hw, -⟩ | ⟨rfl, -⟩ | ⟨hquote, -⟩ | ⟨hd, -⟩ | ⟨hk, ht⟩
    · exact absurd (plain_of_isWordChar (isWordChar_of_isWordStart hw)) hplain
    · cases hc
    · rcases hquote with rfl | rfl
      · cases hc
      · cases hc
    · exact absurd (plain_of_isWordChar (isWordChar_of_isDigit hd)) hplain
    · rw [hk] at hc
      exact ⟨Option.some.inj hc, ht⟩
  · rintro ⟨rfl, rfl⟩
    exact lexeme_punctuation hc

end

/-! ### Every source can be divided or breaks -/

/-- A text is a last gap, or a gap comes before a character that is in none. -/
theorem lastGap_or (s : List Char) :
    LastGap s ∨ ∃ gap c t, s = gap ++ c :: t ∧ Gap gap ∧ isBlank c = false ∧ c ≠ '#' := by
  induction hn : s.length using Nat.strong_induction_on generalizing s with
  | _ n ih =>
    subst hn
    cases s with
    | nil => exact Or.inl (.gap .nil)
    | cons c s =>
      by_cases hblank : isBlank c = true
      · rcases ih s.length (by simp) s rfl with h | ⟨gap, d, t, rfl, hgap, hd⟩
        · cases h with
          | gap h => exact Or.inl (.gap (.blank hblank h))
          | comment hgap ht => exact Or.inl (.comment (.blank hblank hgap) ht)
        · exact Or.inr ⟨c :: gap, d, t, rfl, .blank hblank hgap, hd⟩
      · by_cases hcomment : c = '#'
        · subst hcomment
          by_cases hline : '\n' ∈ s
          · obtain ⟨text, s, rfl, ht⟩ := List.eq_append_cons_of_mem hline
            rcases ih s.length (by simp; omega) s rfl with h | ⟨gap, d, t, rfl, hgap, hd⟩
            · cases h with
              | gap h => exact Or.inl (.gap (.comment ht h))
              | @comment gap last hgap hlast =>
                have := LastGap.comment (.comment ht hgap) hlast
                rw [List.cons_append, List.append_assoc] at this
                exact Or.inl this
            · exact Or.inr ⟨'#' :: (text ++ '\n' :: gap), d, t, by simp, .comment ht hgap, hd⟩
          · exact Or.inl (LastGap.comment .nil hline)
        · exact Or.inr ⟨[], c, s, rfl, .nil, by simpa using hblank, hcomment⟩

/-- From a character that is in no gap a lexeme goes as far as it can, or cannot be completed. -/
theorem lexeme_or_broken {c : Char} (t : List Char) (hblank : isBlank c = false) (hcomment : c ≠ '#') :
    (∃ kind lexeme after, c :: t = lexeme ++ after ∧ Lexeme kind lexeme ∧ ∀ d ∈ after.head?, kind.continues d = false) ∨
      ∃ fault, Broken fault (c :: t) := by
  have hrun : ∀ is : Char → Bool, t = t.takeWhile is ++ t.dropWhile is ∧ (∀ d ∈ t.takeWhile is, is d = true) ∧
      ∀ d ∈ (t.dropWhile is).head?, is d = false := fun is => by
    refine ⟨(List.takeWhile_append_dropWhile).symm, fun d => List.mem_takeWhile_imp, fun d hd => ?_⟩
    have := List.head?_dropWhile_not is t
    rw [Option.mem_def.mp hd] at this
    exact this
  by_cases hreference : c = '$'
  · subst hreference
    obtain ⟨ht, hname, hend⟩ := hrun isWordChar
    exact Or.inl ⟨_, '$' :: t.takeWhile isWordChar, _, by rw [List.cons_append, ← ht], .reference hname, hend⟩
  by_cases hquote : c = '"' ∨ c = '\''
  · by_cases hclosed : ∃ value body after, Quoted c value body ∧ t = body ++ c :: after
    · obtain ⟨value, body, after, hquoted, rfl⟩ := hclosed
      exact Or.inl ⟨_, c :: (body ++ [c]), after, by simp, .string hquote hquoted, fun _ _ => rfl⟩
    · refine Or.inr ⟨_, .unterminated hquote fun value body after hquoted heq => hclosed ⟨value, body, after, hquoted, heq⟩⟩
  cases hpunctuation : punctuation? c with
  | some kind =>
    refine Or.inl ⟨kind, [c], t, rfl, lexeme_punctuation hpunctuation, fun d _ => ?_⟩
    rcases punctuation?_eq_some_iff.mp hpunctuation with ⟨-, rfl⟩ | ⟨-, rfl⟩ | ⟨-, rfl⟩ | ⟨-, rfl⟩
    · rfl
    · rfl
    · rfl
    · rfl
  | none =>
    by_cases hdigit : c.isDigit = true
    · obtain ⟨ht, hrun, hend⟩ := hrun isNumberChar
      have hrow : IsRow (t.takeWhile isNumberChar) := fun d hd => isNumberChar_iff.mp (hrun d hd)
      cases hn : numberOf? (c :: t.takeWhile isNumberChar) with
      | some n =>
        have hlexeme := Lexeme.number hdigit hrow ((numberOf?_eq_some_iff hdigit hrow).mp hn)
        exact Or.inl ⟨_, c :: t.takeWhile isNumberChar, _, by rw [List.cons_append, ← ht], hlexeme, hend⟩
      | none =>
        have hpoints := (numberOf?_eq_none_iff hdigit hrow).mp hn
        rw [List.count_cons_of_ne (by rintro rfl; cases hdigit)] at hpoints
        have hbroken := Broken.malformedNumber hdigit hrow (fun d hd => isNumberChar_eq_false_iff.mp (hend d hd)) hpoints
        rw [← ht] at hbroken
        exact Or.inr ⟨_, hbroken⟩
    · by_cases hstart : isWordStart c = true
      · obtain ⟨ht, hname, hend⟩ := hrun isWordChar
        refine Or.inl ⟨_, c :: t.takeWhile isWordChar, _, by rw [List.cons_append, ← ht], lexeme_word hstart hname, ?_⟩
        simpa only [continues_wordKind] using hend
      · have hplain : Plain c := ⟨hblank, hcomment, hreference, hquote, punctuation?_eq_none_iff.mp hpunctuation⟩
        exact Or.inr ⟨_, .unexpected hplain (by simpa using hdigit) (by simpa using hstart)⟩

theorem exists_splits (before s : List Char) : ∃ pieces rest, Splits before s pieces rest ∧
    (LastGap rest ∨ ∃ gap bad fault, rest = gap ++ bad ∧ Gap gap ∧ Broken fault bad) := by
  induction hn : s.length using Nat.strong_induction_on generalizing before s with
  | _ n ih =>
    subst hn
    rcases lastGap_or s with h | ⟨gap, c, t, rfl, hgap, hblank, hcomment⟩
    · exact ⟨[], s, .nil, Or.inl h⟩
    · rcases lexeme_or_broken t hblank hcomment with ⟨kind, lexeme, after, ht, hlexeme, hend⟩ | ⟨fault, hbroken⟩
      · have hlt : after.length < (gap ++ c :: t).length := by
          have := List.length_pos_iff.mpr hlexeme.ne_nil
          rw [ht]
          simp only [List.length_append]
          omega
        obtain ⟨pieces, rest, h, hrest⟩ := ih after.length hlt (before ++ (gap ++ lexeme)) after rfl
        rw [ht]
        exact ⟨_, rest, .cons hgap hlexeme hend h, hrest⟩
      · exact ⟨[], _, .nil, Or.inr ⟨gap, c :: t, fault, rfl, hgap, hbroken⟩⟩

/-! ### What the lexer reads -/

namespace Lexer
variable {ts : List Token} {st p : Position} {s : List Char}

theorem read_splits {before rest : List Char} {pieces : List Piece} (h : Splits before s pieces rest) (ts : List Token)
    (st : Position) : ∃ st', read ⟨ts, .between, st, place before⟩ s =
      read ⟨(pieces.map (·.token)).reverse ++ ts, .between, st', place (before ++ written pieces)⟩ rest := by
  induction h generalizing ts st with
  | @nil before s => exact ⟨st, by simp [written]⟩
  | @cons before gap lexeme after rest kind pieces hgap hlexeme hend h ih =>
    obtain ⟨st₁, hread⟩ : ∃ st₁, read ⟨ts, .between, st, place (before ++ gap)⟩ (lexeme ++ after) = read
        ⟨⟨kind, place (before ++ gap)⟩ :: ts, .between, st₁, (place (before ++ gap)).after lexeme⟩ after :=
      read_lexeme hlexeme hend
    obtain ⟨st₂, ih⟩ := ih (⟨kind, place (before ++ gap)⟩ :: ts) st₁
    refine ⟨st₂, ?_⟩
    rw [read_gap hgap, after_place, hread, after_place, List.append_assoc, ih]
    simp [written]

theorem read_lastGap (h : LastGap s) : read ⟨ts, .between, st, p⟩ s = .ok (ts.reverse ++ [⟨.eof, p.after s⟩]) := by
  cases h with
  | gap h => exact read_lexed (.last h) ts st
  | @comment gap text hgap ht =>
    have hopen : step ⟨ts, .between, st, p.after gap⟩ '#' = .ok ⟨ts, .comment, st, (p.after gap).next '#'⟩ := by
      simp [step, begin, show isBlank '#' = false by decide]
    have hread : read ⟨ts, .comment, st, (p.after gap).next '#'⟩ (text ++ []) = _ := read_comment ht []
    rw [List.append_nil] at hread
    rw [read_gap hgap, read_cons, hopen]
    show read ⟨ts, .comment, st, (p.after gap).next '#'⟩ text = _
    rw [hread, read_nil]
    simp [finish, complete, Scan.kind?, Except.map, Position.after_append]

/-- A lexeme that nothing goes on and that is no token is refused at its first character. -/
theorem read_of_incomplete {scan : Scan} {fault : LexFault} (hkind : scan.kind? = .error fault)
    (hend : ∀ c ∈ s.head?, step ⟨ts, scan, st, p⟩ c = (complete ⟨ts, scan, st, p⟩).bind (·.begin c)) :
    read ⟨ts, scan, st, p⟩ s = .error ⟨fault, st⟩ := by
  have hcomplete : complete ⟨ts, scan, st, p⟩ = .error ⟨fault, st⟩ := by
    simp [complete, hkind]
  cases s with
  | nil =>
    rw [read_nil, finish, hcomplete]
    rfl
  | cons c s =>
    rw [read_cons, hend c (by simp), hcomplete]
    rfl

theorem read_unterminated {quote : Char} (hquote : quote ≠ '\\')
    (h : ∀ value body after, Quoted quote value body → s ≠ body ++ quote :: after) (value : List Char) :
    read ⟨ts, .string quote value, st, p⟩ s = .error ⟨.unterminated, st⟩ := by
  induction hn : s.length using Nat.strong_induction_on generalizing s value p with
  | _ n ih =>
    subst hn
    cases s with
    | nil => exact read_of_incomplete rfl (by simp)
    | cons c s =>
      have hc : c ≠ quote := by
        rintro rfl
        exact h [] [] s .nil rfl
      by_cases hb : c = '\\'
      · subst hb
        have hstep : step ⟨ts, .string quote value, st, p⟩ '\\' = .ok ⟨ts, .escape quote value, st, p.next '\\'⟩ := by
          simp [step, hc]
        rw [read_cons, hstep]
        show read ⟨ts, .escape quote value, st, p.next '\\'⟩ s = _
        cases s with
        | nil => exact read_of_incomplete rfl (by simp)
        | cons d s =>
          rw [read_cons]
          refine ih s.length (by simp) (fun value' body after hquoted heq => ?_) _ rfl
          exact h _ _ after (.escaped (escaped_iff.mpr rfl) hquoted) (by rw [heq]; rfl)
      · have hstep : step ⟨ts, .string quote value, st, p⟩ c = .ok ⟨ts, .string quote (c :: value), st, p.next c⟩ := by
          simp [step, hc, hb]
        rw [read_cons, hstep]
        refine ih s.length (by simp) (fun value' body after hquoted heq => ?_) _ rfl
        exact h _ _ after (.plain hc hb hquoted) (by rw [heq]; rfl)

theorem read_broken {fault : LexFault} (h : Broken fault s) : read ⟨ts, .between, st, p⟩ s = .error ⟨fault, p⟩ := by
  cases h with
  | @unexpected c s hplain hdigit hstart =>
    have hstep : step ⟨ts, .between, st, p⟩ c = .error ⟨.unexpected c, p⟩ := by
      simp [step, begin, hplain.blank, hplain.comment, hplain.reference, hplain.quote, hplain.punctuation?_eq, hdigit, hstart]
    rw [read_cons, hstep]
    rfl
  | @unterminated quote s hquote h =>
    rw [read_cons, step, begin_quote hquote]
    exact read_unterminated (ne_backslash_of_quote hquote) h []
  | @malformedNumber c row after hc hrow hend hpoints =>
    have hn : numberOf? (c :: row) = none := by
      rw [numberOf?_eq_none_iff hc hrow, List.count_cons_of_ne (by rintro rfl; cases hc)]
      exact hpoints
    rw [read_cons, step, begin_number hc]
    show read ⟨ts, .number [c], p, p.next c⟩ (row ++ after) = _
    rw [read_append isNumberChar (fun name p d hd => by simp [step, hd]) hrow.isNumberChar]
    refine read_of_incomplete (by simp [Scan.kind?, hn]) fun d hd => ?_
    have hcontinues : isNumberChar d = false := isNumberChar_eq_false_iff.mpr (hend d hd)
    simp [step, hcontinues]

end Lexer

/-- The tokens of a source that is divided into pieces. -/
def tokensOf (pieces : List Piece) (last : List Char) : List Token :=
  pieces.map (·.token) ++ [⟨.eof, place (written pieces ++ last)⟩]

theorem tokenize_of_splits {source : String} {pieces : List Piece} {last : List Char}
    (h : Splits [] source.toList pieces last) (hlast : LastGap last) : tokenize source = .ok (tokensOf pieces last) := by
  obtain ⟨st, hread⟩ := Lexer.read_splits h [] .start
  show Lexer.read ⟨[], .between, .start, place []⟩ source.toList = _
  rw [hread, Lexer.read_lastGap hlast, after_place, tokensOf]
  simp

theorem tokenize_of_broken {source : String} {pieces : List Piece} {gap bad : List Char} {fault : LexFault}
    (h : Splits [] source.toList pieces (gap ++ bad)) (hgap : Gap gap) (hbroken : Broken fault bad) :
    tokenize source = .error ⟨fault, place (written pieces ++ gap)⟩ := by
  obtain ⟨st, hread⟩ := Lexer.read_splits h [] .start
  show Lexer.read ⟨[], .between, .start, place []⟩ source.toList = _
  rw [hread, Lexer.read_gap hgap, Lexer.read_broken hbroken, after_place]
  rfl

/-- What comes before a rest is divided into the same pieces by itself. -/
theorem Splits.front {before s rest : List Char} {pieces : List Piece} (h : Splits before s pieces rest)
    {gap bad : List Char} (hrest : rest = gap ++ bad) : Splits before (written pieces ++ gap) pieces gap := by
  induction h with
  | nil => exact .nil
  | @cons before piece lexeme after rest kind pieces hpiece hlexeme hend h ih =>
    have hafter : after = (written pieces ++ gap) ++ bad := by rw [h.eq_append, hrest, List.append_assoc]
    have hend' : ∀ c ∈ (written pieces ++ gap).head?, kind.continues c = false := fun c hc => by
      refine hend c ?_
      rw [hafter, List.head?_append, Option.mem_def.mp hc]
      rfl
    have := Splits.cons hpiece hlexeme hend' (ih hrest)
    simpa [written] using this

/-! ### There is one division -/

/-- A text that begins with a character of no gap, or not at all. -/
def Outside (s : List Char) : Prop :=
  ∀ c ∈ s.head?, isBlank c = false ∧ c ≠ '#'

theorem Lexeme.outside {kind : TokenKind} {lexeme : List Char} (h : Lexeme kind lexeme) (s : List Char) :
    Outside (lexeme ++ s) := by
  obtain ⟨c, t, rfl⟩ := List.exists_cons_of_ne_nil h.ne_nil
  have hplain : ∀ {c}, isWordChar c = true → isBlank c = false ∧ c ≠ '#' := fun hc =>
    ⟨(plain_of_isWordChar hc).blank, (plain_of_isWordChar hc).comment⟩
  rintro _ ⟨⟩
  rcases lexeme_cons h with ⟨hw, -⟩ | ⟨rfl, -⟩ | ⟨rfl | rfl, -⟩ | ⟨hd, -⟩ | ⟨hk, -⟩
  · exact hplain (isWordChar_of_isWordStart hw)
  · decide
  · decide
  · decide
  · exact hplain (isWordChar_of_isDigit hd)
  · rcases punctuation?_eq_some_iff.mp hk with ⟨rfl, -⟩ | ⟨rfl, -⟩ | ⟨rfl, -⟩ | ⟨rfl, -⟩
    · decide
    · decide
    · decide
    · decide

theorem Gap.unique {gap gap' s s' : List Char} (h : Gap gap) (h' : Gap gap') (hs : Outside s) (hs' : Outside s')
    (heq : gap ++ s = gap' ++ s') : gap = gap' := by
  induction h generalizing gap' with
  | nil =>
    rw [List.nil_append] at heq
    subst heq
    cases h' with
    | nil => rfl
    | blank hc rest => rw [(hs _ rfl).1] at hc; cases hc
    | comment ht rest => exact absurd rfl (hs _ rfl).2
  | @blank c gap hc rest ih =>
    cases h' with
    | nil =>
      rw [List.nil_append] at heq
      subst heq
      rw [(hs' _ rfl).1] at hc
      cases hc
    | blank hc' rest' =>
      obtain ⟨rfl, htail⟩ := List.cons.inj heq
      rw [ih rest' htail]
    | comment ht rest' =>
      rw [(List.cons.inj heq).1] at hc
      exact absurd hc (by decide)
  | @comment text gap ht rest ih =>
    cases h' with
    | nil =>
      rw [List.nil_append] at heq
      subst heq
      exact absurd rfl (hs' _ rfl).2
    | blank hc' rest' =>
      rw [← (List.cons.inj heq).1] at hc'
      exact absurd hc' (by decide)
    | @comment text' gap' ht' rest' =>
      have htail : text ++ '\n' :: (gap ++ s) = text' ++ '\n' :: (gap' ++ s') := by simpa using heq
      have htext : text = text' :=
        eq_of_ended_prefix (s := text ++ '\n' :: (gap ++ s)) ⟨gap ++ s, by simp⟩ ⟨gap' ++ s', by simp [htail]⟩ ht ht'
      subst htext
      rw [ih rest' (List.cons.inj (List.append_cancel_left htail)).2]

theorem Gap.append {gap gap' : List Char} (h : Gap gap) (h' : Gap gap') : Gap (gap ++ gap') := by
  induction h with
  | nil => exact h'
  | blank hc rest ih => exact .blank hc ih
  | comment ht rest ih =>
    have := Gap.comment ht ih
    simpa using this

/-- With one more newline the last gap is a gap like others. -/
theorem LastGap.newline {s : List Char} (h : LastGap s) : Gap (s ++ ['\n']) := by
  cases h with
  | gap h => exact h.append (.blank (by decide) .nil)
  | comment hgap ht =>
    have := hgap.append (.comment ht .nil)
    simpa using this

theorem LastGap.not_lexeme {gap lexeme after : List Char} {kind : TokenKind} (h : LastGap (gap ++ (lexeme ++ after)))
    (hgap : Gap gap) (hlexeme : Lexeme kind lexeme) : False := by
  have hnone : Outside [] := fun c hc => by cases hc
  have hwhole := h.newline.unique hgap hnone (hlexeme.outside (after ++ ['\n'])) (by simp)
  have := congrArg List.length hwhole
  simp at this

theorem run_unique {is : Char → Bool} {t t' s s' : List Char} (ht : ∀ c ∈ t, is c = true) (ht' : ∀ c ∈ t', is c = true)
    (hs : ∀ c ∈ s.head?, is c = false) (hs' : ∀ c ∈ s'.head?, is c = false) (h : t ++ s = t' ++ s') : t = t' := by
  have htake : ∀ {t s : List Char}, (∀ c ∈ t, is c = true) → (∀ c ∈ s.head?, is c = false) → (t ++ s).takeWhile is = t := by
    intro t s ht hs
    cases s with
    | nil => simpa using ht
    | cons c s =>
      have hc : is c = false := hs c rfl
      rw [List.takeWhile_append_of_pos ht, List.takeWhile_cons_of_neg (by simp [hc]), List.append_nil]
  rw [← htake ht hs, h, htake ht' hs']

theorem Quoted.unique {quote : Char} (hquote : quote ≠ '\\') {value body value' body' s s' : List Char}
    (h : Quoted quote value body) (h' : Quoted quote value' body') (heq : body ++ quote :: s = body' ++ quote :: s') :
    body = body' ∧ value = value' := by
  induction h generalizing value' body' with
  | nil =>
    cases h' with
    | nil => exact ⟨rfl, rfl⟩
    | plain hq hb rest => exact absurd (List.cons.inj heq).1.symm hq
    | escaped hc rest => exact absurd (List.cons.inj heq).1 hquote
  | plain hq hb rest ih =>
    cases h' with
    | nil => exact absurd (List.cons.inj heq).1 hq
    | plain hq' hb' rest' =>
      obtain ⟨rfl, htail⟩ := List.cons.inj heq
      obtain ⟨rfl, rfl⟩ := ih rest' htail
      exact ⟨rfl, rfl⟩
    | escaped hc' rest' => exact absurd (List.cons.inj heq).1 hb
  | escaped hc rest ih =>
    cases h' with
    | nil => exact absurd (List.cons.inj heq).1.symm hquote
    | plain hq' hb' rest' => exact absurd (List.cons.inj heq).1.symm hb'
    | escaped hc' rest' =>
      obtain ⟨rfl, htail⟩ := List.cons.inj (List.cons.inj heq).2
      obtain ⟨rfl, rfl⟩ := ih rest' htail
      rw [escaped_iff.mp hc |>.symm, escaped_iff.mp hc']
      exact ⟨rfl, rfl⟩

theorem Lexeme.unique {kind kind' : TokenKind} {lexeme lexeme' s s' : List Char} (h : Lexeme kind lexeme)
    (h' : Lexeme kind' lexeme') (hend : ∀ c ∈ s.head?, kind.continues c = false)
    (hend' : ∀ c ∈ s'.head?, kind'.continues c = false) (heq : lexeme ++ s = lexeme' ++ s') :
    kind = kind' ∧ lexeme = lexeme' := by
  obtain ⟨c, t, rfl⟩ := List.exists_cons_of_ne_nil h.ne_nil
  obtain ⟨c', t', rfl⟩ := List.exists_cons_of_ne_nil h'.ne_nil
  obtain ⟨rfl, htail⟩ := List.cons.inj heq
  rcases lexeme_cons h with ⟨hc, rfl, hname⟩ | ⟨rfl, rfl, hname⟩ | ⟨hquote, value, body, rfl, hquoted, rfl⟩ |
    ⟨hc, n, rfl, hrow, hn⟩ | ⟨hc, rfl⟩
  · obtain ⟨rfl, hname'⟩ := (lexeme_word_iff hc).mp h'
    simp only [continues_wordKind] at hend hend'
    rw [run_unique hname hname' hend hend' htail]
    exact ⟨rfl, rfl⟩
  · obtain ⟨rfl, hname'⟩ := lexeme_reference_iff.mp h'
    rw [run_unique hname hname' hend hend' htail]
    exact ⟨rfl, rfl⟩
  · obtain ⟨value', body', rfl, hquoted', rfl⟩ := (lexeme_quote_iff hquote).mp h'
    obtain ⟨rfl, rfl⟩ := hquoted.unique (ne_backslash_of_quote hquote) hquoted' (by simpa using htail)
    exact ⟨rfl, rfl⟩
  · obtain ⟨n', rfl, hrow', hn'⟩ := (lexeme_number_iff hc).mp h'
    obtain rfl := run_unique hrow.isNumberChar hrow'.isNumberChar hend hend' htail
    rw [← numberOf?_eq_some_iff hc hrow] at hn hn'
    rw [hn] at hn'
    rw [Option.some.inj hn']
    exact ⟨rfl, rfl⟩
  · obtain ⟨rfl, rfl⟩ := (lexeme_punctuation_iff hc).mp h'
    exact ⟨rfl, rfl⟩

theorem Splits.unique {before s s' last last' : List Char} {pieces pieces' : List Piece} (h : Splits before s pieces last)
    (h' : Splits before s' pieces' last') (hlast : LastGap last) (hlast' : LastGap last') (heq : s = s') :
    pieces = pieces' ∧ last = last' := by
  induction h generalizing s' pieces' with
  | nil =>
    cases h' with
    | nil => exact ⟨rfl, heq⟩
    | cons hgap hlexeme hend h' =>
      subst heq
      exact (hlast.not_lexeme hgap hlexeme).elim
  | cons hgap hlexeme hend h ih =>
    cases h' with
    | nil =>
      subst heq
      exact (hlast'.not_lexeme hgap hlexeme).elim
    | cons hgap' hlexeme' hend' h' =>
      obtain rfl := hgap.unique hgap' (hlexeme.outside _) (hlexeme'.outside _) heq
      have htail := List.append_cancel_left heq
      obtain ⟨rfl, rfl⟩ := hlexeme.unique hlexeme' hend hend' htail
      obtain ⟨rfl, rfl⟩ := ih h' hlast (List.append_cancel_left htail)
      exact ⟨rfl, rfl⟩

/-! ### The lexer divides every source -/

/-- A source is made of pieces and a gap after the last of them. -/
structure Divides (source : List Char) (pieces : List Piece) (last : List Char) : Prop where
  splits : Splits [] source pieces last
  last : LastGap last

/-- A source breaks at a lexeme that cannot be completed; pieces and a gap come before it. -/
structure Breaks (source : List Char) (pieces : List Piece) (gap : List Char) (fault : LexFault) (bad : List Char) :
    Prop where
  splits : Splits [] source pieces (gap ++ bad)
  gap : Gap gap
  broken : Broken fault bad

theorem Divides.unique {source : List Char} {pieces pieces' : List Piece} {last last' : List Char}
    (h : Divides source pieces last) (h' : Divides source pieces' last') : pieces = pieces' ∧ last = last' :=
  h.splits.unique h'.splits h.last h'.last rfl

theorem divides_or_breaks (source : List Char) :
    (∃ pieces last, Divides source pieces last) ∨ ∃ pieces gap fault bad, Breaks source pieces gap fault bad := by
  obtain ⟨pieces, rest, h, hlast | ⟨gap, bad, fault, rfl, hgap, hbroken⟩⟩ := exists_splits [] source
  · exact Or.inl ⟨pieces, rest, h, hlast⟩
  · exact Or.inr ⟨pieces, gap, fault, bad, h, hgap, hbroken⟩

theorem divides_of_tokenize {source : String} {tokens : List Token} (h : tokenize source = .ok tokens) :
    ∃ pieces last, Divides source.toList pieces last ∧ tokens = tokensOf pieces last := by
  rcases divides_or_breaks source.toList with ⟨pieces, last, hdivides⟩ | ⟨pieces, gap, fault, bad, hbreaks⟩
  · rw [tokenize_of_splits hdivides.splits hdivides.last] at h
    exact ⟨pieces, last, hdivides, (Except.ok.inj h).symm⟩
  · rw [tokenize_of_broken hbreaks.splits hbreaks.gap hbreaks.broken] at h
    cases h

theorem breaks_of_tokenize {source : String} {e : LexError} (h : tokenize source = .error e) :
    ∃ pieces gap bad, Breaks source.toList pieces gap e.fault bad := by
  rcases divides_or_breaks source.toList with ⟨pieces, last, hdivides⟩ | ⟨pieces, gap, fault, bad, hbreaks⟩
  · rw [tokenize_of_splits hdivides.splits hdivides.last] at h
    cases h
  · rw [tokenize_of_broken hbreaks.splits hbreaks.gap hbreaks.broken] at h
    cases h
    exact ⟨pieces, gap, bad, hbreaks⟩

theorem isWordChar_of_tokenize {source name : String} {tokens : List Token} (h : tokenize source = .ok tokens)
    (hname : .identifier name ∈ tokens.map (·.kind)) : ∀ c ∈ name.toList, isWordChar c = true := by
  obtain ⟨pieces, last, hdivides, rfl⟩ := divides_of_tokenize h
  simp only [tokensOf, List.map_append, List.map_map, List.map_cons, List.map_nil, List.mem_append, List.mem_map,
    Function.comp_apply, List.mem_singleton, reduceCtorEq, or_false] at hname
  obtain ⟨piece, hpiece, hkind⟩ := hname
  exact isWordChar_of_lexeme (hkind ▸ hdivides.splits.lexeme piece hpiece)

/-- Before the lexeme at which a source breaks everything lexes. -/
theorem Breaks.before {source : List Char} {pieces : List Piece} {gap bad : List Char} {fault : LexFault}
    (h : Breaks source pieces gap fault bad) : Divides (written pieces ++ gap) pieces gap :=
  ⟨by simpa using h.splits.front rfl, .gap h.gap⟩

/-- The tokens of a source are read if it divides, which it does in one way, and are those of its pieces; else the error
    is of the lexeme at which it breaks, at its first character, and the tokens before that lexeme can be read. -/
theorem tokenize_partitions (source : String) :
    (∀ tokens, tokenize source = .ok tokens ↔
      ∃ pieces last, Divides source.toList pieces last ∧ tokens = tokensOf pieces last) ∧
    (∀ pieces last, Divides source.toList pieces last → source.toList = written pieces ++ last ∧
      ∀ pieces' last', Divides source.toList pieces' last' → pieces' = pieces ∧ last' = last) ∧
    (∀ e, tokenize source = .error e ↔
      ∃ pieces gap bad, Breaks source.toList pieces gap e.fault bad ∧ e.position = place (written pieces ++ gap)) ∧
    (∀ pieces gap fault bad, Breaks source.toList pieces gap fault bad →
      source.toList = (written pieces ++ gap) ++ bad ∧
        tokenize (String.ofList (written pieces ++ gap)) = .ok (tokensOf pieces gap)) := by
  refine ⟨fun tokens => ⟨divides_of_tokenize, ?_⟩, fun pieces last h => ⟨h.splits.eq_append, fun _ _ h' => h'.unique h⟩,
    fun e => ⟨fun h => ?_, ?_⟩, fun pieces gap fault bad h => ⟨?_, ?_⟩⟩
  · rintro ⟨pieces, last, hdivides, rfl⟩
    exact tokenize_of_splits hdivides.splits hdivides.last
  · rcases divides_or_breaks source.toList with ⟨pieces, last, hdivides⟩ | ⟨pieces, gap, fault, bad, hbreaks⟩
    · rw [tokenize_of_splits hdivides.splits hdivides.last] at h
      cases h
    · rw [tokenize_of_broken hbreaks.splits hbreaks.gap hbreaks.broken] at h
      cases h
      exact ⟨pieces, gap, bad, hbreaks, rfl⟩
  · rintro ⟨pieces, gap, bad, hbreaks, hposition⟩
    rw [tokenize_of_broken hbreaks.splits hbreaks.gap hbreaks.broken, ← hposition]
  · rw [h.splits.eq_append, List.append_assoc]
  · have hbefore := h.before
    exact tokenize_of_splits (by rw [String.toList_ofList]; exact hbefore.splits) hbefore.last

end ToolScript.Script
