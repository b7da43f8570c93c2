import ToolScript.Proofs.Script.Numbers
import ToolScript.Proofs.Text.Classes

/-! # How sources fall into lexemes

    A source is a row of lexemes with gaps before, between and after them; a gap has blanks and comments in it. `Lexed`
    says of each token what it is written as, where it stands, and that no character after it would belong to it. From
    a source that falls into lexemes in this way the lexer reads their tokens. -/

namespace ToolScript.Script
open Text

/-! ### Lexemes and gaps -/

/-- Blanks, and comments up to the end of their line. -/
inductive Gap : List Char → Prop
  | nil : Gap []
  | blank {c : Char} {gap : List Char} (hc : isBlank c = true) (rest : Gap gap) : Gap (c :: gap)
  | comment {text gap : List Char} (ht : '\n' ∉ text) (rest : Gap gap) : Gap ('#' :: (text ++ '\n' :: gap))

/-- What a character is written as behind a backslash: a newline and a tab as a letter, any other character as itself. -/
inductive Escaped : Char → Char → Prop
  | newline : Escaped '\n' 'n'
  | tab : Escaped '\t' 't'
  | itself {c : Char} (hn : c ≠ 'n') (ht : c ≠ 't') : Escaped c c

/-- What stands between the quotes of a string for its value: a character for itself, unless it is the quote or a
    backslash, or an escaped one behind a backslash. -/
inductive Quoted (quote : Char) : List Char → List Char → Prop
  | nil : Quoted quote [] []
  | plain {c : Char} {value written : List Char} (hq : c ≠ quote) (hb : c ≠ '\\') (rest : Quoted quote value written) :
      Quoted quote (c :: value) (c :: written)
  | escaped {c d : Char} {value written : List Char} (hc : Escaped c d) (rest : Quoted quote value written) :
      Quoted quote (c :: value) ('\\' :: d :: written)

/-- What the tokens of a kind are written as. -/
inductive Lexeme : TokenKind → List Char → Prop
  | async : Lexeme .async ['a', 's', 'y', 'n', 'c']
  | word {c : Char} {name : List Char} (hc : isWordStart c = true) (hname : ∀ d ∈ name, isWordChar d = true)
      (hne : c :: name ≠ ['a', 's', 'y', 'n', 'c']) : Lexeme (.identifier (String.ofList (c :: name))) (c :: name)
  | reference {name : List Char} (hname : ∀ d ∈ name, isWordChar d = true) :
      Lexeme (.reference (String.ofList name)) ('$' :: name)
  | string {quote : Char} {value written : List Char} (hquote : quote = '"' ∨ quote = '\'') (h : Quoted quote value written) :
      Lexeme (.string (String.ofList value)) (quote :: (written ++ [quote]))
  | number {c : Char} {row : List Char} {n : Number} (hc : c.isDigit = true) (hrow : IsRow row)
      (h : StandsFor (c :: row) n) : Lexeme (.number n) (c :: row)
  | equals : Lexeme .equals ['=']
  | openParen : Lexeme .openParen ['(']
  | closeParen : Lexeme .closeParen [')']
  | comma : Lexeme .comma [',']

/-- Whether a character after a token would belong to it. -/
def TokenKind.continues : TokenKind → Char → Bool
  | .identifier _, c => isWordChar c
  | .async, c => isWordChar c
  | .reference _, c => isWordChar c
  | .number _, c => c.isDigit || c == '.'
  | _, _ => false

/-- The tokens of a source that begins at a position, the last of them marking its end. -/
inductive Lexed : Position → List Char → List Token → Prop
  | last {p : Position} {gap : List Char} (hgap : Gap gap) : Lexed p gap [⟨.eof, p.after gap⟩]
  | token {p : Position} {gap lexeme rest : List Char} {kind : TokenKind} {ts : List Token} (hgap : Gap gap)
      (hlexeme : Lexeme kind lexeme) (hend : ∀ c ∈ rest.head?, kind.continues c = false)
      (h : Lexed ((p.after gap).after lexeme) rest ts) : Lexed p (gap ++ (lexeme ++ rest)) (⟨kind, p.after gap⟩ :: ts)

/-! ### What the lexer takes characters for -/

theorem escaped_iff {c d : Char} : Escaped c d ↔ unescaped d = c := by
  constructor
  · rintro (_ | _ | ⟨hn, ht⟩)
    · rfl
    · rfl
    · unfold unescaped
      split
      · exact absurd rfl hn
      · exact absurd rfl ht
      · rfl
  · rintro rfl
    unfold unescaped
    split
    · exact .newline
    · exact .tab
    · rename_i hn ht
      exact .itself hn ht

theorem wordKind_of_ne {word : List Char} (h : word ≠ ['a', 's', 'y', 'n', 'c']) :
    wordKind (String.ofList word) = .identifier (String.ofList word) := by
  rw [wordKind, if_neg]
  exact fun heq => h (String.ofList_injective heq)

/-- A word is written as itself, whether or not it is the keyword. -/
theorem lexeme_word {c : Char} {name : List Char} (hc : isWordStart c = true) (hname : ∀ d ∈ name, isWordChar d = true) :
    Lexeme (wordKind (String.ofList (c :: name))) (c :: name) := by
  by_cases hword : c :: name = ['a', 's', 'y', 'n', 'c']
  · rw [hword]
    exact .async
  · rw [wordKind_of_ne hword]
    exact .word hc hname hword

theorem continues_wordKind (word : String) (c : Char) : (wordKind word).continues c = isWordChar c := by
  unfold wordKind
  split <;> rfl

/-- The punctuation marks are lexemes of one character. -/
theorem punctuation?_eq_some_iff {c : Char} {kind : TokenKind} : punctuation? c = some kind ↔
    (c = '=' ∧ kind = .equals) ∨ (c = '(' ∧ kind = .openParen) ∨ (c = ')' ∧ kind = .closeParen) ∨
      (c = ',' ∧ kind = .comma) := by
  unfold punctuation?
  split <;> simp_all [eq_comm]

theorem punctuation?_eq_none_iff {c : Char} : punctuation? c = none ↔ c ∉ ['=', '(', ')', ','] := by
  unfold punctuation?
  split <;> simp_all

theorem lexeme_punctuation {c : Char} {kind : TokenKind} (h : punctuation? c = some kind) : Lexeme kind [c] := by
  rcases punctuation?_eq_some_iff.mp h with ⟨rfl, rfl⟩ | ⟨rfl, rfl⟩ | ⟨rfl, rfl⟩ | ⟨rfl, rfl⟩
  · exact .equals
  · exact .openParen
  · exact .closeParen
  · exact .comma

/-! ### What a character begins -/

/-- A character that begins neither a gap nor a token of another kind than a number or a word. -/
structure Plain (c : Char) : Prop where
  blank : isBlank c = false
  comment : c ≠ '#'
  reference : c ≠ '$'
  quote : ¬(c = '"' ∨ c = '\'')
  punctuation : c ∉ ['=', '(', ')', ',']

theorem plain_of_isWordChar {c : Char} (h : isWordChar c = true) : Plain c := by
  have hne : ∀ d, isWordChar d = false → c ≠ d := fun d => ne_of_isWordChar h
  refine ⟨?_, hne '#' (by decide), hne '$' (by decide), not_or.mpr ⟨hne '"' (by decide), hne '\'' (by decide)⟩, ?_⟩
  · by_contra hc
    rw [isWordChar_of_isBlank (Bool.eq_true_of_not_eq_false hc)] at h
    cases h
  · simp only [List.mem_cons, List.not_mem_nil, or_false, not_or]
    exact ⟨hne '=' (by decide), hne '(' (by decide), hne ')' (by decide), hne ',' (by decide)⟩

theorem ne_backslash_of_quote {quote : Char} (h : quote = '"' ∨ quote = '\'') : quote ≠ '\\' := by
  rcases h with rfl | rfl
  · decide
  · decide

theorem Plain.punctuation?_eq {c : Char} (h : Plain c) : punctuation? c = none :=
  punctuation?_eq_none_iff.mpr h.punctuation

namespace Lexer
variable {l : Lexer} {c : Char}

theorem begin_blank (hc : isBlank c = true) : l.begin c = .ok { l with scan := .between, position := l.position.next c } := by
  simp [begin, hc]

theorem begin_word (hc : isWordStart c = true) :
    l.begin c = .ok { l with scan := .word [c], start := l.position, position := l.position.next c } := by
  have hplain := plain_of_isWordChar (isWordChar_of_isWordStart hc)
  simp [begin, hplain.blank, hplain.comment, hplain.reference, hplain.quote, hplain.punctuation?_eq, isDigit_of_isWordStart hc, hc]

theorem begin_number (hc : c.isDigit = true) :
    l.begin c = .ok { l with scan := .number [c], start := l.position, position := l.position.next c } := by
  have hplain := plain_of_isWordChar (isWordChar_of_isDigit hc)
  simp [begin, hplain.blank, hplain.comment, hplain.reference, hplain.quote, hplain.punctuation?_eq, hc]

theorem begin_quote (hc : c = '"' ∨ c = '\'') :
    l.begin c = .ok { l with scan := .string c [], start := l.position, position := l.position.next c } := by
  rcases hc with rfl | rfl
  · simp [begin, show isBlank '"' = false by decide]
  · simp [begin, show isBlank '\'' = false by decide]

theorem begin_punctuation {kind : TokenKind} (hc : punctuation? c = some kind) :
    l.begin c = .ok { l with tokens := ⟨kind, l.position⟩ :: l.tokens, scan := .between, position := l.position.next c } := by
  rcases punctuation?_eq_some_iff.mp hc with ⟨rfl, rfl⟩ | ⟨rfl, rfl⟩ | ⟨rfl, rfl⟩ | ⟨rfl, rfl⟩
  · rfl
  · rfl
  · rfl
  · rfl

end Lexer

/-! ### Reading on -/

namespace Lexer

/-- The tokens of a whole source of which the lexer has still a part to read. -/
def read (l : Lexer) (s : List Char) : Except LexError (List Token) :=
  (s.foldlM step l).bind finish

theorem read_nil (l : Lexer) : l.read [] = l.finish := rfl

theorem read_cons (l : Lexer) (c : Char) (s : List Char) : l.read (c :: s) = (l.step c).bind fun l => l.read s := by
  rw [read, List.foldlM_cons]
  show ((l.step c).bind _).bind _ = _
  cases l.step c <;> rfl

variable {ts : List Token} {st p : Position} {s : List Char}

/-- Characters that go on a lexeme are taken into it. -/
theorem read_append {scan : List Char → Scan} (is : Char → Bool)
    (hstep : ∀ name p c, is c = true → step ⟨ts, scan name, st, p⟩ c = .ok ⟨ts, scan (c :: name), st, p.next c⟩)
    {t : List Char} (ht : ∀ c ∈ t, is c = true) (name : List Char) (p : Position) (s : List Char) :
    read ⟨ts, scan name, st, p⟩ (t ++ s) = read ⟨ts, scan (t.reverse ++ name), st, p.after t⟩ s := by
  induction t generalizing name p with
  | nil => rfl
  | cons c t ih =>
    obtain ⟨hc, ht⟩ := List.forall_mem_cons.mp ht
    rw [List.cons_append, read_cons, hstep name p c hc]
    show read ⟨ts, scan (c :: name), st, p.next c⟩ (t ++ s) = _
    rw [ih ht, List.reverse_cons, List.append_assoc]
    rfl

/-- A lexeme that nothing goes on is complete, and what follows is read as from between lexemes. -/
theorem read_of_complete {scan : Scan} {kind : TokenKind} (hkind : scan.kind? = .ok (some kind))
    (hend : ∀ c ∈ s.head?, step ⟨ts, scan, st, p⟩ c = (complete ⟨ts, scan, st, p⟩).bind (·.begin c)) :
    read ⟨ts, scan, st, p⟩ s = read ⟨⟨kind, st⟩ :: ts, .between, st, p⟩ s := by
  have hcomplete : complete ⟨ts, scan, st, p⟩ = .ok ⟨⟨kind, st⟩ :: ts, .between, st, p⟩ := by
    simp [complete, hkind]
  cases s with
  | nil =>
    rw [read_nil, read_nil, finish, finish, hcomplete]
    rfl
  | cons c s =>
    rw [read_cons, read_cons, hend c (by simp), hcomplete]
    rfl

/-! ### Gaps, strings and lexemes -/

theorem step_comment {c : Char} (hc : c ≠ '\n') : step ⟨ts, .comment, st, p⟩ c = .ok ⟨ts, .comment, st, p.next c⟩ := by
  simp [step, hc]

theorem read_comment {text : List Char} (ht : '\n' ∉ text) (s : List Char) :
    read ⟨ts, .comment, st, p⟩ (text ++ s) = read ⟨ts, .comment, st, p.after text⟩ s := by
  induction text generalizing p with
  | nil => rfl
  | cons c text ih =>
    rw [List.cons_append, read_cons, step_comment (by rintro rfl; exact ht List.mem_cons_self)]
    exact ih fun h => ht (List.mem_cons_of_mem c h)

theorem read_gap {gap : List Char} (hgap : Gap gap) (s : List Char) :
    read ⟨ts, .between, st, p⟩ (gap ++ s) = read ⟨ts, .between, st, p.after gap⟩ s := by
  induction hgap generalizing p with
  | nil => rfl
  | @blank c gap hc rest ih =>
    rw [List.cons_append, read_cons, step, begin_blank hc]
    exact ih
  | @comment text gap ht rest ih =>
    have hopen : step ⟨ts, .between, st, p⟩ '#' = .ok ⟨ts, .comment, st, p.next '#'⟩ := by
      simp [step, begin, show isBlank '#' = false by decide]
    have hline : step ⟨ts, .comment, st, (p.next '#').after text⟩ '\n' =
        .ok ⟨ts, .between, st, ((p.next '#').after text).next '\n'⟩ :=
      begin_blank (l := ⟨ts, .comment, st, (p.next '#').after text⟩) (c := '\n') (by decide)
    rw [List.cons_append, read_cons, hopen, List.append_assoc]
    show read ⟨ts, .comment, st, p.next '#'⟩ (text ++ _) = _
    rw [read_comment ht, List.cons_append, read_cons, hline]
    show read ⟨ts, .between, st, _⟩ (gap ++ s) = _
    rw [ih, Position.after_cons, Position.after_append, Position.after_cons]

theorem read_quoted {quote : Char} {v w : List Char} (h : Quoted quote v w) (hquote : quote ≠ '\\') (value : List Char)
    (s : List Char) :
    read ⟨ts, .string quote value, st, p⟩ (w ++ s) = read ⟨ts, .string quote (v.reverse ++ value), st, p.after w⟩ s := by
  induction h generalizing p value with
  | nil => rfl
  | @plain c v w hq hb rest ih =>
    have hstep : step ⟨ts, .string quote value, st, p⟩ c = .ok ⟨ts, .string quote (c :: value), st, p.next c⟩ := by
      simp [step, hq, hb]
    rw [List.cons_append, read_cons, hstep]
    show read ⟨ts, .string quote (c :: value), st, p.next c⟩ (w ++ s) = _
    rw [ih, List.reverse_cons, List.append_assoc]
    rfl
  | @escaped c d v w hc rest ih =>
    have hstep : step ⟨ts, .string quote value, st, p⟩ '\\' = .ok ⟨ts, .escape quote value, st, p.next '\\'⟩ := by
      simp [step, hquote.symm]
    rw [List.cons_append, List.cons_append, read_cons, hstep]
    show read ⟨ts, .escape quote value, st, p.next '\\'⟩ (d :: (w ++ s)) = _
    rw [read_cons]
    show read ⟨ts, .string quote (unescaped d :: value), st, (p.next '\\').next d⟩ (w ++ s) = _
    rw [escaped_iff.mp hc, ih, List.reverse_cons, List.append_assoc]
    rfl

theorem read_word {c : Char} {name : List Char} (hc : isWordStart c = true) (hname : ∀ d ∈ name, isWordChar d = true)
    (hend : ∀ d ∈ s.head?, isWordChar d = false) : read ⟨ts, .between, st, p⟩ (c :: name ++ s) =
      read ⟨⟨wordKind (String.ofList (c :: name)), p⟩ :: ts, .between, p, p.after (c :: name)⟩ s := by
  rw [List.cons_append, read_cons, step, begin_word hc]
  show read ⟨ts, .word [c], p, p.next c⟩ (name ++ s) = _
  rw [read_append isWordChar (fun name p d hd => by simp [step, hd]) hname]
  exact read_of_complete (by simp [Scan.kind?]) fun d hd => by simp [step, hend d hd]

theorem read_punctuation {c : Char} {kind : TokenKind} (hc : punctuation? c = some kind) :
    read ⟨ts, .between, st, p⟩ ([c] ++ s) = read ⟨⟨kind, p⟩ :: ts, .between, st, p.after [c]⟩ s := by
  rw [List.singleton_append, read_cons, step, begin_punctuation hc]
  rfl

theorem read_lexeme {kind : TokenKind} {lexeme : List Char} (h : Lexeme kind lexeme)
    (hend : ∀ c ∈ s.head?, kind.continues c = false) :
    ∃ st', read ⟨ts, .between, st, p⟩ (lexeme ++ s) = read ⟨⟨kind, p⟩ :: ts, .between, st', p.after lexeme⟩ s := by
  cases h with
  | async => exact ⟨p, read_word (c := 'a') (by decide) (List.all_eq_true.mp (by decide)) hend⟩
  | @word c name hc hname hne =>
    refine ⟨p, ?_⟩
    rw [← wordKind_of_ne hne]
    exact read_word hc hname hend
  | @reference name hname =>
    refine ⟨p, ?_⟩
    have hopen : step ⟨ts, .between, st, p⟩ '$' = .ok ⟨ts, .reference [], p, p.next '$'⟩ := by
      simp [step, begin, show isBlank '$' = false by decide]
    rw [List.cons_append, read_cons, hopen]
    show read ⟨ts, .reference [], p, p.next '$'⟩ (name ++ s) = _
    rw [read_append isWordChar (fun name p d hd => by simp [step, hd]) hname]
    refine read_of_complete (by simp [Scan.kind?]) fun d hd => ?_
    have hcontinues : isWordChar d = false := hend d hd
    simp [step, hcontinues]
  | @string quote value written hquote h =>
    refine ⟨p, ?_⟩
    rw [List.cons_append, read_cons, step, begin_quote hquote, List.append_assoc]
    show read ⟨ts, .string quote [], p, p.next quote⟩ (written ++ _) = _
    rw [read_quoted h (ne_backslash_of_quote hquote), List.singleton_append, read_cons]
    simp [step, Except.bind, Position.after_append]
  | @number c row n hc hrow h =>
    refine ⟨p, ?_⟩
    have hn := (numberOf?_eq_some_iff hc hrow).mpr h
    rw [List.cons_append, read_cons, step, begin_number hc]
    show read ⟨ts, .number [c], p, p.next c⟩ (row ++ s) = _
    rw [read_append isNumberChar (fun name p d hd => by simp [step, hd]) hrow.isNumberChar]
    refine read_of_complete (by simp [Scan.kind?, hn]) fun d hd => ?_
    have hcontinues : isNumberChar d = false := hend d hd
    simp [step, hcontinues]
  | equals => exact ⟨st, read_punctuation rfl⟩
  | openParen => exact ⟨st, read_punctuation rfl⟩
  | closeParen => exact ⟨st, read_punctuation rfl⟩
  | comma => exact ⟨st, read_punctuation rfl⟩

/-! ### Whole sources -/

theorem read_lexed {tokens : List Token} (h : Lexed p s tokens) (ts : List Token) (st : Position) :
    read ⟨ts, .between, st, p⟩ s = .ok (ts.reverse ++ tokens) := by
  induction h generalizing ts st with
  | @last p gap hgap =>
    have hread : read ⟨ts, .between, st, p⟩ (gap ++ []) = read ⟨ts, .between, st, p.after gap⟩ [] := read_gap hgap []
    rw [List.append_nil] at hread
    rw [hread]
    simp [read_nil, finish, complete, Scan.kind?, Except.map]
  | @token p gap lexeme rest kind tokens hgap hlexeme hend h ih =>
    obtain ⟨st', hread⟩ : ∃ st', read ⟨ts, .between, st, p.after gap⟩ (lexeme ++ rest) =
        read ⟨⟨kind, p.after gap⟩ :: ts, .between, st', (p.after gap).after lexeme⟩ rest := read_lexeme hlexeme hend
    rw [read_gap hgap, hread, ih, List.reverse_cons, List.append_assoc]
    rfl

end Lexer

/-- From a source that falls into lexemes the lexer reads their tokens. -/
theorem tokenize_of_lexed {source : String} {tokens : List Token} (h : Lexed .start source.toList tokens) :
    tokenize source = .ok tokens :=
  Lexer.read_lexed h [] .start

end ToolScript.Script
