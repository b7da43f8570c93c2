import ToolScript.Proofs.Number.Digits
import ToolScript.Proofs.Script.Grammar
import ToolScript.Proofs.Script.Lexing

/-! # Scripts as texts

    A script can be written down in many ways: its tokens with blanks and comments between them, strings in quotes of
    either kind. Every text that writes a script is read as that script, and every script whose names and numbers have
    a written form is written by some text. -/

namespace ToolScript.Script
open Text

/-! ### Names and values with a written form -/

def IsWord (name : String) : Prop :=
  ∀ c ∈ name.toList, isWordChar c = true

/-- A word that begins with a letter or an underscore and is no keyword. -/
structure IsName (name : String) : Prop where
  first : ∃ c rest, name.toList = c :: rest ∧ isWordStart c = true ∧ ∀ d ∈ rest, isWordChar d = true
  ne_keyword : name ≠ "async"

/-- Strings, integers of 64 bits without a sign, and variables can be written. -/
inductive Expr.Writable : Expr → Prop
  | string (s : String) : Expr.Writable (.literal (.string s))
  | integer {n : Int} (hpos : 0 ≤ n) (hmax : n ≤ maxInt64) : Expr.Writable (.literal (.number (.integer n)))
  | reference {name : String} (hname : IsWord name) : Expr.Writable (.reference name)

structure Statement.Writable (s : Statement) : Prop where
  target : ∀ name, s.target = some name → IsWord name
  tool : IsName s.call.tool
  args : ∀ a ∈ s.call.args.entries, IsName a.1 ∧ a.2.Writable

/-! ### Written forms -/

/-- A character as it is written between quotes. -/
def escape (quote c : Char) : List Char :=
  if c = quote ∨ c = '\\' then ['\\', c] else [c]

def quoted (quote : Char) (value : List Char) : List Char :=
  quote :: (value.flatMap (escape quote) ++ [quote])

/-- What a token is written as. -/
inductive Writes : TokenKind → List Char → Prop
  | identifier {name : String} (hname : IsName name) : Writes (.identifier name) name.toList
  | reference {name : String} (hname : IsWord name) : Writes (.reference name) ('$' :: name.toList)
  | string {quote : Char} (hquote : quote = '"' ∨ quote = '\'') (value : String) :
      Writes (.string value) (quoted quote value.toList)
  | integer {n : Nat} (hmax : (n : Int) ≤ maxInt64) : Writes (.number (.integer n)) (decimalDigits n)
  | equals : Writes .equals ['=']
  | openParen : Writes .openParen ['(']
  | closeParen : Writes .closeParen [')']
  | comma : Writes .comma [',']
  | async : Writes .async "async".toList

/-- Tokens with a gap after each of them, which is not empty where another token follows. -/
inductive Spaced : List TokenKind → List Char → Prop
  | nil : Spaced [] []
  | cons {k : TokenKind} {ks : List TokenKind} {t gap rest : List Char} (token : Writes k t) (hgap : Gap gap)
      (apart : ks ≠ [] → gap ≠ []) (more : Spaced ks rest) : Spaced (k :: ks) (t ++ (gap ++ rest))

/-- A text writes a script: it has tokens that derive the script, with gaps between them. -/
def Written (script : List Statement) (text : List Char) : Prop :=
  ∃ ks gap rest, Derives ks script ∧ Gap gap ∧ Spaced ks rest ∧ text = gap ++ rest

/-! ### Written tokens are lexemes -/

theorem quoted_escape {quote : Char} (hquote : quote = '"' ∨ quote = '\'') (value : List Char) :
    Quoted quote value (value.flatMap (escape quote)) := by
  induction value with
  | nil => exact .nil
  | cons c value ih =>
    rw [List.flatMap_cons, escape]
    split
    · rename_i hspecial
      have hself : Escaped c c := by
        rcases hspecial with rfl | rfl
        · rcases hquote with rfl | rfl
          · exact .itself (by decide) (by decide)
          · exact .itself (by decide) (by decide)
        · exact .itself (by decide) (by decide)
      exact .escaped hself ih
    · rename_i hplain
      obtain ⟨hq, hb⟩ := not_or.mp hplain
      exact .plain hq hb ih

theorem Writes.lexeme {k : TokenKind} {t : List Char} (h : Writes k t) : Lexeme k t := by
  cases h with
  | @identifier name hname =>
    obtain ⟨c, rest, heq, hc, hrest⟩ := hname.first
    have hne : c :: rest ≠ "async".toList := fun hkeyword => hname.ne_keyword (String.toList_injective (heq.trans hkeyword))
    have hword := Lexeme.word hc hrest hne
    rwa [← heq, String.ofList_toList] at hword
  | @reference name hname =>
    have href := Lexeme.reference hname
    rwa [String.ofList_toList] at href
  | string hquote value =>
    have hstring := Lexeme.string hquote (quoted_escape hquote value.toList)
    rwa [String.ofList_toList] at hstring
  | @integer n hmax =>
    have hdigits : ∀ d ∈ decimalDigits n, d.isDigit = true := fun d => isDigit_of_mem_decimalDigits
    have hvalue : digitsOf (decimalDigits n) = n := (digitsOf_digits hdigits).trans (digitsValue_decimalDigits n)
    have hstands := StandsFor.integer (point_notMem_of_digits hdigits) (hvalue.symm ▸ hmax)
    rw [hvalue] at hstands
    obtain ⟨c, row, heq⟩ := List.exists_cons_of_ne_nil (decimalDigits_ne_nil n)
    rw [heq] at hdigits hstands ⊢
    exact .number (hdigits c List.mem_cons_self) (fun d hd => Or.inl (hdigits d (List.mem_cons_of_mem c hd))) hstands
  | equals => exact .equals
  | openParen => exact .openParen
  | closeParen => exact .closeParen
  | comma => exact .comma
  | async => exact .async

/-! ### Gaps part tokens -/

theorem Gap.first {gap : List Char} (h : Gap gap) : ∀ c ∈ gap.head?, isBlank c = true ∨ c = '#' := by
  cases h with
  | nil => simp
  | blank hc rest => simpa using Or.inl hc
  | comment ht rest => simp

theorem continues_eq_false {c : Char} (h : isBlank c = true ∨ c = '#') (k : TokenKind) : k.continues c = false := by
  have hword : isWordChar c = false := by
    rcases h with h | rfl
    · exact isWordChar_of_isBlank h
    · decide
  have hnumber : isNumberChar c = false := by
    have hdigit : c.isDigit = false := by
      by_contra hd
      rw [isWordChar_of_isDigit (Bool.eq_true_of_not_eq_false hd)] at hword
      cases hword
    have hpoint : c ≠ '.' := by
      rintro rfl
      rcases h with h | h
      · exact absurd h (by decide)
      · exact absurd h (by decide)
    simp [isNumberChar, hdigit, hpoint]
  cases k <;> first | exact hword | exact hnumber | rfl

/-- Spaced tokens are lexed, and the end of the source after them. -/
theorem Spaced.lexed {ks : List TokenKind} {rest : List Char} (h : Spaced ks rest) {gap : List Char} (hgap : Gap gap)
    (p : Position) : ∃ tokens, Lexed p (gap ++ rest) tokens ∧ tokens.map (·.kind) = ks ++ [.eof] := by
  induction h generalizing gap p with
  | nil =>
    rw [List.append_nil]
    exact ⟨_, .last hgap, rfl⟩
  | @cons k ks t gap' rest token hgap' apart more ih =>
    obtain ⟨tokens, hlexed, hkinds⟩ := ih hgap' ((p.after gap).after t)
    refine ⟨⟨k, p.after gap⟩ :: tokens, .token hgap token.lexeme ?_ hlexed, by simp [hkinds]⟩
    intro c hc
    cases gap' with
    | cons d gap' =>
      exact continues_eq_false (hgap'.first c (by simpa using hc)) k
    | nil =>
      -- Without a gap after it this is the last token, and nothing follows.
      have hks : ks = [] := by
        by_contra hne
        exact apart hne rfl
      subst hks
      cases more
      simp at hc

theorem Spaced.eof_not_mem {ks : List TokenKind} {rest : List Char} (h : Spaced ks rest) : .eof ∉ ks := by
  induction h with
  | nil => simp
  | cons token hgap apart more ih =>
    intro hmem
    rcases List.mem_cons.mp hmem with rfl | hmem
    · cases token
    · exact ih hmem

theorem kinds_eq {tokens : List Token} {ks : List TokenKind} (h : tokens.map (·.kind) = ks ++ [.eof]) (hks : .eof ∉ ks) :
    kinds tokens = ks := by
  have hmap : kinds tokens = (tokens.map (·.kind)).takeWhile (· ≠ .eof) := by
    rw [List.takeWhile_map]
    rfl
  have hall : ∀ k ∈ ks, decide (k ≠ .eof) = true := fun k hk => decide_eq_true fun heq => hks (heq ▸ hk)
  rw [hmap, h, List.takeWhile_append_of_pos hall]
  simp

/-- A text that writes a script is read as that script. -/
theorem Written.parse {script : List Statement} {text : List Char} (h : Written script text) :
    ∃ tokens, tokenize (String.ofList text) = .ok tokens ∧ parse tokens = .ok script := by
  obtain ⟨ks, gap, rest, derives, hgap, spaced, rfl⟩ := h
  obtain ⟨tokens, hlexed, hkinds⟩ := spaced.lexed hgap .start
  refine ⟨tokens, tokenize_of_lexed (by rwa [String.toList_ofList]), parse_eq_ok_iff.mpr ?_⟩
  rwa [kinds_eq hkinds spaced.eof_not_mem]

/-! ### Every script with written forms is written -/

def HaveForms (ks : List TokenKind) : Prop :=
  ∀ k ∈ ks, ∃ t, Writes k t

theorem HaveForms.append {ks ks' : List TokenKind} (h : HaveForms ks) (h' : HaveForms ks') : HaveForms (ks ++ ks') := by
  intro k hk
  rcases List.mem_append.mp hk with hk | hk
  · exact h k hk
  · exact h' k hk

theorem HaveForms.cons {k : TokenKind} {t : List Char} {ks : List TokenKind} (h : Writes k t) (h' : HaveForms ks) :
    HaveForms (k :: ks) :=
  List.forall_mem_cons.mpr ⟨⟨t, h⟩, h'⟩

theorem HaveForms.nil : HaveForms [] := by
  simp [HaveForms]

theorem HaveForms.exists_spaced {ks : List TokenKind} (h : HaveForms ks) : ∃ rest, Spaced ks rest := by
  induction ks with
  | nil => exact ⟨[], .nil⟩
  | cons k ks ih =>
    obtain ⟨⟨t, token⟩, hks⟩ := List.forall_mem_cons.mp h
    obtain ⟨rest, more⟩ := ih hks
    exact ⟨_, .cons token (.blank (c := ' ') (by decide) .nil) (by simp) more⟩

theorem Expr.Writable.exists_argument {name : String} {e : Expr} (hname : IsName name) (h : e.Writable) :
    ∃ ks, IsArgument ks (name, e) ∧ HaveForms ks := by
  have hforms : ∀ {k : TokenKind} {t : List Char}, Writes k t → HaveForms [.identifier name, .equals, k] :=
    fun token => .cons (.identifier hname) (.cons .equals (.cons token .nil))
  cases h with
  | string s => exact ⟨_, .named (.string s), hforms (.string (Or.inl rfl) s)⟩
  | integer hpos hmax =>
    obtain ⟨n, rfl⟩ := Int.eq_ofNat_of_zero_le hpos
    exact ⟨_, .named (.number _), hforms (.integer hmax)⟩
  | reference hname => exact ⟨_, .named (.reference _), hforms (.reference hname)⟩

theorem exists_argumentList {as : List (String × Expr)} (h : ∀ a ∈ as, IsName a.1 ∧ a.2.Writable) :
    ∃ ks, IsArgumentList ks as ∧ HaveForms ks := by
  suffices harguments : as ≠ [] → ∃ ks, AreArguments ks as ∧ HaveForms ks by
    by_cases hne : as = []
    · subst hne
      exact ⟨[], .empty, .nil⟩
    · obtain ⟨ks, list, forms⟩ := harguments hne
      exact ⟨ks, .arguments list, forms⟩
  intro hne
  induction as with
  | nil => exact absurd rfl hne
  | cons a as ih =>
    obtain ⟨⟨hname, hvalue⟩, has⟩ := List.forall_mem_cons.mp h
    obtain ⟨ks, first, forms⟩ := hvalue.exists_argument hname
    by_cases hlast : as = []
    · subst hlast
      exact ⟨ks, .one first, forms⟩
    · obtain ⟨ks', rest, forms'⟩ := ih has hlast
      exact ⟨_, .more first rest, forms.append (.cons .comma forms')⟩

theorem Statement.Writable.exists_statement {s : Statement} (h : s.Writable) : ∃ ks, IsStatement ks s ∧ HaveForms ks := by
  obtain ⟨target, tool, args, isAsync⟩ := s
  have hvalues : ∀ name e, args.get? name = some e ↔ Dict.LastEntry args.entries name e :=
    Dict.eq_ofList_iff.mp args.ofList_entries.symm
  obtain ⟨ks, list, forms⟩ := exists_argumentList h.args
  have hplain : HaveForms (.identifier tool :: .openParen :: (ks ++ [.closeParen])) :=
    .cons (.identifier h.tool) (.cons .openParen (forms.append (.cons .closeParen .nil)))
  obtain ⟨ks', call, forms'⟩ : ∃ ks', IsCall ks' ⟨tool, args, isAsync⟩ ∧ HaveForms ks' := by
    cases isAsync with
    | false => exact ⟨_, .plain list hvalues, hplain⟩
    | true => exact ⟨_, .async (.plain list hvalues), .cons .async hplain⟩
  cases target with
  | none => exact ⟨ks', .call call, forms'⟩
  | some name => exact ⟨_, .assignment call, .cons (.reference (h.target name rfl)) (.cons .equals forms')⟩

theorem exists_written {script : List Statement} (h : ∀ s ∈ script, s.Writable) : ∃ text, Written script text := by
  suffices hderives : ∃ ks, Derives ks script ∧ HaveForms ks by
    obtain ⟨ks, derives, forms⟩ := hderives
    obtain ⟨rest, spaced⟩ := forms.exists_spaced
    exact ⟨rest, ks, [], rest, derives, .nil, spaced, rfl⟩
  induction script with
  | nil => exact ⟨[], .nil, .nil⟩
  | cons s script ih =>
    obtain ⟨hs, hscript⟩ := List.forall_mem_cons.mp h
    obtain ⟨ks, first, forms⟩ := hs.exists_statement
    obtain ⟨ks', rest, forms'⟩ := ih hscript
    exact ⟨_, .cons first rest, forms.append forms'⟩

/-- A script of which every part has a written form is written by some text, and read back from every text that
    writes it. -/
theorem read_written {script : List Statement} (h : ∀ s ∈ script, s.Writable) :
    (∃ text, Written script text) ∧ ∀ text, Written script text →
      ∃ tokens, tokenize (String.ofList text) = .ok tokens ∧ parse tokens = .ok script :=
  ⟨exists_written h, fun _ => Written.parse⟩

/-- A script with a target, an asynchronous call, a callback that needs escapes, a number and a variable. -/
def asideScript : List Statement :=
  [{ target := some "r2", call := {
      tool := "fetch_all", isAsync := true,
      args := ⟨[("callback", .literal (.string "it's \"x\"\n\\")), ("n", .literal (.number (.integer 9223372036854775807))),
        ("u", .reference "r1")], by decide⟩ } },
   { target := none, call := { tool := "λ_done", isAsync := false, args := ∅ } }]

theorem asideScript_writable : ∀ s ∈ asideScript, s.Writable := by
  have hfetch : Statement.Writable asideScript[0] := by
    refine ⟨fun name hname => ?_, ⟨⟨'f', "etch_all".toList, rfl, by decide, List.all_eq_true.mp (by decide)⟩, by decide⟩, ?_⟩
    · cases hname
      exact List.all_eq_true.mp (by decide)
    · refine List.forall_mem_cons.mpr ⟨⟨?_, .string _⟩, List.forall_mem_cons.mpr ⟨⟨?_, .integer (by decide) (by decide)⟩,
        List.forall_mem_singleton.mpr ⟨?_, .reference (List.all_eq_true.mp (by decide))⟩⟩⟩
      · exact ⟨⟨'c', "allback".toList, rfl, by decide, List.all_eq_true.mp (by decide)⟩, by decide⟩
      · exact ⟨⟨'n', [], rfl, by decide, List.forall_mem_nil _⟩, by decide⟩
      · exact ⟨⟨'u', [], rfl, by decide, List.forall_mem_nil _⟩, by decide⟩
  have hdone : Statement.Writable asideScript[1] := by
    refine ⟨fun name hname => ?_, ⟨⟨'λ', "_done".toList, rfl, by decide, List.all_eq_true.mp (by decide)⟩, by decide⟩, ?_⟩
    · cases hname
    · exact List.forall_mem_nil _
  exact List.forall_mem_cons.mpr ⟨hfetch, List.forall_mem_singleton.mpr hdone⟩

theorem read_written_asideScript :
    (∀ s ∈ asideScript, s.Writable) ∧ (∃ text, Written asideScript text) ∧ ∀ text, Written asideScript text →
      ∃ tokens, tokenize (String.ofList text) = .ok tokens ∧ parse tokens = .ok asideScript :=
  ⟨asideScript_writable, read_written asideScript_writable⟩

end ToolScript.Script
