import Mathlib.Data.List.TakeWhile
import ToolScript.Proofs.Script.Grammar

/-! # Where a parse fails

    From every place in the grammar some tokens lead to the end of a script, so the tokens that a parser has taken can
    always be gone on with. A parse therefore fails at the first token with which no script begins, and what comes after
    that token does not matter. -/

namespace ToolScript.Script

/-! ### What a list of tokens begins -/

/-- A list of tokens with an end: behind a last token that does not mark one stands a mark with the place of that token. -/
def ended (tokens : List Token) : List Token :=
  match tokens.getLast? with
  | none => [⟨.eof, .start⟩]
  | some last => if last.kind = .eof then tokens else tokens ++ [⟨.eof, last.position⟩]

/-- With some tokens behind them these are a script. -/
def BeginsScript (tokens : List Token) : Prop :=
  ∃ rest script, parse (tokens ++ rest) = .ok script

/-- The kinds of tokens that a message calls expected. -/
def Expected.allows : Expected → TokenKind → Bool
  | .identifier, .identifier _ => true
  | .value, .string _ => true
  | .value, .number _ => true
  | .value, .reference _ => true
  | .equals, .equals => true
  | .openParen, .openParen => true
  | .closeParen, .closeParen => true
  | _, _ => false

theorem BeginsScript.of_append {tokens more : List Token} (h : BeginsScript (tokens ++ more)) : BeginsScript tokens := by
  obtain ⟨rest, script, h⟩ := h
  exact ⟨more ++ rest, script, by rw [← List.append_assoc]; exact h⟩

/-! ### The end of a list -/

section
variable {read rest tokens : List Token} {t : Token}

theorem body_append (hread : ∀ u ∈ read, u.kind ≠ .eof) : body (read ++ rest) = read ++ body rest :=
  List.takeWhile_append_of_pos (by simpa using hread)

theorem body_append_end (hread : ∀ u ∈ read, u.kind ≠ .eof) (ht : t.kind = .eof) : body (read ++ t :: rest) = read := by
  rw [body_append hread, body, List.takeWhile_cons_of_neg (by simpa using ht), List.append_nil]

theorem body_eq_self (hread : ∀ u ∈ read, u.kind ≠ .eof) : body read = read := by
  have happend : body (read ++ []) = read ++ body [] := body_append hread
  rwa [List.append_nil, show body [] = [] from rfl, List.append_nil] at happend

theorem kind_of_mem_body (ht : t ∈ body tokens) : t.kind ≠ .eof := by
  simpa using List.mem_takeWhile_imp ht

theorem endToken_append (hread : ∀ u ∈ read, u.kind ≠ .eof) (ht : t.kind = .eof) : endToken (read ++ t :: rest) = t := by
  have hfind : (read ++ t :: rest).find? (·.kind = .eof) = some t :=
    List.find?_eq_some_iff_append.mpr ⟨by simpa using ht, read, rest, rfl, by simpa using hread⟩
  rw [endToken, hfind]

theorem endToken_kind (tokens : List Token) : (endToken tokens).kind = .eof := by
  unfold endToken
  split
  · rename_i t hfind
    simpa using List.find?_some hfind
  · rfl

/-- The mark at which a parser stops stands behind the tokens before it, and if it was missing it is the last token. -/
theorem exists_ended (tokens : List Token) : ∃ rest, ended tokens = body tokens ++ endToken tokens :: rest := by
  cases hfind : tokens.find? (·.kind = .eof) with
  | none =>
    have hkinds : ∀ u ∈ tokens, u.kind ≠ .eof := by simpa using hfind
    refine ⟨[], ?_⟩
    rw [body_eq_self hkinds, endToken, hfind, ended]
    cases hlast : tokens.getLast? with
    | none => rw [List.getLast?_eq_none_iff.mp hlast]; rfl
    | some last => simp [hkinds last (List.mem_of_getLast? hlast)]
  | some t =>
    obtain ⟨ht, read, rest, rfl, hread⟩ := List.find?_eq_some_iff_append.mp hfind
    have ht : t.kind = .eof := by simpa using ht
    have hread : ∀ u ∈ read, u.kind ≠ .eof := by simpa using hread
    rw [body_append_end hread ht, endToken_append hread ht, ended]
    split
    · rename_i hnone
      simp at hnone
    · split
      · exact ⟨rest, rfl⟩
      · rename_i last _ _
        exact ⟨rest ++ [⟨.eof, last.position⟩], by simp⟩

end

/-! ### The ways on from a place -/

theorem reads_kinds {p : Place} {ks : List TokenKind} {ss : List Statement} (h : Reads p ks ss) : ∀ k ∈ ks, k ≠ .eof := by
  have hmove : ∀ p : Place, p.move? .eof = none := fun p => by cases p <;> rfl
  induction h with
  | nil => simp
  | go move rest ih =>
    refine List.forall_mem_cons.mpr ⟨?_, ih⟩
    rintro rfl
    rw [hmove] at move
    cases move
  | complete move rest ih =>
    refine List.forall_mem_cons.mpr ⟨?_, ih⟩
    rintro rfl
    rw [hmove] at move
    cases move

/-- From every place some tokens lead to the end of a script: first for the places in the arguments, from the last to
    the first, then for those before them. -/
theorem exists_reads (p : Place) : ∃ ks ss, Reads p ks ss := by
  have separator : ∀ h args, Reads (.separator h args) [.closeParen] [h.statement args] := fun h args => .complete rfl .nil
  have value : ∀ h args name, ∃ ks ss, Reads (.value h args name) ks ss := fun h args name =>
    ⟨.string "" :: _, _, .go rfl (separator _ _)⟩
  have equals : ∀ h args name, ∃ ks ss, Reads (.equals h args name) ks ss := fun h args name => by
    obtain ⟨ks, ss, hr⟩ := value h args name
    exact ⟨.equals :: ks, ss, .go rfl hr⟩
  have openParen : ∀ h, Reads (.openParen h) [.openParen, .closeParen] [h.statement .empty] := fun h =>
    .go rfl (.complete rfl .nil)
  have tool : ∀ target, ∃ ks ss, Reads (.tool target) ks ss := fun target =>
    ⟨.identifier "" :: _, _, .go rfl (openParen _)⟩
  have call : ∀ target, ∃ ks ss, Reads (.call target) ks ss := fun target =>
    ⟨.identifier "" :: _, _, .go rfl (openParen _)⟩
  cases p with
  | statement => exact ⟨[], [], .nil⟩
  | assignment target =>
    obtain ⟨ks, ss, hr⟩ := call (some target)
    exact ⟨.equals :: ks, ss, .go rfl hr⟩
  | call target => exact call target
  | tool target => exact tool target
  | openParen h => exact ⟨_, _, openParen h⟩
  | firstArgument h => exact ⟨[.closeParen], _, .complete rfl .nil⟩
  | argument h args =>
    obtain ⟨ks, ss, hr⟩ := equals h args ""
    exact ⟨.identifier "" :: ks, ss, .go rfl hr⟩
  | equals h args name => exact equals h args name
  | value h args name => exact value h args name
  | separator h args => exact ⟨_, _, separator h args⟩

/-- What a message at a place calls expected can be taken there. -/
theorem exists_move_of_allows {p : Place} {kind : TokenKind} (h : p.expected.allows kind = true) : ∃ m, p.move? kind = some m := by
  cases p <;> cases kind <;> simp_all [Place.expected, Expected.allows, TokenKind.expr?]

/-! ### Where the parser stops -/

/-- A run that fails does so at one element, having come to a state with the elements before it. -/
theorem exists_of_foldlM_eq_error {ε σ α : Type} {f : σ → α → Except ε σ} {l : List α} {s : σ} {e : ε}
    (h : l.foldlM f s = .error e) :
    ∃ before x after s', l = before ++ x :: after ∧ before.foldlM f s = .ok s' ∧ f s' x = .error e := by
  induction l generalizing s with
  | nil => cases h
  | cons y l ih =>
    rw [List.foldlM_cons] at h
    cases hy : f s y with
    | error e' =>
      rw [hy] at h
      cases h
      exact ⟨[], y, l, s, rfl, rfl, hy⟩
    | ok s₁ =>
      rw [hy] at h
      obtain ⟨before, x, after, s', rfl, hbefore, hx⟩ := ih h
      refine ⟨y :: before, x, after, s', rfl, ?_, hx⟩
      rw [List.foldlM_cons, hy]
      exact hbefore

/-- The parser has taken tokens and is at a place where it does not take the next one. -/
structure Refuses (read : List Token) (t : Token) (p : Parser) : Prop where
  taken : read.foldlM Parser.step .initial = .ok p
  kinds : ∀ u ∈ read, u.kind ≠ .eof
  move : p.place.move? t.kind = none
  place : t.kind = .eof → p.place ≠ .statement

theorem Parser.step_eq_error_iff {p : Parser} {t : Token} {e : ParseError} :
    p.step t = .error e ↔ p.place.move? t.kind = none ∧ e = ⟨p.place.expected, t⟩ := by
  unfold Parser.step
  cases p.place.move? t.kind with
  | none => simp [eq_comm]
  | some m => cases m <;> simp

theorem Parser.finish_eq_error_iff {p : Parser} {t : Token} {e : ParseError} :
    p.finish t = .error e ↔ p.place ≠ .statement ∧ e = ⟨p.place.expected, t⟩ := by
  unfold Parser.finish
  split <;> simp_all [eq_comm]

theorem exists_refuses {tokens : List Token} {e : ParseError} (h : parse tokens = .error e) :
    ∃ read t rest p, ended tokens = read ++ t :: rest ∧ Refuses read t p ∧ e = ⟨p.place.expected, t⟩ := by
  obtain ⟨rest, hended⟩ := exists_ended tokens
  cases hfold : (body tokens).foldlM Parser.step .initial with
  | error e' =>
    obtain ⟨read, t, after, p, hbody, htaken, hstep⟩ := exists_of_foldlM_eq_error hfold
    have hkinds : ∀ u ∈ read ++ t :: after, u.kind ≠ .eof := fun u hu => kind_of_mem_body (hbody ▸ hu)
    obtain ⟨hmove, rfl⟩ := Parser.step_eq_error_iff.mp hstep
    refine ⟨read, t, after ++ endToken tokens :: rest, p, by rw [hended, hbody]; simp, ⟨htaken, ?_, hmove, ?_⟩, ?_⟩
    · exact fun u hu => hkinds u (List.mem_append_left _ hu)
    · exact fun ht => absurd ht (hkinds t (by simp))
    · rw [parse, hfold] at h
      exact (Except.error.inj h).symm
  | ok p =>
    have hfinish : p.finish (endToken tokens) = .error e := by
      rw [parse, hfold] at h
      exact h
    obtain ⟨hplace, rfl⟩ := Parser.finish_eq_error_iff.mp hfinish
    refine ⟨body tokens, endToken tokens, rest, p, hended, ⟨hfold, fun u => kind_of_mem_body, ?_, fun _ => hplace⟩, rfl⟩
    rw [endToken_kind]
    cases p.place <;> rfl

namespace Refuses
variable {read : List Token} {t : Token} {p : Parser}

theorem parse_eq_error (h : Refuses read t p) (rest : List Token) :
    parse (read ++ t :: rest) = .error ⟨p.place.expected, t⟩ := by
  by_cases ht : t.kind = .eof
  · rw [parse, body_append_end h.kinds ht, h.taken, endToken_append h.kinds ht]
    exact Parser.finish_eq_error_iff.mpr ⟨h.place ht, rfl⟩
  · have hbody : body (read ++ t :: rest) = read ++ t :: body rest := by
      rw [body_append h.kinds, body, List.takeWhile_cons_of_pos (by simpa using ht), body]
    have hstep : p.step t = .error ⟨p.place.expected, t⟩ := Parser.step_eq_error_iff.mpr ⟨h.move, rfl⟩
    rw [parse, hbody, List.foldlM_append, h.taken]
    show ((p.step t).bind _).bind _ = _
    rw [hstep]
    rfl

theorem not_beginsScript (h : Refuses read t p) (more : List Token) : ¬BeginsScript (read ++ t :: more) := by
  rintro ⟨rest, script, hparse⟩
  rw [List.append_assoc, List.cons_append, h.parse_eq_error] at hparse
  cases hparse

end Refuses

/-- What the parser takes begins a script. -/
theorem beginsScript_of_taken {read : List Token} {p : Parser} (htaken : read.foldlM Parser.step .initial = .ok p)
    (hkinds : ∀ u ∈ read, u.kind ≠ .eof) : BeginsScript read := by
  obtain ⟨ks, ss, hr⟩ := exists_reads p.place
  let rest : List Token := ks.map (⟨·, .start⟩)
  have hrest : rest.map (·.kind) = ks := by simp [rest, Function.comp_def]
  have hall : ∀ u ∈ read ++ rest, u.kind ≠ .eof := by
    intro u hu
    rcases List.mem_append.mp hu with hu | hu
    · exact hkinds u hu
    · exact reads_kinds hr _ (hrest ▸ List.mem_map_of_mem hu)
  refine ⟨rest, p.statements.reverse ++ ss, ?_⟩
  rw [parse, body_eq_self hall, List.foldlM_append, htaken]
  exact foldlM_step_eq_ok_iff.mpr ⟨ss, hrest.symm ▸ hr, rfl⟩

/-- Also with a token that its place takes. -/
theorem Refuses.beginsScript_expected {read : List Token} {t u : Token} {p : Parser} (h : Refuses read t p)
    (hu : p.place.expected.allows u.kind = true) : BeginsScript (read ++ [u]) := by
  obtain ⟨m, hm⟩ := exists_move_of_allows hu
  obtain ⟨q, hq⟩ : ∃ q, p.step u = .ok q := by
    unfold Parser.step
    rw [hm]
    cases m <;> exact ⟨_, rfl⟩
  have hkind : u.kind ≠ .eof := by
    intro heof
    rw [heof] at hm
    cases hplace : p.place <;> rw [hplace] at hm <;> cases hm
  refine beginsScript_of_taken (p := q) ?_ ?_
  · rw [List.foldlM_append, h.taken]
    show (p.step u).bind _ = _
    rw [hq]
    rfl
  · intro v hv
    rcases List.mem_append.mp hv with hv | hv
    · exact h.kinds v hv
    · rw [List.mem_singleton.mp hv]
      exact hkind

/-! ### The first wrong token -/

/-- What a message calls the tokens of a kind. -/
inductive Called : TokenKind → String → Prop
  | identifier (name : String) : Called (.identifier name) "identifier"
  | reference (name : String) : Called (.reference name) "variable"
  | string (value : String) : Called (.string value) "string"
  | number (n : Number) : Called (.number n) "number"
  | equals : Called .equals "`=`"
  | openParen : Called .openParen "`(`"
  | closeParen : Called .closeParen "`)`"
  | comma : Called .comma "`,`"
  | async : Called .async "`async`"
  | eof : Called .eof "end of input"

/-- What a message asks for. -/
inductive Asked : Expected → String → Prop
  | identifier : Asked .identifier "identifier"
  | value : Asked .value "value"
  | equals : Asked .equals "`=`"
  | openParen : Asked .openParen "`(`"
  | closeParen : Asked .closeParen "`)`"

theorem called_describe (kind : TokenKind) : Called kind kind.describe := by
  cases kind <;> constructor

theorem asked_describe (expected : Expected) : Asked expected expected.describe := by
  cases expected <;> constructor

/-- An error is about the token `t` at the place `k`: with the tokens before it a script begins, and with this one none
    does, whatever comes after it. -/
structure FirstWrong (tokens : List Token) (e : ParseError) (k : Nat) (t : Token) : Prop where
  token : (ended tokens)[k]? = some t
  position : e.position = t.position
  message : ∃ wanted found, Asked e.expected wanted ∧ Called t.kind found ∧
    e.message = "expected " ++ wanted ++ ", found " ++ found
  begins : ∀ j, BeginsScript ((ended tokens).take j) ↔ j ≤ k
  /-- The error is the same before any other tokens. -/
  behind : ∀ rest, parse ((ended tokens).take (k + 1) ++ rest) = .error e
  /-- What the error says was expected could stand there. -/
  expected : ∀ u, e.expected.allows u.kind = true → BeginsScript ((ended tokens).take k ++ [u])
  /-- A missing end is taken to stand where the last token does. -/
  missing : ∀ last ∈ tokens.getLast?, k = tokens.length → t = ⟨.eof, last.position⟩

/-- A parse that fails does so at the first wrong token. -/
theorem parse_error_at_first_wrong {tokens : List Token} {e : ParseError} (h : parse tokens = .error e) :
    ∃ k t, FirstWrong tokens e k t := by
  obtain ⟨read, t, rest, p, hended, hrefuses, rfl⟩ := exists_refuses h
  have hbehind : ∀ i, (ended tokens).take (read.length + (i + 1)) = read ++ t :: rest.take i := fun i => by
    rw [hended, List.take_length_add_append, List.take_succ_cons]
  refine ⟨read.length, t, by rw [hended]; simp, rfl, ⟨_, _, asked_describe _, called_describe _, rfl⟩,
    fun j => ⟨fun hj => ?_, fun hj => ?_⟩, fun after => ?_, fun u hu => ?_, fun last hlast hk => ?_⟩
  · by_contra hlt
    obtain ⟨i, rfl⟩ : ∃ i, j = read.length + (i + 1) := ⟨j - read.length - 1, by omega⟩
    rw [hbehind] at hj
    exact hrefuses.not_beginsScript _ hj
  · have htaken := beginsScript_of_taken hrefuses.taken hrefuses.kinds
    rw [← List.take_append_drop j read] at htaken
    rw [hended, List.take_append_of_le_length hj]
    exact htaken.of_append
  · rw [hbehind 0, List.append_assoc]
    exact hrefuses.parse_eq_error after
  · rw [hended, List.take_left]
    exact hrefuses.beginsScript_expected hu
  · have hget : (ended tokens)[tokens.length]? = some t := by rw [← hk, hended]; simp
    rw [ended, Option.mem_def.mp hlast] at hget
    by_cases hkind : last.kind = .eof
    · simp [hkind] at hget
    · simpa [hkind, eq_comm] using hget

/-- The tokens of a call without its closing bracket and without an end. -/
def openCall : List Token :=
  [⟨.identifier "echo", ⟨1, 1⟩⟩, ⟨.openParen, ⟨1, 5⟩⟩, ⟨.identifier "v", ⟨2, 3⟩⟩, ⟨.equals, ⟨2, 4⟩⟩, ⟨.reference "a", ⟨2, 5⟩⟩]

theorem parse_error_at_first_wrong_openCall : parse openCall = .error ⟨.closeParen, ⟨.eof, ⟨2, 5⟩⟩⟩ ∧
    ∃ k t, FirstWrong openCall ⟨.closeParen, ⟨.eof, ⟨2, 5⟩⟩⟩ k t :=
  ⟨rfl, parse_error_at_first_wrong rfl⟩

end ToolScript.Script
