import Mathlib.Data.List.DropRight
import ToolScript.Proofs.Script.Partition
import ToolScript.Proofs.Script.Refusal
import ToolScript.Script.Diagnostic

/-! # Where a diagnostic points

    An error in a source is about a character of it, or about its end (`Offends`). The diagnostic shows the line with the
    place of the error, and the caret stands under that character, or where the next character of the source would stand
    (`PointsAt`). -/

namespace ToolScript.Script
open Text

/-! ### Lines -/

theorem length_splitOn (s : List Char) : (s.splitOn '\n').length = s.count '\n' + 1 := by
  induction s with
  | nil => rfl
  | cons c s ih =>
    rw [List.splitOn_cons_eq_if_modifyHead, List.count_cons]
    split
    · rw [List.length_cons, ih]
    · rw [List.length_modifyHead, ih]

/-- The line of a source that reaches over the boundary between two parts of it. -/
def lineAround (before rest : List Char) : List Char :=
  before.rtakeWhile (· != '\n') ++ rest.takeWhile (· != '\n')

theorem newline_not_mem_lineAround (before rest : List Char) : '\n' ∉ lineAround before rest := by
  intro hmem
  rcases List.mem_append.mp hmem with hmem | hmem
  · exact absurd (List.mem_rtakeWhile_imp hmem) (by decide)
  · exact absurd (List.mem_takeWhile_imp hmem) (by decide)

/-- What stands before the line around a boundary ends with a newline, if it is anything. -/
theorem rdropWhile_cases (before : List Char) : before.rdropWhile (· != '\n') = [] ∨
    ∃ front, before.rdropWhile (· != '\n') = front ++ ['\n'] := by
  rcases List.eq_nil_or_concat' (before.rdropWhile (· != '\n')) with h | ⟨front, c, h⟩
  · exact Or.inl h
  · have hlast := List.rdropWhile_last_not (· != '\n') before (by simp [h])
    have hc : c = '\n' := by simpa [h] using hlast
    exact Or.inr ⟨front, by rw [h, hc]⟩

theorem dropWhile_cases (rest : List Char) : rest.dropWhile (· != '\n') = [] ∨
    ∃ back, rest.dropWhile (· != '\n') = '\n' :: back := by
  cases h : rest.dropWhile (· != '\n') with
  | nil => exact Or.inl rfl
  | cons c back =>
    have hc := List.head?_dropWhile_not (· != '\n') rest
    rw [h] at hc
    exact Or.inr ⟨back, by simpa using hc⟩

theorem getElem?_splitOn (before rest : List Char) :
    ((before ++ rest).splitOn '\n')[before.count '\n']? = some (lineAround before rest) := by
  have hline : ∃ lines, (lineAround before rest ++ rest.dropWhile (· != '\n')).splitOn '\n' = lineAround before rest :: lines := by
    rcases dropWhile_cases rest with h | ⟨back, h⟩
    · rw [h, List.append_nil]
      exact ⟨[], List.splitOn_eq_singleton (newline_not_mem_lineAround before rest)⟩
    · rw [h]
      exact ⟨_, List.splitOn_append_cons_self_of_not_mem (newline_not_mem_lineAround before rest) back⟩
  obtain ⟨lines, hline⟩ := hline
  have hsource : before ++ rest = before.rdropWhile (· != '\n') ++ (lineAround before rest ++ rest.dropWhile (· != '\n')) := by
    rw [lineAround, List.append_assoc, List.takeWhile_append_dropWhile, ← List.append_assoc, List.rdropWhile_append_rtakeWhile]
  have hcount := congrArg (List.count '\n') (List.rdropWhile_append_rtakeWhile (p := (· != '\n')) (l := before))
  have hzero : (before.rtakeWhile (· != '\n')).count '\n' = 0 :=
    List.count_eq_zero.mpr fun h => newline_not_mem_lineAround before [] (List.mem_append_left _ h)
  rw [List.count_append, hzero, Nat.add_zero] at hcount
  rw [hsource, ← hcount]
  rcases rdropWhile_cases before with h | ⟨front, h⟩
  · rw [h, List.nil_append, hline]
    rfl
  · have hindex : front.count '\n' + ['\n'].count '\n' = (front.splitOn '\n').length := by
      rw [length_splitOn]
      rfl
    rw [h, List.append_assoc, List.singleton_append, List.splitOn_append_cons_self, hline, List.count_append, hindex,
      List.getElem?_append_right (Nat.le_refl _), Nat.sub_self]
    rfl

theorem getElem?_lineAround {before rest : List Char} (h : rest.head? ≠ some '\n') :
    (lineAround before rest)[(before.rtakeWhile (· != '\n')).length]? = rest.head? := by
  rw [lineAround, List.getElem?_append_right (Nat.le_refl _), Nat.sub_self]
  cases rest with
  | nil => rfl
  | cons c rest =>
    have hc : c ≠ '\n' := fun hc => h (congrArg some hc)
    rw [List.takeWhile_cons_of_pos (by simpa using hc)]
    rfl

theorem column_place (before : List Char) : (place before).column = 1 + (before.rtakeWhile (· != '\n')).length := by
  rw [place, List.rtakeWhile, List.length_reverse]

/-! ### The characters that errors are about -/

def ScriptError.position? : ScriptError → Option Position
  | .lex e => some e.position
  | .parse e => some e.position
  | .run _ => none

/-- An error in a source is about the character `first`, or about the end of the source if there is none, and the source
    up to there is `before`. -/
inductive Offends (source : List Char) : ScriptError → (before : List Char) → (first : Option Char) → Prop
  /-- The first character of a lexeme that cannot be completed. -/
  | lexeme {pieces : List Piece} {gap bad : List Char} {fault : LexFault} {c : Char}
      (h : Breaks source pieces gap fault (c :: bad)) :
      Offends source (.lex ⟨fault, place (written pieces ++ gap)⟩) (written pieces ++ gap) (some c)
  /-- The first character of the lexeme of a token with which no script goes on. -/
  | token {pieces more : List Piece} {piece : Piece} {last lexeme : List Char} {c : Char} {expected : Expected}
      (h : Divides source (pieces ++ piece :: more) last) (hlexeme : piece.lexeme = c :: lexeme)
      (hbegins : BeginsScript (pieces.map (·.token))) (hnone : ¬BeginsScript (pieces.map (·.token) ++ [piece.token])) :
      Offends source (.parse ⟨expected, piece.token⟩) (written pieces ++ piece.gap) (some c)
  /-- The tokens begin a script and are none. -/
  | ending {pieces : List Piece} {last : List Char} {expected : Expected} (h : Divides source pieces last)
      (hbegins : BeginsScript (pieces.map (·.token))) (hnone : ∀ script, parse (tokensOf pieces last) ≠ .ok script) :
      Offends source (.parse ⟨expected, ⟨.eof, place source⟩⟩) source none

theorem Broken.outside {fault : LexFault} {s : List Char} (h : Broken fault s) : Outside s := by
  cases h with
  | unexpected hplain hdigit hstart =>
    rintro c ⟨⟩
    exact ⟨hplain.blank, hplain.comment⟩
  | unterminated hquote h =>
    rintro c ⟨⟩
    rcases hquote with rfl | rfl
    · decide
    · decide
  | malformedNumber hc hrow hend hpoints =>
    rintro c ⟨⟩
    have hplain := plain_of_isWordChar (isWordChar_of_isDigit hc)
    exact ⟨hplain.blank, hplain.comment⟩

theorem Broken.ne_nil {fault : LexFault} {s : List Char} (h : Broken fault s) : s ≠ [] := by
  cases h <;> simp

/-- A piece among others: its lexeme and its place. -/
theorem Splits.piece {before s rest : List Char} {pieces more : List Piece} {piece : Piece}
    (h : Splits before s (pieces ++ piece :: more) rest) :
    Lexeme piece.token.kind piece.lexeme ∧ piece.token.position = place (before ++ (written pieces ++ piece.gap)) := by
  induction pieces generalizing before s with
  | nil =>
    cases h with
    | cons hgap hlexeme hend h => exact ⟨hlexeme, rfl⟩
  | cons first pieces ih =>
    cases h with
    | cons hgap hlexeme hend h =>
      have := ih h
      simpa [written] using this

/-- The token at which the parser stops is that of a piece or the mark of the end. -/
theorem tokensOf_eq_append {pieces : List Piece} {last : List Char} {taken rest : List Token} {t : Token}
    (h : tokensOf pieces last = taken ++ t :: rest) :
    (taken = pieces.map (·.token) ∧ t = ⟨.eof, place (written pieces ++ last)⟩) ∨
      ∃ front piece more, pieces = front ++ piece :: more ∧ taken = front.map (·.token) ∧ t = piece.token := by
  rcases List.append_eq_append_iff.mp h with ⟨between, rfl, hlast⟩ | ⟨between, hpieces, hrest⟩
  · cases between with
    | nil => exact Or.inl ⟨by simp, (List.cons.inj hlast).1.symm⟩
    | cons u between => simp at hlast
  · cases between with
    | nil => exact Or.inl ⟨by simpa using hpieces.symm, (List.cons.inj hrest).1⟩
    | cons u between =>
      obtain ⟨rfl, -⟩ := List.cons.inj hrest
      obtain ⟨front, behind, rfl, rfl, hbehind⟩ := List.map_eq_append_iff.mp hpieces
      obtain ⟨piece, more, rfl, rfl, rfl⟩ := List.map_eq_cons_iff.mp hbehind
      exact Or.inr ⟨front, piece, more, rfl, rfl, rfl⟩

theorem ended_tokensOf (pieces : List Piece) (last : List Char) : ended (tokensOf pieces last) = tokensOf pieces last := by
  simp [ended, tokensOf]

theorem exists_offends {source : String} {e : ScriptError} (h : read source = .error e) :
    ∃ before rest, source.toList = before ++ rest ∧ Outside rest ∧ Offends source.toList e before rest.head? ∧
      e.position? = some (place before) := by
  rcases divides_or_breaks source.toList with ⟨pieces, last, hdivides⟩ | ⟨pieces, gap, fault, bad, hbreaks⟩
  · rw [read, tokenize_of_splits hdivides.splits hdivides.last] at h
    cases hparse : parse (tokensOf pieces last) with
    | ok script =>
      simp only [hparse, reduceCtorEq] at h
    | error e' =>
      simp only [hparse] at h
      cases h
      obtain ⟨taken, t, rest, p, hended, hrefuses, rfl⟩ := exists_refuses hparse
      rw [ended_tokensOf] at hended
      have hbegins := beginsScript_of_taken hrefuses.taken hrefuses.kinds
      rcases tokensOf_eq_append hended with ⟨rfl, rfl⟩ | ⟨front, piece, more, rfl, rfl, rfl⟩
      · have hsource : written pieces ++ last = source.toList := hdivides.splits.eq_append.symm
        refine ⟨source.toList, [], (List.append_nil _).symm, fun c hc => (by cases hc), ?_, by rw [hsource]; rfl⟩
        rw [hsource]
        exact .ending hdivides hbegins fun script hscript => by simp [hscript] at hparse
      · obtain ⟨hlexeme, hposition⟩ := hdivides.splits.piece
        obtain ⟨c, lexeme, hc⟩ := List.exists_cons_of_ne_nil hlexeme.ne_nil
        refine ⟨written front ++ piece.gap, piece.lexeme ++ (written more ++ last), ?_, hlexeme.outside _, ?_, congrArg some hposition⟩
        · rw [hdivides.splits.eq_append]
          simp [written]
        · rw [hc]
          exact .token hdivides hc hbegins (hrefuses.not_beginsScript [])
  · rw [read, tokenize_of_broken hbreaks.splits hbreaks.gap hbreaks.broken] at h
    cases h
    obtain ⟨c, bad, rfl⟩ := List.exists_cons_of_ne_nil hbreaks.broken.ne_nil
    refine ⟨written pieces ++ gap, c :: bad, ?_, hbreaks.broken.outside, .lexeme hbreaks, rfl⟩
    rw [hbreaks.splits.eq_append, List.append_assoc]

/-- The errors of a run that have a position are those of reading. -/
theorem read_of_execute {σ : Type} {exec : Executor σ} {limits : ScopeLimits} {state : σ} {source : String}
    {e : ScriptError} {p : Position} (h : (execute exec limits state source).1 = .error e) (hp : e.position? = some p) :
    read source = .error e := by
  rw [execute] at h
  cases hread : read source with
  | error e' =>
    rw [hread] at h
    cases h
    rfl
  | ok script =>
    simp only [hread] at h
    cases hresult : (run exec limits state script).result with
    | ok v =>
      rw [hresult] at h
      cases h
    | error e' =>
      rw [hresult] at h
      cases h
      cases hp

/-! ### What is shown -/

/-- What a line of the source is shown behind. -/
def gutter (line : Nat) : String :=
  "  " ++ toString line ++ " | "

/-- The diagnostic of an error shows the line with its place, without carriage returns at the end, and a caret. In that
    line and above the caret stands the character that the error is about; if there is none, the caret stands behind the
    end of the last line. -/
structure PointsAt (source : String) (e : ScriptError) (p : Position) (row shown : List Char) (first : Option Char) :
    Prop where
  line_pos : 0 < p.line
  line_eq : (source.toList.splitOn '\n')[p.line - 1]? = some row
  column_pos : 0 < p.column
  column_eq : row[p.column - 1]? = first
  past : first = none → p.line = (source.toList.splitOn '\n').length ∧ p.column = row.length + 1
  trimmed : ∃ n, row = shown ++ List.replicate n '\r'
  getLast_ne : shown.getLast? ≠ some '\r'
  render_eq : e.render source = "NIT " ++ e.text ++ "\n" ++ (gutter p.line ++ String.ofList shown) ++ "\n" ++
    (String.ofList (List.replicate ((gutter p.line).length + (p.column - 1)) ' ') ++ "^")
  caret : (gutter p.line ++ String.ofList shown).toList[(gutter p.line).length + (p.column - 1)]? = first

theorem render_of_sourceLine {source : String} {e : ScriptError} {p : Position} {shown : String} (hp : e.position? = some p)
    (hline : sourceLine? source p.line = some shown) :
    e.render source = "NIT " ++ e.text ++ "\n" ++ (gutter p.line ++ shown) ++ "\n" ++
      (String.ofList (List.replicate ((gutter p.line).length + (p.column - 1)) ' ') ++ "^") := by
  cases e with
  | lex e =>
    cases hp
    simp only [ScriptError.render, LexError.render, diagnostic, Option.bind_some, hline]
    simp [ScriptError.text, LexError.text, gutter, String.append_assoc]
  | parse e =>
    cases hp
    simp only [ScriptError.render, ParseError.render, diagnostic, Option.bind_some, hline]
    simp [ScriptError.text, ParseError.text, gutter, String.append_assoc]
  | run e => cases hp

theorem exists_trimmed (row : List Char) : ∃ n, row = row.rdropWhile (· == '\r') ++ List.replicate n '\r' := by
  refine ⟨(row.rtakeWhile (· == '\r')).length, ?_⟩
  have hreturns : ∀ c ∈ row.rtakeWhile (· == '\r'), c = '\r' := fun c hc => by simpa using List.mem_rtakeWhile_imp hc
  rw [← List.eq_replicate_of_mem hreturns, List.rdropWhile_append_rtakeWhile]

theorem getLast?_trimmed (row : List Char) : (row.rdropWhile (· == '\r')).getLast? ≠ some '\r' := by
  intro h
  have hne : row.rdropWhile (· == '\r') ≠ [] := by
    rintro hnil
    simp [hnil] at h
  have hlast := List.rdropWhile_last_not (· == '\r') row hne
  rw [List.getLast?_eq_some_getLast hne] at h
  exact hlast (by simpa using h)

/-- Without the carriage returns at its end a line has the same characters, but for those. -/
theorem getElem?_trimmed {row shown : List Char} {n i : Nat} (htrimmed : row = shown ++ List.replicate n '\r')
    (h : row[i]? ≠ some '\r') : shown[i]? = row[i]? := by
  subst htrimmed
  by_cases hi : i < shown.length
  · rw [List.getElem?_append_left hi]
  · have hi : shown.length ≤ i := by omega
    rw [List.getElem?_append_right hi, List.getElem?_replicate] at h ⊢
    split at h
    · exact absurd rfl h
    · rename_i hn
      rw [if_neg hn, List.getElem?_eq_none hi]

theorem sourceLine?_place (before rest : List Char) :
    sourceLine? (String.ofList (before ++ rest)) (place before).line =
      some (String.ofList ((lineAround before rest).rdropWhile (· == '\r'))) := by
  rw [sourceLine?, if_neg (by simp [place]), String.toList_ofList, place, Nat.add_sub_cancel_left, getElem?_splitOn]
  rfl

/-- An error of reading a source has a place in it, at the first character of what it is about or at the end, and is shown
    with its line and a caret there. -/
theorem execute_points_at {σ : Type} (exec : Executor σ) (limits : ScopeLimits) (state : σ) (source : String)
    {e : ScriptError} {p : Position} (h : (execute exec limits state source).1 = .error e) (hp : e.position? = some p) :
    ∃ before first row shown, Offends source.toList e before first ∧ p = place before ∧
      PointsAt source e p row shown first := by
  obtain ⟨before, rest, hsource, houtside, hoffends, hposition⟩ := exists_offends (read_of_execute h hp)
  obtain rfl : p = place before := Option.some.inj (hp.symm.trans hposition)
  obtain ⟨n, htrimmed⟩ := exists_trimmed (lineAround before rest)
  have hblank : ∀ c, isBlank c = true → rest.head? ≠ some c := fun c hc hfirst => by
    rw [(houtside c hfirst).1] at hc
    cases hc
  have hcolumn : (lineAround before rest)[(place before).column - 1]? = rest.head? := by
    rw [column_place, Nat.add_sub_cancel_left]
    exact getElem?_lineAround (hblank '\n' (by decide))
  have hshown : ((lineAround before rest).rdropWhile (· == '\r'))[(place before).column - 1]? = rest.head? := by
    rw [getElem?_trimmed htrimmed (by rw [hcolumn]; exact hblank '\r' (by decide)), hcolumn]
  have hline : sourceLine? source (place before).line = some (String.ofList ((lineAround before rest).rdropWhile (· == '\r'))) := by
    rw [← sourceLine?_place, ← hsource, String.ofList_toList]
  refine ⟨before, rest.head?, lineAround before rest, (lineAround before rest).rdropWhile (· == '\r'), hoffends, rfl,
    ⟨by simp [place], ?_, by simp [place], hcolumn, fun hend => ?_, ⟨n, htrimmed⟩, getLast?_trimmed _,
      render_of_sourceLine hp hline, ?_⟩⟩
  · rw [place, Nat.add_sub_cancel_left, hsource]
    exact getElem?_splitOn before rest
  · obtain rfl : rest = [] := List.head?_eq_none_iff.mp hend
    rw [column_place, hsource, List.append_nil, length_splitOn, place, lineAround, List.takeWhile_nil, List.append_nil]
    exact ⟨Nat.add_comm _ _, Nat.add_comm _ _⟩
  · rw [String.toList_append, String.toList_ofList, ← String.length_toList,
      List.getElem?_append_right (Nat.le_add_right _ _), Nat.add_sub_cancel_left]
    exact hshown

/-- A name after a string over two lines, where an argument list should go on; a carriage return ends the source. -/
def strayName : String :=
  "a(x='b\nc' d)\r"

def strayNameError : ScriptError :=
  .parse ⟨.closeParen, ⟨.identifier "d", ⟨2, 4⟩⟩⟩

theorem execute_points_at_strayName :
    (execute (fun _ _ (calls : Nat) => (.ok .null, calls + 1)) .default 0 strayName).1 = .error strayNameError ∧
      strayNameError.position? = some ⟨2, 4⟩ ∧
      ∃ before first row shown, Offends strayName.toList strayNameError before first ∧ ⟨2, 4⟩ = place before ∧
        PointsAt strayName strayNameError ⟨2, 4⟩ row shown first :=
  ⟨rfl, rfl, execute_points_at (fun _ _ (calls : Nat) => (.ok .null, calls + 1)) .default 0 strayName rfl rfl⟩

end ToolScript.Script
