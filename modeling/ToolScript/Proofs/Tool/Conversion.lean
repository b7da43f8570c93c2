import ToolScript.Proofs.Json.Opening
import ToolScript.Proofs.Number.Digits
import ToolScript.Proofs.Number.Rounding
import ToolScript.Proofs.Text.Classes
import ToolScript.Proofs.Text.Removal
import ToolScript.Tool.Coerce

/-! # Texts brought to a type

    The text of an integer may have a pair of quotes around it and blanks around the quotes. It becomes the integer that
    it writes, or the end of the 64-bit range next to that one, unless the integer is too large for any number; then
    it stays a text, as it does with blanks inside the quotes. Words between commas become the array of these words. -/

namespace ToolScript.Coerce
open Text

/-! ### Quotes -/

/-- A text between two quotes of one kind. -/
def InQuotes (inside s : List Char) : Prop :=
  ∃ q, isQuote q = true ∧ s = q :: (inside ++ [q])

section
variable {inside s : List Char}

theorem isBlank_of_isQuote {q : Char} (h : isQuote q = true) : isBlank q = false := by
  rcases (by simpa [isQuote] using h : q = '"' ∨ q = '\'') with rfl | rfl <;> decide

theorem InQuotes.ends (h : InQuotes inside s) : ∃ q, isQuote q = true ∧ s.head? = some q ∧ s.getLast? = some q := by
  obtain ⟨q, hq, rfl⟩ := h
  exact ⟨q, hq, rfl, by rw [← List.cons_append, List.getLast?_concat]⟩

theorem InQuotes.trimmed (h : InQuotes inside s) : Trimmed s := by
  obtain ⟨q, hq, hhead, hlast⟩ := h.ends
  exact ⟨⟨q, hhead, isBlank_of_isQuote hq⟩, ⟨q, hlast, isBlank_of_isQuote hq⟩⟩

theorem unquoted_of_inQuotes (h : InQuotes inside s) : unquoted s = inside := by
  obtain ⟨q, hq, rfl⟩ := h
  cases inside with
  | nil => simp [unquoted, hq]
  | cons c inside =>
    have hlast : (c :: (inside ++ [q])).getLast? = some q := by rw [← List.cons_append, List.getLast?_concat]
    have hinit : (c :: (inside ++ [q])).dropLast = c :: inside := by rw [← List.cons_append, List.dropLast_concat]
    rw [List.cons_append, unquoted, hlast, hinit]
    simp [hq]

theorem unquoted_eq_self (h : ∀ inside, ¬InQuotes inside s) : unquoted s = s := by
  unfold unquoted
  split
  · rename_i c d rest
    split
    · rename_i hquotes
      simp only [Bool.and_eq_true, beq_iff_eq] at hquotes
      obtain ⟨inside, hinside⟩ := List.getLast?_eq_some_iff.mp hquotes.2
      exact absurd ⟨c, hquotes.1, by rw [hinside]⟩ (h inside)
    · rfl
  · rfl

end

/-! ### Integers -/

section
variable {core : List Char} {n : Int}

theorem chars_of_writesInt (h : WritesInt core n) : ∀ c ∈ core, isBlank c = false ∧ isQuote c = false := by
  have hdigit : ∀ c : Char, c.isDigit = true → isBlank c = false ∧ isQuote c = false := by
    intro c hc
    have hlt : c.toNat < 128 := toNat_lt_of_isAlphanum (by simp [Char.isAlphanum, hc])
    exact forall_ascii (P := fun c => c.isDigit = true → isBlank c = false ∧ isQuote c = false) (by decide +kernel) hlt hc
  cases h with
  | unsigned ne digits => exact fun c hc => hdigit c (digits c hc)
  | plus ne digits | minus ne digits =>
    exact List.forall_mem_cons.mpr ⟨by decide, fun c hc => hdigit c (digits c hc)⟩

theorem trimmed_of_writesInt (h : WritesInt core n) : Trimmed core := by
  obtain ⟨d, hd, -⟩ := h.exists_digit
  have hne : core ≠ [] := List.ne_nil_of_mem hd
  exact ⟨⟨core.head hne, List.head?_eq_some_head hne, (chars_of_writesInt h _ (List.head_mem hne)).1⟩,
    ⟨core.getLast hne, List.getLast?_eq_some_getLast hne, (chars_of_writesInt h _ (List.getLast_mem hne)).1⟩⟩

theorem not_inQuotes_of_writesInt (h : WritesInt core n) (inside : List Char) : ¬InQuotes inside core := by
  rintro ⟨q, hq, rfl⟩
  have hquote := (chars_of_writesInt h q List.mem_cons_self).2
  rw [hq] at hquote
  cases hquote

/-- No part of a numeral begins with a blank. -/
theorem stops_of_isBlank {c : Char} (h : isBlank c = true) :
    (c ≠ '-' ∧ c ≠ '+') ∧ c.isDigit = false ∧ c ≠ '.' ∧ c ≠ 'e' ∧ c ≠ 'E' := by
  have := forall_inRanges (P := fun c => (c != '-' && c != '+') && !c.isDigit && c != '.' && c != 'e' && c != 'E')
    (by decide +kernel) h
  simpa [and_assoc] using this

/-- With blanks at either end an integer is no numeral. -/
theorem read?_eq_none_of_blanks (h : WritesInt core n) {padded : List Char} (hpadded : InBlanks core padded)
    (hne : padded ≠ core) : Numeral.read? padded = none := by
  obtain ⟨before, after, hbefore, hafter, rfl⟩ := hpadded
  cases before with
  | cons c before =>
    obtain ⟨hsign, hstop⟩ := stops_of_isBlank (hbefore c List.mem_cons_self)
    exact Numeral.read?_eq_none [] (Numeral.readSign_of_ne hsign _) (by simp) hstop
  | nil =>
    cases after with
    | nil => exact absurd (by simp) hne
    | cons c after =>
      have hstop := (stops_of_isBlank (hafter c List.mem_cons_self)).2
      cases h with
      | unsigned ne digits =>
        obtain ⟨d, s, rfl⟩ := List.exists_cons_of_ne_nil ne
        exact Numeral.read?_eq_none (d :: s) (Numeral.readSign_of_isDigit (digits d List.mem_cons_self) _) digits hstop
      | plus ne digits => exact Numeral.read?_eq_none _ rfl digits hstop
      | minus ne digits => exact Numeral.read?_eq_none _ rfl digits hstop

theorem toInteger?_of_blanks (h : WritesInt core n) {padded s : List Char} (hpadded : InBlanks core padded)
    (hne : padded ≠ core) (hs : unquoted (trim s) = padded) : toInteger? s = none := by
  have hread := read?_eq_none_of_blanks h hpadded hne
  obtain ⟨d, hd, hdigit⟩ := h.exists_digit
  have hmem : d ∈ padded := by
    obtain ⟨before, after, -, -, rfl⟩ := hpadded
    simp [hd]
  simp [toInteger?, hs, int64?, float?, hread, notFinite?_of_mem_isDigit hmem hdigit]

theorem clamp_of_isInt64 (h : isInt64 n = true) : max minInt64 (min maxInt64 n) = n := by
  obtain ⟨hmin, hmax⟩ : minInt64 ≤ n ∧ n ≤ maxInt64 := by simpa [isInt64] using h
  omega

theorem toInteger?_of_writesInt (h : WritesInt core n) {s : List Char} (hs : unquoted (trim s) = core) :
    toInteger? s = if n.natAbs < Magnitude.tooLarge then some (.int (max minInt64 (min maxInt64 n))) else none := by
  cases hrange : isInt64 n with
  | true =>
    simp [toInteger?, hs, h.int64?_eq, hrange, natAbs_lt_tooLarge hrange, clamp_of_isInt64 hrange]
  | false =>
    obtain ⟨x, hread, hinteger, hdigit, rfl⟩ := h.read?
    have hint : int64? core = none := by rw [h.int64?_eq, hrange]; rfl
    have hfloat : float? core = some (.ofNumeral x) := by simp [float?, hread, hdigit]
    have hfinite := Binary64.isFinite_ofNumeral hinteger
    simp only [toInteger?, hs, hint, hfloat]
    by_cases hlarge : x.toInt.natAbs < Magnitude.tooLarge
    · rw [decide_eq_true hlarge] at hfinite
      rw [if_pos hfinite, if_pos hlarge, Binary64.truncate_ofNumeral hinteger hrange hfinite]
    · rw [decide_eq_false hlarge] at hfinite
      rw [if_neg hlarge, hfinite]
      rfl

theorem valueTo_integer (text : String) :
    valueTo (.string text) "integer" = (toInteger? text.toList).getD (.string text) := by
  simp [valueTo, ArgumentType.ofName?, value, convert?]

/-- The text of an integer becomes that integer, or the end of the 64-bit range next to it, as long as it is not too
    large: so one outside of the range is changed. With blanks inside its quotes it stays the text. -/
theorem integer_of_text (h : WritesInt core n) (text : String) :
    (InBlanks core text.toList ∨ (∃ quoted, InQuotes core quoted ∧ InBlanks quoted text.toList) →
      valueTo (.string text) "integer" =
          (if n.natAbs < Magnitude.tooLarge then .int (max minInt64 (min maxInt64 n)) else .string text) ∧
        ((valueTo (.string text) "integer" = .int n ∨ valueTo (.string text) "integer" = .string text) ↔
          isInt64 n = true ∨ Magnitude.tooLarge ≤ n.natAbs)) ∧
    ∀ padded quoted, InBlanks core padded → padded ≠ core → InQuotes padded quoted → InBlanks quoted text.toList →
      valueTo (.string text) "integer" = .string text := by
  rw [valueTo_integer]
  refine ⟨fun htext => ?_, fun padded quoted hpadded hne hquoted htext => ?_⟩
  · have hcore : unquoted (trim text.toList) = core := by
      rcases htext with hblanks | ⟨quoted, hquoted, hblanks⟩
      · rw [trim_of_inBlanks hblanks (trimmed_of_writesInt h), unquoted_eq_self (not_inQuotes_of_writesInt h)]
      · rw [trim_of_inBlanks hblanks hquoted.trimmed, unquoted_of_inQuotes hquoted]
    rw [toInteger?_of_writesInt h hcore]
    by_cases hlarge : n.natAbs < Magnitude.tooLarge
    · simp only [if_pos hlarge, Option.getD_some, true_and, Value.int.injEq, reduceCtorEq, or_false,
        Nat.not_le.mpr hlarge, isInt64, Bool.and_eq_true, decide_eq_true_eq]
      simp only [minInt64, maxInt64]
      omega
    · simp [hlarge, Nat.not_lt.mp hlarge]
  · have hinside : unquoted (trim text.toList) = padded := by
      rw [trim_of_inBlanks htext hquoted.trimmed, unquoted_of_inQuotes hquoted]
    rw [toInteger?_of_blanks h hpadded hne hinside, Option.getD_none]

end

/-- An integer of twenty digits, too large for 64 bits. -/
def wideDigits : String := "99999999999999999999"

theorem writesInt_wideDigits : WritesInt wideDigits.toList 99999999999999999999 :=
  .unsigned (by decide) (List.all_eq_true.mp (by decide))

theorem integer_of_text_wide : WritesInt wideDigits.toList 99999999999999999999 ∧
    (∃ quoted, InQuotes wideDigits.toList quoted ∧ InBlanks quoted " '99999999999999999999' ".toList) ∧
    valueTo (.string " '99999999999999999999' ") "integer" = .int maxInt64 ∧
    valueTo (.string "' 99999999999999999999'") "integer" = .string "' 99999999999999999999'" := by
  have hblank : ∀ c ∈ [' '], isBlank c = true := List.forall_mem_singleton.mpr (by decide)
  have hquoted : InQuotes wideDigits.toList "'99999999999999999999'".toList := ⟨'\'', rfl, rfl⟩
  have hblanks : InBlanks "'99999999999999999999'".toList " '99999999999999999999' ".toList :=
    ⟨[' '], [' '], hblank, hblank, rfl⟩
  have hpadded : InBlanks wideDigits.toList " 99999999999999999999".toList := ⟨[' '], [], hblank, by simp, rfl⟩
  have hquotes : InQuotes " 99999999999999999999".toList "' 99999999999999999999'".toList := ⟨'\'', rfl, rfl⟩
  have hvalue := ((integer_of_text writesInt_wideDigits " '99999999999999999999' ").1 (Or.inr ⟨_, hquoted, hblanks⟩)).1
  have hstays := (integer_of_text writesInt_wideDigits "' 99999999999999999999'").2 _ _ hpadded (by decide) hquotes
    (inBlanks_self _)
  exact ⟨writesInt_wideDigits, ⟨_, hquoted, hblanks⟩, hvalue.trans rfl, hstays⟩

/-- The text of an integer becomes another integer. -/
theorem wide_integer_changed :
    ¬(valueTo (.string wideDigits) "integer" = .int 99999999999999999999 ∨
      valueTo (.string wideDigits) "integer" = .string wideDigits) := by
  have hread : toInteger? wideDigits.toList = some (.int maxInt64) :=
    (toInteger?_of_writesInt writesInt_wideDigits rfl).trans rfl
  rw [valueTo_integer, hread]
  simp [maxInt64]

/-! ### Lists of words -/

/-- Words with commas between them, and blanks or none around every comma. -/
inductive CommaList : List (List Char) → List Char → Prop
  | one (word : List Char) : CommaList [word] word
  | more {word text before after : List Char} {words : List (List Char)} (hbefore : ∀ c ∈ before, isBlank c = true)
      (hafter : ∀ c ∈ after, isBlank c = true) (rest : CommaList words text) :
      CommaList (word :: words) (word ++ (before ++ ',' :: (after ++ text)))

/-- A word that is kept as it is when a list is parted. -/
structure Plain (word : List Char) : Prop where
  trimmed : Trimmed word
  comma : ',' ∉ word
  bare : ∀ inside, ¬InQuotes inside word

section
variable {words : List (List Char)} {text : List Char}

theorem comma_notMem_blanks {blanks : List Char} (h : ∀ c ∈ blanks, isBlank c = true) : ',' ∉ blanks := fun hmem =>
  absurd (h ',' hmem) (by decide)

theorem Plain.of_padded {word s : List Char} (h : Plain word) (hs : InBlanks word s) : unquoted (trim s) = word := by
  rw [trim_of_inBlanks hs h.trimmed, unquoted_eq_self h.bare]

/-- Parting a list of words at its commas gives the words, though the first may have further blanks in front. -/
theorem CommaList.parts (h : CommaList words text) (hplain : ∀ word ∈ words, Plain word) {front : List Char}
    (hfront : ∀ c ∈ front, isBlank c = true) :
    ((front ++ text).splitOn ',').map (fun item => unquoted (trim item)) = words := by
  -- The blanks behind a comma are those in front of the next word.
  induction h generalizing front with
  | one word =>
    have hword := List.forall_mem_singleton.mp hplain
    have hcomma : ',' ∉ front ++ word := by simp [comma_notMem_blanks hfront, hword.comma]
    have hpadded : InBlanks word (front ++ word) := ⟨front, [], hfront, by simp, by simp⟩
    rw [List.splitOn_eq_singleton hcomma, List.map_singleton, hword.of_padded hpadded]
  | @more word text before after words hbefore hafter rest ih =>
    obtain ⟨hword, hwords⟩ := List.forall_mem_cons.mp hplain
    have hcomma : ',' ∉ front ++ (word ++ before) := by
      simp [comma_notMem_blanks hfront, comma_notMem_blanks hbefore, hword.comma]
    have hpadded : InBlanks word (front ++ (word ++ before)) := ⟨front, before, hfront, hbefore, rfl⟩
    have htext : front ++ (word ++ (before ++ ',' :: (after ++ text))) =
        front ++ (word ++ before) ++ ',' :: (after ++ text) := by simp
    rw [htext, List.splitOn_append_cons_self_of_not_mem hcomma, List.map_cons, hword.of_padded hpadded, ih hwords hafter]

theorem CommaList.comma_mem (h : CommaList words text) (htwo : 2 ≤ words.length) : ',' ∈ text := by
  cases h with
  | one word => simp at htwo
  | more hbefore hafter rest => simp

theorem CommaList.listItems_eq (h : CommaList words text) (htwo : 2 ≤ words.length) (hplain : ∀ word ∈ words, Plain word) :
    listItems text = words.map textItem := by
  have hparts : (text.splitOn ',').map (fun item => unquoted (trim item)) = words :=
    h.parts hplain (List.forall_mem_nil _)
  have hkept : words.filter (!·.isEmpty) = words := List.filter_eq_self.mpr fun word hword => by
    obtain ⟨c, hc, -⟩ := (hplain word hword).trimmed.head
    have hne : word ≠ [] := by
      rintro rfl
      cases hc
    simp [hne]
  rw [listItems, if_pos (List.contains_iff_mem.mpr (h.comma_mem htwo)), hparts, hkept]

theorem CommaList.head?_eq (h : CommaList words text) (hplain : ∀ word ∈ words, Plain word) :
    ∃ word ∈ words.head?, text.head? = word.head? := by
  cases h with
  | one => exact ⟨_, rfl, rfl⟩
  | @more word text before after words hbefore hafter rest =>
    obtain ⟨c, hc, -⟩ := (List.forall_mem_cons.mp hplain).1.trimmed.head
    exact ⟨word, rfl, by rw [List.head?_append, hc, Option.some_or]⟩

theorem CommaList.last (h : CommaList words text) (hplain : ∀ word ∈ words, Plain word) :
    ∃ c, text.getLast? = some c ∧ isBlank c = false := by
  induction h with
  | one word => exact (List.forall_mem_singleton.mp hplain).trimmed.last
  | more hbefore hafter rest ih =>
    obtain ⟨c, hc, hblank⟩ := ih (List.forall_mem_cons.mp hplain).2
    exact ⟨c, by simp [List.getLast?_append, List.getLast?_cons, hc], hblank⟩

theorem CommaList.trimmed (h : CommaList words text) (hplain : ∀ word ∈ words, Plain word) : Trimmed text := by
  obtain ⟨word, hword, hhead⟩ := h.head?_eq hplain
  refine ⟨?_, h.last hplain⟩
  rw [hhead]
  exact (hplain word (List.mem_of_mem_head? hword)).trimmed.head

/-! ### Which reading counts -/

theorem isBlank_of_isJsonBlank {c : Char} (h : Json.isJsonBlank c = true) : isBlank c = true := by
  refine isBlank_of_isWhitespace ?_
  simp only [Json.isJsonBlank, Bool.or_eq_true, beq_iff_eq] at h
  rcases h with ((rfl | rfl) | rfl) | rfl <;> rfl

theorem read?_ne_array {c : Char} {rest : List Char} (hblank : isBlank c = false) (hopen : c ≠ '[') (items : List Value) :
    Value.read? (String.ofList (c :: rest)) ≠ some (.array items) := by
  intro h
  obtain ⟨inner, hinner⟩ := Value.opens_of_read?_array h
  have hfirst : Json.isJsonBlank c = false := by
    by_contra hjson
    rw [isBlank_of_isJsonBlank (Bool.eq_true_of_not_eq_false hjson)] at hblank
    cases hblank
  rw [String.toList_ofList, List.dropWhile_cons_of_neg (by simp [hfirst])] at hinner
  exact hopen (List.cons.inj hinner).1

/-- A text that opens with a character other than a bracket is no array, nor is its copy with double quotes. -/
theorem readRepaired?_ne_array (ht : Trimmed text) (hopen : text.head? ≠ some '[') (items : List Value) :
    readRepaired? text ≠ some (.array items) := by
  obtain ⟨c, hc, hblank⟩ := ht.head
  obtain ⟨rest, rfl⟩ := List.head?_eq_some_iff.mp hc
  have hne : c ≠ '[' := fun heq => hopen (by rw [heq]; rfl)
  intro h
  rcases Option.or_eq_some_iff.mp h with h | ⟨-, h⟩
  · exact read?_ne_array hblank hne items h
  · rw [List.map_cons] at h
    refine read?_ne_array ?_ ?_ items h
    · split
      · decide
      · exact hblank
    · split
      · decide
      · exact hne

theorem toArray_eq_listItems {s : List Char} (h : ∀ items, readRepaired? (trim s) ≠ some (.array items)) :
    toArray s = .array (listItems (unbracketed (trim s))) := by
  unfold toArray
  dsimp only
  split
  · rename_i items hitems
    exact absurd hitems (h items)
  · rfl

theorem unbracketed_of_head (h : text.head? ≠ some '[') : unbracketed text = text := by
  unfold unbracketed
  split
  · exact absurd rfl h
  · rfl

theorem unbracketed_brackets (text : List Char) : unbracketed ('[' :: (text ++ [']'])) = text := by
  rw [unbracketed, List.getLast?_concat, if_pos (by simp), List.dropLast_concat]

theorem trim_brackets (text : List Char) : trim ('[' :: (text ++ [']'])) = '[' :: (text ++ [']']) := by
  refine trim_of_inBlanks (inBlanks_self _) ⟨⟨'[', rfl, by decide⟩, ⟨']', ?_, by decide⟩⟩
  rw [← List.cons_append, List.getLast?_concat]

theorem valueTo_array (s : String) : valueTo (.string s) "array" = toArray s.toList := by
  simp [valueTo, ArgumentType.ofName?, value, convert?]

end

/-- The copy of a text with double quotes for single ones. -/
def doubleQuoted (s : String) : String :=
  String.ofList (s.toList.map fun c => if c == '\'' then '"' else c)

/-- Two or more words between commas become the array of these words, and so do the same words in brackets where these
    make no JSON text. Every text becomes an array. -/
theorem array_of_text :
    (∀ (words : List (List Char)) (text : String), CommaList words text.toList → 2 ≤ words.length →
      (∀ word ∈ words, Plain word) → (∀ word ∈ words.head?, word.head? ≠ some '[') →
        valueTo (.string text) "array" = .array (words.map textItem) ∧
        (Value.read? ("[" ++ text ++ "]") = none → Value.read? (doubleQuoted ("[" ++ text ++ "]")) = none →
          valueTo (.string ("[" ++ text ++ "]")) "array" = .array (words.map textItem))) ∧
    ∀ text : String, ∃ items, valueTo (.string text) "array" = .array items := by
  refine ⟨fun words text hlist htwo hplain hopen => ⟨?_, fun hread hrepaired => ?_⟩, fun text => ?_⟩
  · have htrimmed := hlist.trimmed hplain
    have htrim : trim text.toList = text.toList := trim_of_inBlanks (inBlanks_self _) htrimmed
    have hhead : text.toList.head? ≠ some '[' := by
      obtain ⟨word, hword, heq⟩ := hlist.head?_eq hplain
      rw [heq]
      exact hopen word hword
    rw [valueTo_array, toArray_eq_listItems (by rw [htrim]; exact readRepaired?_ne_array htrimmed hhead), htrim,
      unbracketed_of_head hhead, hlist.listItems_eq htwo hplain]
  · have htext : ("[" ++ text ++ "]").toList = '[' :: (text.toList ++ [']']) := by simp
    have hnone : readRepaired? ('[' :: (text.toList ++ [']'])) = none := by
      rw [readRepaired?, ← htext, String.ofList_toList, hread, Option.none_or, ← hrepaired, doubleQuoted]
    rw [valueTo_array, htext, toArray_eq_listItems (by simp [trim_brackets, hnone]), trim_brackets, unbracketed_brackets,
      hlist.listItems_eq htwo hplain]
  · rw [valueTo_array, toArray]
    split
    · exact ⟨_, rfl⟩
    · exact ⟨_, rfl⟩

/-- A number, a word that opens with a quote and one that ends with a bracket. -/
def oddWords : List (List Char) := [['3'], ['\'', 'b'], ['é', ']']]

theorem plain_oddWords : ∀ word ∈ oddWords, Plain word := by
  refine List.forall_mem_cons.mpr ⟨⟨⟨⟨_, rfl, by decide⟩, ⟨_, rfl, by decide⟩⟩, by decide, fun inside h => ?_⟩,
    List.forall_mem_cons.mpr ⟨⟨⟨⟨_, rfl, by decide⟩, ⟨_, rfl, by decide⟩⟩, by decide, fun inside h => ?_⟩,
      List.forall_mem_singleton.mpr ⟨⟨⟨_, rfl, by decide⟩, ⟨_, rfl, by decide⟩⟩, by decide, fun inside h => ?_⟩⟩⟩
  · obtain ⟨q, hq, hhead, -⟩ := h.ends
    cases hhead
    cases hq
  · obtain ⟨q, -, hhead, hlast⟩ := h.ends
    cases hhead
    cases hlast
  · obtain ⟨q, hq, hhead, -⟩ := h.ends
    cases hhead
    cases hq

theorem commaList_oddWords : CommaList oddWords "3 ,\t'b,é]".toList :=
  have hspace : ∀ c ∈ [' '], isBlank c = true := List.forall_mem_singleton.mpr (by decide)
  have htab : ∀ c ∈ ['\t'], isBlank c = true := List.forall_mem_singleton.mpr (by decide)
  .more hspace htab (.more (List.forall_mem_nil _) (List.forall_mem_nil _) (.one ['é', ']']))

theorem array_of_text_oddWords : CommaList oddWords "3 ,\t'b,é]".toList ∧ (∀ word ∈ oddWords, Plain word) ∧
    Value.read? "[3 ,\t'b,é]]" = none ∧ Value.read? (doubleQuoted "[3 ,\t'b,é]]") = none ∧
    valueTo (.string "3 ,\t'b,é]") "array" = .array [.string "3", .string "'b", .string "é]"] ∧
    valueTo (.string "[3 ,\t'b,é]]") "array" = .array [.string "3", .string "'b", .string "é]"] := by
  have hread : Value.read? "[3 ,\t'b,é]]" = none := rfl
  have hrepaired : Value.read? (doubleQuoted "[3 ,\t'b,é]]") = none := rfl
  obtain ⟨hplain, hbrackets⟩ := array_of_text.1 oddWords "3 ,\t'b,é]" commaList_oddWords (by decide) plain_oddWords
    (by rintro word ⟨⟩; decide)
  exact ⟨commaList_oddWords, plain_oddWords, hread, hrepaired, hplain, hbrackets hread hrepaired⟩

end ToolScript.Coerce
