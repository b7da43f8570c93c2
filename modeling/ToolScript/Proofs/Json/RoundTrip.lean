import ToolScript.Json.Reader
import ToolScript.Proofs.Json.Scanning

/-! # Reading what was printed

    A printed value is read back as the tree of the value, its fields in the order printed. The printed characters
    are first related to the tokens of the value, and these to what the reader of trees builds from them. -/

namespace ToolScript.Json
open Value

/-- A value whose integers have at most 64 bits, whose floating-point numbers are read as they are written, and whose
    arrays and objects are nested no deeper than given. -/
inductive Legible : Nat → Value → Prop
  | null {d : Nat} : Legible d .null
  | bool {d : Nat} (b : Bool) : Legible d (.bool b)
  | int {d : Nat} {n : Int} (least : minInt64 ≤ n) (greatest : n ≤ maxUInt64) : Legible d (.int n)
  | float {d : Nat} {x : Binary64} (reads : Reads (x.text .json).toList [.literal (.float x)]) : Legible d (.float x)
  | string {d : Nat} (s : String) : Legible d (.string s)
  | array {d : Nat} {items : List Value} (each : ∀ v ∈ items, Legible d v) : Legible (d + 1) (.array items)
  | object {d : Nat} {fields : List (String × Value)} (each : ∀ e ∈ fields, Legible d e.2) :
      Legible (d + 1) (.object fields)

theorem Legible.mono {d d' : Nat} {v : Value} (h : Legible d v) (hd : d ≤ d') : Legible d' v := by
  induction h generalizing d' with
  | null => exact .null
  | bool b => exact .bool b
  | int least greatest => exact .int least greatest
  | float reads => exact .float reads
  | string s => exact .string s
  | @array d items each ih =>
    obtain ⟨k, rfl⟩ : ∃ k, d' = k + 1 := ⟨d' - 1, by omega⟩
    exact .array fun v hv => ih v hv (Nat.le_of_succ_le_succ hd)
  | @object d fields each ih =>
    obtain ⟨k, rfl⟩ : ∃ k, d' = k + 1 := ⟨d' - 1, by omega⟩
    exact .object fun e he => ih e he (Nat.le_of_succ_le_succ hd)

mutual

/-- The tokens of a value, its fields in the order listed. -/
def tokens : Value → List Token
  | .string s => [.string (some s)]
  | .array items => .openBracket :: ([.comma].intercalate (itemTokens items) ++ [.closeBracket])
  | .object fields => .openBrace :: ([.comma].intercalate (fieldTokens fields) ++ [.closeBrace])
  | v => [.literal (Node.ofValue v)]

def itemTokens : List Value → List (List Token)
  | [] => []
  | v :: rest => tokens v :: itemTokens rest

def fieldTokens : List (String × Value) → List (List Token)
  | [] => []
  | (name, v) :: rest => (.string (some name) :: .colon :: tokens v) :: fieldTokens rest

end

/-- The tokens of a field with its name. -/
def namedTokens (e : String × Value) : List Token :=
  .string (some e.1) :: .colon :: tokens e.2

section
variable (items : List Value) (fields : List (String × Value)) (indent : Nat)

theorem itemTokens_eq_map : itemTokens items = items.map tokens := by
  induction items with
  | nil => rfl
  | cons v items ih => rw [itemTokens, ih, List.map_cons]

theorem fieldTokens_eq_map : fieldTokens fields = fields.map namedTokens := by
  induction fields with
  | nil => rfl
  | cons e fields ih => rw [fieldTokens, ih, List.map_cons, namedTokens]

theorem ofValues_eq_map : Node.ofValues items = items.map Node.ofValue := by
  induction items with
  | nil => rfl
  | cons v items ih => rw [Node.ofValues, ih, List.map_cons]

theorem ofFieldValues_eq_map : Node.ofFieldValues fields = fields.map fun e => (e.1, Node.ofValue e.2) := by
  induction fields with
  | nil => rfl
  | cons e fields ih => rw [Node.ofFieldValues, ih, List.map_cons]

theorem prettyItems_eq_intercalate :
    prettyItems indent items = [','].intercalate (items.map fun v => newline indent ++ prettyChars indent v) := by
  induction items with
  | nil => rfl
  | cons v items ih =>
    cases items with
    | nil => simp [prettyItems]
    | cons w items => simp only [prettyItems, ih, List.map_cons, List.intercalate_cons_cons, List.append_assoc,
        List.singleton_append]

theorem prettyFields_eq_intercalate :
    prettyFields indent fields =
      [','].intercalate (fields.map fun e => newline indent ++ (quoted e.1 ++ ([':', ' '] ++ prettyChars indent e.2))) := by
  induction fields with
  | nil => rfl
  | cons e fields ih =>
    cases fields with
    | nil => simp [prettyFields]
    | cons f fields => simp only [prettyFields, ih, List.map_cons, List.intercalate_cons_cons, List.append_assoc,
        List.cons_append, List.nil_append]

end

theorem exists_intercalate_cons {α : Type} (separator first : List α) (rest : List (List α)) :
    ∃ r, separator.intercalate (first :: rest) = first ++ r := by
  cases rest with
  | nil => exact ⟨[], by simp⟩
  | cons second rest => exact ⟨_, by rw [List.intercalate_cons_cons, List.append_assoc]⟩

/-! ### The printed characters -/

theorem reads_intercalate {α : Type} {f : α → List Char} {g : α → List Token} {l : List α} (hne : l ≠ [])
    (h : ∀ x ∈ l, Reads (f x) (g x)) : Reads ([','].intercalate (l.map f)) ([.comma].intercalate (l.map g)) := by
  induction l with
  | nil => exact absurd rfl hne
  | cons x l ih =>
    obtain ⟨hx, hl⟩ := List.forall_mem_cons.mp h
    cases l with
    | nil => simpa using hx
    | cons y l =>
      have hrest := closes_comma.append_reads (ih (by simp) hl)
      simpa [List.intercalate_cons_cons] using hx.append (c := ',') rfl hrest

theorem reads_bracketed {left right : Char} {opened closed : Token} {inner : List Char} {ts : List Token}
    (hleft : Closes [left] [opened]) (hright : Closes [right] [closed]) (h : Reads inner ts) (indent : Nat) :
    Reads (left :: (inner ++ newline indent ++ [right])) (opened :: (ts ++ [closed])) := by
  have hend := ((closes_newline indent).append hright).reads
  simpa [newline] using hleft.append_reads (h.append (c := '\n') rfl hend)

theorem reads_pretty {d : Nat} {v : Value} (h : Legible d v) (indent : Nat) :
    Reads (v.prettyChars indent) (tokens v) := by
  induction h generalizing indent with
  | null => exact reads_null
  | bool b =>
    cases b with
    | false => exact reads_false
    | true => exact reads_true
  | int least greatest => exact reads_intText least greatest
  | float reads => exact reads
  | string s => exact (closes_quoted s).reads
  | @array d items each ih =>
    cases items with
    | nil => exact (closes_openBracket.append closes_closeBracket).reads
    | cons v items =>
      have hitems := reads_intercalate (by simp : v :: items ≠ []) fun w hw =>
        (closes_newline (indent + 1)).append_reads (ih w hw (indent + 1))
      have hprinted : prettyChars indent (.array (v :: items)) =
          '[' :: (prettyItems (indent + 1) (v :: items) ++ newline indent ++ [']']) := rfl
      rw [hprinted, prettyItems_eq_intercalate, tokens, itemTokens_eq_map]
      exact reads_bracketed closes_openBracket closes_closeBracket hitems indent
  | @object d fields each ih =>
    cases fields with
    | nil => exact (closes_openBrace.append closes_closeBrace).reads
    | cons e fields =>
      have hfields := reads_intercalate (by simp : e :: fields ≠ []) fun f hf =>
        (closes_newline (indent + 1)).append_reads
          ((closes_quoted f.1).append_reads (closes_colon.append_reads (ih f hf (indent + 1))))
      have hprinted : prettyChars indent (.object (e :: fields)) =
          '{' :: (prettyFields (indent + 1) (e :: fields) ++ newline indent ++ ['}']) := rfl
      rw [hprinted, prettyFields_eq_intercalate, tokens, fieldTokens_eq_map]
      exact reads_bracketed closes_openBrace closes_closeBrace hfields indent

/-! ### The tokens -/

open Reading

/-- Inside at most `n` open arrays and objects the tokens of a value add its tree to the innermost of them. -/
def Places (n : Nat) (v : Value) : Prop :=
  ∀ stack : List Frame, stack.length ≤ n → (tokens v).foldlM step? (.open stack .value) = add (Node.ofValue v) stack

section
variable {stack : List Frame}

theorem close_of_lt (n : Node) (h : stack.length < maxDepth) : close n stack = add n stack := by
  have hdrop : stack.drop (maxDepth - 1) = [] := List.drop_eq_nil_of_le (by omega)
  rw [close, hdrop]
  rfl

theorem foldlM_item {n : Nat} {v : Value} (h : Places n v) (hstack : stack.length < n) (read : List Node)
    (rest : List Token) :
    (tokens v ++ rest).foldlM step? (.open (.array read :: stack) .value) =
      rest.foldlM step? (.open (.array (Node.ofValue v :: read) :: stack) .separator) := by
  rw [List.foldlM_append, h (.array read :: stack) hstack]
  rfl

theorem foldlM_field {n : Nat} {e : String × Value} (h : Places n e.2) (hstack : stack.length < n)
    (read : List (String × Node)) (rest : List Token) :
    (namedTokens e ++ rest).foldlM step? (.open (.object read true none :: stack) .name) =
      rest.foldlM step? (.open (.object ((e.1, Node.ofValue e.2) :: read) true none :: stack) .separator) := by
  have hname : (namedTokens e).foldlM step? (.open (.object read true none :: stack) .name) =
      (tokens e.2).foldlM step? (.open (.object read true (some e.1) :: stack) .value) := rfl
  rw [List.foldlM_append, hname, h (.object read true (some e.1) :: stack) hstack]
  rfl

/-- Elements one after the other, between commas, for arrays and objects alike: `frame` is the open one with what it
    has so far, and `next` says that an element has to come. -/
theorem foldlM_elements {α β : Type} {part : α → List Token} {tree : α → β} (frame : List β → Frame) {next : Expected}
    {x : α} {l : List α}
    (helement : ∀ y ∈ x :: l, ∀ read rest, (part y ++ rest).foldlM step? (.open (frame read :: stack) next) =
      rest.foldlM step? (.open (frame (tree y :: read) :: stack) .separator))
    (hcomma : ∀ read, step? (.open (frame read :: stack) .separator) .comma = some (.open (frame read :: stack) next))
    (read : List β) (rest : List Token) :
    ([.comma].intercalate ((x :: l).map part) ++ rest).foldlM step? (.open (frame read :: stack) next) =
      rest.foldlM step? (.open (frame (((x :: l).map tree).reverse ++ read) :: stack) .separator) := by
  induction l generalizing x read with
  | nil => simpa using helement x List.mem_cons_self read rest
  | cons y l ih =>
    obtain ⟨hx, hl⟩ := List.forall_mem_cons.mp helement
    rw [List.map_cons, List.map_cons, List.intercalate_cons_cons, List.append_assoc, List.append_assoc, hx,
      List.singleton_append, List.foldlM_cons, hcomma, Option.bind_eq_bind, Option.bind_some, ← List.map_cons, ih hl]
    simp

/-- All elements of what was just opened: only the first is read where the end might come at once. -/
theorem foldlM_contents {α β : Type} {part : α → List Token} {tree : α → β} (frame : List β → Frame)
    {first next : Expected} {x : α} {l : List α}
    (hfirst : ∀ rest, (part x ++ rest).foldlM step? (.open (frame [] :: stack) first) =
      (part x ++ rest).foldlM step? (.open (frame [] :: stack) next))
    (helement : ∀ y ∈ x :: l, ∀ read rest, (part y ++ rest).foldlM step? (.open (frame read :: stack) next) =
      rest.foldlM step? (.open (frame (tree y :: read) :: stack) .separator))
    (hcomma : ∀ read, step? (.open (frame read :: stack) .separator) .comma = some (.open (frame read :: stack) next))
    (rest : List Token) :
    ([.comma].intercalate ((x :: l).map part) ++ rest).foldlM step? (.open (frame [] :: stack) first) =
      rest.foldlM step? (.open (frame ((x :: l).map tree).reverse :: stack) .separator) := by
  obtain ⟨r, hr⟩ := exists_intercalate_cons [Token.comma] (part x) (l.map part)
  rw [List.map_cons, hr, List.append_assoc, hfirst, ← List.append_assoc, ← hr, ← List.map_cons,
    foldlM_elements frame helement hcomma, List.append_nil]

end

theorem places_array {n : Nat} {items : List Value} (h : ∀ v ∈ items, Places (n + 1) v) (hn : n < maxDepth) :
    Places n (.array items) := by
  intro stack hstack
  have hopen : step? (.open stack .value) .openBracket = some (.open (.array [] :: stack) .valueOrEnd) := rfl
  rw [tokens, itemTokens_eq_map, Node.ofValue, ofValues_eq_map, ← close_of_lt _ (Nat.lt_of_le_of_lt hstack hn),
    List.foldlM_cons, hopen, Option.bind_eq_bind, Option.bind_some]
  cases items with
  | nil => simp [step?, end?]
  | cons v items =>
    have hfirst : ∀ rest, (tokens v ++ rest).foldlM step? (.open (.array [] :: stack) .valueOrEnd) =
        (tokens v ++ rest).foldlM step? (.open (.array [] :: stack) .value) := fun rest => by cases v <;> rfl
    have hitems := fun w hw => foldlM_item (h w hw) (Nat.lt_succ_of_le hstack)
    rw [foldlM_contents .array hfirst hitems fun _ => rfl]
    simp [step?, end?]

theorem places_object {n : Nat} {fields : List (String × Value)} (h : ∀ e ∈ fields, Places (n + 1) e.2)
    (hn : n < maxDepth) : Places n (.object fields) := by
  intro stack hstack
  have hopen : step? (.open stack .value) .openBrace = some (.open (.object [] true none :: stack) .nameOrEnd) := rfl
  rw [tokens, fieldTokens_eq_map, Node.ofValue, ofFieldValues_eq_map, ← close_of_lt _ (Nat.lt_of_le_of_lt hstack hn),
    List.foldlM_cons, hopen, Option.bind_eq_bind, Option.bind_some]
  cases fields with
  | nil => simp [step?, end?]
  | cons e fields =>
    have hfirst : ∀ rest, (namedTokens e ++ rest).foldlM step? (.open (.object [] true none :: stack) .nameOrEnd) =
        (namedTokens e ++ rest).foldlM step? (.open (.object [] true none :: stack) .name) := fun _ => rfl
    have hfields := fun f hf => foldlM_field (h f hf) (Nat.lt_succ_of_le hstack)
    rw [foldlM_contents (fun read => .object read true none) hfirst hfields fun _ => rfl]
    simp [step?, end?]

theorem Legible.places {d n : Nat} {v : Value} (h : Legible d v) (hn : d + n ≤ maxDepth) : Places n v := by
  induction h generalizing n with
  | null => exact fun stack _ => by simp [tokens, step?, Reading.value?]
  | bool b => exact fun stack _ => by simp [tokens, step?, Reading.value?]
  | int least greatest => exact fun stack _ => by simp [tokens, step?, Reading.value?]
  | float reads => exact fun stack _ => by simp [tokens, step?, Reading.value?]
  | string s => exact fun stack _ => by simp [tokens, step?, Reading.value?, Node.ofValue]
  | array each ih => exact places_array (fun v hv => ih v hv (by omega)) (by omega)
  | object each ih => exact places_object (fun e he => ih e he (by omega)) (by omega)

/-- What the pretty text of a value is read as. -/
theorem Node.read?_pretty {v : Value} (h : Legible maxDepth v) : Node.read? v.pretty.toList = some (Node.ofValue v) := by
  have hplaces := h.places (Nat.le_refl _) [] (Nat.le_refl _)
  rw [Node.read?, Value.pretty, String.toList_ofList, (reads_pretty h 0).tokens?_eq, Option.bind_eq_bind, Option.bind_some,
    Reading.start, hplaces]
  rfl

/-- A string has one form, whether compact or pretty. -/
theorem Node.read?_compact_string (s : String) : Node.read? (Value.string s).compact.toList = some (.string s) := by
  have hpretty : (Value.string s).compact = (Value.string s).pretty := by
    simp only [Value.compact, Value.pretty, Value.compactChars, Value.prettyChars]
  rw [hpretty, Node.read?_pretty (.string s), Node.ofValue]

end ToolScript.Json
