import ToolScript.Json.Reader
import ToolScript.Proofs.Json.Scanning

/-! # How the text of an array opens

    A text is read as an array only if its first character behind the blanks is an opening bracket. Any other character
    begins a token that opens no array (`Bare`), and what begins with such a token is no array, whatever follows. -/

namespace ToolScript.Json

/-- A token that neither opens an array nor is one. -/
def Token.Bare : Token → Prop
  | .openBracket => False
  | .literal (.array _) => False
  | _ => True

/-! ### The first token -/

section
variable {written : List Char} {t : Token}

theorem bare_of_number? (h : number? written = some t) : t.Bare := by
  unfold number? at h
  split at h
  · split at h
    · obtain rfl := Option.some.inj h
      unfold numberNode
      dsimp only
      split
      · trivial
      · split <;> trivial
    · cases h
  · cases h

theorem bare_of_word? (h : word? written = some t) : t.Bare := by
  unfold word? at h
  split at h <;> cases h <;> trivial

theorem bare_of_punctuation? {c : Char} (hc : c ≠ '[') (h : punctuation? c = some t) : t.Bare := by
  unfold punctuation? at h
  split at h <;> cases h <;> trivial

end

namespace Scanner

/-- The first token is bare, whether it is read already or still being read. -/
structure Begun (s : Scanner) : Prop where
  first : ∀ t ∈ s.tokens.getLast?, t.Bare
  reading : s.tokens = [] → s.scan ≠ .between

section
variable {s s' : Scanner} {tokens : List Token} {t : Token} {c : Char}

theorem first_cons (ht : tokens = [] → t.Bare) (htokens : ∀ t ∈ tokens.getLast?, t.Bare) :
    ∀ u ∈ (t :: tokens).getLast?, u.Bare := by
  cases tokens with
  | nil => simpa using ht rfl
  | cons u tokens => simpa using htokens

theorem begin?_begun (htokens : ∀ t ∈ tokens.getLast?, t.Bare) (hc : tokens = [] → isJsonBlank c = false ∧ c ≠ '[')
    (h : begin? tokens c = some s) : s.Begun := by
  unfold begin? at h
  split at h
  · rename_i hblank
    obtain rfl := Option.some.inj h
    exact ⟨htokens, fun hnil => absurd hblank (by simp [(hc hnil).1])⟩
  split at h
  · obtain rfl := Option.some.inj h
    exact ⟨htokens, by simp⟩
  split at h
  · obtain rfl := Option.some.inj h
    exact ⟨htokens, by simp⟩
  split at h
  · obtain rfl := Option.some.inj h
    exact ⟨htokens, by simp⟩
  · obtain ⟨t, ht, rfl⟩ := Option.map_eq_some_iff.mp h
    exact ⟨first_cons (fun hnil => bare_of_punctuation? (hc hnil).2 ht) htokens, by simp⟩

theorem Begun.step (hs : s.Begun) (h : s.step? c = some s') : s'.Begun := by
  obtain ⟨tokens, scan⟩ := s
  obtain ⟨hfirst, hreading⟩ := hs
  -- What follows a complete token begins behind at least that one.
  have hbehind : ∀ t : Token, t.Bare → begin? (t :: tokens) c = some s' → s'.Begun := fun t ht =>
    begin?_begun (first_cons (fun _ => ht) hfirst) (by simp)
  cases scan with
  | between => exact begin?_begun hfirst (fun hnil => absurd rfl (hreading hnil)) h
  | number written =>
    simp only [step?] at h
    split at h
    · obtain rfl := Option.some.inj h
      exact ⟨hfirst, by simp⟩
    · obtain ⟨t, ht, hbegin⟩ := Option.bind_eq_some_iff.mp h
      exact hbehind t (bare_of_number? ht) hbegin
  | word written =>
    simp only [step?] at h
    split at h
    · obtain rfl := Option.some.inj h
      exact ⟨hfirst, by simp⟩
    · obtain ⟨t, ht, hbegin⟩ := Option.bind_eq_some_iff.mp h
      exact hbehind t (bare_of_word? ht) hbegin
  | string p =>
    simp only [step?] at h
    split at h
    · obtain rfl := Option.some.inj h
      exact ⟨first_cons (fun _ => trivial) hfirst, by simp⟩
    split at h
    · obtain rfl := Option.some.inj h
      exact ⟨hfirst, by simp⟩
    split at h
    · cases h
    · obtain rfl := Option.some.inj h
      exact ⟨hfirst, by simp⟩
  | escape p =>
    simp only [step?] at h
    split at h
    · obtain rfl := Option.some.inj h
      exact ⟨hfirst, by simp⟩
    · obtain ⟨e, -, rfl⟩ := Option.map_eq_some_iff.mp h
      exact ⟨hfirst, by simp⟩
  | unit p left value =>
    obtain ⟨d, -, rfl⟩ := Option.map_eq_some_iff.mp h
    cases left with
    | zero => exact ⟨hfirst, by simp⟩
    | succ left => exact ⟨hfirst, by simp⟩

theorem Begun.run {text : List Char} (hs : s.Begun) (h : text.foldlM step? s = some s') : s'.Begun := by
  induction text generalizing s with
  | nil =>
    obtain rfl := Option.some.inj h
    exact hs
  | cons c text ih =>
    obtain ⟨s₁, hstep, hrun⟩ := Option.bind_eq_some_iff.mp h
    exact ih (hs.step hstep) hrun

theorem Begun.finish (hs : s.Begun) (h : s.finish? = some tokens) : ∀ t ∈ tokens.head?, t.Bare := by
  unfold finish? at h
  split at h
  · obtain rfl := Option.some.inj h
    rw [List.head?_reverse]
    exact hs.first
  · obtain ⟨t, ht, rfl⟩ := Option.map_eq_some_iff.mp h
    rw [List.head?_reverse]
    exact first_cons (fun _ => bare_of_number? ht) hs.first
  · obtain ⟨t, ht, rfl⟩ := Option.map_eq_some_iff.mp h
    rw [List.head?_reverse]
    exact first_cons (fun _ => bare_of_word? ht) hs.first
  · cases h

end
end Scanner

open Scanner in
/-- A text that does not begin with a bracket has no bracket as its first token. -/
theorem bare_of_tokens? {text : List Char} {tokens : List Token} (h : tokens? text = some tokens)
    (hopen : ∀ rest, text.dropWhile isJsonBlank ≠ '[' :: rest) : ∀ t ∈ tokens.head?, t.Bare := by
  obtain ⟨s, hs, hfinish⟩ := Option.bind_eq_some_iff.mp h
  have hblanks := closes_blanks (fun c hc => List.mem_takeWhile_imp (p := isJsonBlank) (l := text) hc)
  rw [← List.takeWhile_append_dropWhile (p := isJsonBlank) (l := text), List.foldlM_append, start, hblanks] at hs
  replace hs : (text.dropWhile isJsonBlank).foldlM step? ⟨[], .between⟩ = some s := hs
  cases hrest : text.dropWhile isJsonBlank with
  | nil =>
    rw [hrest] at hs
    obtain rfl := Option.some.inj hs
    obtain rfl := Option.some.inj hfinish
    simp
  | cons c rest =>
    rw [hrest] at hs
    obtain ⟨s₁, hbegin, hrun⟩ := Option.bind_eq_some_iff.mp hs
    have hblank := List.head?_dropWhile_not isJsonBlank text
    rw [hrest] at hblank
    have hc : c ≠ '[' := by
      rintro rfl
      exact hopen rest hrest
    have hbegun : s₁.Begun := begin?_begun (by simp) (fun _ => ⟨by simpa using hblank, hc⟩) hbegin
    exact (hbegun.run hrun).finish hfinish

/-! ### The tree -/

/-- The outermost open frame is an object. -/
def InObject (stack : List Frame) : Prop :=
  ∃ fields sound name, stack.getLast? = some (.object fields sound name)

section
variable {stack : List Frame} {frame : Frame} {fields : List (String × Node)} {sound : Bool} {name : Option String}

theorem InObject.cons (h : InObject stack) : InObject (frame :: stack) := by
  obtain ⟨fields, sound, name, hlast⟩ := h
  exact ⟨fields, sound, name, by rw [List.getLast?_cons, hlast]; rfl⟩

theorem InObject.of_array {items : List Node} (h : InObject (.array items :: stack)) : InObject stack := by
  obtain ⟨fields, sound, name, hlast⟩ := h
  cases stack with
  | nil => simp at hlast
  | cons frame stack => exact ⟨fields, sound, name, by rwa [List.getLast?_cons_cons] at hlast⟩

theorem inObject_object (h : stack = [] ∨ InObject stack) : InObject (.object fields sound name :: stack) := by
  rcases h with rfl | h
  · exact ⟨_, _, _, rfl⟩
  · exact h.cons

theorem InObject.of_cons (h : InObject (frame :: stack)) : stack = [] ∨ InObject stack := by
  obtain ⟨fields, sound, name, hlast⟩ := h
  cases stack with
  | nil => exact Or.inl rfl
  | cons next stack => exact Or.inr ⟨fields, sound, name, by rwa [List.getLast?_cons_cons] at hlast⟩

end

namespace Reading

/-- What is read is no array: it is complete and none, or part of an object. -/
def NoArray : Reading → Prop
  | .done n => ∀ items, n ≠ .array items
  | .open stack _ => InObject stack

section
variable {stack : List Frame} {n : Node} {r r' : Reading} {t : Token}

theorem noArray_of_add (hstack : InObject stack ∨ stack = [] ∧ ∀ items, n ≠ .array items) (h : add n stack = some r) :
    r.NoArray := by
  unfold add at h
  split at h
  · obtain rfl := Option.some.inj h
    rcases hstack with ⟨fields, sound, name, hlast⟩ | ⟨-, hn⟩
    · cases hlast
    · exact hn
  all_goals
    obtain rfl := Option.some.inj h
    have hin := hstack.resolve_right (by simp)
  · exact hin.of_array.cons
  · exact inObject_object hin.of_cons
  · exact inObject_object hin.of_cons

theorem noArray_of_close (hstack : InObject stack ∨ stack = [] ∧ ∀ items, n ≠ .array items) (h : close n stack = some r) :
    r.NoArray := by
  refine noArray_of_add (hstack.imp_right fun ⟨hnil, hn⟩ => ⟨hnil, ?_⟩) h
  split
  · exact hn
  · simp

theorem noArray_of_value? (hstack : InObject stack ∨ stack = [] ∧ t.Bare) (h : value? stack t = some r) : r.NoArray := by
  unfold value? at h
  split at h
  · refine noArray_of_add (hstack.imp_right fun ⟨hnil, ht⟩ => ⟨hnil, ?_⟩) h
    rintro items rfl
    exact ht
  · exact noArray_of_add (hstack.imp_right fun ⟨hnil, _⟩ => ⟨hnil, by simp⟩) h
  · exact noArray_of_add (hstack.imp_right fun ⟨hnil, _⟩ => ⟨hnil, by simp⟩) h
  · obtain rfl := Option.some.inj h
    exact (hstack.resolve_right fun ⟨_, ht⟩ => ht).cons
  · obtain rfl := Option.some.inj h
    exact inObject_object (hstack.symm.imp_left fun ⟨hnil, _⟩ => hnil)
  · cases h

theorem noArray_of_name? {name : Option String} (hstack : InObject stack) (h : name? stack name = some r) : r.NoArray := by
  unfold name? at h
  split at h
  · obtain rfl := Option.some.inj h
    exact inObject_object hstack.of_cons
  · obtain rfl := Option.some.inj h
    exact inObject_object hstack.of_cons
  · cases h

theorem noArray_of_end? (hstack : InObject stack) (h : end? stack t = some r) : r.NoArray := by
  unfold end? at h
  split at h
  · exact noArray_of_close (Or.inl hstack.of_array) h
  · refine noArray_of_close (hstack.of_cons.symm.imp_right fun hnil => ⟨hnil, ?_⟩) h
    split <;> simp
  · cases h

theorem NoArray.step (hr : r.NoArray) (h : r.step? t = some r') : r'.NoArray := by
  unfold step? at h
  split at h
  · cases h
  · exact noArray_of_value? (Or.inl hr) h
  · split at h
    · exact noArray_of_end? hr h
    · exact noArray_of_value? (Or.inl hr) h
  · split at h
    · exact noArray_of_name? hr h
    · cases h
  · split at h
    · exact noArray_of_name? hr h
    · exact noArray_of_end? hr h
  · split at h
    · obtain rfl := Option.some.inj h
      exact hr
    · cases h
  · split at h
    · obtain rfl := Option.some.inj h
      exact hr
    · obtain rfl := Option.some.inj h
      exact hr
    · exact noArray_of_end? hr h

theorem NoArray.run {tokens : List Token} (hr : r.NoArray) (h : tokens.foldlM step? r = some r') : r'.NoArray := by
  induction tokens generalizing r with
  | nil =>
    obtain rfl := Option.some.inj h
    exact hr
  | cons t tokens ih =>
    obtain ⟨r₁, hstep, hrun⟩ := Option.bind_eq_some_iff.mp h
    exact ih (hr.step hstep) hrun

end
end Reading

/-- A text that is read as an array opens with a bracket, but for blanks. -/
theorem Node.opens_of_read?_array {text : List Char} {items : List Node} (h : Node.read? text = some (.array items)) :
    ∃ rest, text.dropWhile isJsonBlank = '[' :: rest := by
  by_contra hopen
  obtain ⟨tokens, htokens, hread⟩ := Option.bind_eq_some_iff.mp h
  obtain ⟨r, hr, hfinish⟩ := Option.bind_eq_some_iff.mp hread
  have hbare := bare_of_tokens? htokens (not_exists.mp hopen)
  cases tokens with
  | nil =>
    obtain rfl := Option.some.inj hr
    cases hfinish
  | cons t tokens =>
    obtain ⟨r₁, hfirst, hrun⟩ := Option.bind_eq_some_iff.mp hr
    have hnone : r.NoArray := (Reading.noArray_of_value? (Or.inr ⟨rfl, hbare t rfl⟩) hfirst).run hrun
    unfold Reading.finish? at hfinish
    split at hfinish
    · obtain rfl := Option.some.inj hfinish
      exact hnone items rfl
    · cases hfinish

end ToolScript.Json

namespace ToolScript
open Json

theorem Value.opens_of_read?_array {text : String} {items : List Value} (h : Value.read? text = some (.array items)) :
    ∃ rest, text.toList.dropWhile isJsonBlank = '[' :: rest := by
  obtain ⟨n, hn, hvalue⟩ := Option.bind_eq_some_iff.mp h
  cases n with
  | array nodes => exact Node.opens_of_read?_array hn
  | object fields =>
    rw [Node.value?] at hvalue
    obtain ⟨fs, -, heq⟩ := Option.map_eq_some_iff.mp hvalue
    cases heq
  | _ => cases hvalue

end ToolScript
