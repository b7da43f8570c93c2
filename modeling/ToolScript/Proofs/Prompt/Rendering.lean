import ToolScript.Prompt.Template
import ToolScript.Proofs.Data.Dict
import ToolScript.Proofs.Text.Classes
import ToolScript.Proofs.Text.Search

/-! # Rendering replaces placeholders in one pass

    What a template has as placeholders is said by the shape of a placeholder alone (`IsPlaceholder`), and rendering by
    what is done with the first one (`Substituted`): the text before it stays, its value is put in, and the pass goes on
    behind it in the template. A value that was put in is never looked at again, whatever braces it has. -/

namespace ToolScript
open Text

/-- A name: a letter or an underscore with letters, digits and underscores behind it, all in ASCII. -/
inductive IsName : List Char → Prop
  | intro {c : Char} {rest : List Char} (start : isNameStart c = true) (more : ∀ d ∈ rest, isNameChar d = true) :
      IsName (c :: rest)

/-- A placeholder, as written, and its name. -/
inductive IsPlaceholder : List Char → String → Prop
  | intro {before name after : List Char} (blankBefore : ∀ c ∈ before, isBlank c = true) (isName : IsName name)
      (blankAfter : ∀ c ∈ after, isBlank c = true) :
      IsPlaceholder ('{' :: '{' :: (before ++ (name ++ (after ++ ['}', '}'])))) (String.ofList name)

/-- A text with its placeholders replaced: the first one by its value, then those in the text behind it. -/
inductive Substituted (value : String → List Char) : List Char → List Char → Prop
  | none {s : List Char} (free : Pattern.Free IsPlaceholder s) : Substituted value s s
  | first {s before mark rest out : List Char} {name : String}
      (found : Pattern.First IsPlaceholder s before mark name rest) (more : Substituted value rest out) :
      Substituted value s (before ++ (value name ++ out))

/-! ### Placeholders -/

theorem isNameChar_of_isNameStart {c : Char} (h : isNameStart c = true) : isNameChar c = true := by
  simp only [isNameStart, isNameChar, Char.isAlphanum, Bool.or_eq_true] at h ⊢
  exact h.imp_left Or.inl

theorem isBlank_of_isNameChar {c : Char} (h : isNameChar c = true) : isBlank c = false := by
  simp only [isNameChar, Bool.or_eq_true, beq_iff_eq] at h
  rcases h with h | rfl
  · exact isBlank_of_isAlphanum h
  · decide

theorem isNameChar_of_isBlank {c : Char} (h : isBlank c = true) : isNameChar c = false := by
  refine Bool.eq_false_iff.mpr fun hname => ?_
  rw [isBlank_of_isNameChar hname] at h
  cases h

theorem IsName.isNameChar {name : List Char} (h : IsName name) : ∀ c ∈ name, isNameChar c = true := by
  obtain ⟨start, more⟩ := h
  exact List.forall_mem_cons.mpr ⟨isNameChar_of_isNameStart start, more⟩

theorem isName_iff {name : List Char} :
    IsName name ↔ name.head?.any isNameStart = true ∧ ∀ c ∈ name, isNameChar c = true := by
  constructor
  · intro h
    refine ⟨?_, h.isNameChar⟩
    obtain ⟨start, -⟩ := h
    simpa using start
  · rintro ⟨hstart, hchars⟩
    cases name with
    | nil => cases hstart
    | cons c rest => exact .intro (by simpa using hstart) (List.forall_mem_cons.mp hchars).2

/-- What a run of characters is cut off before. -/
theorem takeWhile_dropWhile_append {p : Char → Bool} {run rest : List Char} (hrun : ∀ c ∈ run, p c = true)
    (hrest : ∀ c, rest.head? = some c → p c = false) :
    (run ++ rest).takeWhile p = run ∧ (run ++ rest).dropWhile p = rest := by
  rw [List.takeWhile_append_of_pos hrun, List.dropWhile_append_of_pos hrun]
  cases rest with
  | nil => simp
  | cons c rest =>
    have hc : ¬p c = true := by simp [hrest c rfl]
    rw [List.takeWhile_cons_of_neg hc, List.dropWhile_cons_of_neg hc, List.append_nil]
    exact ⟨rfl, rfl⟩

/-- The parts of a placeholder are read as they were put together. -/
theorem placeholderParts_append {before name after : List Char} (rest : List Char)
    (hbefore : ∀ c ∈ before, isBlank c = true) (hname : IsName name) (hafter : ∀ c ∈ after, isBlank c = true) :
    placeholderParts (before ++ (name ++ (after ++ '}' :: rest))) = ⟨before, name, after, '}' :: rest⟩ := by
  have hstart : ∀ c, (name ++ (after ++ '}' :: rest)).head? = some c → isBlank c = false := by
    obtain ⟨start, -⟩ := hname
    rintro c ⟨⟩
    exact isBlank_of_isNameChar (isNameChar_of_isNameStart start)
  have hend : ∀ c, (after ++ '}' :: rest).head? = some c → isNameChar c = false := by
    cases after with
    | nil => rintro c ⟨⟩; rfl
    | cons d after => rintro c ⟨⟩; exact isNameChar_of_isBlank (hafter d List.mem_cons_self)
  have hclose : ∀ c, ('}' :: rest).head? = some c → isBlank c = false := by
    rintro c ⟨⟩
    decide
  obtain ⟨htake, hdrop⟩ := takeWhile_dropWhile_append hbefore hstart
  obtain ⟨htake', hdrop'⟩ := takeWhile_dropWhile_append hname.isNameChar hend
  obtain ⟨htake'', hdrop''⟩ := takeWhile_dropWhile_append hafter hclose
  simp only [placeholderParts, htake, hdrop, htake', hdrop', htake'', hdrop'']

theorem isPlaceholder_of_match {s : List Char} {m : Match String} (h : placeholderMatch? s = some m) :
    IsPlaceholder m.text m.value := by
  unfold placeholderMatch? at h
  split at h
  · simp only at h
    split at h
    · split at h
      · rename_i hstart
        cases h
        refine .intro (fun c => List.mem_takeWhile_imp) (isName_iff.mpr ⟨hstart, fun c => List.mem_takeWhile_imp⟩)
          fun c => List.mem_takeWhile_imp
      · cases h
    · cases h
  · cases h

theorem match_of_isPlaceholder {t rest : List Char} {name : String} (h : IsPlaceholder t name) :
    placeholderMatch? (t ++ rest) = some ⟨name, t, rest⟩ := by
  obtain @⟨before, name, after, hbefore, hname, hafter⟩ := h
  have hparts := placeholderParts_append ('}' :: rest) hbefore hname hafter
  have hwhole : '{' :: '{' :: (before ++ (name ++ (after ++ ['}', '}']))) ++ rest =
      '{' :: '{' :: (before ++ (name ++ (after ++ '}' :: '}' :: rest))) := by simp
  rw [hwhole, placeholderMatch?]
  simp only [hparts, (isName_iff.mp hname).1, if_true]

theorem placeholder_spells : placeholder.Spells IsPlaceholder := by
  intro s m
  constructor
  · exact fun h => ⟨placeholder.eq_append h, isPlaceholder_of_match h⟩
  · rintro ⟨rfl, h⟩
    exact match_of_isPlaceholder h

/-! ### Replacing -/

namespace Text.Pattern
variable {α : Type} {p : Pattern α} {s : List Char} {f : α → List Char}

theorem replace_of_none (hn : p.search s = none) : (p.cut s).replace f = s := by
  simp [cut_of_none hn, Pieces.replace]

theorem replace_of_some {h : Hit α} (found : p.search s = some h) :
    (p.cut s).replace f = h.before ++ (f h.value ++ (p.cut h.rest).replace f) := by
  simp [cut_of_some found, Pieces.replace]

end Text.Pattern

theorem substituted_iff {value : String → List Char} {s out : List Char} :
    Substituted value s out ↔ out = (placeholder.cut s).replace value := by
  constructor
  · intro h
    induction h with
    | none free => rw [Pattern.replace_of_none (placeholder_spells.search_eq_none_iff.mpr free)]
    | first found more ih =>
      rename_i s before mark rest out name
      have hsearch : placeholder.search s = some ⟨⟨name, mark, rest⟩, before⟩ :=
        placeholder_spells.search_eq_some_iff.mpr found
      rw [Pattern.replace_of_some hsearch, ← ih]
  · rintro rfl
    induction hn : s.length using Nat.strong_induction_on generalizing s with
    | _ n ih =>
      cases found : placeholder.search s with
      | none =>
        rw [Pattern.replace_of_none found]
        exact .none (placeholder_spells.search_eq_none_iff.mp found)
      | some h =>
        rw [Pattern.replace_of_some found]
        exact .first (placeholder_spells.search_eq_some_iff.mp found)
          (ih _ (hn ▸ Pattern.rest_length_lt found) rfl)

/-! ### Templates -/

namespace Template

/-- A variable has a value, among the overrides or among the values stored. -/
def HasValue (t : Template) (overrides : Dict String) (name : String) : Prop :=
  ∃ v, overrides.get? name = some v ∨ t.stored.get? name = some v

/-- What is put in the place of a variable: the override, else the value stored, else nothing. -/
def inserted (t : Template) (overrides : Dict String) (name : String) : List Char :=
  match overrides.get? name, t.stored.get? name with
  | some v, _ => v.toList
  | none, some v => v.toList
  | none, none => []

/-- The first of the required variables without a value. -/
def FirstMissing (t : Template) (overrides : Dict String) (name : String) : Prop :=
  ∃ before after, t.required = before ++ name :: after ∧ ¬t.HasValue overrides name ∧
    ∀ earlier ∈ before, t.HasValue overrides earlier

section
variable {t : Template} {overrides : Dict String}

theorem inserted_eq (t : Template) (overrides : Dict String) (name : String) :
    t.inserted overrides name = ((t.value? overrides name).getD "").toList := by
  rw [inserted, value?]
  cases overrides.get? name <;> cases t.stored.get? name <;> rfl

theorem hasValue_iff {name : String} : t.HasValue overrides name ↔ (t.value? overrides name).isSome = true := by
  rw [HasValue, value?, Option.isSome_or, Bool.or_eq_true, exists_or, Option.isSome_iff_exists, Option.isSome_iff_exists]

theorem not_hasValue_iff {name : String} : ¬t.HasValue overrides name ↔ (t.value? overrides name).isNone = true := by
  rw [hasValue_iff, Option.not_isSome_iff_eq_none, Option.isNone_iff_eq_none]

theorem render_of_hasValue (h : ∀ name ∈ t.required, t.HasValue overrides name) :
    t.render overrides = .ok (String.ofList (t.pieces.replace (t.inserted overrides))) := by
  have hnone : (t.required.find? fun name => (t.value? overrides name).isNone) = none :=
    List.find?_eq_none.mpr fun name hname => not_hasValue_iff.not.mp (not_not_intro (h name hname))
  rw [render, hnone, funext (inserted_eq t overrides)]

theorem render_of_firstMissing {name : String} (h : t.FirstMissing overrides name) :
    t.render overrides = .error (.missingVariable name) := by
  obtain ⟨before, after, hrequired, hname, hbefore⟩ := h
  have hsome : (t.required.find? fun name => (t.value? overrides name).isNone) = some name := by
    refine List.find?_eq_some_iff_append.mpr ⟨not_hasValue_iff.mp hname, before, after, hrequired, fun earlier he => ?_⟩
    simpa using hasValue_iff.mp (hbefore earlier he)
  rw [render, hsome]

theorem exists_firstMissing (h : ¬∀ name ∈ t.required, t.HasValue overrides name) :
    ∃ name, t.FirstMissing overrides name := by
  obtain ⟨missing, hmissing⟩ := Classical.not_forall.mp h
  obtain ⟨hmem, hvalue⟩ := Classical.not_imp.mp hmissing
  obtain ⟨name, hfind⟩ := Option.isSome_iff_exists.mp
    (List.find?_isSome.mpr ⟨missing, hmem, not_hasValue_iff.mp hvalue⟩ :
      (t.required.find? fun name => (t.value? overrides name).isNone).isSome = true)
  obtain ⟨hname, before, after, hrequired, hbefore⟩ := List.find?_eq_some_iff_append.mp hfind
  refine ⟨name, before, after, hrequired, not_hasValue_iff.mpr hname, fun earlier he => hasValue_iff.mpr ?_⟩
  simpa using hbefore earlier he

/-- What a template renders to hangs on the values of its placeholders and of the required variables alone. -/
theorem render_congr {t' : Template} {overrides' : Dict String} (htext : t'.text = t.text)
    (hrequired : t'.required = t.required)
    (hvalues : ∀ name, name ∈ t.placeholders ∨ name ∈ t.required → t'.value? overrides' name = t.value? overrides name) :
    t'.render overrides' = t.render overrides := by
  have hmissing : (t.required.find? fun name => (t'.value? overrides' name).isNone) =
      t.required.find? fun name => (t.value? overrides name).isNone :=
    List.find?_congr fun name hname => by rw [hvalues name (Or.inr hname)]
  have hpieces : (t.pieces.replace fun name => ((t'.value? overrides' name).getD "").toList) =
      t.pieces.replace fun name => ((t.value? overrides name).getD "").toList := by
    refine congrArg (· ++ t.pieces.last) (List.flatMap_congr fun hit hhit => ?_)
    have hname : hit.2.value ∈ t.placeholders :=
      List.mem_eraseDups.mpr (List.mem_map_of_mem (f := fun hit : List Char × Match String => hit.2.value) hhit)
    simp only [hvalues _ (Or.inl hname)]
  rw [render, render, hrequired, pieces, htext, ← pieces, hmissing, hpieces]

/-- Variables set one after the other. -/
theorem foldl_setVariable (t : Template) (order : List (String × String)) :
    order.foldl (fun t e => t.setVariable e.1 e.2) t =
      { t with stored := order.foldl (fun d e => d.insert e.1 e.2) t.stored } := by
  induction order generalizing t with
  | nil => rfl
  | cons e order ih => rw [List.foldl_cons, ih]; rfl

theorem render_foldl_setVariable {order : List (String × String)} (h : order.Perm overrides.entries) :
    (order.foldl (fun t e => t.setVariable e.1 e.2) t).render .empty = t.render overrides := by
  rw [foldl_setVariable]
  refine render_congr rfl rfl fun name _ => ?_
  simp only [value?, Dict.get?_empty, Option.none_or, Dict.get?_foldl_insert_of_perm h]

end

/-- If every required variable has a value, then rendering gives the text with its placeholders replaced, and no other
    text; else it fails with the first required variable without one. The outcome hangs on the values of the placeholders
    and of the required variables alone, and to set a variable to each override first, in whatever order, comes to the
    same. -/
theorem render_substituted (t : Template) (overrides : Dict String) :
    ((∀ name ∈ t.required, t.HasValue overrides name) → ∃ out, t.render overrides = .ok out ∧
      ∀ s, Substituted (t.inserted overrides) t.text.toList s ↔ s = out.toList) ∧
    ((¬∀ name ∈ t.required, t.HasValue overrides name) →
      ∃ name, t.FirstMissing overrides name ∧ t.render overrides = .error (.missingVariable name)) ∧
    (∀ (t' : Template) (overrides' : Dict String), t'.text = t.text → t'.required = t.required →
      (∀ name, name ∈ t.placeholders ∨ name ∈ t.required → t'.value? overrides' name = t.value? overrides name) →
      t'.render overrides' = t.render overrides) ∧
    ∀ order : List (String × String), order.Perm overrides.entries →
      (order.foldl (fun t e => t.setVariable e.1 e.2) t).render .empty = t.render overrides := by
  refine ⟨fun h => ⟨_, render_of_hasValue h, fun s => ?_⟩, fun h => ?_, fun _ _ => render_congr, fun order h => ?_⟩
  · rw [substituted_iff, String.toList_ofList, pieces]
  · obtain ⟨name, hname⟩ := exists_firstMissing h
    exact ⟨name, hname, render_of_firstMissing hname⟩
  · exact render_foldl_setVariable h

example : ((Template.ofText "\x7b\x7b\x7ba\x7d\x7d\x7d \x7b\x7bb \x7d\x7d").setVariable "a" "\x7b\x7bb\x7d\x7d").render .empty =
    .ok "\x7b\x7b\x7bb\x7d\x7d\x7d " := by cbv

end Template

end ToolScript
