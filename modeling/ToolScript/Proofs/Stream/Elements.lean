import ToolScript.Proofs.Stream.Hiding
import ToolScript.Proofs.Text.Classes
import ToolScript.Proofs.Text.Spelling
import ToolScript.Stream.Element

/-! # Elements hidden in chunks

    The tags of elements are lawful marks, whatever the names of the elements are, as long as no name has a bracket of
    a tag in it: then a tag has one bracket at its beginning and one at its end, and of two opening tags in one place
    each is the other. -/

namespace ToolScript.Stream
open Text Text.Pattern

/-- The opening tag of one of the names, blanks around it and ASCII case aside. It opens what the closing tag of the
    same name closes. -/
def ElementStart (names : List String) (t closing : List Char) : Prop :=
  ∃ name ∈ names, trim name.toList ≠ [] ∧ t.map Char.toUpper = (openingOf (trim name.toList)).map Char.toUpper ∧
    closing = (closingOf (trim name.toList)).map Char.toUpper

/-- The closing tag that is awaited, in any ASCII case. -/
def ElementStop (closing t : List Char) (_ : Unit) : Prop :=
  closing ≠ [] ∧ t.map Char.toUpper = closing

/-! ### Tags in upper case -/

theorem map_toUpper_openingOf (name : List Char) :
    (openingOf name).map Char.toUpper = openingOf (name.map Char.toUpper) := by
  simp only [openingOf, List.map_cons, List.map_append, List.map_nil]
  rfl

theorem map_toUpper_closingOf (name : List Char) :
    (closingOf name).map Char.toUpper = closingOf (name.map Char.toUpper) := by
  simp only [closingOf, List.map_cons, List.map_append, List.map_nil]
  rfl

theorem utf8Size_openingOf (name : List Char) : utf8Size (openingOf name) = utf8Size name + 2 := by
  simp only [openingOf, utf8Size_cons, utf8Size_append, utf8Size_nil]
  show 1 + (utf8Size name + (1 + 0)) = _
  omega

theorem utf8Size_closingOf (name : List Char) : utf8Size (closingOf name) = utf8Size name + 3 := by
  simp only [closingOf, utf8Size_cons, utf8Size_append, utf8Size_nil]
  show 1 + (1 + (utf8Size name + (1 + 0))) = _
  omega

theorem sameUpper_mark_iff {ls t : List Char} :
    List.Forall₂ (fun l c => sameUpper l c = true) ls t ↔ t.map Char.toUpper = ls := by
  simp only [sameUpper, beq_iff_eq]
  rw [← List.forall₂_map_right_iff (f := Char.toUpper) (R := fun a b => a = b), List.forall₂_eq_eq_eq]
  exact eq_comm

theorem elementStart_iff {names : List String} {t closing : List Char} :
    ElementStart names t closing ↔
      ∃ name ∈ elementNames names, t.map Char.toUpper = openingOf name ∧ closing = closingOf name := by
  simp only [ElementStart, elementNames, List.mem_filter, List.mem_map, map_toUpper_openingOf, map_toUpper_closingOf]
  constructor
  · rintro ⟨name, hname, hne, ht, hclosing⟩
    exact ⟨_, ⟨⟨name, hname, rfl⟩, by simpa using hne⟩, ht, hclosing⟩
  · rintro ⟨_, ⟨⟨name, hname, rfl⟩, hne⟩, ht, hclosing⟩
    exact ⟨name, hname, by simpa using hne, ht, hclosing⟩

/-- A name without brackets of tags. -/
structure Bracketless (name : List Char) : Prop where
  opening : '<' ∉ name
  closing : '>' ∉ name

theorem bracketless_of_mem_elementNames {names : List String} (h : ∀ name ∈ names, Bracketless (trim name.toList))
    {name : List Char} (hname : name ∈ elementNames names) : Bracketless name := by
  obtain ⟨hmem, -⟩ := List.mem_filter.mp hname
  obtain ⟨written, hwritten, rfl⟩ := List.mem_map.mp hmem
  obtain ⟨hopen, hclose⟩ := h written hwritten
  exact ⟨fun hc => hopen (mem_of_mem_map_toUpper (by decide) hc), fun hc => hclose (mem_of_mem_map_toUpper (by decide) hc)⟩

section
variable {name name' t t' r r' : List Char}

theorem Bracketless.eq_of_openings (h : Bracketless name) (h' : Bracketless name')
    (heq : openingOf name ++ r = openingOf name' ++ r') : name = name' := by
  have hpre : name ++ ['>'] <+: (openingOf name ++ r).tail := ⟨r, by simp [openingOf]⟩
  have hpre' : name' ++ ['>'] <+: (openingOf name ++ r).tail := ⟨r', by rw [heq]; simp [openingOf]⟩
  exact eq_of_ended_prefix hpre hpre' h.closing h'.closing

/-- The closing tag of a name begins no text that its opening tag begins. -/
theorem Bracketless.opening_ne_closing (h : Bracketless name) : openingOf name ++ r ≠ closingOf name ++ r' := by
  intro heq
  have hslash : Bracketless ('/' :: name) := by
    refine ⟨?_, ?_⟩
    · simp [h.opening]
    · simp [h.closing]
  have hnames : name = '/' :: name := h.eq_of_openings hslash (r := r) heq
  simpa using congrArg List.length hnames

theorem Bracketless.not_mem_tail (h : Bracketless name) (ht : t.map Char.toUpper = openingOf name) : '<' ∉ t.tail := by
  intro hc
  have hmem : Char.toUpper '<' ∈ t.tail.map Char.toUpper := List.mem_map_of_mem hc
  rw [List.map_tail, ht] at hmem
  have hopen := h.opening
  simp [openingOf] at hmem
  exact hopen hmem

theorem head_of_map_toUpper {s : List Char} (ht : t.map Char.toUpper = '<' :: s) : t.head? = some '<' := by
  obtain ⟨c, t, rfl, hc, -⟩ := List.map_eq_cons_iff.mp ht
  rw [eq_of_toUpper_eq (by decide) hc]
  rfl

end

/-! ### The marks of elements -/

theorem elementMarkers_starts {names : List String} (h : ∀ name ∈ names, Bracketless (trim name.toList)) :
    (elementMarkers (elementNames names)).start.Spells (ElementStart names) := by
  refine oneOf_spells (fun s m => ?_) ?_
  · have hletters : ∀ name : List Char, (Pattern.letters sameUpper (openingOf name)).Spells _ := fun name =>
      letters_spells (by simp [openingOf])
    have hspells := fun name : List Char => (hletters name).map fun _ => closingOf name
    simp only [List.mem_map, exists_exists_and_eq_and, elementStart_iff]
    constructor
    · rintro ⟨name, hname, hm⟩
      obtain ⟨hs, -, ht, hclosing⟩ := (hspells name s m).mp hm
      exact ⟨hs, name, hname, sameUpper_mark_iff.mp ht, hclosing⟩
    · rintro ⟨hs, name, hname, ht, hclosing⟩
      exact ⟨name, hname, (hspells name s m).mpr ⟨hs, (), sameUpper_mark_iff.mpr ht, hclosing⟩⟩
  · intro t closing t' closing' r r' hmark hmark' heq
    obtain ⟨name, hname, ht, rfl⟩ := elementStart_iff.mp hmark
    obtain ⟨name', hname', ht', rfl⟩ := elementStart_iff.mp hmark'
    have hupper := congrArg (List.map Char.toUpper) heq
    rw [List.map_append, List.map_append, ht, ht'] at hupper
    obtain rfl := (bracketless_of_mem_elementNames h hname).eq_of_openings (bracketless_of_mem_elementNames h hname') hupper
    have hlen : t.length = t'.length := by
      have := congrArg List.length (ht.trans ht'.symm)
      simpa using this
    exact ⟨List.append_inj_left heq hlen, rfl⟩

theorem elementMarkers_stops (names : List (List Char)) (closing : List Char) :
    ((elementMarkers names).stop closing).Spells (ElementStop closing) := by
  by_cases hne : closing = []
  · subst hne
    intro s m
    refine ⟨fun h => ?_, fun h => absurd rfl h.2.1⟩
    simp [elementMarkers, letters, Pattern.map, Pattern.classes] at h
  · refine (letters_spells hne).congr fun t _ => ?_
    rw [sameUpper_mark_iff, ElementStop]
    simp [hne]

theorem elementMarkers_lawful {names : List String} (h : ∀ name ∈ names, Bracketless (trim name.toList)) :
    (elementMarkers (elementNames names)).Lawful (ElementStart names) ElementStop where
  starts := elementMarkers_starts h
  stops := elementMarkers_stops _
  startsApart := by
    intro t _ t' _ a b hmark hmark' heq
    obtain ⟨name, hname, ht, -⟩ := elementStart_iff.mp hmark
    obtain ⟨name', -, ht', -⟩ := elementStart_iff.mp hmark'
    exact eq_nil_of_not_mem_tail ((bracketless_of_mem_elementNames h hname).not_mem_tail ht) (head_of_map_toUpper ht') heq
  stopsApart closing := by
    intro t _ t' _ a b hmark hmark' heq
    have hlen := congrArg List.length (hmark.2.trans hmark'.2.symm)
    have hlen' := congrArg List.length heq
    simp only [List.length_map, List.length_append] at hlen hlen'
    exact List.length_eq_zero_iff.mp (by omega)
  stopAfterStart := by
    intro t closing t' a b r hmark hstop heq
    refine Nat.le_of_not_lt fun hlt => ?_
    obtain ⟨name, hname, ht, rfl⟩ := elementStart_iff.mp hmark
    have hbrackets := bracketless_of_mem_elementNames h hname
    obtain ⟨x, hx, rfl, hend⟩ := exists_end_of_length_lt heq hlt
    -- The end mark begins with the one opening bracket of the start mark.
    have hhead : x.head? = some '<' := by
      obtain ⟨c, x, rfl⟩ := List.exists_cons_of_ne_nil hx
      have := head_of_map_toUpper hstop.2
      rw [← this, ← List.head?_append_of_ne_nil t' (by rintro rfl; cases this), ← hend]
      rfl
    obtain rfl : a = [] := eq_nil_of_not_mem_tail (b := []) (hbrackets.not_mem_tail ht) hhead (by simp)
    have hupper := congrArg (List.map Char.toUpper) hend
    rw [List.nil_append] at ht
    rw [List.map_append, List.map_append, ht, hstop.2] at hupper
    exact hbrackets.opening_ne_closing hupper
  stopSize := by
    intro t closing t' hmark hstop _
    obtain ⟨name, hname, -, rfl⟩ := elementStart_iff.mp hmark
    have hsize : utf8Size t' = utf8Size name + 3 := by
      rw [← utf8Size_map_toUpper, hstop.2, utf8Size_closingOf]
    rw [hsize]
    exact List.le_max?_getD_of_mem (List.mem_map_of_mem hname)
  couldStart := by
    intro t closing a b hmark heq _ _
    obtain ⟨name, hname, ht, -⟩ := elementStart_iff.mp hmark
    refine List.any_eq_true.mpr ⟨name, hname, List.isPrefixOf_iff_prefix.mpr ?_⟩
    rw [← ht, heq, List.map_append]
    exact List.prefix_append _ _
  startSize := by
    intro t closing hmark
    obtain ⟨name, hname, ht, -⟩ := elementStart_iff.mp hmark
    have hsize : utf8Size t = utf8Size name + 2 := by
      rw [← utf8Size_map_toUpper, ht, utf8Size_openingOf]
    rw [hsize]
    exact List.le_max?_getD_of_mem (List.mem_map_of_mem hname)

/-- However a text is cut, what is shown of it is what `hide` leaves of it, which is what the tags of the names say. -/
theorem run_elements_eq_hide {names : List String} (h : ∀ name ∈ names, '<' ∉ trim name.toList ∧ '>' ∉ trim name.toList)
    (chunks : List (List Char)) :
    let m := elementMarkers (elementNames names)
    m.run chunks = m.hide chunks.flatten ∧
      ∀ out, Shown (ElementStart names) ElementStop chunks.flatten out ↔ out = m.hide chunks.flatten := by
  have hnames : ∀ name ∈ names, Bracketless (trim name.toList) := fun name hname => ⟨(h name hname).1, (h name hname).2⟩
  have L := elementMarkers_lawful hnames
  exact ⟨L.runFrom_eq (Markers.drained_initial _) chunks, fun out => L.shown_iff⟩

/-- Names with blanks and other letters, one the beginning of another, one with a slash, a repeated and a blank one. -/
def oddNames : List String := [" Mood", "mood x\t", "/mood", "é", "É", "MOOD", "\t "]

theorem run_elements_eq_hide_oddNames :
    (∀ name ∈ oddNames, '<' ∉ trim name.toList ∧ '>' ∉ trim name.toList) ∧
      (elementMarkers (elementNames oddNames)).run ["a <mo".toList, "od>b</Mood x></".toList, "MOOD> c<é>".toList] =
        (elementMarkers (elementNames oddNames)).hide "a <mood>b</Mood x></MOOD> c<é>".toList :=
  have h : ∀ name ∈ oddNames, '<' ∉ trim name.toList ∧ '>' ∉ trim name.toList := by decide
  ⟨h, (run_elements_eq_hide h _).1⟩

end ToolScript.Stream
