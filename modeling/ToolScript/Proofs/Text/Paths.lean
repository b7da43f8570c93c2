import Mathlib.Data.List.TakeWhile
import ToolScript.Text.Key

/-! # Names written with a path

    A name is a path that is empty or ends in a separator, a last component, and separators. The name that a call
    means is this component, whatever stands before and behind it. -/

namespace ToolScript.Text

/-- What can be the last component of a name. -/
structure IsComponent (component : List Char) : Prop where
  nonempty : component ≠ []
  plain : ∀ c ∈ component, isSeparator c = false

/-- A name has a last component: before it stands nothing or a path up to a separator, and behind it only separators. -/
def EndsIn (name component : String) : Prop :=
  IsComponent component.toList ∧ ∃ path tail : List Char, name.toList = path ++ component.toList ++ tail ∧
    (∀ c ∈ path.getLast?, isSeparator c = true) ∧ ∀ c ∈ tail, isSeparator c = true

/-! ### From the back -/

/-- What the search from the back for a component finds. -/
def lastRun (s : List Char) : List Char :=
  ((s.reverse.dropWhile isSeparator).takeWhile fun c => !isSeparator c).reverse

theorem lastRun_append {path component tail : List Char} (hcomponent : IsComponent component)
    (hpath : ∀ c ∈ path.getLast?, isSeparator c = true) (htail : ∀ c ∈ tail, isSeparator c = true) :
    lastRun (path ++ component ++ tail) = component := by
  have hstart : (component.reverse ++ path.reverse).dropWhile isSeparator = component.reverse ++ path.reverse := by
    cases hrev : component.reverse with
    | nil => exact absurd (List.reverse_eq_nil_iff.mp hrev) hcomponent.nonempty
    | cons c rest =>
      have hc : c ∈ component := List.mem_reverse.mp (hrev ▸ List.mem_cons_self)
      exact List.dropWhile_cons_of_neg (by simp [hcomponent.plain c hc])
  have hstop : path.reverse.takeWhile (fun c => !isSeparator c) = [] := by
    cases hrev : path.reverse with
    | nil => rfl
    | cons c rest =>
      have hc : path.getLast? = some c := by rw [List.getLast?_eq_head?_reverse, hrev, List.head?_cons]
      exact List.takeWhile_cons_of_neg (by simp [hpath c hc])
  -- From the back the tail is skipped, the component taken, and the path ends the run with its separator.
  rw [lastRun, List.reverse_append, List.reverse_append,
    List.dropWhile_append_of_pos fun c hc => htail c (List.mem_reverse.mp hc), hstart,
    List.takeWhile_append_of_pos fun c hc => by simp [hcomponent.plain c (List.mem_reverse.mp hc)], hstop,
    List.append_nil, List.reverse_reverse]

/-- Every text is divided by its last run of characters other than separators. -/
theorem lastRun_parts (s : List Char) : ∃ path tail : List Char, s = path ++ lastRun s ++ tail ∧
    (∀ c ∈ path.getLast?, isSeparator c = true) ∧ ∀ c ∈ tail, isSeparator c = true := by
  let rest := s.reverse.dropWhile isSeparator
  refine ⟨(rest.dropWhile fun c => !isSeparator c).reverse, (s.reverse.takeWhile isSeparator).reverse, ?_, ?_, ?_⟩
  · rw [lastRun, ← List.reverse_append, List.takeWhile_append_dropWhile, ← List.reverse_append,
      List.takeWhile_append_dropWhile, List.reverse_reverse]
  · intro c hc
    rw [List.getLast?_reverse] at hc
    have := List.head?_dropWhile_not (fun c => !isSeparator c) rest
    rw [hc] at this
    simpa using this
  · intro c hc
    exact List.mem_takeWhile_imp (List.mem_reverse.mp hc)

theorem plain_of_mem_lastRun {s : List Char} {c : Char} (h : c ∈ lastRun s) : isSeparator c = false := by
  simpa using List.mem_takeWhile_imp (List.mem_reverse.mp h)

theorem lastRun_of_plain {s : List Char} (h : ∀ c ∈ s, isSeparator c = false) : lastRun s = s := by
  rw [lastRun, List.dropWhile_eq_self_iff.mpr ?_, List.takeWhile_eq_self_iff.mpr ?_, List.reverse_reverse]
  · intro c hc
    simp [h c (List.mem_reverse.mp hc)]
  · intro hne
    rw [h _ (List.mem_reverse.mp (List.getElem_mem hne))]
    exact Bool.false_ne_true

/-! ### The name of a call -/

theorem toList_pathRepaired (name : String) : (pathRepaired name).toList = lastRun name.toList := by
  rw [pathRepaired, lastComponent?]
  split
  · rw [Option.getD_some, String.toList_ofList]
    rfl
  · rename_i hplain
    rw [Option.getD_none, lastRun_of_plain]
    simpa using hplain

/-- A call means the last component of the name it gives, if there is one. -/
theorem endsIn_iff {name component : String} : EndsIn name component ↔ pathRepaired name = component ∧ component ≠ "" := by
  constructor
  · rintro ⟨hcomponent, path, tail, hname, hpath, htail⟩
    refine ⟨String.toList_injective ?_, fun hempty => hcomponent.nonempty (by rw [hempty]; rfl)⟩
    rw [toList_pathRepaired, hname, lastRun_append hcomponent hpath htail]
  · rintro ⟨rfl, hne⟩
    refine ⟨⟨fun hnil => hne (String.toList_eq_nil_iff.mp hnil), fun c hc => ?_⟩, ?_⟩
    · rw [toList_pathRepaired] at hc
      simpa using List.mem_takeWhile_imp (List.mem_reverse.mp hc)
    · rw [toList_pathRepaired]
      exact lastRun_parts name.toList

end ToolScript.Text
