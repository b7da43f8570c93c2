/-! # Sizes of texts in UTF-8

    Limits and positions of the library count either characters (the length of the list) or the bytes of the
    UTF-8 form. The second measure is a sum over the characters, so it splits over `++`. -/

namespace ToolScript.Text

/-- The number of bytes of a text in UTF-8. -/
def utf8Size (s : List Char) : Nat :=
  s.foldl (fun n c => n + c.utf8Size) 0

private theorem foldl_utf8Size (s : List Char) (n : Nat) :
    s.foldl (fun n c => n + c.utf8Size) n = n + utf8Size s := by
  induction s generalizing n with
  | nil => rfl
  | cons c s ih => rw [utf8Size, List.foldl_cons, List.foldl_cons, ih, ih (0 + _)]; omega

@[simp] theorem utf8Size_nil : utf8Size [] = 0 := rfl

@[simp] theorem utf8Size_cons (c : Char) (s : List Char) : utf8Size (c :: s) = c.utf8Size + utf8Size s := by
  rw [utf8Size, List.foldl_cons, foldl_utf8Size]; omega

@[simp] theorem utf8Size_append (s t : List Char) : utf8Size (s ++ t) = utf8Size s + utf8Size t := by
  induction s with
  | nil => simp
  | cons c s ih => simp [ih, Nat.add_assoc]

theorem length_le_utf8Size (s : List Char) : s.length ≤ utf8Size s := by
  induction s with
  | nil => simp
  | cons c s ih => have := c.utf8Size_pos; simp only [List.length_cons, utf8Size_cons]; omega

/-- A text of ASCII characters has a byte for each of them. -/
theorem utf8Size_eq_length {s : List Char} (h : ∀ c ∈ s, c.toNat < 128) : utf8Size s = s.length := by
  induction s with
  | nil => rfl
  | cons c s ih =>
    have hc : c.utf8Size = 1 :=
      Char.utf8Size_eq_one_iff.mpr (UInt32.le_iff_toNat_le.mpr (Nat.le_of_lt_succ (h c List.mem_cons_self)))
    rw [utf8Size_cons, List.length_cons, hc, ih fun d hd => h d (List.mem_cons_of_mem _ hd)]
    omega

end ToolScript.Text
