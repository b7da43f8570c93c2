import Mathlib
import ToolScript.Proofs.Text.Classes
import ToolScript.Text.Key

/-! # Normal forms are normal

    What a character becomes in lower case is in lower case already and joins no words, so the normal form of a name
    is its own normal form. For the runs of capitals outside ASCII this is checked run by run (`LowerRun.settles`):
    the small letters of a run are evenly spaced, and no run of capitals covers any of them. -/

namespace ToolScript.Text

/-! ### Runs -/

namespace LowerRun

/-- The distance of the capitals of a run, and nothing if it has but one. -/
def stride (r : LowerRun) : Nat :=
  if r.first = r.last then 0 else r.step

/-- Whether it is plain that the run covers no number from `a` to `b` in steps of `stride`. -/
def avoids (r : LowerRun) (a b stride : Nat) : Bool :=
  Nat.blt b r.first || Nat.blt r.last a || (stride % r.step == 0 && a % r.step != r.first % r.step)

/-- Whether the small letters of a run are plain to be characters with no lower case, and no joiners. -/
def settles (r : LowerRun) : Bool :=
  let a := (r.first + r.offset).toNat
  let b := (r.last + r.offset).toNat
  decide (97 ≤ a) && (decide (b < 0xD800) || decide (0xDFFF < a) && decide (b < 0x110000)) &&
    lowerRuns.all (·.avoids a b r.stride) && !(decide (a ≤ 0x130) && decide (0x130 ≤ b))

theorem all_settles : lowerRuns.all settles = true := by decide +kernel

theorem not_covers_of_avoids {r : LowerRun} {a b stride k : Nat} (h : r.avoids a b stride = true)
    (hb : a + k * stride ≤ b) : r.covers (a + k * stride) = false := by
  simp only [avoids, Nat.blt_eq, Bool.or_eq_true, Bool.and_eq_true, beq_iff_eq, bne_iff_ne] at h
  refine Bool.eq_false_iff.mpr fun hcov => ?_
  simp only [covers, Bool.and_eq_true, decide_eq_true_eq, beq_iff_eq] at hcov
  obtain ⟨⟨hfirst, hlast⟩, hmod⟩ := hcov
  rcases h with (h | h) | ⟨hstride, hne⟩
  · omega
  · omega
  · refine hne ?_
    have hmul : k * stride % r.step = 0 := by rw [Nat.mul_mod, hstride, Nat.mul_zero, Nat.zero_mod]
    have hleft : (a + k * stride) % r.step = a % r.step := by rw [Nat.add_mod, hmul, Nat.add_zero, Nat.mod_mod]
    have hright : (a + k * stride) % r.step = r.first % r.step := by
      conv => lhs; rw [← Nat.sub_add_cancel hfirst]
      rw [Nat.add_mod, hmod, Nat.zero_add, Nat.mod_mod]
    exact hleft.symm.trans hright

theorem exists_strides {r : LowerRun} {n : Nat} (h : r.covers n = true) : n ≤ r.last ∧ ∃ k, n = r.first + k * r.stride := by
  simp only [covers, Bool.and_eq_true, decide_eq_true_eq, beq_iff_eq] at h
  obtain ⟨⟨hfirst, hlast⟩, hmod⟩ := h
  refine ⟨hlast, ?_⟩
  rw [stride]
  split
  · exact ⟨0, by omega⟩
  · refine ⟨(n - r.first) / r.step, ?_⟩
    rw [Nat.div_mul_cancel (Nat.dvd_of_mod_eq_zero hmod)]
    omega

end LowerRun

/-! ### Characters -/

/-- A character that is its own lower case, and no joiner. -/
def Settled (c : Char) : Prop :=
  lower c = [c] ∧ isJoiner c = false

theorem settled_of_not_covers {d : Char} (h : lowerRuns.find? (·.covers d.toNat) = none) (hmin : 97 ≤ d.toNat)
    (hdot : d.toNat ≠ 0x130) : Settled d := by
  have hne : ∀ e : Char, e.toNat ≠ d.toNat → d ≠ e := by
    rintro e he rfl
    exact he rfl
  refine ⟨?_, ?_⟩
  · rw [lower, h, if_neg (hne '\u0130' (Ne.symm hdot))]
    split
    · rw [Char.toLower_eq_of_not_isUpper]
      simp only [Char.isUpper, decide_eq_true_eq, UInt32.le_iff_toNat_le]
      rintro ⟨-, hmax⟩
      have : d.toNat ≤ 90 := hmax
      omega
    · rfl
  · have hline := hne '_' (by change 95 ≠ _; omega)
    have hhyphen := hne '-' (by change 45 ≠ _; omega)
    simp [isJoiner, hline, hhyphen]

theorem settled_of_covers {r : LowerRun} (hr : r ∈ lowerRuns) {n : Nat} (hn : r.covers n = true) :
    Settled (Char.ofNat (n + r.offset).toNat) := by
  have hset := List.all_eq_true.mp LowerRun.all_settles r hr
  simp only [LowerRun.settles, Bool.and_eq_true, Bool.or_eq_true, decide_eq_true_eq, Bool.not_eq_true',
    Bool.and_eq_false_iff, decide_eq_false_iff_not, List.all_eq_true] at hset
  obtain ⟨⟨⟨hmin, hvalid⟩, havoids⟩, hdot⟩ := hset
  obtain ⟨hlast, k, rfl⟩ := LowerRun.exists_strides hn
  have hm : ((r.first + k * r.stride : Nat) + r.offset).toNat = (r.first + r.offset).toNat + k * r.stride := by omega
  have hle : (r.first + r.offset).toNat + k * r.stride ≤ (r.last + r.offset).toNat := by omega
  rw [hm]
  generalize hmin' : (r.first + r.offset).toNat + k * r.stride = m at hle
  have htoNat : (Char.ofNat m).toNat = m := by
    rw [Char.toNat_ofNat, if_pos]
    rcases hvalid with h | ⟨h, h'⟩
    · exact Or.inl (by omega)
    · exact Or.inr ⟨by omega, by omega⟩
  have huncovered : lowerRuns.find? (·.covers (Char.ofNat m).toNat) = none := by
    rw [htoNat, ← hmin', List.find?_eq_none]
    intro q hq
    rw [LowerRun.not_covers_of_avoids (havoids q hq) (hmin' ▸ hle)]
    decide
  exact settled_of_not_covers huncovered (by omega) (by omega)

theorem settled_of_mem_lower {c d : Char} (hc : isJoiner c = false) (hd : d ∈ lower c) : Settled d := by
  rw [lower] at hd
  split at hd
  · rename_i hascii
    have hsmall : isJoiner c = false → lower c.toLower = [c.toLower] ∧ isJoiner c.toLower = false :=
      forall_ascii (P := fun c => isJoiner c = false → lower c.toLower = [c.toLower] ∧ isJoiner c.toLower = false)
        (by decide +kernel) hascii
    rw [List.mem_singleton.mp hd]
    exact hsmall hc
  · split at hd
    · rcases List.mem_cons.mp hd with rfl | hd
      · exact ⟨rfl, rfl⟩
      · rw [List.mem_singleton.mp hd]
        exact ⟨by decide +kernel, rfl⟩
    · rename_i hascii hdot
      split at hd
      · rename_i r hfind
        rw [List.mem_singleton.mp hd]
        have hcovers := List.find?_some hfind
        exact settled_of_covers (List.mem_of_find?_eq_some hfind) hcovers
      · rename_i hfind
        rw [List.mem_singleton.mp hd]
        refine ⟨?_, hc⟩
        simp only [lower, hascii, hdot, hfind, if_false]

/-! ### Names -/

theorem settled_of_mem_normalChars {c : Char} {s : List Char} (h : c ∈ normalChars s) : Settled c := by
  obtain ⟨d, hd, hc⟩ := List.mem_flatMap.mp h
  have hjoiner : isJoiner d = false := by simpa using (List.mem_filter.mp hd).2
  exact settled_of_mem_lower hjoiner hc

theorem normalChars_of_settled {s : List Char} (h : ∀ c ∈ s, Settled c) : normalChars s = s := by
  induction s with
  | nil => rfl
  | cons c s ih =>
    obtain ⟨⟨hlower, hjoiner⟩, hs⟩ := List.forall_mem_cons.mp h
    have := ih hs
    rw [normalChars] at this ⊢
    rw [List.filter_cons_of_pos (by simp [hjoiner]), List.flatMap_cons, hlower, this]
    rfl

/-- A normal form is its own normal form. -/
theorem normalKey_normalKey (name : String) : normalKey (normalKey name) = normalKey name := by
  have hchars := normalChars_of_settled (fun _ h => settled_of_mem_normalChars (s := name.toList) h)
  simp only [normalKey, String.toList_ofList, hchars]

end ToolScript.Text
