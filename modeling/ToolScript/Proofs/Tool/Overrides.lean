import ToolScript.Proofs.Data.Dict
import ToolScript.Proofs.Text.NormalKey
import ToolScript.Tool.Bridge

/-! # Tools of one dispatch in any order

    The tools of a dispatch form a map, and a map has no order of its own. A name finds the tool under its normal form
    in every order. Where there is none, it finds the first tool whose key has that normal form, and then the order
    shows if keys with one normal form have different tools. -/

namespace ToolScript.ExtraTools
open Text

variable {α : Type}

/-! ### One order -/

/-- A found tool stands under a key that has the normal form of the name. -/
theorem find?_key {order : ExtraTools α} {name : String} {a : α} (found : order.find? (normalKey name) = some a) :
    ∃ e ∈ order, normalKey e.1 = normalKey name ∧ e.2 = a := by
  obtain ⟨e, hfind, rfl⟩ := Option.map_eq_some_iff.mp found
  rcases Option.or_eq_some_iff.mp hfind with hexact | ⟨-, hscan⟩
  · have hkey : e.1 = normalKey name := by simpa using List.find?_some hexact
    exact ⟨e, List.mem_of_find?_eq_some hexact, by rw [hkey, normalKey_normalKey], rfl⟩
  · exact ⟨e, List.mem_of_find?_eq_some hscan, by simpa using List.find?_some hscan, rfl⟩

theorem find?_isSome_iff {order : ExtraTools α} {name : String} :
    (order.find? (normalKey name)).isSome = true ↔ ∃ e ∈ order, normalKey e.1 = normalKey name := by
  constructor
  · intro h
    obtain ⟨a, found⟩ := Option.isSome_iff_exists.mp h
    obtain ⟨e, he, hkey, -⟩ := find?_key found
    exact ⟨e, he, hkey⟩
  · rintro ⟨e, he, hkey⟩
    have hscan : (List.find? (fun e => normalKey e.1 == normalKey name) order).isSome = true :=
      List.find?_isSome.mpr ⟨e, he, by simpa using hkey⟩
    rw [find?, Option.isSome_map, Option.isSome_or, hscan, Bool.or_true]

/-! ### All orders of a map -/

/-- All keys of a map that have the normal form of a name have the same tool. -/
def Agree (tools : Dict α) (name : String) : Prop :=
  ∀ e ∈ tools.entries, ∀ f ∈ tools.entries, normalKey e.1 = normalKey name → normalKey f.1 = normalKey name → e.2 = f.2

/-- A name finds the same in any two orders of a map. -/
def OrderFree (tools : Dict α) (name : String) : Prop :=
  ∀ order order' : ExtraTools α, order.Perm tools.entries → order'.Perm tools.entries →
    order.find? (normalKey name) = order'.find? (normalKey name)

variable {tools : Dict α} {name : String}

theorem find?_exact {order : ExtraTools α} (h : order.Perm tools.entries) {key : String} {a : α}
    (ha : tools.get? key = some a) : order.find? key = some a := by
  have hmem : (key, a) ∈ order := h.mem_iff.mpr (Dict.get?_eq_some_iff.mp ha)
  obtain ⟨e, hfind⟩ := Option.isSome_iff_exists.mp
    (List.find?_isSome.mpr ⟨(key, a), hmem, beq_self_eq_true key⟩ : (List.find? (fun e => e.1 == key) order).isSome)
  have hkey : e.1 = key := by simpa using List.find?_some hfind
  have he : tools.get? key = some e.2 :=
    Dict.get?_eq_some_iff.mpr (hkey ▸ h.mem_iff.mp (List.mem_of_find?_eq_some hfind))
  rw [find?, hfind, Option.some_or, Option.map_some, ← he, ha]

theorem orderFree_of_contains (h : tools.contains (normalKey name) = true) : OrderFree tools name := by
  rw [Dict.contains_eq_isSome_get?] at h
  obtain ⟨a, ha⟩ := Option.isSome_iff_exists.mp h
  intro order order' hperm hperm'
  rw [find?_exact hperm ha, find?_exact hperm' ha]

theorem Agree.orderFree (hagree : Agree tools name) : OrderFree tools name := by
  intro order order' h h'
  cases hfound : order.find? (normalKey name) with
  | none =>
    refine (Option.not_isSome_iff_eq_none.mp fun hsome => ?_).symm
    obtain ⟨e, he, hkey⟩ := find?_isSome_iff.mp hsome
    have : (order.find? (normalKey name)).isSome = true := find?_isSome_iff.mpr ⟨e, (h.trans h'.symm).mem_iff.mpr he, hkey⟩
    rw [hfound] at this
    exact Bool.false_ne_true this
  | some a =>
    obtain ⟨e, he, hkey, rfl⟩ := find?_key hfound
    obtain ⟨b, hb⟩ := Option.isSome_iff_exists.mp
      (find?_isSome_iff.mpr ⟨e, (h.trans h'.symm).mem_iff.mp he, hkey⟩ : (order'.find? (normalKey name)).isSome = true)
    obtain ⟨f, hf, hkey', rfl⟩ := find?_key hb
    rw [hb, hagree e (h.mem_iff.mp he) f (h'.mem_iff.mp hf) hkey hkey']

/-- Any entry can come first, and is then found by every name of its normal form that is not itself a key. -/
theorem exists_order_find? (hno : tools.contains (normalKey name) = false) {e : String × α} (he : e ∈ tools.entries)
    (hkey : normalKey e.1 = normalKey name) :
    ∃ order : ExtraTools α, order.Perm tools.entries ∧ order.find? (normalKey name) = some e.2 := by
  obtain ⟨before, after, hsplit⟩ := List.append_of_mem he
  have hperm : (e :: (before ++ after)).Perm tools.entries := hsplit ▸ List.perm_middle.symm
  refine ⟨e :: (before ++ after), hperm, ?_⟩
  have hexact : List.find? (fun e => e.1 == normalKey name) (e :: (before ++ after)) = none := by
    refine List.find?_eq_none.mpr fun f hf hname => ?_
    have : tools.contains (normalKey name) = true := List.any_eq_true.mpr ⟨f, hperm.mem_iff.mp hf, hname⟩
    exact Bool.false_ne_true (hno.symm.trans this)
  rw [find?, hexact, Option.none_or, List.find?_cons_of_pos (by simpa using hkey), Option.map_some]

theorem OrderFree.agree (hfree : OrderFree tools name) (hno : tools.contains (normalKey name) = false) :
    Agree tools name := by
  intro e he f hf hkey hkey'
  obtain ⟨order, h, hfind⟩ := exists_order_find? hno he hkey
  obtain ⟨order', h', hfind'⟩ := exists_order_find? hno hf hkey'
  exact Option.some.inj (hfind.symm.trans ((hfree order order' h h').trans hfind'))

/-- Where every key is a normal form, no two keys have the same one. -/
theorem agree_of_normal (hnormal : ∀ key ∈ tools.keys, normalKey key = key) : Agree tools name := by
  intro e he f hf hkey hkey'
  have hsame : e.1 = f.1 := by
    rw [← hnormal e.1 (List.mem_map_of_mem he), ← hnormal f.1 (List.mem_map_of_mem hf), hkey, hkey']
  exact congrArg Prod.snd (List.inj_on_of_nodup_map tools.nodup_keys he hf hsame)

/-- Every order of a map finds the same tool for a name exactly if the normal form of the name is itself a key, or all
    keys with this normal form have the same tool; so it is where every key is a normal form. Whatever is found stands
    under a key with the normal form of the name. -/
theorem find?_order_free_iff (tools : Dict α) (name : String) :
    (OrderFree tools name ↔ tools.contains (normalKey name) = true ∨ Agree tools name) ∧
      ((∀ key ∈ tools.keys, normalKey key = key) → OrderFree tools name) ∧
      ∀ order : ExtraTools α, order.Perm tools.entries → ∀ a, order.find? (normalKey name) = some a →
        ∃ e ∈ tools.entries, normalKey e.1 = normalKey name ∧ e.2 = a := by
  refine ⟨⟨fun hfree => ?_, ?_⟩, fun hnormal => (agree_of_normal hnormal).orderFree, fun order h a found => ?_⟩
  · cases hcontains : tools.contains (normalKey name) with
    | true => exact Or.inl rfl
    | false => exact Or.inr (hfree.agree hcontains)
  · rintro (hcontains | hagree)
    · exact orderFree_of_contains hcontains
    · exact hagree.orderFree
  · obtain ⟨e, he, hkey, ha⟩ := find?_key found
    exact ⟨e, h.mem_iff.mp he, hkey, ha⟩

/-- Two spellings of one name with different tools, neither of them the normal form. -/
def fetchTools : Dict Nat := .ofList [("WEBFETCHER", 0), ("webfetcheR", 1)]

/-- The two orders of the map find different tools. -/
theorem fetchTools_order_matters : ¬OrderFree fetchTools "WebFetcher" := by
  intro hfree
  have hsame := hfree [("WEBFETCHER", 0), ("webfetcheR", 1)] [("webfetcheR", 1), ("WEBFETCHER", 0)] (.refl _) (.swap _ _ _)
  have hdiffer : find? [("WEBFETCHER", 0), ("webfetcheR", 1)] (normalKey "WebFetcher") ≠
      find? [("webfetcheR", 1), ("WEBFETCHER", 0)] (normalKey "WebFetcher") := by decide +kernel
  exact hdiffer hsame

end ToolScript.ExtraTools
