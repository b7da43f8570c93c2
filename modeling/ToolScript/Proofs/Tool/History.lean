import ToolScript.Proofs.Tool.Registration

/-! # Catalogs after changes

    However a catalog came about, no two of its tools have one name, and no two of its manifests. The registry lists
    tools and manifests by their names, so it depends on which there are and not on the changes that led to them. -/

namespace ToolScript

namespace Catalog
variable {ε : Type}

/-- A change of a catalog. -/
inductive Edit (ε : Type) where
  | insert (h : Handle ε)
  | insertManifest (m : Manifest)
  | remove (name : String)

def edit (c : Catalog ε) : Edit ε → Catalog ε
  | .insert h => c.insert h
  | .insertManifest m => c.insertManifest m
  | .remove name => c.remove name

/-- The catalog after some changes of an empty one. -/
def edited (edits : List (Edit ε)) : Catalog ε :=
  edits.foldl edit empty

/-! ### Names -/

/-- No name is there twice. -/
structure Distinct (c : Catalog ε) : Prop where
  tools : (c.tools.map (·.metadata.name)).Nodup
  manifests : (c.manifests.map (·.name)).Nodup

theorem nodup_replace {α : Type} {f : α → String} {l : List α} (h : (l.map f).Nodup) (a : α) :
    ((l.filter (fun b => f b != f a) ++ [a]).map f).Nodup := by
  rw [List.map_append, List.nodup_append]
  refine ⟨h.sublist (List.filter_sublist.map f), List.nodup_singleton _, ?_⟩
  rintro _ hx _ hy rfl
  obtain ⟨b, hb, heq⟩ := List.mem_map.mp hx
  obtain rfl := List.mem_singleton.mp hy
  exact absurd heq (by simpa using (List.mem_filter.mp hb).2)

theorem Distinct.edit {c : Catalog ε} (h : c.Distinct) (e : Edit ε) : (c.edit e).Distinct := by
  cases e with
  | insert t => exact ⟨nodup_replace h.tools t, h.manifests⟩
  | insertManifest m => exact ⟨h.tools, nodup_replace h.manifests m⟩
  | remove name => exact ⟨h.tools.sublist (List.filter_sublist.map _), h.manifests⟩

theorem distinct_edited (edits : List (Edit ε)) : (edited edits).Distinct := by
  suffices hfold : ∀ (edits : List (Edit ε)) (c : Catalog ε), c.Distinct → (edits.foldl Catalog.edit c).Distinct from
    hfold edits empty ⟨List.nodup_nil, List.nodup_nil⟩
  intro edits
  induction edits with
  | nil => exact fun _ h => h
  | cons e edits ih => exact fun c h => ih (c.edit e) (h.edit e)

/-! ### Contents -/

/-- Two catalogs with the same tools and the same manifests. -/
structure SameContents (c d : Catalog ε) : Prop where
  tools : ∀ t, t ∈ c.tools ↔ t ∈ d.tools
  manifests : ∀ m, m ∈ c.manifests ↔ m ∈ d.manifests

variable {c d : Catalog ε}

theorem Distinct.get?_byName_iff (hc : c.Distinct) {name : String} {t : Handle ε} :
    c.byName.get? name = some t ↔ t ∈ c.tools ∧ t.metadata.name = name := by
  constructor
  · intro h
    exact of_mem_byName (Dict.get?_eq_some_iff.mp h)
  · rintro ⟨ht, rfl⟩
    obtain ⟨t', ht'⟩ := exists_byName ht
    obtain ⟨hmem, hname⟩ := of_mem_byName (Dict.get?_eq_some_iff.mp ht')
    obtain rfl := List.inj_on_of_nodup_map hc.tools hmem ht hname
    exact ht'

theorem SameContents.byName (h : SameContents c d) (hc : c.Distinct) (hd : d.Distinct) : c.byName = d.byName := by
  refine Dict.ext_get? fun name => Option.ext fun t => ?_
  rw [hc.get?_byName_iff, hd.get?_byName_iff, h.tools]

theorem pairwise_sortedManifests (ms : List Manifest) :
    (Catalog.sortedManifests ms).Pairwise fun a b => decide (a.name ≤ b.name) = true := by
  refine List.pairwise_mergeSort (fun a b c hab hbc => ?_) (fun a b => ?_) ms
  · simp only [decide_eq_true_eq] at hab hbc ⊢
    exact String.le_trans hab hbc
  · simp only [Bool.or_eq_true, decide_eq_true_eq]
    exact String.le_total a.name b.name

theorem SameContents.sortedManifests (h : SameContents c d) (hc : c.Distinct) (hd : d.Distinct) :
    sortedManifests c.manifests = sortedManifests d.manifests := by
  have hperm : c.manifests.Perm d.manifests :=
    (List.perm_ext_iff_of_nodup (.of_map _ hc.manifests) (.of_map _ hd.manifests)).mpr h.manifests
  refine List.Perm.eq_of_pairwise ?_ (pairwise_sortedManifests _) (pairwise_sortedManifests _)
    ((List.mergeSort_perm _ _).trans (hperm.trans (List.mergeSort_perm _ _).symm))
  -- Manifests that come before each other have one name, and so are the same.
  intro a b ha hb hab hba
  have hname : a.name = b.name := String.le_antisymm (of_decide_eq_true hab) (of_decide_eq_true hba)
  have ha : a ∈ c.manifests := List.mem_mergeSort.mp ha
  have hb : b ∈ c.manifests := (h.manifests b).mpr (List.mem_mergeSort.mp hb)
  exact List.inj_on_of_nodup_map hc.manifests ha hb hname

/-- Changes that end in the same tools and the same manifests end in the same registry: the same names, the same tool
    under each of them, and the same lists of tools in the same order. -/
theorem registry_edited_eq {edits edits' : List (Edit ε)} (h : SameContents (edited edits) (edited edits')) :
    (edited edits).registry = (edited edits').registry := by
  have hbyName := h.byName (distinct_edited edits) (distinct_edited edits')
  have hsorted := h.sortedManifests (distinct_edited edits) (distinct_edited edits')
  simp only [registry, entries, offers, hbyName, hsorted]

/-! ### Names that collide -/

def bareTool (name : String) (impl : Nat) : Handle Nat := ⟨⟨name, none, none, none, none⟩, impl⟩

def findPlugin (name : String) : Manifest := ⟨name, none, none, "core", ⟨some [⟨"find_item", "", none⟩], none⟩⟩

def plainEdits : List (Edit Nat) :=
  [.insert (bareTool "Find_Item" 1), .insert (bareTool "find_item" 2), .insertManifest (findPlugin "A_B"),
    .insertManifest (findPlugin "ab")]

/-- Other changes with the same end: in another order, with a tool that is replaced and one that is removed. -/
def otherEdits : List (Edit Nat) :=
  [.insertManifest (findPlugin "ab"), .insert (bareTool "Find_Item" 3), .insert (bareTool "find_item" 2),
    .insert (bareTool "gone" 4), .insertManifest (findPlugin "A_B"), .insert (bareTool "Find_Item" 1), .remove "gone"]

theorem sameContents_otherEdits : SameContents (edited plainEdits) (edited otherEdits) := by
  have htools : (edited otherEdits).tools = [bareTool "find_item" 2, bareTool "Find_Item" 1] := rfl
  have hmanifests : (edited otherEdits).manifests = [findPlugin "ab", findPlugin "A_B"] := rfl
  have htools' : (edited plainEdits).tools = [bareTool "Find_Item" 1, bareTool "find_item" 2] := rfl
  have hmanifests' : (edited plainEdits).manifests = [findPlugin "A_B", findPlugin "ab"] := rfl
  constructor
  · intro t
    rw [htools, htools', List.mem_pair, List.mem_pair, or_comm]
  · intro m
    rw [hmanifests, hmanifests', List.mem_pair, List.mem_pair, or_comm]

theorem registry_edited_eq_collisions : SameContents (edited plainEdits) (edited otherEdits) ∧
    (edited plainEdits).registry = (edited otherEdits).registry :=
  ⟨sameContents_otherEdits, registry_edited_eq sameContents_otherEdits⟩

end Catalog

end ToolScript
