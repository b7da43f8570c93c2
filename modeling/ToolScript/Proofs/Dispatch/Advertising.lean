import ToolScript.Proofs.Dispatch.Naming
import ToolScript.Proofs.Tool.Keys

/-! # What is advertised is what the gate lets through

    The description of the plugins asks the gate with the name and the category in a manifest. A call asks it with the
    name and the category that its tool carries, which were put there when the catalog was read. Where nothing else is
    registered under the normal form of a plugin's name and a command's, the call finds this very offer, so the plugin
    is left out of the description exactly where its tool is refused. -/

namespace ToolScript
open Text Security

/-! ### Texts put together -/

theorem length_intercalate {α : Type} (separator first : List α) (rest : List (List α)) :
    (separator.intercalate (first :: rest)).length + separator.length =
      ((first :: rest).map fun x => x.length + separator.length).sum := by
  induction rest generalizing first with
  | nil => simp
  | cons second rest ih =>
    rw [List.intercalate_cons_cons, List.map_cons, List.sum_cons, ← ih second]
    simp only [List.length_append]
    omega

theorem infix_intercalate {α : Type} (separator : List α) {x : List α} {l : List (List α)} (h : x ∈ l) :
    x <:+: separator.intercalate l := by
  induction l with
  | nil => cases h
  | cons first rest ih =>
    cases rest with
    | nil =>
      rw [List.mem_singleton.mp h]
      simp
    | cons second rest =>
      rw [List.intercalate_cons_cons]
      rcases List.mem_cons.mp h with rfl | h
      · exact List.IsInfix.trans ⟨[], separator, by simp⟩ (List.prefix_append _ _).isInfix
      · exact (ih h).trans (List.suffix_append _ _).isInfix

/-! ### Descriptions -/

/-- The characters that a plugin takes up in a description, with the line break behind it. -/
def Manifest.extent (m : Manifest) : Nat :=
  m.describe.toList.length + "\n".toList.length

theorem describePlugins_nil : describePlugins [] = "" := by
  rw [describePlugins, Catalog.sortedManifests, List.mergeSort_nil]
  rfl

theorem length_describePlugins {ms : List Manifest} (h : ms ≠ []) :
    (describePlugins ms).toList.length + "\n".toList.length = (ms.map Manifest.extent).sum := by
  have hperm : (Catalog.sortedManifests ms).Perm ms := List.mergeSort_perm _ _
  obtain ⟨first, rest, hsorted⟩ := List.exists_cons_of_ne_nil fun hnil => h (List.perm_nil.mp (hnil ▸ hperm.symm))
  rw [← (hperm.map Manifest.extent).sum_eq, describePlugins, String.toList_intercalate, hsorted, List.map_cons,
    List.map_cons, length_intercalate, ← List.map_cons, ← List.map_cons, List.map_map, List.map_map]
  rfl

theorem Manifest.describe_ne_empty (m : Manifest) : m.describe ≠ "" := by
  simp [Manifest.describe]

/-- With a plugin more the text is longer. -/
theorem describePlugins_ne (before after : List Manifest) (m : Manifest) :
    describePlugins (before ++ after) ≠ describePlugins (before ++ m :: after) := by
  intro heq
  have hnonempty : before ++ m :: after ≠ [] := by simp
  have hlonger := length_describePlugins hnonempty
  have hextent : ((before ++ m :: after).map Manifest.extent).sum =
      m.extent + ((before ++ after).map Manifest.extent).sum := by
    rw [(List.perm_middle.map Manifest.extent).sum_eq, List.map_cons, List.sum_cons]
  have hpos : 0 < m.describe.toList.length :=
    List.length_pos_iff.mpr fun hnil => m.describe_ne_empty (String.toList_eq_nil_iff.mp hnil)
  rw [hextent, Manifest.extent, ← heq] at hlonger
  by_cases hempty : before ++ after = []
  · rw [hempty, describePlugins_nil] at hlonger
    simp only [List.map_nil, List.sum_nil, String.toList_empty, List.length_nil] at hlonger
    omega
  · have hshorter := length_describePlugins hempty
    omega

theorem infix_describePlugins {m : Manifest} {ms : List Manifest} (h : m ∈ ms) :
    m.describe.toList <:+: (describePlugins ms).toList := by
  rw [describePlugins, String.toList_intercalate, List.map_map]
  exact infix_intercalate _ (List.mem_map_of_mem (f := String.toList ∘ Manifest.describe) (List.mem_mergeSort.mpr h))

/-! ### The only registration under a name -/

namespace Catalog
variable {ε : Type}

/-- Nothing but a command of a plugin is registered under the normal form of the plugin's name and the command's: no
    tool has such a name, and no other manifest or command for which there is a tool makes one. -/
structure OnlyUnder (c : Catalog ε) (m : Manifest) (command : Command) : Prop where
  tools : ∀ t ∈ c.tools, normalKey t.metadata.name ≠ normalKey (m.name ++ "." ++ command.id)
  commands : ∀ m' ∈ c.manifests, ∀ command' ∈ m'.commands, c.hasTool command'.id = true →
    normalKey (m'.name ++ "." ++ command'.id) = normalKey (m.name ++ "." ++ command.id) → m' = m ∧ command' = command

/-- An entry under the normal form of a plugin's name and a command's is what the plugin offers, if nothing else is
    registered there. -/
theorem OnlyUnder.eq_completed {c : Catalog ε} {m : Manifest} {command : Command} (h : c.OnlyUnder m command)
    {t : Handle ε} (ht : c.byName.get? command.id = some t) {e : String × Handle ε} (he : e ∈ c.entries)
    (hkey : normalKey e.1 = normalKey (m.name ++ "." ++ command.id)) : e.2 = (⟨m, command, t⟩ : Offer ε).completed := by
  rcases mem_entries_cases he with ⟨t', ht'⟩ | ⟨o, ho, rfl⟩
  · obtain ⟨hmem, hname⟩ := of_mem_byName (Dict.get?_eq_some_iff.mp ht')
    exact absurd (hname ▸ hkey) (h.tools t' hmem)
  · obtain ⟨hm, hcommand, htool⟩ := mem_offers.mp ho
    obtain ⟨rfl, rfl⟩ := h.commands o.plugin hm o.command hcommand (hasTool_iff.mpr ⟨_, htool⟩) hkey
    obtain rfl := Option.some.inj (htool.symm.trans ht)
    rfl

theorem OnlyUnder.registry_get? {c : Catalog ε} {m : Manifest} {command : Command} (h : c.OnlyUnder m command)
    (hm : m ∈ c.manifests) (hcommand : command ∈ m.commands) {t : Handle ε} (ht : c.byName.get? command.id = some t) :
    c.registry.get? (normalKey (m.name ++ "." ++ command.id)) = some (⟨m, command, t⟩ : Offer ε).completed := by
  have hmem : (m.name ++ "." ++ command.id, (⟨m, command, t⟩ : Offer ε).completed) ∈ c.entries :=
    mem_entries_of_mem_offers (o := ⟨m, command, t⟩) (mem_offers.mpr ⟨hm, hcommand, ht⟩)
  rw [Catalog.registry_get?, Registry.get?_registered (normalKey_normalKey _)]
  obtain ⟨e, hfind⟩ := Option.isSome_iff_exists.mp
    (List.find?_isSome.mpr ⟨_, List.mem_reverse.mpr hmem, by simp⟩ : (c.entries.reverse.find? fun e =>
      normalKey e.1 == normalKey (m.name ++ "." ++ command.id)).isSome = true)
  have hentry := List.mem_reverse.mp (List.mem_of_find?_eq_some hfind)
  rw [hfind, Option.map_some, h.eq_completed ht hentry (by simpa using List.find?_some hfind)]

end Catalog

/-! ### The two decisions -/

namespace Dispatcher
variable {ε : Type}

/-- A dispatcher that has just read a catalog. -/
def reading (d : Dispatcher ε) (c : Catalog ε) : Dispatcher ε :=
  { d with catalog := c, registry := c.registry }

/-- A call is refused: it ends as disabled before any tool is invoked. -/
def Refuses (d : Dispatcher ε) (name : String) (params : Params) : Prop :=
  ∃ reason, d.ComesTo [] name params (.error (.disabled reason))

/-- The dispatcher with other manifests to describe. -/
def withManifests (d : Dispatcher ε) (ms : List Manifest) : Dispatcher ε :=
  { d with catalog := { d.catalog with manifests := ms } }

/-- The description leaves a manifest of the catalog out: without the manifest it is the same text. -/
def LeavesOut (d : Dispatcher ε) (filter : CategoryFilter) (m : Manifest) : Prop :=
  ∀ before after, d.catalog.manifests = before ++ m :: after →
    (d.withManifests (before ++ after)).describe filter = d.describe filter

/-- Whether a manifest is described. -/
def lists (d : Dispatcher ε) (filter : CategoryFilter) (m : Manifest) : Bool :=
  filter.admits m.category && d.gate.permits m.name m.category

theorem describe_eq (d : Dispatcher ε) (filter : CategoryFilter) :
    d.describe filter = describePlugins (d.catalog.manifests.filter (d.lists filter)) := rfl

theorem describe_withManifests (d : Dispatcher ε) (filter : CategoryFilter) (ms : List Manifest) :
    (d.withManifests ms).describe filter = describePlugins (ms.filter (d.lists filter)) := rfl

theorem lists_all_iff {d : Dispatcher ε} {m : Manifest} :
    d.lists .all m = true ↔ d.gate.denial? m.name m.category = none := by
  have hadmits : CategoryFilter.all.admits m.category = true := rfl
  rw [lists, hadmits, Bool.true_and, Gate.permits, Option.isNone_iff_eq_none]

theorem leavesOut_iff {d : Dispatcher ε} {filter : CategoryFilter} {m : Manifest} (hm : m ∈ d.catalog.manifests) :
    d.LeavesOut filter m ↔ ¬d.lists filter m = true := by
  constructor
  · intro hsame hlists
    obtain ⟨before, after, hsplit⟩ := List.append_of_mem hm
    have htext := hsame before after hsplit
    rw [describe_withManifests, describe_eq, hsplit, List.filter_append, List.filter_append,
      List.filter_cons_of_pos hlists] at htext
    exact describePlugins_ne _ _ m htext
  · intro hlists before after hsplit
    rw [describe_withManifests, describe_eq, hsplit, List.filter_append, List.filter_append,
      List.filter_cons_of_neg hlists]

theorem pathRepaired_of_plain {name : String} (h : ∀ c ∈ name.toList, isSeparator c = false) :
    pathRepaired name = name :=
  String.toList_injective (by rw [toList_pathRepaired, lastRun_of_plain h])

/-- A plugin's tool under the plugin's name and the command's comes to what the gate says of the plugin. -/
theorem resolve_offer {d : Dispatcher ε} {o : Catalog.Offer ε} {name : String} (params : Params)
    (h : d.registry.get? (normalKey name) = some o.completed) :
    resolve d.registry d.gate [] name params = match d.gate.denial? o.plugin.name o.plugin.category with
      | some denial => .error (.disabled denial.message)
      | none => .ok (o.completed, params) := by
  obtain ⟨hplugin, hcategory⟩ : o.completed.metadata.plugin = some o.plugin.name ∧
      o.completed.metadata.category = some o.plugin.category := Catalog.completed_plugin _ _ _
  have hlocate : locate? d.registry [] name params = some (o.completed, params) := by
    have hextra : ExtraTools.find? ([] : ExtraTools (Handle ε)) (normalKey name) = none := rfl
    simp only [locate?, hextra, h]
  have hdenial : o.completed.denial? d.gate = d.gate.denial? o.plugin.name o.plugin.category := by
    rw [Handle.denial?, hplugin, hcategory]
    rfl
  rw [resolve, hlocate]
  cases hgate : d.gate.denial? o.plugin.name o.plugin.category <;> simp only [hdenial, hgate]

/-- Take a manifest of a catalog and a command of it for which there is a tool. If neither the plugin's name nor the
    command's has a path separator and nothing else is registered under the normal form of both, then a call under both
    names is refused as disabled exactly where the description of all plugins leaves the manifest out. Otherwise the
    description has the plugin's section, and the call comes to the tool with the given arguments. -/
theorem refuses_iff_leavesOut (d : Dispatcher ε) (c : Catalog ε) {m : Manifest} {command : Command} (params : Params)
    (hm : m ∈ c.manifests) (hcommand : command ∈ m.commands) (htool : c.hasTool command.id = true)
    (hplain : ∀ ch ∈ (m.name ++ command.id).toList, isSeparator ch = false) (honly : c.OnlyUnder m command) :
    let d := d.reading c
    let name := m.name ++ "." ++ command.id
    (d.Refuses name params ↔ d.LeavesOut .all m) ∧
      (¬d.LeavesOut .all m → m.describe.toList <:+: (d.describe .all).toList ∧
        ∃ h, d.ComesTo [] name params (.ok (h, params))) := by
  intro d name
  obtain ⟨t, ht⟩ := Catalog.hasTool_iff.mp htool
  have hpath : pathRepaired name = name := by
    refine pathRepaired_of_plain fun ch hch => ?_
    simp only [name, String.toList_append, List.mem_append] at hch hplain
    rcases hch with (hch | hch) | hch
    · exact hplain ch (Or.inl hch)
    · rw [List.mem_singleton.mp hch]
      rfl
    · exact hplain ch (Or.inr hch)
  have hresolve := resolve_offer (d := d) (o := ⟨m, command, t⟩) params
    (honly.registry_get? hm hcommand ht)
  have hcomes := d.comesTo_resolve [] name params
  rw [hpath, hresolve] at hcomes
  simp only at hcomes
  have hleaves : d.LeavesOut .all m ↔ _ := leavesOut_iff hm
  rw [lists_all_iff] at hleaves
  rw [hleaves]
  cases hdenial : d.gate.denial? m.name m.category with
  | some denial =>
    rw [hdenial] at hcomes
    exact ⟨⟨fun _ => by simp, fun _ => ⟨_, hcomes⟩⟩, fun h => absurd h (by simp)⟩
  | none =>
    rw [hdenial] at hcomes
    refine ⟨⟨?_, fun h => absurd rfl h⟩, fun _ => ⟨?_, _, hcomes⟩⟩
    · rintro ⟨reason, hrefused⟩
      cases hcomes.resolved.symm.trans hrefused.resolved
    · exact infix_describePlugins (List.mem_filter.mpr ⟨hm, lists_all_iff.mpr hdenial⟩)

/-! ### Plugins for work switched off -/

def workOff : Dispatcher Unit :=
  { Dispatcher.new Catalog.empty with gate := Gate.new.setCategory "work" false }

theorem onlyUnder_filesManifest : Catalog.filesCatalog.OnlyUnder Catalog.filesManifest Catalog.listCommand where
  tools t ht := by
    rw [List.mem_singleton.mp ht]
    decide +kernel
  commands m' hm command' hcommand _ _ := by
    obtain rfl := List.mem_singleton.mp hm
    exact ⟨rfl, List.mem_singleton.mp hcommand⟩

theorem refuses_iff_leavesOut_workOff :
    Catalog.filesManifest ∈ Catalog.filesCatalog.manifests ∧ Catalog.listCommand ∈ Catalog.filesManifest.commands ∧
      Catalog.filesCatalog.hasTool "list_files" = true ∧
      (∀ ch ∈ ("FileOps" ++ "list_files").toList, isSeparator ch = false) ∧
      Catalog.filesCatalog.OnlyUnder Catalog.filesManifest Catalog.listCommand ∧
      (workOff.reading Catalog.filesCatalog).Refuses ("FileOps" ++ "." ++ "list_files") .empty ∧
      (workOff.reading Catalog.filesCatalog).LeavesOut .all Catalog.filesManifest := by
  have hm : Catalog.filesManifest ∈ Catalog.filesCatalog.manifests := List.mem_singleton_self _
  have hcommand : Catalog.listCommand ∈ Catalog.filesManifest.commands := List.mem_singleton_self _
  have htool : Catalog.filesCatalog.hasTool "list_files" = true := by decide +kernel
  have hall : (("FileOps" ++ "list_files").toList.all fun ch => !isSeparator ch) = true := by decide +kernel
  have hplain : ∀ ch ∈ ("FileOps" ++ "list_files").toList, isSeparator ch = false := fun ch hch => by
    simpa using List.all_eq_true.mp hall ch hch
  have hleaves : (workOff.reading Catalog.filesCatalog).LeavesOut .all Catalog.filesManifest :=
    (leavesOut_iff hm).mpr (by decide +kernel)
  exact ⟨hm, hcommand, htool, hplain, onlyUnder_filesManifest,
    (refuses_iff_leavesOut workOff Catalog.filesCatalog .empty hm hcommand htool hplain onlyUnder_filesManifest).1.mpr
      hleaves, hleaves⟩

end Dispatcher

end ToolScript
