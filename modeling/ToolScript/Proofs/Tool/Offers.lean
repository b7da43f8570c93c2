import ToolScript.Proofs.Tool.Registration

/-! # Tools of plugins under every key

    What a plugin offers carries the plugin and the schema of its command, and the registry of a catalog has it under
    the normal forms of both its names and under the name with the plugin as spelled. The spelling of a tool's own name
    is taken before any plugin is looked at: a name that is no normal form finds the tool as the catalog lists it. -/

namespace ToolScript
open Text

namespace Catalog
variable {ε : Type}

/-- A handle carries the plugin and the category of a manifest that names its tool, and the schema of the command
    where that declares one. -/
def Carries (c : Catalog ε) (h : Handle ε) : Prop :=
  ∃ m ∈ c.manifests, ∃ command ∈ m.commands, command.id = h.metadata.name ∧ h.metadata.plugin = some m.name ∧
    h.metadata.category = some m.category ∧ ∀ schema, command.schema = some schema → h.metadata.schema = some schema

/-- A key spells the name of a tool, and is no normal form. -/
def SpellsTool (c : Catalog ε) (key : String) : Prop :=
  normalKey key ≠ key ∧ ∃ t ∈ c.tools, t.metadata.name = key

theorem completed_schema (m : Metadata) (plugin : Manifest) {command : Command} {schema : Value}
    (h : command.schema = some schema) : (completed m plugin command).schema = some schema := by
  rw [completed, h]
  rfl

theorem name_of_mem_offers {c : Catalog ε} {o : Offer ε} (h : o ∈ c.offers) :
    o.command.id = o.completed.metadata.name := by
  obtain ⟨-, -, htool⟩ := mem_offers.mp h
  exact (of_mem_byName (Dict.get?_eq_some_iff.mp htool)).2.symm.trans (completed_name _ _ _).symm

theorem carries_completed {c : Catalog ε} {o : Offer ε} (h : o ∈ c.offers) : c.Carries o.completed := by
  obtain ⟨hm, hcommand, -⟩ := mem_offers.mp h
  obtain ⟨hplugin, hcategory⟩ := completed_plugin o.handle.metadata o.plugin o.command
  exact ⟨o.plugin, hm, o.command, hcommand, name_of_mem_offers h, hplugin, hcategory,
    fun _ hschema => completed_schema _ _ hschema⟩

/-- A name that is no normal form finds the tool as the catalog lists it. -/
theorem SpellsTool.registry_get? {c : Catalog ε} {key : String} (h : c.SpellsTool key) :
    ∃ t, c.byName.get? key = some t ∧ c.registry.get? key = some t := by
  obtain ⟨hkey, t, ht, rfl⟩ := h
  obtain ⟨t', ht'⟩ := exists_byName ht
  exact ⟨t', ht', by rw [registry_get?_spelling c hkey, ht', Option.some_or]⟩

/-- Any other key finds what a plugin offers, or a tool that no plugin names. -/
theorem registry_get?_other {c : Catalog ε} {key : String} (hkey : ¬c.SpellsTool key) {h : Handle ε}
    (found : c.registry.get? key = some h) :
    (∃ o ∈ c.offers, h = o.completed) ∨
      c.byName.get? h.metadata.name = some h ∧ ∀ o ∈ c.offers, o.command.id ≠ h.metadata.name := by
  by_cases hnormal : normalKey key = key
  · exact registry_get?_cases hnormal found
  · left
    have hnone : c.byName.get? key = none := by
      cases ht : c.byName.get? key with
      | none => rfl
      | some t =>
        obtain ⟨hmem, hname⟩ := of_mem_byName (Dict.get?_eq_some_iff.mp ht)
        exact absurd ⟨hnormal, t, hmem, hname⟩ hkey
    rw [registry_get?_spelling c hnormal, hnone, Option.none_or] at found
    obtain ⟨e, hfind, rfl⟩ := Option.map_eq_some_iff.mp found
    exact exists_offer_of_mem_entries (List.mem_of_find?_eq_some hfind)

theorem registry_get?_listed {c : Catalog ε} {key : String} {h : Handle ε} (found : c.registry.get? key = some h) :
    ∃ t, c.byName.get? h.metadata.name = some t ∧ t.impl = h.impl := by
  by_cases hkey : c.SpellsTool key
  · obtain ⟨t, ht, hfound⟩ := hkey.registry_get?
    obtain rfl := Option.some.inj (hfound.symm.trans found)
    exact ⟨t, by rw [(of_mem_byName (Dict.get?_eq_some_iff.mp ht)).2, ht], rfl⟩
  · rcases registry_get?_other hkey found with ⟨o, ho, rfl⟩ | ⟨hlisted, -⟩
    · exact ⟨o.handle, name_of_mem_offers ho ▸ (mem_offers.mp ho).2.2, rfl⟩
    · exact ⟨h, hlisted, rfl⟩

/-- What the registry has under a key does what the listed tool of its name does. If a manifest names that tool, then
    the handle carries the plugin of such a manifest, unless the key spells the name of a tool and is no normal form:
    under such a key stands the tool as the catalog lists it. -/
theorem registry_carries {c : Catalog ε} {key : String} {h : Handle ε} {m : Manifest} {command : Command}
    (found : c.registry.get? key = some h) (hm : m ∈ c.manifests) (hcommand : command ∈ m.commands)
    (hname : command.id = h.metadata.name) :
    (∃ t, c.byName.get? h.metadata.name = some t ∧ t.impl = h.impl) ∧ (¬c.SpellsTool key → c.Carries h) ∧
      (c.SpellsTool key → c.byName.get? key = some h) := by
  refine ⟨registry_get?_listed found, fun hkey => ?_, fun hkey => ?_⟩
  · rcases registry_get?_other hkey found with ⟨o, ho, rfl⟩ | ⟨hlisted, hnone⟩
    · exact carries_completed ho
    · exact absurd hname (hnone ⟨m, command, h⟩ (mem_offers.mpr ⟨hm, hcommand, hname ▸ hlisted⟩))
  · obtain ⟨t, ht, hfound⟩ := hkey.registry_get?
    rw [ht, ← hfound, found]

/-! ### A plugin for files -/

/-- A tool of which only the name is known. -/
def listFiles : Handle Unit := ⟨⟨"list_files", none, none, none, none⟩, ()⟩

def listCommand : Command := ⟨"list_files", "", some (.object [])⟩

def filesManifest : Manifest := ⟨"FileOps", none, none, "work", ⟨some [listCommand], none⟩⟩

def filesCatalog : Catalog Unit := ⟨[listFiles], [filesManifest]⟩

def filesOffer : Offer Unit := ⟨filesManifest, listCommand, listFiles⟩

theorem spellsTool_listFiles : filesCatalog.SpellsTool "list_files" :=
  ⟨by decide +kernel, listFiles, List.mem_singleton_self _, rfl⟩

theorem registry_get?_listFiles : filesCatalog.registry.get? "list_files" = some listFiles := by
  obtain ⟨t, ht, hfound⟩ := spellsTool_listFiles.registry_get?
  have hlisted : filesCatalog.byName.get? "list_files" = some listFiles := rfl
  exact hfound.trans (ht.symm.trans hlisted)

theorem registry_get?_filesOffer : filesCatalog.registry.get? "fileops.listfiles" = some filesOffer.completed := by
  have hsorted : sortedManifests filesCatalog.manifests = [filesManifest] := List.mergeSort_singleton _
  have hkey : normalKey "fileops.listfiles" = "fileops.listfiles" := by decide +kernel
  have hname : normalKey "FileOps.list_files" = "fileops.listfiles" := by decide +kernel
  rw [registry_get?, Registry.get?_registerAll _ _ hkey, entries, offers, hsorted]
  show ((List.find? _ [("FileOps.list_files", filesOffer.completed), _, _]).map (·.2)).or _ = _
  rw [List.find?_cons_of_pos (by simp [hname])]
  rfl

theorem registry_carries_listFiles :
    (¬filesCatalog.SpellsTool "fileops.listfiles" ∧ filesCatalog.Carries filesOffer.completed) ∧
      filesCatalog.SpellsTool "list_files" ∧ filesCatalog.byName.get? "list_files" = some listFiles := by
  have hkey : ¬filesCatalog.SpellsTool "fileops.listfiles" := fun h => h.1 (by decide +kernel)
  have hm : filesManifest ∈ filesCatalog.manifests := List.mem_singleton_self _
  have hcommand : listCommand ∈ filesManifest.commands := List.mem_singleton_self _
  exact ⟨⟨hkey, (registry_carries registry_get?_filesOffer hm hcommand rfl).2.1 hkey⟩, spellsTool_listFiles,
    (registry_carries registry_get?_listFiles hm hcommand rfl).2.2 spellsTool_listFiles⟩

/-- Under its own name this tool is without its plugin and without the schema of the command. -/
theorem listFiles_bare : filesCatalog.registry.get? "list_files" = some listFiles ∧
    filesManifest ∈ filesCatalog.manifests ∧ listCommand ∈ filesManifest.commands ∧
    listCommand.id = listFiles.metadata.name ∧ ¬filesCatalog.Carries listFiles := by
  refine ⟨registry_get?_listFiles, List.mem_singleton_self _, List.mem_singleton_self _, rfl, ?_⟩
  rintro ⟨m, -, command, -, -, hplugin, -⟩
  cases hplugin

end Catalog

end ToolScript
