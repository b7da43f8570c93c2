import ToolScript.Dispatch.Dispatcher
import ToolScript.Proofs.Dispatch.Routing
import ToolScript.Proofs.Tool.Registration

/-! # No tool of a plugin is called past the gate

    Every way of finding a tool looks a normal form up in the registry: the name called, and both names that a
    routing parameter leads to. A tool that a manifest names is found there as a plugin offers it, so a call of the
    tool has to pass the gate under the name and the category of that plugin. -/

namespace ToolScript
open Text Security

variable {ε σ : Type}

/-- A manifest names a tool among its commands. -/
def Manifest.Names (m : Manifest) (tool : String) : Prop :=
  ∃ command ∈ m.commands, command.id = tool

/-- A handle stands for a tool of the catalog. If a manifest names the tool, then the handle carries the plugin and
    the category of such a manifest, and the gate lets them through. -/
structure Catalog.Gated (c : Catalog ε) (gate : Gate) (h : Handle ε) : Prop where
  tool : ∃ t ∈ c.tools, c.byName.get? h.metadata.name = some t ∧ t.metadata.name = h.metadata.name ∧ t.impl = h.impl
  plugin : (∃ m ∈ c.manifests, m.Names h.metadata.name) →
    ∃ m ∈ c.manifests, m.Names h.metadata.name ∧ h.metadata.plugin = some m.name ∧
      h.metadata.category = some m.category ∧ gate.permits m.name m.category = true

/-! ### Finding -/

/-- Whatever is found without tools of the dispatch is found under a normal form. -/
theorem locate?_found {registry : Registry (Handle ε)} {name : String} {params params' : Params} {h : Handle ε}
    (found : locate? registry [] name params = some (h, params')) :
    ∃ target, registry.get? (normalKey target) = some h := by
  have hextra : ExtraTools.find? ([] : ExtraTools (Handle ε)) (normalKey name) = none := rfl
  simp only [locate?, hextra] at found
  split at found
  · rename_i direct
    cases found
    exact ⟨name, direct⟩
  · obtain ⟨e, -, ⟨-, command, -, hjoined | ⟨-, hcommand⟩⟩, -⟩ := exists_leadsTo_of_route? found
    · exact ⟨name ++ "." ++ command, hjoined⟩
    · exact ⟨command, hcommand⟩

/-! ### Gating -/

theorem Catalog.gated_of_registry {c : Catalog ε} {gate : Gate} {target : String} {h : Handle ε}
    (found : c.registry.get? (normalKey target) = some h) (passed : h.denial? gate = none) : c.Gated gate h := by
  rcases Catalog.registry_get?_cases (normalKey_normalKey target) found with ⟨o, ho, rfl⟩ | ⟨hname, hoffers⟩
  · obtain ⟨hm, hcommand, htool⟩ := Catalog.mem_offers.mp ho
    obtain ⟨hmem, htname⟩ := Catalog.of_mem_byName (Dict.get?_eq_some_iff.mp htool)
    have hname : o.completed.metadata.name = o.handle.metadata.name := Catalog.completed_name _ _ _
    obtain ⟨hplugin, hcategory⟩ : o.completed.metadata.plugin = some o.plugin.name ∧
        o.completed.metadata.category = some o.plugin.category := Catalog.completed_plugin _ _ _
    refine ⟨⟨o.handle, hmem, ?_, hname.symm, rfl⟩, fun _ => ⟨o.plugin, hm, ⟨o.command, hcommand, ?_⟩, hplugin, hcategory, ?_⟩⟩
    · rw [hname, htname, htool]
    · rw [hname, htname]
    · rw [Handle.denial?, hplugin, hcategory] at passed
      exact Option.isNone_iff_eq_none.mpr passed
  · obtain ⟨hmem, -⟩ := Catalog.of_mem_byName (Dict.get?_eq_some_iff.mp hname)
    refine ⟨⟨h, hmem, hname, rfl, rfl⟩, ?_⟩
    rintro ⟨m, hm, command, hcommand, hid⟩
    exact absurd hid (hoffers ⟨m, command, h⟩ (Catalog.mem_offers.mpr ⟨hm, hcommand, hid ▸ hname⟩))

theorem resolve_gated {c : Catalog ε} {gate : Gate} {name : String} {params params' : Params} {h : Handle ε}
    (found : resolve c.registry gate [] name params = .ok (h, params')) : c.Gated gate h := by
  obtain ⟨hlocate, hdenial⟩ := resolve_eq_ok found
  obtain ⟨target, htarget⟩ := locate?_found hlocate
  exact Catalog.gated_of_registry htarget hdenial

/-- Without tools of the dispatch, what a name leads to in the registry of a catalog is gated. A call invokes such a
    handle, or ends in an error and leaves the tools as they were. -/
theorem call_invokes_gated (c : Catalog ε) (d : Dispatcher ε) (behavior : Behavior ε σ) (name : String)
    (params : Params) (log : Log σ) :
    let d := { d with registry := c.registry }
    let ended := d.call behavior [] name params log
    (∀ requested params h params', resolve d.registry d.gate [] requested params = .ok (h, params') → c.Gated d.gate h) ∧
      ((∃ h params', resolve d.registry d.gate [] (pathRepaired name) params = .ok (h, params') ∧ c.Gated d.gate h ∧
          (ended.1, ended.2.state) = h.invoke behavior params' log.state) ∨
        ∃ e, resolve d.registry d.gate [] (pathRepaired name) params = .error e ∧
          (ended.1, ended.2.state) = (.error e, log.state)) := by
  intro d ended
  refine ⟨fun _ _ _ _ => resolve_gated, ?_⟩
  simp only [ended, Dispatcher.call]
  cases found : resolve d.registry d.gate [] (pathRepaired name) params with
  | error e => exact Or.inr ⟨e, rfl, rfl⟩
  | ok target => exact Or.inl ⟨target.1, target.2, rfl, resolve_gated found, rfl⟩

end ToolScript
