import ToolScript.Dispatch.Dispatcher
import ToolScript.Proofs.Text.Paths
import ToolScript.Proofs.Tool.Offers

/-! # The spelling of a name does not matter

    A call looks for its tool by the normal form of the name's last component, also where it puts a command behind the
    name, as the normal form of two names put together is that of the one and that of the other. Names whose last
    components have one normal form come to the same tool with the same arguments, or fail alike. -/

namespace ToolScript
open Text Security

variable {ε : Type}

/-- The same failure for another name. -/
def ToolError.named (name : String) : ToolError → ToolError
  | .unknown _ => .unknown name
  | .category _ tools => .category name tools
  | e => e

/-- What a call comes to: the tool and the arguments with which it is invoked, or the failure that ends it before
    any tool is invoked. -/
structure Dispatcher.ComesTo (d : Dispatcher ε) (extra : ExtraTools (Handle ε)) (name : String) (params : Params)
    (outcome : Except ToolError (Handle ε × Params)) : Prop where
  resolved : resolve d.registry d.gate extra (pathRepaired name) params = outcome
  invoked : ∀ h params', outcome = .ok (h, params') → ∀ {σ : Type} (behavior : Behavior ε σ) (log : Log σ),
    ((d.call behavior extra name params log).1, (d.call behavior extra name params log).2.state) =
      h.invoke behavior params' log.state
  failed : ∀ e, outcome = .error e → ∀ {σ : Type} (behavior : Behavior ε σ) (log : Log σ),
    ((d.call behavior extra name params log).1, (d.call behavior extra name params log).2.state) = (.error e, log.state)

theorem Dispatcher.comesTo_resolve (d : Dispatcher ε) (extra : ExtraTools (Handle ε)) (name : String) (params : Params) :
    d.ComesTo extra name params (resolve d.registry d.gate extra (pathRepaired name) params) where
  resolved := rfl
  invoked h params' hok σ behavior log := by
    rw [call, hok]
    rfl
  failed e herror σ behavior log := by
    rw [call, herror]
    rfl

/-! ### Each way of finding a tool -/

section
variable {registry : Registry (Handle ε)} {a b : String}

theorem routeKeys_congr (h : normalKey a = normalKey b) (command : String) : routeKeys a command = routeKeys b command := by
  simp only [routeKeys, normalKey_append, h]

theorem routeBy?_congr (h : normalKey a = normalKey b) (params : Params) (key : String) :
    routeBy? registry a params key = routeBy? registry b params key := by
  simp only [routeBy?, routeKeys_congr h]

theorem route?_congr (h : normalKey a = normalKey b) (params : Params) :
    route? registry a params = route? registry b params := by
  rw [route?, route?, funext (routeBy?_congr h params)]

theorem locate?_congr (h : normalKey a = normalKey b) (extra : ExtraTools (Handle ε)) (params : Params) :
    locate? registry extra a params = locate? registry extra b params := by
  simp only [locate?, h, route?_congr h]

theorem missingTool_congr (h : normalKey a = normalKey b) : missingTool registry b = (missingTool registry a).named b := by
  rw [missingTool, missingTool, h]
  cases registry.category? (normalKey b) with
  | none => rfl
  | some tools => rfl

/-- The name that was asked for shows in nothing but the failure to find a tool. -/
theorem resolve_congr (h : normalKey a = normalKey b) (gate : Gate) (extra : ExtraTools (Handle ε)) (params : Params) :
    resolve registry gate extra b params = (resolve registry gate extra a params).mapError (·.named b) := by
  rw [resolve, resolve, locate?_congr h]
  cases locate? registry extra b params with
  | none => exact congrArg Except.error (missingTool_congr h)
  | some found =>
    simp only
    cases found.1.denial? gate with
    | none => rfl
    | some denial => rfl

end

/-! ### Calls -/

/-- Two names whose last components have the same normal form come to the same tool with the same arguments, or to
    failures that differ in nothing but the name they give. -/
theorem call_ignores_spelling (d : Dispatcher ε) (extra : ExtraTools (Handle ε)) (params : Params) {x y a b : String}
    (hx : EndsIn x a) (hy : EndsIn y b) (hnormal : normalKey a = normalKey b) :
    ∃ outcome, d.ComesTo extra x params outcome ∧ d.ComesTo extra y params (outcome.mapError (·.named b)) := by
  obtain ⟨hx, -⟩ := endsIn_iff.mp hx
  obtain ⟨hy, -⟩ := endsIn_iff.mp hy
  refine ⟨_, d.comesTo_resolve extra x params, ?_⟩
  have hsame : resolve d.registry d.gate extra (pathRepaired y) params =
      (resolve d.registry d.gate extra (pathRepaired x) params).mapError (·.named b) := by
    rw [hx, hy]
    exact resolve_congr hnormal d.gate extra params
  exact hsame ▸ d.comesTo_resolve extra y params

/-- A plugin called with a path and capitals, and by its normal form, to have one of its commands. -/
theorem call_ignores_spelling_fileOps :
    EndsIn "tools\\core/File_Ops//" "File_Ops" ∧ EndsIn "fileops" "fileops" ∧
      normalKey "File_Ops" = normalKey "fileops" ∧
      ∃ outcome, (Dispatcher.new Catalog.filesCatalog).ComesTo [] "tools\\core/File_Ops//"
          (.ofList [("Command", .string " list_files ")]) outcome ∧
        (Dispatcher.new Catalog.filesCatalog).ComesTo [] "fileops" (.ofList [("Command", .string " list_files ")])
          (outcome.mapError (·.named "fileops")) := by
  have hpath : EndsIn "tools\\core/File_Ops//" "File_Ops" := endsIn_iff.mpr ⟨by decide +kernel, by decide⟩
  have hplain : EndsIn "fileops" "fileops" := endsIn_iff.mpr ⟨by decide +kernel, by decide⟩
  have hnormal : normalKey "File_Ops" = normalKey "fileops" := by decide +kernel
  exact ⟨hpath, hplain, hnormal, call_ignores_spelling _ _ _ hpath hplain hnormal⟩

end ToolScript
