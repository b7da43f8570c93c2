import ToolScript.Dispatch.Resolve
import ToolScript.Proofs.Tool.Arguments

/-! # Calls that a parameter leads on

    A name that is not registered can be led on by a parameter that names a command. Of parameters whose keys have one
    normal form only the first is looked at. If one of these first ones leads to a tool, then a tool is found, and the
    arguments lose the parameter that led to it and nothing else; if none does, the name is missing. -/

namespace ToolScript
open Text Security

variable {ε : Type}

/-- The command that a value names: a text that is not blank, without the blanks around it, or a number in JSON. -/
inductive NamesCommand : Value → String → Prop
  | text {s : String} (h : allBlank s = false) : NamesCommand (.string s) (trimmed s)
  | int (n : Int) : NamesCommand (.int n) (Value.int n).compact
  | float (x : Binary64) : NamesCommand (.float x) (Value.float x).compact

/-- A value leads a call of a name to a tool: it names a command that is registered behind the name and a dot, or else
    by itself. -/
def Selects (registry : Registry (Handle ε)) (name : String) (v : Value) (h : Handle ε) : Prop :=
  ∃ command, NamesCommand v command ∧ (registry.get? (normalKey (name ++ "." ++ command)) = some h ∨
    registry.get? (normalKey (name ++ "." ++ command)) = none ∧ registry.get? (normalKey command) = some h)

/-- A parameter can name a command by its key, and leads a call of a name to a tool by its value. -/
structure LeadsTo (registry : Registry (Handle ε)) (name : String) (e : String × Value) (h : Handle ε) : Prop where
  key : normalKey e.1 ∈ routingKeys
  value : Selects registry name e.2 h

/-! ### Single parameters -/

theorem routedCommand?_eq_some_iff {v : Value} {command : String} :
    routedCommand? v = some command ↔ NamesCommand v command := by
  constructor
  · intro h
    cases v with
    | string s =>
      rw [routedCommand?] at h
      split at h
      · cases h
      · rename_i hblank
        cases h
        exact .text (Bool.eq_false_iff.mpr hblank)
    | int n => cases h; exact .int n
    | float x => cases h; exact .float x
    | _ => cases h
  · intro h
    cases h with
    | text hblank => rw [routedCommand?, hblank]; rfl
    | int n => rfl
    | float x => rfl

theorem findSome?_routeKeys_eq_some_iff {registry : Registry (Handle ε)} {name command : String} {h : Handle ε} :
    (routeKeys name command).findSome? registry.get? = some h ↔
      registry.get? (normalKey (name ++ "." ++ command)) = some h ∨
        registry.get? (normalKey (name ++ "." ++ command)) = none ∧ registry.get? (normalKey command) = some h := by
  rw [routeKeys, List.findSome?_cons]
  cases registry.get? (normalKey (name ++ "." ++ command)) <;> simp

theorem routeBy?_eq_some_iff {registry : Registry (Handle ε)} {name key : String} {params params' : Params} {h : Handle ε} :
    routeBy? registry name params key = some (h, params') ↔
      ∃ e, FirstOfForm params e ∧ normalKey e.1 = key ∧ Selects registry name e.2 h ∧ params' = params.erase e.1 := by
  constructor
  · intro found
    obtain ⟨e, hparam, found⟩ := Option.bind_eq_some_iff.mp found
    obtain ⟨command, hcommand, found⟩ := Option.bind_eq_some_iff.mp found
    obtain ⟨handle, hhandle, heq⟩ := Option.bind_eq_some_iff.mp found
    cases heq
    obtain ⟨hfirst, hkey⟩ := find?_normalKey_eq_some_iff.mp hparam
    exact ⟨e, hfirst, hkey,
      ⟨command, routedCommand?_eq_some_iff.mp hcommand, findSome?_routeKeys_eq_some_iff.mp hhandle⟩, rfl⟩
  · rintro ⟨e, hfirst, hkey, ⟨command, hcommand, hhandle⟩, rfl⟩
    refine Option.bind_eq_some_iff.mpr ⟨e, find?_normalKey_eq_some_iff.mpr ⟨hfirst, hkey⟩, ?_⟩
    refine Option.bind_eq_some_iff.mpr ⟨command, routedCommand?_eq_some_iff.mpr hcommand, ?_⟩
    exact Option.bind_eq_some_iff.mpr ⟨h, findSome?_routeKeys_eq_some_iff.mpr hhandle, rfl⟩

/-! ### All parameters -/

section
variable {registry : Registry (Handle ε)} {name : String} {params params' : Params}

/-- The tool that is found is one to which a first parameter leads, and only that parameter goes. -/
theorem exists_leadsTo_of_route? {h : Handle ε} (found : route? registry name params = some (h, params')) :
    ∃ e, FirstOfForm params e ∧ LeadsTo registry name e h ∧ (e :: params'.entries).Perm params.entries := by
  obtain ⟨key, hkey, found⟩ := List.exists_of_findSome?_eq_some found
  obtain ⟨e, hfirst, rfl, hselects, rfl⟩ := routeBy?_eq_some_iff.mp found
  exact ⟨e, hfirst, ⟨hkey, hselects⟩, Dict.perm_cons_erase hfirst.mem⟩

theorem route?_isSome {e : String × Value} {h : Handle ε} (hfirst : FirstOfForm params e)
    (hleads : LeadsTo registry name e h) : (route? registry name params).isSome = true := by
  -- A routing key before the one of this parameter may lead to another tool, but the search does not go past it.
  rw [route?, List.findSome?_isSome_iff]
  have hroute := routeBy?_eq_some_iff.mpr ⟨e, hfirst, rfl, hleads.value, rfl⟩
  exact ⟨normalKey e.1, hleads.key, by rw [hroute]; rfl⟩

theorem locate?_eq_route? (hname : registry.get? (normalKey name) = none) :
    locate? registry [] name params = route? registry name params := by
  have hextra : ExtraTools.find? ([] : ExtraTools (Handle ε)) (normalKey name) = none := rfl
  simp only [locate?, hextra, hname]

end

theorem resolve_eq_ok {registry : Registry (Handle ε)} {gate : Gate} {extra : ExtraTools (Handle ε)} {name : String}
    {params params' : Params} {h : Handle ε} (found : resolve registry gate extra name params = .ok (h, params')) :
    locate? registry extra name params = some (h, params') ∧ h.denial? gate = none := by
  rw [resolve] at found
  split at found
  · cases found
  · rename_i hlocate
    split at found
    · cases found
    · rename_i hdenial
      cases found
      exact ⟨hlocate, hdenial⟩

/-- For a name that is not registered, without tools of the dispatch: if a parameter that is the first of its normal
    form leads to a tool, then a tool is found, which the gate may refuse. If none does, the name is that of a plugin or
    unknown. Whatever tool is called gets the parameters without the one that led to it. -/
theorem resolve_routes {registry : Registry (Handle ε)} {name : String} (gate : Gate) (params : Params)
    (hname : registry.get? (normalKey name) = none) :
    ((∃ e h, FirstOfForm params e ∧ LeadsTo registry name e h) →
      (∃ h params', resolve registry gate [] name params = .ok (h, params')) ∨
        ∃ denial : Denial, resolve registry gate [] name params = .error (.disabled denial.message)) ∧
    ((¬∃ e h, FirstOfForm params e ∧ LeadsTo registry name e h) →
      resolve registry gate [] name params = .error (.unknown name) ∨
        ∃ tools, resolve registry gate [] name params = .error (.category name tools)) ∧
    ∀ h params', resolve registry gate [] name params = .ok (h, params') →
      ∃ e, FirstOfForm params e ∧ LeadsTo registry name e h ∧ (e :: params'.entries).Perm params.entries := by
  have hlocate : locate? registry [] name params = route? registry name params := locate?_eq_route? hname
  refine ⟨?_, fun hnone => ?_, fun h params' hok => ?_⟩
  · rintro ⟨e, h, hfirst, hleads⟩
    obtain ⟨found, hfound⟩ := Option.isSome_iff_exists.mp (route?_isSome hfirst hleads)
    rw [resolve, hlocate, hfound]
    simp only
    cases found.1.denial? gate with
    | none => exact Or.inl ⟨_, _, rfl⟩
    | some denial => exact Or.inr ⟨denial, rfl⟩
  · have hroute : route? registry name params = none := by
      refine Option.eq_none_iff_forall_ne_some.mpr fun found hfound => hnone ?_
      obtain ⟨e, hfirst, hleads, -⟩ := exists_leadsTo_of_route? hfound
      exact ⟨e, found.1, hfirst, hleads⟩
    rw [resolve, hlocate, hroute]
    simp only [missingTool]
    cases registry.category? (normalKey name) with
    | none => exact Or.inl rfl
    | some tools => exact Or.inr ⟨tools, rfl⟩
  · obtain ⟨hfound, -⟩ := resolve_eq_ok hok
    exact exists_leadsTo_of_route? (hlocate ▸ hfound)

/-! ### Two parameters of one normal form -/

def listTool : Handle Unit := ⟨⟨"list", none, none, none, none⟩, ()⟩

def listRegistry : Registry (Handle Unit) := Registry.empty.register "list" listTool

/-- The parameters `Command` and `command` with these values. -/
def twoCommands (upper lower : String) : Params := .ofList [("Command", .string upper), ("command", .string lower)]

theorem leadsTo_listTool {key : String} (hkey : normalKey key ∈ routingKeys) :
    LeadsTo listRegistry "files" (key, .string "list") listTool := by
  have hblank : allBlank "list" = false := by decide +kernel
  have htrimmed : trimmed "list" = "list" := by decide +kernel
  have hlist : normalKey "list" = "list" := by decide +kernel
  have hjoined : normalKey ("files" ++ "." ++ "list") = "files.list" := by decide +kernel
  refine ⟨hkey, "list", htrimmed ▸ .text hblank, Or.inr ⟨?_, ?_⟩⟩
  · rw [hjoined]
    rfl
  · rw [hlist]
    rfl

theorem get?_listRegistry_files : listRegistry.get? (normalKey "files") = none := by
  have hfiles : normalKey "files" = "files" := by decide +kernel
  rw [hfiles]
  rfl

theorem resolve_routes_twoCommands : listRegistry.get? (normalKey "files") = none ∧
    (∃ e h, FirstOfForm (twoCommands "list" "") e ∧ LeadsTo listRegistry "files" e h) ∧
    ((∃ h params', resolve listRegistry .new [] "files" (twoCommands "list" "") = .ok (h, params')) ∨
      ∃ denial : Denial, resolve listRegistry .new [] "files" (twoCommands "list" "") = .error (.disabled denial.message)) := by
  have hentries : (twoCommands "list" "").entries = [("Command", .string "list"), ("command", .string "")] := rfl
  have hfirst : FirstOfForm (twoCommands "list" "") ("Command", .string "list") := by
    refine ⟨hentries ▸ List.mem_cons_self, fun f hf _ => ?_⟩
    rw [hentries] at hf
    rcases List.mem_pair.mp hf with rfl | rfl <;> decide +kernel
  have hleads : ∃ e h, FirstOfForm (twoCommands "list" "") e ∧ LeadsTo listRegistry "files" e h :=
    ⟨_, _, hfirst, leadsTo_listTool (by decide +kernel)⟩
  exact ⟨get?_listRegistry_files, hleads, (resolve_routes .new _ get?_listRegistry_files).1 hleads⟩

/-- A blank `Command` hides the `command` that leads to the tool. -/
theorem twoCommands_missed : listRegistry.get? (normalKey "files") = none ∧
    (∃ e ∈ (twoCommands "" "list").entries, LeadsTo listRegistry "files" e listTool) ∧
    resolve listRegistry .new [] "files" (twoCommands "" "list") = .error (.unknown "files") := by
  refine ⟨get?_listRegistry_files, ⟨("command", .string "list"), ?_, leadsTo_listTool (by decide +kernel)⟩, ?_⟩
  · exact List.mem_cons_of_mem _ List.mem_cons_self
  · rfl

end ToolScript
