import ToolScript.Proofs.Json.Record
import ToolScript.Settings

/-! # Settings in a file

    Settings that are saved and loaded again are the same. A text adds its switches to the default ones, so this takes
    settings that have a switch for each category that has one by default, and limits within 64 bits. The default
    settings are such, and whatever makes or changes settings keeps them so. -/

namespace ToolScript.Settings
open Json Security Script

/-- Limits within 64 bits. -/
structure Fit (l : ScopeLimits) : Prop where
  maxVariables : (l.maxVariables : Int) ≤ maxUInt64
  maxStringLength : (l.maxStringLength : Int) ≤ maxUInt64

/-- What settings need to come back from a file as they were. -/
structure Storable (s : Settings) : Prop where
  categories : ∀ k, default.categories.contains k = true → s.categories.contains k = true
  limits : Fit s.limits

/-- Settings that come from the default ones, a text or a file, with switches set since. -/
inductive Reachable : Settings → Prop
  | default : Reachable default
  | parsed {s : Settings} {text : String} (accepted : ofText? text = some s) : Reachable s
  | loaded {s : Settings} {place place' : FilePlace} (accepted : load place = .ok (s, place')) : Reachable s
  | setCategory {s : Settings} (name : String) (on : Bool) (before : Reachable s) : Reachable (s.setCategory name on)
  | setPlugin {s : Settings} (name : String) (on : Bool) (before : Reachable s) : Reachable (s.setPlugin name on)

/-! ### Storable settings -/

theorem fit_default : Fit default.limits := ⟨by decide, by decide⟩

theorem le_of_defaulted_size? {default n : Nat} {slot : Option Node} (hdefault : (default : Int) ≤ maxUInt64)
    (h : defaulted default Node.size? slot = some n) : (n : Int) ≤ maxUInt64 := by
  cases slot with
  | none =>
    cases h
    exact hdefault
  | some node => exact le_of_size? h

theorem fit_of_readLimits? {n : Node} {l : ScopeLimits} (h : readLimits? n = some l) : Fit l := by
  simp only [readLimits?, Option.bind_eq_bind, Option.bind_eq_some_iff] at h
  obtain ⟨slots, -, h⟩ := h
  split at h
  · simp only [Option.bind_eq_some_iff] at h
    obtain ⟨count, hcount, length, hlength, hl⟩ := h
    cases hl
    exact ⟨le_of_defaulted_size? fit_default.maxVariables hcount,
      le_of_defaulted_size? fit_default.maxStringLength hlength⟩
  · cases h

theorem fit_of_defaulted {slot : Option Node} {l : ScopeLimits} (h : defaulted default.limits readLimits? slot = some l) :
    Fit l := by
  cases slot with
  | none =>
    cases h
    exact fit_default
  | some node => exact fit_of_readLimits? h

theorem fit_of_readFields? {n : Node} {s : Settings} (h : readFields? n = some s) : Fit s.limits := by
  simp only [readFields?, Option.bind_eq_bind, Option.bind_eq_some_iff] at h
  obtain ⟨slots, -, h⟩ := h
  split at h
  · simp only [Option.bind_eq_some_iff] at h
    obtain ⟨_, -, _, -, _, -, _, -, limits, hlimits, _, -, hs⟩ := h
    cases hs
    exact fit_of_defaulted hlimits
  · cases h

theorem storable_of_ofText? {s : Settings} {text : String} (h : ofText? text = some s) : Storable s := by
  obtain ⟨parsed, hparsed, rfl⟩ := Option.map_eq_some_iff.mp h
  obtain ⟨n, -, hfields⟩ := Option.bind_eq_some_iff.mp hparsed
  have hlimits : Fit parsed.limits := fit_of_readFields? hfields
  refine ⟨fun k hk => ?_, hlimits⟩
  rw [overDefaults, Dict.contains_union, hk, Bool.or_true]

theorem storable_of_load {s : Settings} {place place' : FilePlace} (h : load place = .ok (s, place')) : Storable s := by
  cases place with
  | nowhere => cases h
  | vacant =>
    cases h
    exact ⟨fun _ h => h, fit_default⟩
  | file bytes =>
    simp only [load] at h
    split at h
    · cases h
    · split at h
      · cases h
      · rename_i htext
        cases h
        exact storable_of_ofText? htext

theorem Storable.setCategory {s : Settings} (h : Storable s) (name : String) (on : Bool) :
    Storable (s.setCategory name on) := by
  refine ⟨fun k hk => ?_, h.limits⟩
  rw [Settings.setCategory, Dict.contains_insert, h.categories k hk, Bool.or_true]

theorem Storable.setPlugin {s : Settings} (h : Storable s) (name : String) (on : Bool) :
    Storable (s.setPlugin name on) := ⟨h.categories, h.limits⟩

theorem Reachable.storable {s : Settings} (h : Reachable s) : Storable s := by
  induction h with
  | default => exact ⟨fun _ h => h, fit_default⟩
  | parsed accepted => exact storable_of_ofText? accepted
  | loaded accepted => exact storable_of_load accepted
  | setCategory name on before ih => exact ih.setCategory name on
  | setPlugin name on before ih => exact ih.setPlugin name on

/-! ### The text of settings -/

theorem legible_switchesJson (d : Dict Bool) (depth : Nat) : Legible (depth + 1) (switchesJson d) := by
  refine .object fun e he => ?_
  obtain ⟨f, -, rfl⟩ := List.mem_map.mp he
  exact .bool f.2

theorem Fit.legible {l : ScopeLimits} (h : Fit l) (depth : Nat) : Legible (depth + 1) (limitsJson l) := by
  have hleast (n : Nat) : minInt64 ≤ (n : Int) := Int.le_trans (by decide) (Int.natCast_nonneg n)
  refine .record fun e he v hv => ?_
  simp only [List.mem_cons, List.not_mem_nil, or_false] at he
  rcases he with rfl | rfl
  · cases hv
    exact .int (hleast _) h.maxVariables
  · cases hv
    exact .int (hleast _) h.maxStringLength

theorem legible_securityJson (s : SecuritySettings) (depth : Nat) : Legible (depth + 1) (securityJson s) := by
  refine .record fun e he v hv => ?_
  simp only [List.mem_cons, List.not_mem_nil, or_false] at he
  rcases he with rfl | rfl
  · cases hv
    exact .string _
  · obtain ⟨salt, -, rfl⟩ := Option.map_eq_some_iff.mp hv
    exact .string salt

theorem Storable.legible {s : Settings} (h : Storable s) : Legible maxDepth s.json := by
  refine .record fun e he v hv => ?_
  simp only [List.mem_cons, List.not_mem_nil, or_false] at he
  rcases he with rfl | rfl | rfl | rfl | rfl | rfl <;> cases hv
  · exact legible_switchesJson s.categories 125
  · exact legible_switchesJson s.plugins 125
  · exact .bool s.lightweight
  · refine Legible.array (d := 125) fun v hv => ?_
    obtain ⟨name, -, rfl⟩ := List.mem_map.mp hv
    exact .string name
  · exact h.limits.legible 125
  · exact legible_securityJson s.security 125

theorem readLimits?_limitsJson {l : ScopeLimits} (h : Fit l) : readLimits? (Node.ofValue (limitsJson l)) = some l := by
  have hslots : (Node.ofValue (limitsJson l)).slots? ["max_variables", "max_string_len"] =
      some [some (.int l.maxVariables), some (.int l.maxStringLength)] := slots?_record (by simp)
  simp [readLimits?, hslots, defaulted, size?_ofNat h.maxVariables, size?_ofNat h.maxStringLength]

theorem readSecurity?_securityJson (s : SecuritySettings) : readSecurity? (Node.ofValue (securityJson s)) = some s := by
  have hslots : (Node.ofValue (securityJson s)).slots? ["tag_policy", "system_salt"] =
      some [some (.string s.policy.name), (s.salt.map .string).map Node.ofValue] := slots?_record (by simp)
  have hpolicy : Policy.read? (.string s.policy.name) = some s.policy := by cases s.policy <;> rfl
  have hsalt : optional Node.string? ((s.salt.map Value.string).map Node.ofValue) = some s.salt := by
    cases s.salt <;> rfl
  simp [-Option.map_map, readSecurity?, hslots, defaulted, hpolicy, hsalt]

theorem readFields?_json {s : Settings} (h : Storable s) : readFields? (Node.ofValue s.json) = some s := by
  have hslots : (Node.ofValue s.json).slots?
      ["categories", "plugins", "lightweight_mode", "lightweight_allowlist", "scope", "security"] =
        some [some (Node.ofValue (switchesJson s.categories)), some (Node.ofValue (switchesJson s.plugins)),
          some (.bool s.lightweight), some (Node.ofValue (.array (s.allowlist.map .string))),
          some (Node.ofValue (limitsJson s.limits)), some (Node.ofValue (securityJson s.security))] :=
    slots?_record (by simp)
  have hswitches (d : Dict Bool) : Node.dict? Node.bool? (Node.ofValue (switchesJson d)) = some d :=
    dict?_ofDict (fun _ => rfl) d
  have hallowlist : Node.list? Node.string? (Node.ofValue (.array (s.allowlist.map .string))) = some s.allowlist :=
    list?_array fun _ _ => rfl
  simp [readFields?, hslots, defaulted, hswitches, hallowlist, Node.bool?,
    readLimits?_limitsJson h.limits, readSecurity?_securityJson]

theorem overDefaults_eq_self {s : Settings} (h : Storable s) : s.overDefaults = s := by
  have hplugins : default.plugins.union s.plugins = s.plugins := Dict.union_eq_right fun _ h => by cases h
  rw [overDefaults, Dict.union_eq_right h.categories, hplugins]

theorem ofText?_text {s : Settings} (h : Storable s) : ofText? s.text = some s := by
  rw [ofText?, text, Node.read?_pretty h.legible, Option.bind_some, readFields?_json h, Option.map_some,
    overDefaults_eq_self h]

/-! ### Saving and loading -/

theorem fromUTF8?_toUTF8 (s : String) : String.fromUTF8? s.toUTF8 = some s :=
  dif_pos s.isValidUTF8

/-- Reachable settings saved where there is a directory are loaded from there as they were: with the same switches,
    limits and policy, the same salt or none, and therefore with the same gate and the same identifiers of turns. -/
theorem load_save {s : Settings} (h : Reachable s) {place : FilePlace} (hplace : place ≠ .nowhere) :
    ∃ saved, s.save place = .ok saved ∧ load saved = .ok (s, saved) := by
  have hload : load (.file s.text.toUTF8) = .ok (s, .file s.text.toUTF8) := by
    simp only [load, fromUTF8?_toUTF8, ofText?_text h.storable]
  cases place with
  | nowhere => exact absurd rfl hplace
  | vacant => exact ⟨_, rfl, hload⟩
  | file bytes => exact ⟨_, rfl, hload⟩

/-- A text that says something of one category and of how turns are secured. -/
def strictText : String :=
  "\x7b\"categories\": \x7b\"work\": false\x7d, \"security\": \x7b\"tag_policy\": \"strict\", \"system_salt\": \"s\"\x7d\x7d"

def strictSettings : Settings :=
  { default with
    categories := .ofList [("core", true), ("plugins", true), ("work", false)], security := ⟨.strict, some "s"⟩ }

theorem ofText?_strictText : ofText? strictText = some strictSettings := by
  rfl

theorem load_save_strictText :
    Reachable (strictSettings.setPlugin "FileOps" false) ∧ FilePlace.vacant ≠ .nowhere ∧
      ∃ saved, (strictSettings.setPlugin "FileOps" false).save .vacant = .ok saved ∧
        load saved = .ok (strictSettings.setPlugin "FileOps" false, saved) :=
  have hreachable := Reachable.setPlugin "FileOps" false (.parsed ofText?_strictText)
  ⟨hreachable, nofun, load_save hreachable nofun⟩

end ToolScript.Settings
