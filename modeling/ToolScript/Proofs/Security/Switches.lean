import ToolScript.Proofs.Data.Dict
import ToolScript.Settings

/-! # What a gate was told last

    Each write to a gate sets one of its switches: that of a category or of a plugin, the mode or the allowlist. Settings
    that are pushed into a gate write all the switches they name, the mode and the allowlist. A gate reflects its
    history: it has on every switch what was written to it last, and each write keeps this (`Reflects.write`). -/

namespace ToolScript.Security

/-! ### Writes -/

inductive Switch where
  | category (name : String)
  | plugin (name : String)
  | lightweight
  | allowlist

inductive Write where
  | category (name : String) (on : Bool)
  | plugin (name : String) (on : Bool)
  | lightweight (on : Bool)
  | allowlist (plugins : List String)

def Write.switch : Write → Switch
  | .category name _ => .category name
  | .plugin name _ => .plugin name
  | .lightweight _ => .lightweight
  | .allowlist _ => .allowlist

def Gate.write (g : Gate) : Write → Gate
  | .category name on => g.setCategory name on
  | .plugin name on => g.setPlugin name on
  | .lightweight on => g.setLightweight on
  | .allowlist plugins => g.setAllowlist plugins

/-- A change of a gate: a single write, or settings that are pushed into it. -/
inductive Update where
  | write (w : Write)
  | settings (s : Settings)

def Gate.update (g : Gate) : Update → Gate
  | .write w => g.write w
  | .settings s => s.applyTo g

/-- A new gate after some changes. -/
def Gate.after (updates : List Update) : Gate :=
  updates.foldl update new

/-- What an update writes, one after the other. -/
def Update.writes : Update → List Write
  | .write w => [w]
  | .settings s => s.categories.entries.map (fun e => .category e.1 e.2) ++
      (s.plugins.entries.map (fun e => .plugin e.1 e.2) ++ [.lightweight s.lightweight, .allowlist s.allowlist])

/-- Two updates that write to different switches. -/
def Update.Apart (u u' : Update) : Prop :=
  ∀ w ∈ u.writes, ∀ w' ∈ u'.writes, w.switch ≠ w'.switch

/-- What was written to a gate in all. A new gate is one with the mode off and the default allowlist. -/
def history (updates : List Update) : List Write :=
  .lightweight false :: .allowlist defaultAllowlist :: updates.flatMap Update.writes

/-! ### The rule -/

/-- No later write is to the same switch. -/
def Last (ws : List Write) (w : Write) : Prop :=
  ∃ before after, ws = before ++ w :: after ∧ ∀ w' ∈ after, w'.switch ≠ w.switch

/-- In lightweight mode and off the allowlist. -/
def Restricted (ws : List Write) (plugin : String) : Prop :=
  Last ws (.lightweight true) ∧ ∃ plugins, Last ws (.allowlist plugins) ∧ plugin ∉ plugins

/-- What a history means for a plugin of a category. Only the first reason that applies is given. -/
inductive Decides (ws : List Write) (plugin category : String) : Option Denial → Prop
  | lightweight {plugins : List String} (on : Last ws (.lightweight true)) (allowed : Last ws (.allowlist plugins))
      (out : plugin ∉ plugins) : Decides ws plugin category (some (.lightweight plugin (Names.ofList plugins).keys))
  | category (free : ¬Restricted ws plugin) (off : Last ws (.category category false)) :
      Decides ws plugin category (some (.category category))
  | plugin (free : ¬Restricted ws plugin) (on : ¬Last ws (.category category false))
      (off : Last ws (.plugin plugin false)) : Decides ws plugin category (some (.plugin plugin))
  | permitted (free : ¬Restricted ws plugin) (on : ¬Last ws (.category category false))
      (pluginOn : ¬Last ws (.plugin plugin false)) : Decides ws plugin category none

/-! ### Last writes -/

theorem last_snoc_iff {ws : List Write} {w w' : Write} :
    Last (ws ++ [w]) w' ↔ w' = w ∨ w.switch ≠ w'.switch ∧ Last ws w' := by
  constructor
  · rintro ⟨before, after, hsplit, hafter⟩
    rcases List.eq_nil_or_concat after with rfl | ⟨after, x, rfl⟩
    · obtain ⟨-, hw⟩ := List.append_inj' hsplit rfl
      exact Or.inl (List.singleton_inj.mp hw).symm
    · rw [List.concat_eq_append, ← List.cons_append, ← List.append_assoc] at hsplit
      obtain ⟨rfl, hw⟩ := List.append_inj' hsplit rfl
      obtain rfl := List.singleton_inj.mp hw
      rw [List.concat_eq_append, List.forall_mem_append] at hafter
      exact Or.inr ⟨hafter.2 w (List.mem_singleton_self w), before, after, rfl, hafter.1⟩
  · rintro (rfl | ⟨hw, before, after, rfl, hafter⟩)
    · exact ⟨ws, [], rfl, nofun⟩
    · refine ⟨before, after ++ [w], by simp, ?_⟩
      exact List.forall_mem_append.mpr ⟨hafter, List.forall_mem_singleton.mpr hw⟩

theorem last_snoc_of_ne {ws : List Write} {w w' : Write} (h : w.switch ≠ w'.switch) :
    Last (ws ++ [w]) w' ↔ Last ws w' := by
  rw [last_snoc_iff, and_iff_right h, or_iff_right]
  rintro rfl
  exact h rfl

theorem last_snoc_of_eq {ws : List Write} {w w' : Write} (h : w.switch = w'.switch) : Last (ws ++ [w]) w' ↔ w' = w := by
  rw [last_snoc_iff, or_iff_left fun hw => hw.1 h]

theorem not_last_nil (w : Write) : ¬Last [] w := by
  rintro ⟨before, after, hsplit, -⟩
  simp at hsplit

theorem Last.mem {ws : List Write} {w : Write} (h : Last ws w) : w ∈ ws := by
  obtain ⟨before, after, rfl, -⟩ := h
  simp

/-! ### What each write keeps -/

/-- A gate has on every switch what was written to it last. -/
structure Reflects (ws : List Write) (g : Gate) : Prop where
  categories : ∀ name on, g.categories.get? name = some on ↔ Last ws (.category name on)
  plugins : ∀ name on, g.plugins.get? name = some on ↔ Last ws (.plugin name on)
  lightweight : ∀ on, g.lightweight = on ↔ Last ws (.lightweight on)
  allowlist : ∀ plugins, Last ws (.allowlist plugins) → g.allowlist = .ofList plugins
  /-- There always is an allowlist. -/
  listed : ∃ plugins, Last ws (.allowlist plugins)

/-- A map of switches that reflects a history does so after one of its switches is set. -/
theorem get?_insert_iff_last {ws : List Write} {switches : Dict Bool} {set : String → Bool → Write}
    (hset : ∀ k b k' b', set k b = set k' b' ↔ k = k' ∧ b = b')
    (hswitch : ∀ k b k' b', (set k b).switch = (set k' b').switch ↔ k = k')
    (h : ∀ k b, switches.get? k = some b ↔ Last ws (set k b)) (name : String) (on : Bool) (k : String) (b : Bool) :
    (switches.insert name on).get? k = some b ↔ Last (ws ++ [set name on]) (set k b) := by
  rw [Dict.get?_insert]
  by_cases hk : name = k
  · rw [if_pos hk, last_snoc_of_eq ((hswitch _ _ _ _).mpr hk), hset, Option.some_inj]
    exact ⟨fun hb => ⟨hk.symm, hb.symm⟩, fun hb => hb.2.symm⟩
  · rw [if_neg hk, last_snoc_of_ne fun heq => hk ((hswitch _ _ _ _).mp heq), h]

namespace Reflects
variable {ws ws' : List Write} {g g' : Gate} {plugin category : String}

theorem new : Reflects [.lightweight false, .allowlist defaultAllowlist] .new := by
  have hlast : ∀ w, Last [.lightweight false, .allowlist defaultAllowlist] w ↔
      w = .allowlist defaultAllowlist ∨ Switch.allowlist ≠ w.switch ∧ w = .lightweight false := fun w => by
    have hsplit : ([.lightweight false, .allowlist defaultAllowlist] : List Write) =
        ([] ++ [.lightweight false]) ++ [.allowlist defaultAllowlist] := rfl
    simp only [hsplit, last_snoc_iff, not_last_nil, and_false, or_false]
    rfl
  constructor <;> simp [hlast, Gate.new, Write.switch, eq_comm]

theorem write (h : Reflects ws g) (w : Write) : Reflects (ws ++ [w]) (g.write w) := by
  -- What another switch was told last is the same as before.
  have hcategories (hw : ∀ k b, w.switch ≠ (Write.category k b).switch) (k : String) (b : Bool) :
      g.categories.get? k = some b ↔ Last (ws ++ [w]) (.category k b) := by
    rw [last_snoc_of_ne (hw k b), h.categories]
  have hplugins (hw : ∀ k b, w.switch ≠ (Write.plugin k b).switch) (k : String) (b : Bool) :
      g.plugins.get? k = some b ↔ Last (ws ++ [w]) (.plugin k b) := by
    rw [last_snoc_of_ne (hw k b), h.plugins]
  have hlightweight (hw : ∀ b, w.switch ≠ (Write.lightweight b).switch) (b : Bool) :
      g.lightweight = b ↔ Last (ws ++ [w]) (.lightweight b) := by
    rw [last_snoc_of_ne (hw b), h.lightweight]
  have hallowlist (hw : ∀ l, w.switch ≠ (Write.allowlist l).switch) (l : List String)
      (hl : Last (ws ++ [w]) (.allowlist l)) : g.allowlist = .ofList l :=
    h.allowlist l ((last_snoc_of_ne (hw l)).mp hl)
  have hlisted (hw : ∀ l, w.switch ≠ (Write.allowlist l).switch) : ∃ l, Last (ws ++ [w]) (.allowlist l) :=
    h.listed.imp fun l hl => (last_snoc_of_ne (hw l)).mpr hl
  cases w with
  | category name on =>
    exact ⟨get?_insert_iff_last (by simp) (by simp [Write.switch]) h.categories name on, hplugins nofun,
      hlightweight nofun, hallowlist nofun, hlisted nofun⟩
  | plugin name on =>
    exact ⟨hcategories nofun, get?_insert_iff_last (by simp) (by simp [Write.switch]) h.plugins name on,
      hlightweight nofun, hallowlist nofun, hlisted nofun⟩
  | lightweight on =>
    refine ⟨hcategories nofun, hplugins nofun, fun b => ?_, hallowlist nofun, hlisted nofun⟩
    have hset : Last (ws ++ [.lightweight on]) (.lightweight b) ↔ _ := last_snoc_of_eq rfl
    rw [hset, Write.lightweight.injEq]
    exact eq_comm
  | allowlist plugins =>
    have hset (l : List String) : Last (ws ++ [.allowlist plugins]) (.allowlist l) ↔ _ := last_snoc_of_eq rfl
    refine ⟨hcategories nofun, hplugins nofun, hlightweight nofun, fun l hl => ?_, plugins, (hset plugins).mpr rfl⟩
    rw [hset, Write.allowlist.injEq] at hl
    rw [hl]
    rfl

theorem writeAll (h : Reflects ws g) (more : List Write) : Reflects (ws ++ more) (more.foldl Gate.write g) := by
  induction more generalizing ws g with
  | nil =>
    rw [List.append_nil]
    exact h
  | cons w more ih =>
    have := ih (h.write w)
    rwa [List.append_assoc] at this

/-- What was written last determines the gate. -/
theorem eq_of_last_iff (h : Reflects ws g) (h' : Reflects ws' g') (hlast : ∀ w, Last ws w ↔ Last ws' w) : g = g' := by
  have hcategories : g.categories = g'.categories := Dict.ext_get? fun k => Option.ext fun b => by
    rw [h.categories, h'.categories, hlast]
  have hplugins : g.plugins = g'.plugins := Dict.ext_get? fun k => Option.ext fun b => by
    rw [h.plugins, h'.plugins, hlast]
  have hlightweight : g.lightweight = g'.lightweight :=
    ((h'.lightweight _).mpr ((hlast _).mp ((h.lightweight _).mp rfl))).symm
  have hallowlist : g.allowlist = g'.allowlist := by
    obtain ⟨plugins, hplugins⟩ := h.listed
    rw [h.allowlist plugins hplugins, h'.allowlist plugins ((hlast _).mp hplugins)]
  cases g
  cases g'
  cases hcategories
  cases hplugins
  cases hlightweight
  cases hallowlist
  rfl

end Reflects

/-! ### Updates -/

theorem update_eq_foldl (g : Gate) (u : Update) : g.update u = u.writes.foldl Gate.write g := by
  cases u with
  | write w => rfl
  | settings s =>
    simp only [Update.writes, List.foldl_append, List.foldl_map]
    rfl

theorem after_eq_foldl (us : List Update) : Gate.after us = (us.flatMap Update.writes).foldl Gate.write .new := by
  rw [List.foldl_flatMap, Gate.after]
  congr 1
  funext g u
  exact update_eq_foldl g u

theorem reflects_after (us : List Update) : Reflects (history us) (Gate.after us) := by
  rw [after_eq_foldl]
  exact Reflects.new.writeAll _

theorem write_write_comm {w w' : Write} (h : w.switch ≠ w'.switch) (g : Gate) :
    (g.write w).write w' = (g.write w').write w := by
  cases w with
  | category name on =>
    cases w' with
    | category name' on' =>
      have hname : name ≠ name' := fun heq => h (congrArg Switch.category heq)
      exact congrArg (fun d => { g with categories := d }) (g.categories.insert_comm hname on on')
    | _ => rfl
  | plugin name on =>
    cases w' with
    | plugin name' on' =>
      have hname : name ≠ name' := fun heq => h (congrArg Switch.plugin heq)
      exact congrArg (fun d => { g with plugins := d }) (g.plugins.insert_comm hname on on')
    | _ => rfl
  | lightweight on =>
    cases w' with
    | lightweight on' => exact absurd rfl h
    | _ => rfl
  | allowlist plugins =>
    cases w' with
    | allowlist plugins' => exact absurd rfl h
    | _ => rfl

theorem foldl_write_comm {ws : List Write} {w : Write} (h : ∀ w' ∈ ws, w.switch ≠ w'.switch) (g : Gate) :
    ws.foldl Gate.write (g.write w) = (ws.foldl Gate.write g).write w := by
  induction ws generalizing g with
  | nil => rfl
  | cons w' ws ih =>
    obtain ⟨hw, hws⟩ := List.forall_mem_cons.mp h
    rw [List.foldl_cons, List.foldl_cons, write_write_comm hw, ih hws]

theorem foldl_foldl_write_comm {ws ws' : List Write} (h : ∀ w ∈ ws, ∀ w' ∈ ws', w.switch ≠ w'.switch) (g : Gate) :
    ws'.foldl Gate.write (ws.foldl Gate.write g) = ws.foldl Gate.write (ws'.foldl Gate.write g) := by
  induction ws generalizing g with
  | nil => rfl
  | cons w ws ih =>
    obtain ⟨hw, hws⟩ := List.forall_mem_cons.mp h
    rw [List.foldl_cons, List.foldl_cons, ih hws, foldl_write_comm hw]

theorem Update.Apart.after_comm {u u' : Update} (h : u.Apart u') {updates : List Update} (later : List Update) :
    Gate.after (updates ++ u :: u' :: later) = Gate.after (updates ++ u' :: u :: later) := by
  have hcomm : ((Gate.after updates).update u).update u' = ((Gate.after updates).update u').update u := by
    simp only [update_eq_foldl]
    exact foldl_foldl_write_comm h _
  simp only [Gate.after, List.foldl_append, List.foldl_cons] at hcomm ⊢
  rw [hcomm]

/-! ### Decisions -/

theorem contains_names (plugins : List String) (plugin : String) :
    (Names.ofList plugins).contains plugin = decide (plugin ∈ plugins) := by
  rw [Names.ofList, Dict.contains_eq_isSome_get?, Bool.eq_iff_iff, decide_eq_true_eq, Option.isSome_iff_exists]
  constructor
  · rintro ⟨v, hv⟩
    obtain ⟨name, hname, heq⟩ := List.mem_map.mp (Dict.get?_ofList_iff.mp hv).mem
    exact (Prod.mk.inj heq).1 ▸ hname
  · intro h
    exact Dict.exists_get?_ofList ⟨_, List.mem_map.mpr ⟨plugin, h, rfl⟩, rfl⟩

theorem Gate.categoryOn_eq_false_iff {g : Gate} {name : String} :
    g.categoryOn name = false ↔ g.categories.get? name = some false := by
  rw [categoryOn]
  cases g.categories.get? name <;> simp

theorem Gate.pluginOn_eq_false_iff {g : Gate} {name : String} :
    g.pluginOn name = false ↔ g.plugins.get? name = some false := by
  rw [pluginOn]
  cases g.plugins.get? name <;> simp

theorem Gate.permits_iff_check {g : Gate} {plugin category : String} :
    g.permits plugin category = true ↔ g.check plugin category = .ok () := by
  rw [permits, check]
  cases g.denial? plugin category <;> simp

theorem Gate.check_eq_error_iff {g : Gate} {plugin category : String} {d : Denial} :
    g.check plugin category = .error d ↔ g.denial? plugin category = some d := by
  rw [check]
  cases g.denial? plugin category <;> simp

namespace Reflects
variable {ws : List Write} {g : Gate} {plugin category : String}

theorem restricted_iff (h : Reflects ws g) :
    Restricted ws plugin ↔ (g.lightweight && !g.allowlist.contains plugin) = true := by
  have hout {plugins : List String} (hplugins : Last ws (.allowlist plugins)) :
      plugin ∉ plugins ↔ g.allowlist.contains plugin = false := by
    rw [h.allowlist plugins hplugins, contains_names, decide_eq_false_iff_not]
  rw [Restricted, ← h.lightweight, Bool.and_eq_true, Bool.not_eq_true']
  refine and_congr_right fun _ => ⟨fun ⟨plugins, hplugins, hmem⟩ => (hout hplugins).mp hmem, fun hmem => ?_⟩
  obtain ⟨plugins, hplugins⟩ := h.listed
  exact ⟨plugins, hplugins, (hout hplugins).mpr hmem⟩

theorem last_category_iff (h : Reflects ws g) :
    Last ws (.category category false) ↔ (!g.categoryOn category) = true := by
  rw [← h.categories, Bool.not_eq_true', Gate.categoryOn_eq_false_iff]

theorem last_plugin_iff (h : Reflects ws g) : Last ws (.plugin plugin false) ↔ (!g.pluginOn plugin) = true := by
  rw [← h.plugins, Bool.not_eq_true', Gate.pluginOn_eq_false_iff]

theorem denial?_eq_iff (h : Reflects ws g) {d : Option Denial} :
    g.denial? plugin category = d ↔ Decides ws plugin category d := by
  constructor
  · rintro rfl
    rw [Gate.denial?]
    split
    · rename_i hrestricted
      obtain ⟨hon, plugins, hplugins, hout⟩ := h.restricted_iff.mpr hrestricted
      rw [h.allowlist plugins hplugins]
      exact .lightweight hon hplugins hout
    · rename_i hrestricted
      have hfree : ¬Restricted ws plugin := mt h.restricted_iff.mp hrestricted
      split
      · rename_i hoff
        exact .category hfree (h.last_category_iff.mpr hoff)
      · rename_i hcategory
        have hon : ¬Last ws (.category category false) := mt h.last_category_iff.mp hcategory
        split
        · rename_i hoff
          exact .plugin hfree hon (h.last_plugin_iff.mpr hoff)
        · rename_i hplugin
          exact .permitted hfree hon (mt h.last_plugin_iff.mp hplugin)
  · intro hd
    cases hd with
    | lightweight on allowed out =>
      rw [Gate.denial?, if_pos (h.restricted_iff.mp ⟨on, _, allowed, out⟩), h.allowlist _ allowed]
    | category free off =>
      rw [Gate.denial?, if_neg (mt h.restricted_iff.mpr free), if_pos (h.last_category_iff.mp off)]
    | plugin free on off =>
      rw [Gate.denial?, if_neg (mt h.restricted_iff.mpr free), if_neg (mt h.last_category_iff.mpr on),
        if_pos (h.last_plugin_iff.mp off)]
    | permitted free on pluginOn =>
      rw [Gate.denial?, if_neg (mt h.restricted_iff.mpr free), if_neg (mt h.last_category_iff.mpr on),
        if_neg (mt h.last_plugin_iff.mpr pluginOn)]

theorem categoryOn_of_unwritten (h : Reflects ws g) (hws : ∀ w ∈ ws, w.switch ≠ .category category) :
    g.categoryOn category = true := by
  have hoff : ¬Last ws (.category category false) := fun hlast => hws _ hlast.mem rfl
  simpa using mt h.last_category_iff.mpr hoff

theorem pluginOn_of_unwritten (h : Reflects ws g) (hws : ∀ w ∈ ws, w.switch ≠ .plugin plugin) :
    g.pluginOn plugin = true := by
  have hoff : ¬Last ws (.plugin plugin false) := fun hlast => hws _ hlast.mem rfl
  simpa using mt h.last_plugin_iff.mpr hoff

end Reflects

/-! ### Settings -/

theorem foldl_setCategory (es : List (String × Bool)) (g : Gate) :
    es.foldl (fun g e => g.setCategory e.1 e.2) g =
      { g with categories := es.foldl (fun d e => d.insert e.1 e.2) g.categories } :=
  List.foldl_hom (fun d => { g with categories := d }) fun _ _ => rfl

theorem foldl_setPlugin (es : List (String × Bool)) (g : Gate) :
    es.foldl (fun g e => g.setPlugin e.1 e.2) g =
      { g with plugins := es.foldl (fun d e => d.insert e.1 e.2) g.plugins } :=
  List.foldl_hom (fun d => { g with plugins := d }) fun _ _ => rfl

/-- The gate of settings has their switches and no others. -/
theorem gate_eq (s : Settings) : s.gate = ⟨s.categories, s.plugins, s.lightweight, .ofList s.allowlist⟩ := by
  have hcategories : s.categories.entries.foldl (fun d e => d.insert e.1 e.2) Dict.empty = s.categories :=
    s.categories.ofList_entries
  have hplugins : s.plugins.entries.foldl (fun d e => d.insert e.1 e.2) Dict.empty = s.plugins :=
    s.plugins.ofList_entries
  simp only [Settings.gate, Settings.applyTo, foldl_setCategory, foldl_setPlugin, Gate.new, hcategories, hplugins]
  rfl

theorem denial?_gate (s : Settings) (plugin category : String) :
    s.gate.denial? plugin category =
      if s.lightweight = true ∧ plugin ∉ s.allowlist then some (.lightweight plugin (Names.ofList s.allowlist).keys)
      else if s.categories.get? category = some false then some (.category category)
      else if s.plugins.get? plugin = some false then some (.plugin plugin)
      else none := by
  rw [gate_eq]
  simp only [Gate.denial?, contains_names, Bool.and_eq_true, Bool.not_eq_true', decide_eq_false_iff_not,
    Gate.categoryOn_eq_false_iff, Gate.pluginOn_eq_false_iff]

/-! ### Every history -/

/-- After whatever changes of a new gate, what it decides is determined by what was written last to the mode, to the
    allowlist and to the switches of the category and the plugin; a check and a permission agree with it. Gates with the
    same last writes are the same, updates that write to different switches may change places, a switch that was
    never written is on, and the gate of settings decides by what the settings say. -/
theorem denial?_eq_iff_decides (updates : List Update) :
    let g := Gate.after updates
    let ws := history updates
    (∀ plugin category d, g.denial? plugin category = d ↔ Decides ws plugin category d) ∧
      (∀ plugin category, (g.permits plugin category = true ↔ g.check plugin category = .ok ()) ∧
        ∀ d, g.check plugin category = .error d ↔ g.denial? plugin category = some d) ∧
      (∀ updates', (∀ w, Last ws w ↔ Last (history updates') w) → g = Gate.after updates') ∧
      (∀ u u' later, u.Apart u' →
        Gate.after (updates ++ u :: u' :: later) = Gate.after (updates ++ u' :: u :: later)) ∧
      (∀ name, (∀ w ∈ ws, w.switch ≠ .category name) → g.categoryOn name = true) ∧
      (∀ name, (∀ w ∈ ws, w.switch ≠ .plugin name) → g.pluginOn name = true) ∧
      ∀ (s : Settings) plugin category, s.gate.denial? plugin category =
        if s.lightweight = true ∧ plugin ∉ s.allowlist then some (.lightweight plugin (Names.ofList s.allowlist).keys)
        else if s.categories.get? category = some false then some (.category category)
        else if s.plugins.get? plugin = some false then some (.plugin plugin)
        else none := by
  intro g ws
  have h : Reflects ws g := reflects_after updates
  exact ⟨fun _ _ _ => h.denial?_eq_iff, fun _ _ => ⟨Gate.permits_iff_check, fun _ => Gate.check_eq_error_iff⟩,
    fun updates' => h.eq_of_last_iff (reflects_after updates'), fun _ _ later hapart => hapart.after_comm later,
    fun _ => h.categoryOn_of_unwritten, fun _ => h.pluginOn_of_unwritten, denial?_gate⟩

end ToolScript.Security
