import ToolScript.Proofs.Json.Fields
import ToolScript.Proofs.Text.Removal
import ToolScript.Proofs.Tool.Keys
import ToolScript.Proofs.Tool.Offers

/-! # Definitions with names

    The constructors of commands, manifests and descriptions of tools refuse blank names. The decoders do not: what they
    give has names exactly if the tree does. So whatever is built and decoded from trees with names has names, and with
    it all that a catalog registers. -/

namespace ToolScript
open Text Json

/-- A text of which something is left after trimming. -/
def Text.Nonblank (s : String) : Prop :=
  trimmed s ≠ ""

instance (s : String) : Decidable (Nonblank s) :=
  inferInstanceAs (Decidable (trimmed s ≠ ""))

theorem nonblank_iff {s : String} : Nonblank s ↔ allBlank s = false := by
  rw [Nonblank, trimmed, ne_eq, ← String.toList_eq_nil_iff, String.toList_ofList, trim_eq_nil_iff, allBlank,
    Bool.not_eq_true]

/-! ### Definitions -/

structure Manifest.WellFormed (m : Manifest) : Prop where
  name : Nonblank m.name
  category : Nonblank m.category
  commands : ∀ c ∈ m.commands, Nonblank c.id

/-- What plugins and tools are announced by. -/
inductive Definition where
  | command (c : Command)
  | manifest (m : Manifest)
  | tool (t : Metadata)

namespace Definition

def WellFormed : Definition → Prop
  | .command c => Nonblank c.id
  | .manifest m => m.WellFormed
  | .tool t => Nonblank t.name

/-- A definition is what its decoder makes of a tree. -/
def ReadFrom (n : Node) : Definition → Prop
  | .command c => Command.read? n = some c
  | .manifest m => Manifest.read? n = some m
  | .tool t => Metadata.read? n = some t

/-- The ways to come by a definition; `admits` says which trees there are to decode. -/
inductive Obtained (admits : Node → Definition → Prop) : Definition → Prop
  | command {id description : String} {c : Command} (made : Command.new id description = .ok c) :
    Obtained admits (.command c)
  | withSchema {c : Command} (schema : Value) (before : Obtained admits (.command c)) :
    Obtained admits (.command (c.withSchema schema))
  | exposed {m : Manifest} {c : Command} (before : Obtained admits (.manifest m)) (listed : c ∈ m.commands) :
    Obtained admits (.command c)
  | manifest {name category : String} {displayName description : Option String} {commands : List Command} {m : Manifest}
    (parts : ∀ c ∈ commands, Obtained admits (.command c))
    (made : Manifest.new name displayName description category commands = .ok m) : Obtained admits (.manifest m)
  | tool {name : String} {t : Metadata} (made : Metadata.new name = .ok t) : Obtained admits (.tool t)
  | withDescription {t : Metadata} (description : String) (before : Obtained admits (.tool t)) :
    Obtained admits (.tool (t.withDescription description))
  | withPlugin {t : Metadata} (plugin category : String) (before : Obtained admits (.tool t)) :
    Obtained admits (.tool (t.withPlugin plugin category))
  | toolSchema {t : Metadata} (schema : Value) (before : Obtained admits (.tool t)) :
    Obtained admits (.tool (t.withSchema schema))
  | decoded {n : Node} {d : Definition} (made : d.ReadFrom n) (admitted : admits n d) : Obtained admits d

end Definition

/-! ### Names in trees -/

/-- What a tree has for a field of a record is no blank text. -/
def Json.Node.Names (place : Nat) (field : String) (n : Node) : Prop :=
  ∀ s, n.Has place field (.string s) → Nonblank s

/-- A tree has a list with an item for a field of a record. -/
def Json.Node.Lists (place : Nat) (field : String) (n item : Node) : Prop :=
  ∃ items, n.Has place field (.array items) ∧ item ∈ items

/-- The trees of the commands that count: the second list does so only where there is no first one. -/
def Capabilities.Exposes (n item : Node) : Prop :=
  n.Lists 0 "invocationCommands" item ∨
    (∀ v, n.Has 0 "invocationCommands" v → v = .null) ∧ n.Lists 1 "toolDefinitions" item

structure Manifest.NamedIn (n : Node) : Prop where
  name : n.Names 0 "name"
  category : n.Names 3 "_category"
  commands : ∀ capabilities, n.Has 4 "capabilities" capabilities →
    ∀ item, Capabilities.Exposes capabilities item → item.Names 0 "commandIdentifier"

/-- A tree has names where a definition needs them. -/
def Definition.NamedIn (n : Node) : Definition → Prop
  | .command _ => n.Names 0 "commandIdentifier"
  | .manifest _ => Manifest.NamedIn n
  | .tool _ => n.Names 0 "name"

section
variable {fields : List String} {n : Node} {slots : List (Option Node)} {place : Nat} {field s default : String}
  {slot : Option Node}

theorem names_iff_of_required (h : n.slots? fields = some slots) (hfield : fields[place]? = some field)
    (hslot : slots[place]? = some slot) (hs : required Node.string? slot = some s) :
    n.Names place field ↔ Nonblank s := by
  simp only [Node.Names, Node.has_iff h place hfield hslot, required_string?_iff.mp hs, Option.some.injEq,
    Node.string.injEq, forall_eq']

theorem names_iff_of_defaulted (h : n.slots? fields = some slots) (hfield : fields[place]? = some field)
    (hslot : slots[place]? = some slot) (hdefault : Nonblank default)
    (hs : defaulted default Node.string? slot = some s) : n.Names place field ↔ Nonblank s := by
  simp only [Node.Names, Node.has_iff h place hfield hslot]
  rcases defaulted_eq_some_iff.mp hs with ⟨rfl, rfl⟩ | ⟨v, rfl, hv⟩
  · exact ⟨fun _ => hdefault, nofun⟩
  · simp only [string?_eq_some_iff.mp hv, Option.some.injEq, Node.string.injEq, forall_eq']

end

theorem nonblank_iff_of_read? {n : Node} {c : Command} (h : Command.read? n = some c) :
    Nonblank c.id ↔ n.Names 0 "commandIdentifier" := by
  simp only [Command.read?, Option.bind_eq_bind, Option.bind_eq_some_iff] at h
  obtain ⟨slots, hslots, h⟩ := h
  split at h
  · simp only [Option.bind_eq_some_iff] at h
    obtain ⟨id, hid, _, -, _, -, hc⟩ := h
    cases hc
    exact (names_iff_of_required hslots rfl rfl hid).symm
  · cases h

theorem nonblank_iff_of_readTool? {n : Node} {t : Metadata} (h : Metadata.read? n = some t) :
    Nonblank t.name ↔ n.Names 0 "name" := by
  simp only [Metadata.read?, Option.bind_eq_bind, Option.bind_eq_some_iff] at h
  obtain ⟨slots, hslots, h⟩ := h
  split at h
  · simp only [Option.bind_eq_some_iff] at h
    obtain ⟨name, hname, _, -, _, -, _, -, _, -, ht⟩ := h
    cases ht
    exact (names_iff_of_required hslots rfl rfl hname).symm
  · cases h

theorem forall_exposed_iff {n : Node} {c : Capabilities} (h : Capabilities.read? n = some c) :
    (∀ command ∈ (c.invocationCommands.or c.toolDefinitions).getD [], Nonblank command.id) ↔
      ∀ item, Capabilities.Exposes n item → item.Names 0 "commandIdentifier" := by
  have hlist {items : List Node} {l : List Command} (hl : items.mapM Command.read? = some l) :
      (∀ command ∈ l, Nonblank command.id) ↔ ∀ item ∈ items, item.Names 0 "commandIdentifier" :=
    forall_mem_iff_of_mapM (fun _ _ hread => nonblank_iff_of_read? hread) hl
  have hnone {slot : Option Node} (hnull : ∀ v, slot = some v → v = .null) (items : List Node) :
      slot ≠ some (.array items) := fun hslot => nomatch hnull _ hslot
  simp only [Capabilities.read?, Option.bind_eq_bind, Option.bind_eq_some_iff] at h
  obtain ⟨slots, hslots, h⟩ := h
  split at h
  · simp only [Option.bind_eq_some_iff] at h
    obtain ⟨invocationCommands, hinvocation, toolDefinitions, htool, hc⟩ := h
    cases hc
    simp only [Capabilities.Exposes, Node.Lists, Node.has_iff hslots 0 rfl rfl,
      Node.has_iff hslots 1 rfl rfl]
    -- The second list is looked at only where the first one is absent or null.
    rcases optional_list?_cases hinvocation with ⟨rfl, hnull⟩ | ⟨items, l, rfl, rfl, hl⟩
    · rcases optional_list?_cases htool with ⟨rfl, hnull'⟩ | ⟨items, l, rfl, rfl, hl⟩
      · simp [hnone hnull, hnone hnull']
      · simp [hnone hnull, eq_true hnull, hlist hl]
    · simp [hlist hl]
  · cases h

theorem wellFormed_iff_of_readManifest? {n : Node} {m : Manifest} (h : Manifest.read? n = some m) :
    m.WellFormed ↔ Manifest.NamedIn n := by
  simp only [Manifest.read?, Option.bind_eq_bind, Option.bind_eq_some_iff] at h
  obtain ⟨slots, hslots, h⟩ := h
  split at h
  · simp only [Option.bind_eq_some_iff] at h
    obtain ⟨name, hname, displayName, -, description, -, category, hcategory, capabilities, hcapabilities, hm⟩ := h
    have hcommands : (∀ c ∈ m.commands, Nonblank c.id) ↔ ∀ v, n.Has 4 "capabilities" v →
        ∀ item, Capabilities.Exposes v item → item.Names 0 "commandIdentifier" := by
      cases hm
      simp only [Node.has_iff hslots 4 rfl rfl]
      rcases defaulted_eq_some_iff.mp hcapabilities with ⟨rfl, rfl⟩ | ⟨v, rfl, hv⟩
      · exact ⟨fun _ => nofun, fun _ => nofun⟩
      · simp only [Option.some.injEq, forall_eq']
        exact forall_exposed_iff hv
    have hnames : n.Names 0 "name" ↔ Nonblank name := names_iff_of_required hslots rfl rfl hname
    have hcategories : n.Names 3 "_category" ↔ Nonblank category :=
      names_iff_of_defaulted hslots rfl rfl (by decide +kernel) hcategory
    cases hm
    exact ⟨fun ⟨hn, hc, hall⟩ => ⟨hnames.mpr hn, hcategories.mpr hc, hcommands.mp hall⟩,
      fun ⟨hn, hc, hall⟩ => ⟨hnames.mp hn, hcategories.mp hc, hcommands.mpr hall⟩⟩
  · cases h

/-- Of what is decoded, exactly the definitions from trees with names are well-formed. -/
theorem Definition.wellFormed_iff_of_readFrom {n : Node} {d : Definition} (h : d.ReadFrom n) :
    d.WellFormed ↔ d.NamedIn n := by
  cases d with
  | command c => exact nonblank_iff_of_read? h
  | manifest m => exact wellFormed_iff_of_readManifest? h
  | tool t => exact nonblank_iff_of_readTool? h

/-! ### Names that are checked -/

/-- What is made only where a text is not blank. -/
theorem nonblank_of_checked {ε α : Type} {s : String} {fault : ε} {made : Except ε α} {a : α}
    (h : (if allBlank s then .error fault else made) = .ok a) : Nonblank s ∧ made = .ok a := by
  split at h
  · cases h
  · rename_i hs
    exact ⟨nonblank_iff.mpr (eq_false_of_ne_true hs), h⟩

theorem nonblank_of_new {id description : String} {c : Command} (h : Command.new id description = .ok c) :
    Nonblank c.id := by
  obtain ⟨hid, hc⟩ := nonblank_of_checked h
  cases hc
  exact hid

theorem nonblank_of_newTool {name : String} {t : Metadata} (h : Metadata.new name = .ok t) : Nonblank t.name := by
  obtain ⟨hname, ht⟩ := nonblank_of_checked h
  cases ht
  exact hname

theorem wellFormed_of_newManifest {name category : String} {displayName description : Option String}
    {commands : List Command} {m : Manifest} (h : Manifest.new name displayName description category commands = .ok m)
    (hcommands : ∀ c ∈ commands, Nonblank c.id) : m.WellFormed := by
  obtain ⟨hname, h⟩ := nonblank_of_checked h
  obtain ⟨hcategory, hm⟩ := nonblank_of_checked h
  cases hm
  exact ⟨hname, hcategory, hcommands⟩

theorem Definition.Obtained.wellFormed {d : Definition} (h : Obtained NamedIn d) : d.WellFormed := by
  induction h with
  | command made => exact nonblank_of_new made
  | withSchema _ _ ih => exact ih
  | exposed _ listed ih => exact ih.commands _ listed
  | manifest _ made ih => exact wellFormed_of_newManifest made ih
  | tool made => exact nonblank_of_newTool made
  | withDescription _ _ ih => exact ih
  | withPlugin _ _ _ ih => exact ih
  | toolSchema _ _ ih => exact ih
  | decoded made admitted => exact (wellFormed_iff_of_readFrom made).mpr admitted

/-! ### Categories -/

namespace Registry
variable {α : Type}

theorem registerAll_categories (r : Registry α) (es : List (String × α)) :
    (r.registerAll es).categories = r.categories := by
  induction es generalizing r with
  | nil => rfl
  | cons e es ih => rw [registerAll, List.foldl_cons, ← registerAll, ih, register]

theorem contains_declare (r : Registry α) (plugin key : String) :
    (r.declare plugin).categories.contains key = (decide (normalKey plugin = key) || r.categories.contains key) := by
  rw [declare, insertNew]
  split
  · rename_i hcontains
    by_cases hkey : normalKey plugin = key
    · rw [← hkey, hcontains, Bool.or_true]
    · rw [decide_eq_false hkey, Bool.false_or]
  · exact Dict.contains_insert _ _ _ _

theorem contains_addToCategory (r : Registry α) (plugin tool key : String) :
    (r.addToCategory plugin tool).categories.contains key =
      (decide (normalKey plugin = key) || r.categories.contains key) :=
  Dict.contains_insert _ _ _ _

/-- Steps that each add a category, or none, add the categories of all of them. -/
theorem contains_foldl {β : Type} {f : Registry α → β → Registry α} {key : String} {listed : β → Bool}
    (hf : ∀ r b, (f r b).categories.contains key = (listed b || r.categories.contains key)) (bs : List β)
    (r : Registry α) : (bs.foldl f r).categories.contains key = (bs.any listed || r.categories.contains key) := by
  induction bs generalizing r with
  | nil => rfl
  | cons b bs ih => rw [List.foldl_cons, ih, hf, List.any_cons, Bool.or_left_comm, Bool.or_assoc]

end Registry

/-! ### Names that are registered -/

namespace Catalog
variable {ε : Type}

/-- The names that a catalog registers, each with the names of tools, plugins and commands that it consists of. -/
inductive Registers (c : Catalog ε) : String → List String → Prop
  | tool {t : Handle ε} (listed : t ∈ c.tools) : Registers c t.metadata.name [t.metadata.name]
  | command {m : Manifest} {command : Command} (listed : m ∈ c.manifests) (exposed : command ∈ m.commands)
    (found : c.hasTool command.id = true) : Registers c (m.name ++ "." ++ command.id) [m.name, command.id]

/-- A catalog with definitions that were obtained. -/
structure Obtained (admits : Node → Definition → Prop) (c : Catalog ε) : Prop where
  tools : ∀ t ∈ c.tools, Definition.Obtained admits (.tool t.metadata)
  manifests : ∀ m ∈ c.manifests, Definition.Obtained admits (.manifest m)

/-- The keys and categories of a catalog's registry are forms of names that are not blank. -/
structure Named (c : Catalog ε) : Prop where
  keys : ∀ key, key ∈ c.registry.keys ↔ ∃ name parts, c.Registers name parts ∧ (normalKey name = key ∨ name = key)
  parts : ∀ name parts, c.Registers name parts → ∀ part ∈ parts, Nonblank part
  found : ∀ key h, c.registry.get? key = some h → Nonblank h.metadata.name
  categories : ∀ key, key ∈ c.registry.categories.keys ↔ ∃ m ∈ c.manifests, normalKey m.name = key
  plugins : ∀ m ∈ c.manifests, Nonblank m.name

theorem registers_of_mem_entries {c : Catalog ε} {e : String × Handle ε} (h : e ∈ c.entries) :
    ∃ parts, c.Registers e.1 parts := by
  rcases mem_entries_cases h with ⟨t, ht⟩ | ⟨o, ho, rfl⟩
  · obtain ⟨hmem, hname⟩ := of_mem_byName (Dict.get?_eq_some_iff.mp ht)
    rw [← hname]
    exact ⟨_, .tool hmem⟩
  · obtain ⟨hm, hcommand, hfound⟩ := mem_offers.mp ho
    exact ⟨_, .command hm hcommand (hasTool_iff.mpr ⟨_, hfound⟩)⟩

theorem Registers.exists_entry {c : Catalog ε} {name : String} {parts : List String} (h : c.Registers name parts) :
    ∃ e ∈ c.entries, e.1 = name := by
  cases h with
  | tool listed =>
    obtain ⟨t, ht⟩ := exists_byName listed
    exact ⟨_, List.mem_append_left _ (Dict.get?_eq_some_iff.mp ht), rfl⟩
  | @command m command listed exposed found =>
    obtain ⟨t, ht⟩ := hasTool_iff.mp found
    have hoffer : (⟨m, command, t⟩ : Offer ε) ∈ c.offers := mem_offers.mpr ⟨listed, exposed, ht⟩
    exact ⟨_, mem_entries_of_mem_offers hoffer, rfl⟩

theorem mem_keys_registry {c : Catalog ε} {key : String} :
    key ∈ c.registry.keys ↔ ∃ name parts, c.Registers name parts ∧ (normalKey name = key ∨ name = key) := by
  have htools : c.registry.keys = (Registry.empty.registerAll c.entries).keys :=
    congrArg Dict.keys (Registry.foldl_tools (fun r m => listPlugin_tools c.byName r m) _ _)
  rw [htools, Registry.mem_keys_registered]
  constructor
  · rintro ⟨e, he, hkey⟩
    obtain ⟨parts, hparts⟩ := registers_of_mem_entries he
    exact ⟨e.1, parts, hparts, hkey.imp_right And.left⟩
  · rintro ⟨name, parts, hparts, hkey⟩
    obtain ⟨e, he, rfl⟩ := hparts.exists_entry
    refine ⟨e, he, ?_⟩
    by_cases hnormal : normalKey e.1 = key
    · exact Or.inl hnormal
    · obtain rfl := hkey.resolve_left hnormal
      exact Or.inr ⟨rfl, hnormal⟩

theorem contains_listPlugin (tools : Dict (Handle ε)) (r : Registry (Handle ε)) (m : Manifest) (key : String) :
    (listPlugin tools r m).categories.contains key =
      (decide (normalKey m.name = key) || r.categories.contains key) := by
  have hadd (r : Registry (Handle ε)) (o : Offer ε) := r.contains_addToCategory m.name o.command.id key
  rw [listPlugin, Registry.contains_foldl hadd, Registry.contains_declare]
  cases decide (normalKey m.name = key) <;> simp

theorem mem_categories_registry {c : Catalog ε} {key : String} :
    key ∈ c.registry.categories.keys ↔ ∃ m ∈ c.manifests, normalKey m.name = key := by
  have hempty : (Registry.empty.registerAll c.entries).categories.contains key = false := by
    rw [Registry.registerAll_categories]
    rfl
  rw [Dict.mem_keys_iff, registry, Registry.contains_foldl fun r m => contains_listPlugin c.byName r m key, hempty,
    Bool.or_false, List.any_eq_true]
  simp only [sortedManifests, List.mem_mergeSort, decide_eq_true_eq]

theorem named_of_obtained {c : Catalog ε} (h : c.Obtained Definition.NamedIn) : c.Named where
  keys _ := mem_keys_registry
  parts name parts hparts := by
    cases hparts with
    | tool listed => exact List.forall_mem_singleton.mpr (h.tools _ listed).wellFormed
    | command listed exposed _ =>
      have hm : Manifest.WellFormed _ := (h.manifests _ listed).wellFormed
      exact List.forall_mem_cons.mpr ⟨hm.name, List.forall_mem_singleton.mpr (hm.commands _ exposed)⟩
  found key t ht := by
    obtain ⟨t', ht', -⟩ := registry_get?_listed ht
    obtain ⟨hmem, hname⟩ := of_mem_byName (Dict.get?_eq_some_iff.mp ht')
    exact hname ▸ (h.tools _ hmem).wellFormed
  categories _ := mem_categories_registry
  plugins m hm := Manifest.WellFormed.name (h.manifests m hm).wellFormed

end Catalog

/-- A definition that comes from the constructors and from trees with names has names where they are needed, and one
    that is decoded has them only if its tree does. Every key and category in the registry of a catalog of such
    definitions is a form of names that are not blank. -/
theorem obtained_wellFormed {ε : Type} (d : Definition) (c : Catalog ε) :
    (Definition.Obtained Definition.NamedIn d → d.WellFormed) ∧
      (∀ n, d.ReadFrom n → (d.WellFormed ↔ d.NamedIn n)) ∧ (c.Obtained Definition.NamedIn → c.Named) :=
  ⟨fun h => h.wellFormed, fun _ h => Definition.wellFormed_iff_of_readFrom h, fun h => Catalog.named_of_obtained h⟩

/-- A manifest with its commands in the second list, written without the names of their fields. -/
def bridgedText : String :=
  "\x7b\"name\": \"FileOps\", \"capabilities\": [null, [[\"list_files\"]]]\x7d"

def bridgedManifest : Manifest := ⟨"FileOps", none, none, "core", ⟨none, some [⟨"list_files", "", none⟩]⟩⟩

def bridgedCatalog : Catalog Unit := ⟨[Catalog.listFiles], [bridgedManifest]⟩

theorem read?_bridgedText : (Node.read? bridgedText.toList).bind Manifest.read? = some bridgedManifest := by
  rfl

theorem obtained_wellFormed_bridged :
    Definition.Obtained Definition.NamedIn (.manifest bridgedManifest) ∧ bridgedManifest.WellFormed ∧
      bridgedCatalog.Obtained Definition.NamedIn ∧ bridgedCatalog.Named := by
  obtain ⟨n, -, hread⟩ := Option.bind_eq_some_iff.mp read?_bridgedText
  have hwell : bridgedManifest.WellFormed := ⟨by decide +kernel, by decide +kernel, by decide +kernel⟩
  have hmanifest : Definition.Obtained Definition.NamedIn (.manifest bridgedManifest) :=
    .decoded hread ((wellFormed_iff_of_readManifest? hread).mp hwell)
  have htool : Metadata.new "list_files" = .ok Catalog.listFiles.metadata := rfl
  have hcatalog : bridgedCatalog.Obtained Definition.NamedIn :=
    ⟨List.forall_mem_singleton.mpr (.tool htool), List.forall_mem_singleton.mpr hmanifest⟩
  obtain ⟨hwellFormed, -, hnamed⟩ := obtained_wellFormed (.manifest bridgedManifest) bridgedCatalog
  exact ⟨hmanifest, hwellFormed hmanifest, hcatalog, hnamed hcatalog⟩

/-- A manifest whose name is a blank. -/
def blankText : String :=
  "\x7b\"name\":\" \"\x7d"

def blankManifest : Manifest := ⟨" ", none, none, "core", ⟨none, none⟩⟩

/-- A blank name is decoded like any other, and the registry of a catalog has a category for it. -/
theorem blankManifest_obtained :
    (Node.read? blankText.toList).bind Manifest.read? = some blankManifest ∧
      Definition.Obtained (fun _ _ => True) (.manifest blankManifest) ∧ ¬blankManifest.WellFormed ∧
      normalKey " " ∈ (⟨[], [blankManifest]⟩ : Catalog Unit).registry.categories.keys := by
  have hread : (Node.read? blankText.toList).bind Manifest.read? = some blankManifest := rfl
  obtain ⟨n, -, hn⟩ := Option.bind_eq_some_iff.mp hread
  have hblank : ¬Nonblank blankManifest.name := by decide +kernel
  exact ⟨hread, .decoded hn trivial, fun h => hblank h.name,
    Catalog.mem_categories_registry.mpr ⟨blankManifest, List.mem_singleton_self _, rfl⟩⟩

end ToolScript
