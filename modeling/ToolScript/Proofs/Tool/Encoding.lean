import ToolScript.Proofs.Json.Values
import ToolScript.Proofs.Tool.WellFormed

/-! # Definitions in JSON and back

    A definition that was written is read again as it was, but for schemas that are null: they are written as null, and
    null is read as no schema. Nothing that was decoded has such a schema, so what is decoded comes back the same from
    whatever form its text had: with the same lists of commands, absent or empty, and the same defaults. -/

namespace ToolScript
open Json

theorem Json.legible_string {k : Nat} {field : Option String} {v : Value} (h : field.map Value.string = some v) :
    Legible k v := by
  obtain ⟨s, -, rfl⟩ := Option.map_eq_some_iff.mp h
  exact .string s

/-! ### Commands -/

/-- The command without a schema where its schema is null. -/
def Command.withoutNull (c : Command) : Command :=
  { c with schema := c.schema.filter (!·.isNull) }

theorem Command.withoutNull_eq_self {c : Command} (h : ∀ v ∈ c.schema, v ≠ .null) : c.withoutNull = c := by
  rw [withoutNull, Value.filter_isNull_eq_self h]

theorem Command.read?_json {c : Command} (h : ∀ v ∈ c.schema, v.Ordered) :
    read? (Node.ofValue c.json) = some c.withoutNull := by
  have hslots : (Node.ofValue c.json).slots? ["commandIdentifier", "description", "inputSchema"] =
      some [some (.string c.id), some (.string c.description), c.schema.map Node.ofValue] := slots?_record (by simp)
  simp [read?, hslots, required, defaulted, Node.string?, optional_value?_ofValue h, withoutNull]

theorem Command.schema_of_read? {n : Node} {c : Command} (h : read? n = some c) :
    ∀ v ∈ c.schema, v.Ordered ∧ v ≠ .null := by
  simp only [read?, Option.bind_eq_bind, Option.bind_eq_some_iff] at h
  obtain ⟨slots, -, h⟩ := h
  split at h
  · simp only [Option.bind_eq_some_iff] at h
    obtain ⟨_, -, _, -, schema, hschema, hc⟩ := h
    cases hc
    exact of_optional_value? hschema
  · cases h

theorem Command.legible_json {k : Nat} {c : Command} (h : ∀ v ∈ c.schema, Legible k v) : Legible (k + 1) c.json := by
  refine .record fun e he v hv => ?_
  simp only [List.mem_cons, List.not_mem_nil, or_false] at he
  rcases he with rfl | rfl | rfl
  · cases hv
    exact .string _
  · cases hv
    exact .string _
  · exact h v hv

/-! ### Manifests -/

namespace Capabilities

def all (c : Capabilities) : List Command :=
  c.invocationCommands.getD [] ++ c.toolDefinitions.getD []

def withoutNull (c : Capabilities) : Capabilities where
  invocationCommands := c.invocationCommands.map (·.map Command.withoutNull)
  toolDefinitions := c.toolDefinitions.map (·.map Command.withoutNull)

theorem withoutNull_eq_self {c : Capabilities} (h : ∀ command ∈ c.all, ∀ v ∈ command.schema, v ≠ .null) :
    c.withoutNull = c := by
  have hlist {field : Option (List Command)} (hfield : ∀ command ∈ field.getD [], ∀ v ∈ command.schema, v ≠ .null) :
      field.map (·.map Command.withoutNull) = field := by
    cases field with
    | none => rfl
    | some l =>
      have hl : l.map Command.withoutNull = l.map id :=
        List.map_congr_left fun c hc => Command.withoutNull_eq_self (hfield c hc)
      rw [Option.map_some, hl, List.map_id]
  obtain ⟨hinvocation, htool⟩ := List.forall_mem_append.mp h
  rw [withoutNull, hlist hinvocation, hlist htool]

theorem optional_commands {field : Option (List Command)} (h : ∀ c ∈ field.getD [], ∀ v ∈ c.schema, v.Ordered) :
    optional (Node.list? Command.read?) ((field.map fun l => .array (l.map Command.json)).map Node.ofValue) =
      some (field.map (·.map Command.withoutNull)) := by
  refine optional_ofValue nofun ?_
  rintro l rfl
  exact list?_array_map fun c hc => Command.read?_json (h c hc)

theorem read?_json {c : Capabilities} (h : ∀ command ∈ c.all, ∀ v ∈ command.schema, v.Ordered) :
    read? (Node.ofValue c.json) = some c.withoutNull := by
  obtain ⟨hinvocation, htool⟩ := List.forall_mem_append.mp h
  have hslots : (Node.ofValue c.json).slots? ["invocationCommands", "toolDefinitions"] =
      some [(c.invocationCommands.map fun l => .array (l.map Command.json)).map Node.ofValue,
        (c.toolDefinitions.map fun l => .array (l.map Command.json)).map Node.ofValue] := slots?_record (by simp)
  simp [-Option.map_map, read?, hslots, optional_commands hinvocation, optional_commands htool, withoutNull]

theorem schema_of_read? {n : Node} {c : Capabilities} (h : read? n = some c) :
    ∀ command ∈ c.all, ∀ v ∈ command.schema, v.Ordered ∧ v ≠ .null := by
  have hlist {slot : Option Node} {field : Option (List Command)}
      (hfield : optional (Node.list? Command.read?) slot = some field) :
      ∀ command ∈ field.getD [], ∀ v ∈ command.schema, v.Ordered ∧ v ≠ .null := by
    rcases optional_list?_cases hfield with ⟨rfl, -⟩ | ⟨items, l, rfl, -, hl⟩
    · exact List.forall_mem_nil _
    · have hread (item : Node) (command : Command) (hcommand : Command.read? item = some command) :=
        iff_true_intro (Command.schema_of_read? hcommand)
      exact (forall_mem_iff_of_mapM hread hl).mpr fun _ _ => trivial
  simp only [read?, Option.bind_eq_bind, Option.bind_eq_some_iff] at h
  obtain ⟨slots, -, h⟩ := h
  split at h
  · simp only [Option.bind_eq_some_iff] at h
    obtain ⟨_, hinvocation, _, htool, hc⟩ := h
    cases hc
    exact List.forall_mem_append.mpr ⟨hlist hinvocation, hlist htool⟩
  · cases h

theorem legible_json {k : Nat} {c : Capabilities} (h : ∀ command ∈ c.all, ∀ v ∈ command.schema, Legible k v) :
    Legible (k + 3) c.json := by
  have hlist {field : Option (List Command)} (hfield : ∀ command ∈ field.getD [], ∀ v ∈ command.schema, Legible k v)
      {v : Value} (hv : (field.map fun l => Value.array (l.map Command.json)) = some v) : Legible (k + 2) v := by
    obtain ⟨l, rfl, rfl⟩ := Option.map_eq_some_iff.mp hv
    refine .array fun w hw => ?_
    obtain ⟨c, hc, rfl⟩ := List.mem_map.mp hw
    exact Command.legible_json (hfield c hc)
  obtain ⟨hinvocation, htool⟩ := List.forall_mem_append.mp h
  refine .record fun e he v hv => ?_
  simp only [List.mem_cons, List.not_mem_nil, or_false] at he
  rcases he with rfl | rfl
  · exact hlist hinvocation hv
  · exact hlist htool hv

end Capabilities

namespace Manifest

def withoutNull (m : Manifest) : Manifest :=
  { m with capabilities := m.capabilities.withoutNull }

theorem read?_json {m : Manifest} (h : ∀ command ∈ m.capabilities.all, ∀ v ∈ command.schema, v.Ordered) :
    read? (Node.ofValue m.json) = some m.withoutNull := by
  have hslots : (Node.ofValue m.json).slots? ["name", "displayName", "description", "_category", "capabilities"] =
      some [some (.string m.name), (m.displayName.map .string).map Node.ofValue,
        (m.description.map .string).map Node.ofValue, some (.string m.category),
        some (Node.ofValue m.capabilities.json)] := slots?_record (by simp)
  simp [-Option.map_map, read?, hslots, required, defaulted, Node.string?, optional_string?_ofValue,
    Capabilities.read?_json h, withoutNull]

theorem schema_of_read? {n : Node} {m : Manifest} (h : read? n = some m) :
    ∀ command ∈ m.capabilities.all, ∀ v ∈ command.schema, v.Ordered ∧ v ≠ .null := by
  simp only [read?, Option.bind_eq_bind, Option.bind_eq_some_iff] at h
  obtain ⟨slots, -, h⟩ := h
  split at h
  · simp only [Option.bind_eq_some_iff] at h
    obtain ⟨_, -, _, -, _, -, _, -, capabilities, hcapabilities, hm⟩ := h
    cases hm
    rcases defaulted_eq_some_iff.mp hcapabilities with ⟨-, rfl⟩ | ⟨v, -, hv⟩
    · exact List.forall_mem_nil _
    · exact Capabilities.schema_of_read? hv
  · cases h

theorem legible_json {k : Nat} {m : Manifest} (h : ∀ command ∈ m.capabilities.all, ∀ v ∈ command.schema, Legible k v) :
    Legible (k + 4) m.json := by
  refine .record fun e he v hv => ?_
  simp only [List.mem_cons, List.not_mem_nil, or_false] at he
  rcases he with rfl | rfl | rfl | rfl | rfl
  · cases hv
    exact .string _
  · exact legible_string hv
  · exact legible_string hv
  · cases hv
    exact .string _
  · cases hv
    exact Capabilities.legible_json h

end Manifest

/-! ### Descriptions of tools -/

namespace Metadata

def withoutNull (t : Metadata) : Metadata :=
  { t with schema := t.schema.filter (!·.isNull) }

theorem read?_json {t : Metadata} (h : ∀ v ∈ t.schema, v.Ordered) : read? (Node.ofValue t.json) = some t.withoutNull := by
  have hslots : (Node.ofValue t.json).slots? ["name", "description", "plugin", "category", "input_schema"] =
      some [some (.string t.name), (t.description.map .string).map Node.ofValue, (t.plugin.map .string).map Node.ofValue,
        (t.category.map .string).map Node.ofValue, t.schema.map Node.ofValue] := slots?_record (by simp)
  simp [-Option.map_map, read?, hslots, required, Node.string?, optional_string?_ofValue, optional_value?_ofValue h,
    withoutNull]

theorem schema_of_read? {n : Node} {t : Metadata} (h : read? n = some t) : ∀ v ∈ t.schema, v.Ordered ∧ v ≠ .null := by
  simp only [read?, Option.bind_eq_bind, Option.bind_eq_some_iff] at h
  obtain ⟨slots, -, h⟩ := h
  split at h
  · simp only [Option.bind_eq_some_iff] at h
    obtain ⟨_, -, _, -, _, -, _, -, schema, hschema, ht⟩ := h
    cases ht
    exact of_optional_value? hschema
  · cases h

theorem legible_json {k : Nat} {t : Metadata} (h : ∀ v ∈ t.schema, Legible k v) : Legible (k + 1) t.json := by
  refine .record fun e he v hv => ?_
  simp only [List.mem_cons, List.not_mem_nil, or_false] at he
  rcases he with rfl | rfl | rfl | rfl | rfl
  · cases hv
    exact .string _
  · exact legible_string hv
  · exact legible_string hv
  · exact legible_string hv
  · exact h v hv

end Metadata

/-! ### Definitions -/

namespace Definition

def json : Definition → Value
  | .command c => c.json
  | .manifest m => m.json
  | .tool t => t.json

def schemas : Definition → List Value
  | .command c => c.schema.toList
  | .manifest m => m.capabilities.all.flatMap (·.schema.toList)
  | .tool t => t.schema.toList

/-- The definition without the schemas that are null. -/
def withoutNull : Definition → Definition
  | .command c => .command c.withoutNull
  | .manifest m => .manifest m.withoutNull
  | .tool t => .tool t.withoutNull

/-- A definition is decoded from a text. -/
def DecodedFrom (text : String) (d : Definition) : Prop :=
  ∃ n, Node.read? text.toList = some n ∧ d.ReadFrom n

/-- A text is what a definition was printed as: it is read as the tree that was printed. -/
def PrintedAs (text : String) (d : Definition) : Prop :=
  Node.read? text.toList = some (Node.ofValue d.json)

theorem forall_schemas_iff {m : Manifest} {p : Value → Prop} :
    (∀ v ∈ (manifest m).schemas, p v) ↔ ∀ command ∈ m.capabilities.all, ∀ v ∈ command.schema, p v := by
  simp only [schemas, List.mem_flatMap, Option.mem_toList, forall_exists_index, and_imp]
  exact ⟨fun h command hcommand v hv => h v command hcommand hv, fun h v command hcommand hv => h command hcommand v hv⟩

theorem readFrom_json {d : Definition} (h : ∀ v ∈ d.schemas, v.Ordered) : d.withoutNull.ReadFrom (Node.ofValue d.json) := by
  cases d with
  | command c => exact Command.read?_json fun v hv => h v (Option.mem_toList.mpr hv)
  | manifest m => exact Manifest.read?_json (forall_schemas_iff.mp h)
  | tool t => exact Metadata.read?_json fun v hv => h v (Option.mem_toList.mpr hv)

theorem schemas_of_readFrom {d : Definition} {n : Node} (h : d.ReadFrom n) : ∀ v ∈ d.schemas, v.Ordered ∧ v ≠ .null := by
  cases d with
  | command c => exact fun v hv => Command.schema_of_read? h v (Option.mem_toList.mp hv)
  | manifest m => exact forall_schemas_iff.mpr (Manifest.schema_of_read? h)
  | tool t => exact fun v hv => Metadata.schema_of_read? h v (Option.mem_toList.mp hv)

theorem withoutNull_eq_self {d : Definition} (h : ∀ v ∈ d.schemas, v ≠ .null) : d.withoutNull = d := by
  cases d with
  | command c => exact congrArg command (Command.withoutNull_eq_self fun v hv => h v (Option.mem_toList.mpr hv))
  | manifest m => rw [withoutNull, Manifest.withoutNull, Capabilities.withoutNull_eq_self (forall_schemas_iff.mp h)]
  | tool t =>
    rw [withoutNull, Metadata.withoutNull, Value.filter_isNull_eq_self fun v hv => h v (Option.mem_toList.mpr hv)]

/-- What is decoded from the text that a definition was printed as. -/
theorem decodedFrom_of_printedAs {d : Definition} {text : String} (h : PrintedAs text d)
    (hordered : ∀ v ∈ d.schemas, v.Ordered) : d.withoutNull.DecodedFrom text :=
  ⟨_, h, readFrom_json hordered⟩

/-- A definition that was decoded has all its schemas from the text. -/
theorem schemas_of_decodedFrom {d : Definition} {text : String} (h : d.DecodedFrom text) :
    ∀ v ∈ d.schemas, v.Ordered ∧ v ≠ .null := by
  obtain ⟨n, -, hn⟩ := h
  exact schemas_of_readFrom hn

/-- No two manifests are decoded from one text. -/
theorem manifest_unique {m m' : Manifest} {text : String} (h : (manifest m).DecodedFrom text)
    (h' : (manifest m').DecodedFrom text) : m = m' := by
  obtain ⟨n, hread, hm⟩ := h
  obtain ⟨n', hread', hm'⟩ := h'
  cases hread.symm.trans hread'
  exact Option.some.inj (hm.symm.trans hm')

/-! ### Printing -/

/-- Four records and lists are around a schema at most. -/
theorem legible_json {k : Nat} {d : Definition} (h : ∀ v ∈ d.schemas, Legible k v) : Legible (k + 4) d.json := by
  cases d with
  | command c => exact (Command.legible_json fun v hv => h v (Option.mem_toList.mpr hv)).mono (by omega)
  | manifest m => exact Manifest.legible_json (forall_schemas_iff.mp h)
  | tool t => exact (Metadata.legible_json fun v hv => h v (Option.mem_toList.mpr hv)).mono (by omega)

/-- A definition with legible schemas is printed as its pretty text. -/
theorem printedAs_pretty {d : Definition} (h : ∀ v ∈ d.schemas, Legible 123 v) : d.PrintedAs d.json.pretty :=
  Node.read?_pretty (legible_json h)

end Definition

/-- A definition with schemas of any kind is printed and decoded to itself if none of its schemas is null, at whatever
    depth there may be nulls in them. Where a schema is null, the same definition without that schema is decoded. -/
theorem printed_decodedFrom_iff {d : Definition} {text : String} (hordered : ∀ v ∈ d.schemas, v.Ordered)
    (hprinted : d.PrintedAs text) :
    d.withoutNull.DecodedFrom text ∧ (d.DecodedFrom text ↔ ∀ v ∈ d.schemas, v ≠ .null) := by
  have hdecoded := Definition.decodedFrom_of_printedAs hprinted hordered
  refine ⟨hdecoded, fun h v hv => (Definition.schemas_of_decodedFrom h v hv).2, fun hnull => ?_⟩
  rwa [Definition.withoutNull_eq_self hnull] at hdecoded

/-- A schema with nulls in it. -/
def nestedSchema : Value :=
  .object [("default", .null), ("items", .array [.null, .object []])]

/-- A manifest with two commands, of which one has a schema. -/
def nestedManifest : Manifest :=
  ⟨"FileOps", some "", none, "work", ⟨some [⟨"list_files", "", some nestedSchema⟩, ⟨"read_file", "Reads", none⟩], none⟩⟩

theorem nestedSchema_ordered : nestedSchema.Ordered := by
  refine .object (by decide) (List.forall_mem_cons.mpr ⟨.null, List.forall_mem_singleton.mpr (.array ?_)⟩)
  exact List.forall_mem_cons.mpr ⟨.null, List.forall_mem_singleton.mpr (.object .nil (List.forall_mem_nil _))⟩

theorem nestedSchema_legible : Legible 123 nestedSchema := by
  refine .object (List.forall_mem_cons.mpr ⟨.null, List.forall_mem_singleton.mpr (.array ?_)⟩)
  exact List.forall_mem_cons.mpr ⟨.null, List.forall_mem_singleton.mpr (.object (List.forall_mem_nil _))⟩

theorem printed_decodedFrom_iff_nestedManifest :
    (∀ v ∈ (Definition.manifest nestedManifest).schemas, v.Ordered) ∧
      (Definition.manifest nestedManifest).PrintedAs nestedManifest.json.pretty ∧
      (Definition.manifest nestedManifest).DecodedFrom nestedManifest.json.pretty := by
  have hordered : ∀ v ∈ (Definition.manifest nestedManifest).schemas, v.Ordered :=
    List.forall_mem_singleton.mpr nestedSchema_ordered
  have hlegible : ∀ v ∈ (Definition.manifest nestedManifest).schemas, Legible 123 v :=
    List.forall_mem_singleton.mpr nestedSchema_legible
  have hprinted : (Definition.manifest nestedManifest).PrintedAs nestedManifest.json.pretty :=
    Definition.printedAs_pretty (d := .manifest nestedManifest) hlegible
  have hnull : ∀ v ∈ (Definition.manifest nestedManifest).schemas, v ≠ .null := List.forall_mem_singleton.mpr nofun
  exact ⟨hordered, hprinted, (printed_decodedFrom_iff hordered hprinted).2.mpr hnull⟩

/-- A command with a schema that is null. -/
def nullSchemaText : String :=
  "\x7b\"commandIdentifier\":\"run\",\"description\":\"\",\"inputSchema\":null\x7d"

/-- A schema that is null is lost: the command that is decoded is the one without a schema. -/
theorem nullSchema_lost : ∃ c, Command.new "run" "" = .ok c ∧ (Definition.command (c.withSchema .null)).PrintedAs nullSchemaText ∧
    ¬(Definition.command (c.withSchema .null)).DecodedFrom nullSchemaText ∧
    (Definition.command c).DecodedFrom nullSchemaText := by
  have hread : Node.read? nullSchemaText.toList = some (Node.ofValue (Command.json ⟨"run", "", some .null⟩)) := rfl
  refine ⟨⟨"run", "", none⟩, rfl, hread, ?_, _, hread, rfl⟩
  intro h
  exact (Definition.schemas_of_decodedFrom h .null (List.mem_singleton_self _)).2 rfl

/-- A manifest that was decoded, from whatever text, is printed as texts from which it and no other is decoded. -/
theorem reprinted_decodedFrom_iff {m : Manifest} {text text' : String} (h : (Definition.manifest m).DecodedFrom text)
    (hprinted : (Definition.manifest m).PrintedAs text') (m' : Manifest) :
    (Definition.manifest m').DecodedFrom text' ↔ m' = m := by
  have hschemas := Definition.schemas_of_decodedFrom h
  have hdecoded := Definition.decodedFrom_of_printedAs hprinted fun v hv => (hschemas v hv).1
  rw [Definition.withoutNull_eq_self fun v hv => (hschemas v hv).2] at hdecoded
  exact ⟨fun h' => Definition.manifest_unique h' hdecoded, fun h' => h' ▸ hdecoded⟩

/-- A manifest with an unknown field whose capabilities are two lists, the first one empty. -/
def mixedText : String :=
  "\x7b\"x\":1,\"name\":\"FileOps\",\"description\":null,\"capabilities\":[[],[[\"list_files\"]]]\x7d"

def mixedManifest : Manifest := ⟨"FileOps", none, none, "core", ⟨some [], some [⟨"list_files", "", none⟩]⟩⟩

theorem read?_mixedText : (Node.read? mixedText.toList).bind Manifest.read? = some mixedManifest := by
  rfl

/-- The empty list is kept, so the list after it does not come to count. -/
theorem reprinted_decodedFrom_iff_mixedText :
    (Definition.manifest mixedManifest).DecodedFrom mixedText ∧
      (Definition.manifest mixedManifest).PrintedAs mixedManifest.json.pretty ∧
      ∀ m, (Definition.manifest m).DecodedFrom mixedManifest.json.pretty → m.commands = [] := by
  have hdecoded : (Definition.manifest mixedManifest).DecodedFrom mixedText :=
    Option.bind_eq_some_iff.mp read?_mixedText
  have hprinted : (Definition.manifest mixedManifest).PrintedAs mixedManifest.json.pretty :=
    Definition.printedAs_pretty (d := .manifest mixedManifest) nofun
  refine ⟨hdecoded, hprinted, fun m hm => ?_⟩
  rw [(reprinted_decodedFrom_iff hdecoded hprinted m).mp hm]
  rfl

end ToolScript
