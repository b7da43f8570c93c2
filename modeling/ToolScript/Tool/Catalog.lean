import ToolScript.Plugin.Manifest
import ToolScript.Tool.Handle
import ToolScript.Tool.Registry

/-! # Catalogs

    A catalog lists tools and plugin manifests. The registry of a catalog has every tool under its name, and every
    tool that a manifest names among its commands also under the plugin's name and the command's, joined by a dot;
    such a tool carries the plugin, and the command's schema where there is one. -/

namespace ToolScript

structure Catalog (ε : Type) where
  tools : List (Handle ε)
  manifests : List Manifest

namespace Catalog
variable {ε : Type}

def empty : Catalog ε := ⟨[], []⟩

/-! ### Changes -/

/-- Adds a tool at the end, in place of one of the same name. -/
def insert (c : Catalog ε) (h : Handle ε) : Catalog ε :=
  { c with tools := c.tools.filter (·.metadata.name != h.metadata.name) ++ [h] }

/-- Adds a manifest at the end, in place of one of the same name. -/
def insertManifest (c : Catalog ε) (m : Manifest) : Catalog ε :=
  { c with manifests := c.manifests.filter (·.name != m.name) ++ [m] }

/-- Takes out the tools of a name. -/
def remove (c : Catalog ε) (name : String) : Catalog ε :=
  { c with tools := c.tools.filter (·.metadata.name != name) }

def hasTool (c : Catalog ε) (name : String) : Bool :=
  c.tools.any (·.metadata.name == name)

/-- The tools and manifests of both catalogs. -/
def append (c d : Catalog ε) : Catalog ε :=
  ⟨c.tools ++ d.tools, c.manifests ++ d.manifests⟩

/-! ### Tools of plugins -/

/-- The tools by their names; of several with one name the last counts. -/
def byName (c : Catalog ε) : Dict (Handle ε) :=
  .ofList (c.tools.map fun h => (h.metadata.name, h))

/-- The manifests in the order of their names; equal names keep their order. -/
def sortedManifests (manifests : List Manifest) : List Manifest :=
  manifests.mergeSort fun a b => decide (a.name ≤ b.name)

/-- A description as a plugin's command completes it. -/
def completed (m : Metadata) (plugin : Manifest) (c : Command) : Metadata :=
  let m := m.withPlugin plugin.name plugin.category
  let m := if m.description.isNone && !c.description.isEmpty then m.withDescription c.description else m
  match c.schema with
  | some schema => m.withSchema schema
  | none => m

/-- A tool that a manifest names. -/
structure Offer (ε : Type) where
  plugin : Manifest
  command : Command
  handle : Handle ε

/-- The tool as the plugin offers it. -/
def Offer.completed (o : Offer ε) : Handle ε :=
  { o.handle with metadata := Catalog.completed o.handle.metadata o.plugin o.command }

/-- Those of the tools that a manifest names, in the order of its commands. -/
def offersOf (tools : Dict (Handle ε)) (plugin : Manifest) : List (Offer ε) :=
  plugin.commands.filterMap fun command => (tools.get? command.id).map fun h => ⟨plugin, command, h⟩

def offers (c : Catalog ε) : List (Offer ε) :=
  let tools := c.byName
  (sortedManifests c.manifests).flatMap (offersOf tools)

/-! ### The registry -/

/-- The names under which an offered tool is registered. -/
def Offer.entries (o : Offer ε) : List (String × Handle ε) :=
  [(o.command.id, o.completed), (o.plugin.name ++ "." ++ o.command.id, o.completed)]

/-- All names to register, in order. -/
def entries (c : Catalog ε) : List (String × Handle ε) :=
  c.byName.entries ++ c.offers.flatMap Offer.entries

/-- A plugin listed with those of the tools that it offers. -/
def listPlugin (tools : Dict (Handle ε)) (r : Registry (Handle ε)) (plugin : Manifest) : Registry (Handle ε) :=
  (offersOf tools plugin).foldl (fun r o => r.addToCategory plugin.name o.command.id) (r.declare plugin.name)

/-- The registry of a catalog. -/
def registry (c : Catalog ε) : Registry (Handle ε) :=
  let tools := c.byName
  (sortedManifests c.manifests).foldl (listPlugin tools) (Registry.empty.registerAll c.entries)

end Catalog

end ToolScript
