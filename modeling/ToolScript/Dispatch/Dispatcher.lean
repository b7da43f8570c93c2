import ToolScript.Dispatch.Invocation
import ToolScript.Dispatch.Record
import ToolScript.Dispatch.Resolve
import ToolScript.Markup.Block
import ToolScript.Prompt.Describe
import ToolScript.Script.Diagnostic
import ToolScript.Security.Verdict
import ToolScript.Settings

/-! # Dispatching replies

    A dispatcher takes the blocks of a reply in order. Each is judged, and run unless it is refused; each leaves a
    record. The calls and the records are noted in a log as they come about. The registry in use is that of the
    catalog when it was last read. -/

namespace ToolScript
open Markup Script Security

structure Dispatcher (ε : Type) where
  catalog : Catalog ε
  registry : Registry (Handle ε)
  gate : Gate
  limits : ScopeLimits
  policy : Policy
  salt : String

/-- What a dispatcher lets its observers know. -/
inductive Event where
  | invoked (i : Invocation)
  | finished (r : Record)

/-- The state of the tools, and the events so far, the last one first. -/
structure Log (σ : Type) where
  state : σ
  events : List Event

def Log.note {σ : Type} (l : Log σ) (e : Event) : Log σ :=
  { l with events := e :: l.events }

namespace Dispatcher
variable {ε σ : Type}

def new (catalog : Catalog ε) : Dispatcher ε where
  catalog := catalog
  registry := catalog.registry
  gate := .new
  limits := .default
  policy := .allowFallback
  salt := defaultSalt

def ofSettings (catalog : Catalog ε) (s : Settings) : Dispatcher ε where
  catalog := catalog
  registry := catalog.registry
  gate := s.gate
  limits := s.limits
  policy := s.security.policy
  salt := s.security.effectiveSalt

/-- Takes over a catalog as it was read again; a failure to read it changes nothing. -/
def reload (d : Dispatcher ε) (reread : Except ToolError (Catalog ε)) : Except ToolError (Dispatcher ε) :=
  reread.map fun catalog => { d with catalog, registry := catalog.registry }

def turnId (d : Dispatcher ε) (session : String) (turn : Nat) : TurnId :=
  Security.turnId d.salt session turn

/-- The plugins of a category that the gate lets through, described. -/
def describe (d : Dispatcher ε) (filter : CategoryFilter) : String :=
  describePlugins (d.catalog.manifests.filter fun m => filter.admits m.category && d.gate.permits m.name m.category)

/-! ### Calls -/

/-- Calls a tool by a name, and notes the call. -/
def call (d : Dispatcher ε) (behavior : Behavior ε σ) (extra : ExtraTools (Handle ε)) (name : String)
    (params : Params) (log : Log σ) : Except ToolError Value × Log σ :=
  let name := Text.pathRepaired name
  let pending := Invocation.start name (Value.ofDict params).compact
  match resolve d.registry d.gate extra name params with
  | .error e => (.error e, log.note (.invoked (pending.fail e.message)))
  | .ok (h, params) =>
    let (result, state) := h.invoke behavior params log.state
    let ended := match result with
      | .ok v => pending.succeed v.plainText
      | .error e => pending.fail e.message
    (result, { log with state }.note (.invoked ended))

/-! ### Blocks -/

/-- The log of a block that is running, and the tools it has called, the last one first. -/
structure Running (σ : Type) where
  log : Log σ
  executed : List String

/-- Runs the calls of a script as calls of the dispatcher. -/
def executor (d : Dispatcher ε) (behavior : Behavior ε σ) (extra : ExtraTools (Handle ε)) : Executor (Running σ) :=
  fun tool params r =>
    let (result, log) := d.call behavior extra tool params r.log
    (result.mapError fun e => ⟨tool, e.message⟩, ⟨log, tool :: r.executed⟩)

def runBlock (d : Dispatcher ε) (behavior : Behavior ε σ) (extra : ExtraTools (Handle ε)) (b : Block) (log : Log σ) :
    Record × Log σ :=
  let (result, r) := execute (d.executor behavior extra) d.limits ⟨log, []⟩ (String.ofList b.body)
  let (status, output) : Status × Value := match result with
    | .ok v => (.success, v)
    | .error e => (.error, .string ("script error: " ++ e.text))
  (⟨Record.scriptPlugin, status, output, String.ofList b.raw, r.executed.reverse⟩, r.log)

/-- Judges a block, and runs it unless it is refused. -/
def handleBlock (d : Dispatcher ε) (behavior : Behavior ε σ) (extra : ExtraTools (Handle ε)) (expected : Option TurnId)
    (b : Block) (log : Log σ) : Record × Log σ :=
  match verdict b.turn? expected d.policy with
  | .block reason => (⟨Record.scriptPlugin, .blocked, .string reason, String.ofList b.raw, []⟩, log)
  | _ => d.runBlock behavior extra b log

/-- Handles blocks in order, and notes every record. -/
def handleBlocks (d : Dispatcher ε) (behavior : Behavior ε σ) (extra : ExtraTools (Handle ε))
    (expected : Option TurnId) : List Block → Log σ → List Record × Log σ
  | [], log => ([], log)
  | b :: rest, log =>
    let (r, log) := d.handleBlock behavior extra expected b log
    let (rs, log) := handleBlocks d behavior extra expected rest (log.note (.finished r))
    (r :: rs, log)

/-- Handles the blocks of a reply. -/
def dispatch (d : Dispatcher ε) (behavior : Behavior ε σ) (extra : ExtraTools (Handle ε)) (expected : Option TurnId)
    (text : String) (log : Log σ) : List Record × Log σ :=
  d.handleBlocks behavior extra expected (blocks text.toList) log

end Dispatcher

end ToolScript
