import ToolScript.Dispatch.Dispatcher
import ToolScript.Proofs.Security.Verdict

/-! # What a dispatch does with each block

    A dispatch is a chain of handlings, one for each block of the text, each of which takes up the log where the one
    before left it. The handling of a block either runs its script, so that its calls are those of the first
    statements of the script, or refuses it and leaves the log as it is. Under an expected identifier the blocks that
    run are the authorised ones. -/

namespace ToolScript.Markup

/-- The statements of a block's script; a script that cannot be read has none. -/
def Block.script (b : Block) : List Script.Statement :=
  match Script.read (String.ofList b.body) with
  | .ok script => script
  | .error _ => []

end ToolScript.Markup

namespace ToolScript.Dispatcher
open Markup Script Security Text

variable {ε σ : Type}

/-! ### The calls of a script -/

/-- The run of a script has made some calls, which are those of its first statements. -/
structure Made (script : List Statement) (calls : List Invocation) (r r' : Running σ) : Prop where
  events : r'.log.events = (calls.map .invoked).reverse ++ r.log.events
  executed : r'.executed = ((script.take calls.length).map (·.call.tool)).reverse ++ r.executed
  tools : calls.map (·.tool) = (script.take calls.length).map fun s => pathRepaired s.call.tool

namespace Made

theorem refl (script : List Statement) (r : Running σ) : Made script [] r r :=
  ⟨rfl, rfl, rfl⟩

theorem cons {s : Statement} {script : List Statement} {i : Invocation} {calls : List Invocation}
    {r r' r'' : Running σ} (hfirst : Made [s] [i] r r') (hrest : Made script calls r' r'') :
    Made (s :: script) (i :: calls) r r'' := by
  refine ⟨?_, ?_, ?_⟩
  · rw [hrest.events, hfirst.events]
    simp
  · rw [hrest.executed, hfirst.executed]
    simp
  · have htool := hfirst.tools
    simp only [List.map_cons, List.map_nil, List.length_cons, List.length_nil, List.take_succ_cons, List.take_zero] at htool
    simp [hrest.tools, (List.cons.inj htool).1]

end Made

/-- How the calls of a source and its result go together: a source that cannot be read makes no call; a completed run has
    called every statement with success; in a failed one the last call has failed and no other. -/
inductive Ended : Except ScriptError (List Statement) → List Invocation → Except ScriptError Value → Prop
  | unreadable {e : ScriptError} : Ended (.error e) [] (.error e)
  | completed {script : List Statement} {calls : List Invocation} {v : Value} (all : calls.length = script.length)
      (succeeded : ∀ i ∈ calls, i.succeeded = true) : Ended (.ok script) calls (.ok v)
  | failed {script : List Statement} {calls : List Invocation} {i : Invocation} {e : RunError}
      (succeeded : ∀ j ∈ calls, j.succeeded = true) (last : i.succeeded = false) :
      Ended (.ok script) (calls ++ [i]) (.error (.run e))

theorem Ended.cons {script : List Statement} {calls : List Invocation} {result : Except ScriptError Value} {i : Invocation}
    (s : Statement) (hi : i.succeeded = true) (h : Ended (.ok script) calls result) :
    Ended (.ok (s :: script)) (i :: calls) result := by
  cases h with
  | completed all succeeded => exact .completed (by simp [all]) (List.forall_mem_cons.mpr ⟨hi, succeeded⟩)
  | failed succeeded last => exact .failed (List.forall_mem_cons.mpr ⟨hi, succeeded⟩) last

section
variable (d : Dispatcher ε) (behavior : Behavior ε σ) (extra : ExtraTools (Handle ε))

theorem call_events (name : String) (params : Params) (log : Log σ) :
    ∃ i : Invocation, (d.call behavior extra name params log).2.events = .invoked i :: log.events ∧
      i.tool = pathRepaired name ∧ i.succeeded = (d.call behavior extra name params log).1.isOk := by
  rw [call]
  cases resolve d.registry d.gate extra (pathRepaired name) params with
  | error e => exact ⟨_, rfl, rfl, rfl⟩
  | ok found =>
    dsimp only
    generalize found.1.invoke behavior found.2 log.state = ended
    obtain ⟨result, state⟩ := ended
    cases result with
    | ok v => exact ⟨_, rfl, rfl, rfl⟩
    | error e => exact ⟨_, rfl, rfl, rfl⟩

theorem executor_made (s : Statement) (params : Params) (r : Running σ) :
    ∃ i : Invocation, Made [s] [i] r (d.executor behavior extra s.call.tool params r).2 ∧
      i.succeeded = (d.executor behavior extra s.call.tool params r).1.isOk := by
  obtain ⟨i, hevents, htool, hsucceeded⟩ := d.call_events behavior extra s.call.tool params r.log
  refine ⟨i, ⟨hevents, rfl, by simp [htool]⟩, ?_⟩
  rw [hsucceeded, executor]
  generalize d.call behavior extra s.call.tool params r.log = ended
  obtain ⟨result, log⟩ := ended
  cases result <;> rfl

/-- However far a script gets, it has made the calls of its first statements. -/
theorem runFrom_made (script : List Statement) (last : Value) (scope : Scope) (r : Running σ) :
    ∃ calls, Made script calls r (runFrom (d.executor behavior extra) last scope r script).state ∧
      Ended (.ok script) calls ((runFrom (d.executor behavior extra) last scope r script).result.mapError .run) := by
  induction script generalizing last scope r with
  | nil => exact ⟨[], .refl [] r, .completed rfl (List.forall_mem_nil _)⟩
  | cons s script ih =>
    obtain ⟨i, hfirst, hsucceeded⟩ := d.executor_made behavior extra s (s.call.params scope) r
    rw [runFrom]
    generalize d.executor behavior extra s.call.tool (s.call.params scope) r = ended at hfirst hsucceeded
    obtain ⟨result, r'⟩ := ended
    cases result with
    | error e => exact ⟨[i], hfirst.cons (.refl script r'), .failed (List.forall_mem_nil _) hsucceeded⟩
    | ok v =>
      obtain ⟨calls, hrest, hended⟩ := ih (s.keep v scope).1 (s.keep v scope).2 r'
      exact ⟨i :: calls, hfirst.cons hrest, hended.cons s hsucceeded⟩

theorem execute_made (b : Block) (r : Running σ) :
    ∃ calls, Made b.script calls r (execute (d.executor behavior extra) d.limits r (String.ofList b.body)).2 ∧
      Ended (Script.read (String.ofList b.body)) calls
        (execute (d.executor behavior extra) d.limits r (String.ofList b.body)).1 := by
  rw [execute, Block.script]
  cases Script.read (String.ofList b.body) with
  | error e => exact ⟨[], .refl [] r, .unreadable⟩
  | ok script =>
    obtain ⟨calls, hmade, hended⟩ := d.runFrom_made behavior extra script .null (.new d.limits) r
    refine ⟨calls, hmade, ?_⟩
    dsimp only [run]
    split
    · rename_i heq
      rwa [heq] at hended
    · rename_i heq
      rwa [heq] at hended

end

/-! ### Single blocks -/

/-- A block as it was handled: the log before, the calls it made, its record, and the log after. -/
structure Handling (σ : Type) where
  block : Block
  before : Log σ
  calls : List Invocation
  record : Record
  after : Log σ

namespace Handling

/-- What observers learn of a block. -/
def events (h : Handling σ) : List Event :=
  h.calls.map .invoked ++ [.finished h.record]

/-- The block was run, and the calls are those of the first statements of its script. -/
structure Ran (d : Dispatcher ε) (behavior : Behavior ε σ) (extra : ExtraTools (Handle ε)) (h : Handling σ) : Prop where
  run : d.runBlock behavior extra h.block h.before = (h.record, h.after)
  executed : h.record.executed = (h.block.script.take h.calls.length).map (·.call.tool)
  tools : h.calls.map (·.tool) = h.record.executed.map pathRepaired

/-- The block was refused, and nothing happened but that. -/
structure Refused (h : Handling σ) : Prop where
  status : h.record.status = .blocked
  raw : h.record.raw = String.ofList h.block.raw
  executed : h.record.executed = []
  calls : h.calls = []
  after : h.after = h.before

/-- The handling of a block under an expected identifier: the block was run if it is authorised, and else refused. -/
structure Sound (d : Dispatcher ε) (behavior : Behavior ε σ) (extra : ExtraTools (Handle ε)) (expected : TurnId)
    (h : Handling σ) : Prop where
  noted : h.after.events = (h.calls.map .invoked).reverse ++ h.before.events
  ran : Authorised expected d.policy h.block → h.Ran d behavior extra
  refused : ¬Authorised expected d.policy h.block → h.Refused

end Handling

section
variable (d : Dispatcher ε) (behavior : Behavior ε σ) (extra : ExtraTools (Handle ε))

theorem runBlock_ran (b : Block) (log : Log σ) :
    ∃ h : Handling σ, h.block = b ∧ h.before = log ∧ h.Ran d behavior extra ∧
      h.after.events = (h.calls.map .invoked).reverse ++ log.events ∧
      ∃ result, Ended (Script.read (String.ofList b.body)) h.calls result ∧
        h.record.status = if result.isOk then .success else .error := by
  obtain ⟨calls, hmade, hended⟩ := d.execute_made behavior extra b ⟨log, []⟩
  have hexecuted : (d.runBlock behavior extra b log).1.executed = (b.script.take calls.length).map (·.call.tool) := by
    have := congrArg List.reverse hmade.executed
    simpa [runBlock] using this
  refine ⟨⟨b, log, calls, (d.runBlock behavior extra b log).1, (d.runBlock behavior extra b log).2⟩, rfl, rfl,
    ⟨rfl, hexecuted, ?_⟩, hmade.events, _, hended, ?_⟩
  · rw [hexecuted, hmade.tools, List.map_map]
    rfl
  · dsimp only [runBlock]
    cases (execute (d.executor behavior extra) d.limits ⟨log, []⟩ (String.ofList b.body)).1 <;> rfl

theorem handleBlock_of_permits {expected : Option TurnId} {b : Block} (log : Log σ)
    (h : (verdict b.turn? expected d.policy).permits = true) :
    d.handleBlock behavior extra expected b log = d.runBlock behavior extra b log := by
  rw [handleBlock]
  cases hv : verdict b.turn? expected d.policy with
  | allow => rfl
  | fallback => rfl
  | block reason => simp [hv, Verdict.permits] at h

theorem handleBlock_of_not_permits {expected : Option TurnId} {b : Block}
    (h : ¬(verdict b.turn? expected d.policy).permits = true) :
    ∃ reason, ∀ log : Log σ, d.handleBlock behavior extra expected b log =
      (⟨Record.scriptPlugin, .blocked, .string reason, String.ofList b.raw, []⟩, log) := by
  cases hv : verdict b.turn? expected d.policy with
  | allow => simp [hv, Verdict.permits] at h
  | fallback => simp [hv, Verdict.permits] at h
  | block reason => exact ⟨reason, fun log => by rw [handleBlock, hv]⟩

theorem handleBlock_sound {b : Block} (hb : Formed b) (expected : TurnId) (log : Log σ) :
    ∃ h : Handling σ, h.block = b ∧ h.before = log ∧ h.Sound d behavior extra expected ∧
      d.handleBlock behavior extra (some expected) b log = (h.record, h.after) := by
  have hiff := verdict_permits_iff hb expected d.policy
  by_cases hauth : Authorised expected d.policy b
  · obtain ⟨h, rfl, rfl, hran, hevents, -⟩ := d.runBlock_ran behavior extra b log
    refine ⟨h, rfl, rfl, ⟨hevents, fun _ => hran, fun hno => absurd hauth hno⟩, ?_⟩
    rw [d.handleBlock_of_permits behavior extra h.before (hiff.mpr hauth), hran.run]
  · obtain ⟨reason, heq⟩ := d.handleBlock_of_not_permits behavior extra (mt hiff.mp hauth)
    exact ⟨⟨b, log, [], ⟨Record.scriptPlugin, .blocked, .string reason, String.ofList b.raw, []⟩, log⟩, rfl, rfl,
      ⟨rfl, fun h => absurd h hauth, fun _ => ⟨rfl, rfl, rfl, rfl, rfl⟩⟩, heq log⟩

end

/-! ### Whole replies -/

/-- Handlings that lead from one log to another, where every record is noted before the next block is taken. -/
inductive Leads : Log σ → List (Handling σ) → Log σ → Prop
  | nil {log : Log σ} : Leads log [] log
  | cons {h : Handling σ} {hs : List (Handling σ)} {log : Log σ} (rest : Leads (h.after.note (.finished h.record)) hs log) :
      Leads h.before (h :: hs) log

theorem Leads.events {hs : List (Handling σ)} {log log' : Log σ} (chain : Leads log hs log')
    (noted : ∀ h ∈ hs, h.after.events = (h.calls.map .invoked).reverse ++ h.before.events) :
    log'.events = (hs.flatMap Handling.events).reverse ++ log.events := by
  induction chain with
  | nil => rfl
  | @cons h hs log' _ ih =>
    rw [ih fun k hk => noted k (List.mem_cons_of_mem _ hk)]
    simp [Log.note, noted h List.mem_cons_self, Handling.events]

section
variable (d : Dispatcher ε) (behavior : Behavior ε σ) (extra : ExtraTools (Handle ε))

/-- What is so of the handling of every block is so of a whole chain of handlings. -/
theorem handleBlocks_chain {P : Handling σ → Prop} {expected : Option TurnId} {bs : List Block}
    (each : ∀ b ∈ bs, ∀ log : Log σ, ∃ h : Handling σ, h.block = b ∧ h.before = log ∧ P h ∧
      d.handleBlock behavior extra expected b log = (h.record, h.after)) (log : Log σ) :
    ∃ hs : List (Handling σ), hs.map (·.block) = bs ∧ (∀ h ∈ hs, P h) ∧
      (d.handleBlocks behavior extra expected bs log).1 = hs.map (·.record) ∧
      Leads log hs (d.handleBlocks behavior extra expected bs log).2 := by
  induction bs generalizing log with
  | nil => exact ⟨[], rfl, by simp, rfl, .nil⟩
  | cons b bs ih =>
    obtain ⟨hfirst, hrest⟩ := List.forall_mem_cons.mp each
    obtain ⟨h, rfl, rfl, hp, heq⟩ := hfirst log
    obtain ⟨hs, rfl, hps, hrecords, hleads⟩ := ih hrest (h.after.note (.finished h.record))
    refine ⟨h :: hs, rfl, List.forall_mem_cons.mpr ⟨hp, hps⟩, ?_, ?_⟩
    · simp [handleBlocks, heq, hrecords]
    · simp only [handleBlocks, heq]
      exact .cons hleads

theorem handleBlocks_sound (expected : TurnId) {bs : List Block} (hbs : ∀ b ∈ bs, Formed b) (log : Log σ) :
    ∃ hs : List (Handling σ), hs.map (·.block) = bs ∧ (∀ h ∈ hs, h.Sound d behavior extra expected) ∧
      (d.handleBlocks behavior extra (some expected) bs log).1 = hs.map (·.record) ∧
      Leads log hs (d.handleBlocks behavior extra (some expected) bs log).2 :=
  d.handleBlocks_chain behavior extra (fun b hb log => d.handleBlock_sound behavior extra (hbs b hb) expected log) log

/-- Under an expected identifier a dispatch runs the authorised blocks of the text and refuses the others: its
    records and events are those of handlings of the blocks in order, of which each is sound. -/
theorem dispatch_runs_authorised_blocks (expected : TurnId) (text : String) (log : Log σ) :
    ∃ hs : List (Handling σ), hs.map (·.block) = blocks text.toList ∧
      (d.dispatch behavior extra (some expected) text log).1 = hs.map (·.record) ∧
      Leads log hs (d.dispatch behavior extra (some expected) text log).2 ∧
      (d.dispatch behavior extra (some expected) text log).2.events =
        (hs.flatMap Handling.events).reverse ++ log.events ∧
      ∀ h ∈ hs, h.Sound d behavior extra expected := by
  obtain ⟨hs, hblocks, hsound, hrecords, hleads⟩ :=
    d.handleBlocks_sound behavior extra expected (fun _ hb => formed_of_mem_blocks hb) log
  exact ⟨hs, hblocks, hrecords, hleads, hleads.events fun h hh => (hsound h hh).noted, hsound⟩

end

end ToolScript.Dispatcher
