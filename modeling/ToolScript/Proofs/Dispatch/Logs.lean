import ToolScript.Proofs.Dispatch.Handling
import ToolScript.Proofs.Script.Grammar
import ToolScript.Proofs.Script.Partition
import ToolScript.Proofs.Text.Paths

/-! # The records of a dispatch and its events

    What a dispatch lets its observers know agrees with the records that it gives back. The records are reported in
    order, each behind the calls of its block. The tools of these calls are the ones in the record: a script names a tool
    by a word, in which there is no path to repair. A call that fails is the last one of its block. -/

namespace ToolScript

/-- The record that an event reports. -/
def Event.record? : Event → Option Record
  | .finished r => some r
  | .invoked _ => none

/-- The call that an event reports. -/
def Event.call? : Event → Option Invocation
  | .invoked i => some i
  | .finished _ => none

/-! ### The names of tools -/

namespace Script
open Text

theorem isWordChar_of_read {source : String} {script : List Statement} (h : Script.read source = .ok script) :
    ∀ s ∈ script, ∀ c ∈ s.call.tool.toList, isWordChar c = true := by
  intro s hs
  unfold Script.read at h
  split at h
  · cases h
  rename_i tokens htokens
  split at h
  · cases h
  rename_i hparse
  obtain rfl := Except.ok.inj h
  obtain ⟨t, ht, hkind⟩ := List.mem_map.mp ((parse_eq_ok_iff.mp hparse).tool_mem s hs)
  exact isWordChar_of_tokenize htokens (List.mem_map.mpr ⟨t, List.takeWhile_sublist _ |>.mem ht, hkind⟩)

theorem pathRepaired_of_word {name : String} (h : ∀ c ∈ name.toList, isWordChar c = true) : pathRepaired name = name := by
  have hplain : ∀ c ∈ name.toList, isSeparator c = false := by
    intro c hc
    have hslash : c ≠ '/' := ne_of_isWordChar (h c hc) (by decide)
    have hbackslash : c ≠ '\\' := ne_of_isWordChar (h c hc) (by decide)
    simp [isSeparator, hslash, hbackslash]
  rw [← String.toList_inj, toList_pathRepaired, lastRun_of_plain hplain]

end Script

namespace Markup.Block
open Text

/-- The tools of a block's script are named without a path. -/
theorem pathRepaired_tool {b : Block} {s : Script.Statement} (h : s ∈ b.script) : pathRepaired s.call.tool = s.call.tool := by
  unfold script at h
  split at h
  · rename_i hread
    exact Script.pathRepaired_of_word (Script.isWordChar_of_read hread s h)
  · cases h

end Markup.Block

namespace Dispatcher
open Markup Script Security Text

variable {ε σ : Type}

/-! ### Single blocks -/

namespace Ended
variable {reading : Except ScriptError (List Statement)} {calls : List Invocation} {result : Except ScriptError Value}

theorem succeeded_dropLast (h : Ended reading calls result) : ∀ i ∈ calls.dropLast, i.succeeded = true := by
  cases h with
  | unreadable => simp
  | completed all succeeded => exact fun i hi => succeeded i (List.mem_of_mem_dropLast hi)
  | failed succeeded last => rwa [List.dropLast_concat]

theorem last_failed_iff (h : Ended reading calls result) :
    (∃ i ∈ calls.getLast?, i.succeeded = false) ↔ result.isOk = false ∧ calls ≠ [] := by
  cases h with
  | unreadable => simp
  | completed all succeeded =>
    refine iff_of_false ?_ (by simp [Except.isOk, Except.toBool])
    rintro ⟨i, hi, hfailed⟩
    rw [succeeded i (List.mem_of_mem_getLast? hi)] at hfailed
    cases hfailed
  | @failed script calls i e succeeded last => exact iff_of_true ⟨i, by simp, last⟩ ⟨rfl, by simp⟩

theorem complete (h : Ended reading calls result) (hok : result.isOk = true) :
    ∃ script, reading = .ok script ∧ calls.length = script.length ∧ ∀ i ∈ calls, i.succeeded = true := by
  cases h with
  | completed all succeeded => exact ⟨_, rfl, all, succeeded⟩
  | unreadable => cases hok
  | failed => cases hok

end Ended

/-- The calls of a block agree with its record. -/
structure Handling.Agrees (h : Handling σ) : Prop where
  tools : h.calls.map (·.tool) = h.record.executed
  succeeded : ∀ i ∈ h.calls.dropLast, i.succeeded = true
  failed : (∃ i ∈ h.calls.getLast?, i.succeeded = false) ↔ h.record.status = .error ∧ h.record.executed ≠ []
  complete : h.record.status = .success → ∃ script, Script.read (String.ofList h.block.body) = .ok script ∧
    h.calls.length = script.length ∧ ∀ i ∈ h.calls, i.succeeded = true

section
variable {d : Dispatcher ε} {behavior : Behavior ε σ} {extra : ExtraTools (Handle ε)} {h : Handling σ}

theorem Handling.Ran.tools_eq (ran : h.Ran d behavior extra) : h.calls.map (·.tool) = h.record.executed := by
  rw [ran.tools]
  refine (List.map_congr_left fun tool htool => ?_).trans (List.map_id _)
  rw [ran.executed] at htool
  obtain ⟨s, hs, rfl⟩ := List.mem_map.mp htool
  exact Block.pathRepaired_tool (List.mem_of_mem_take hs)

theorem Handling.Ran.agrees {result : Except ScriptError Value} (ran : h.Ran d behavior extra)
    (hended : Ended (Script.read (String.ofList h.block.body)) h.calls result)
    (hstatus : h.record.status = if result.isOk then .success else .error) : h.Agrees where
  tools := ran.tools_eq
  succeeded := hended.succeeded_dropLast
  failed := by
    have hcalls : h.record.executed ≠ [] ↔ h.calls ≠ [] := by rw [← ran.tools_eq, ne_eq, List.map_eq_nil_iff]
    rw [hended.last_failed_iff, hstatus, hcalls]
    cases result.isOk <;> simp
  complete hsuccess := by
    refine hended.complete ?_
    cases hok : result.isOk with
    | true => rfl
    | false => simp [hstatus, hok] at hsuccess

end

section
variable (d : Dispatcher ε) (behavior : Behavior ε σ) (extra : ExtraTools (Handle ε))

/-- Under any expected identifier the calls and the record of a block agree. -/
theorem handleBlock_agrees (expected : Option TurnId) (b : Block) (log : Log σ) :
    ∃ h : Handling σ, h.block = b ∧ h.before = log ∧
      (h.Agrees ∧ h.after.events = (h.calls.map .invoked).reverse ++ h.before.events) ∧
      d.handleBlock behavior extra expected b log = (h.record, h.after) := by
  by_cases hpermits : (verdict b.turn? expected d.policy).permits = true
  · obtain ⟨h, rfl, rfl, hran, hevents, result, hended, hstatus⟩ := d.runBlock_ran behavior extra b log
    refine ⟨h, rfl, rfl, ⟨hran.agrees hended hstatus, hevents⟩, ?_⟩
    rw [d.handleBlock_of_permits behavior extra h.before hpermits, hran.run]
  · obtain ⟨reason, heq⟩ := d.handleBlock_of_not_permits behavior extra hpermits
    exact ⟨⟨b, log, [], ⟨Record.scriptPlugin, .blocked, .string reason, String.ofList b.raw, []⟩, log⟩, rfl, rfl,
      ⟨⟨rfl, by simp, by simp, by simp⟩, rfl⟩, heq log⟩

/-! ### Whole replies -/

theorem records_of_events (hs : List (Handling σ)) :
    (hs.flatMap Handling.events).filterMap Event.record? = hs.map (·.record) := by
  induction hs with
  | nil => rfl
  | cons h hs ih => simp [Handling.events, List.filterMap_map, Function.comp_def, Event.record?, ih]

theorem calls_of_events (hs : List (Handling σ)) :
    (hs.flatMap Handling.events).filterMap Event.call? = hs.flatMap (·.calls) := by
  induction hs with
  | nil => rfl
  | cons h hs ih => simp [Handling.events, List.filterMap_map, List.filterMap_cons, Function.comp_def, Event.call?, ih]

/-- What a dispatch lets its observers know, in order: the records reported are those given back, the tools called are
    those in the records, and the calls reported before each record agree with it. -/
theorem dispatch_logs_agree (expected : Option TurnId) (text : String) (log : Log σ) :
    ∃ news : List Event, (d.dispatch behavior extra expected text log).2.events = news.reverse ++ log.events ∧
      news.filterMap Event.record? = (d.dispatch behavior extra expected text log).1 ∧
      (news.filterMap Event.call?).map (·.tool) =
        (d.dispatch behavior extra expected text log).1.flatMap (·.executed) ∧
      ∃ hs : List (Handling σ), hs.map (·.block) = blocks text.toList ∧
        (d.dispatch behavior extra expected text log).1 = hs.map (·.record) ∧ news = hs.flatMap Handling.events ∧
        ∀ h ∈ hs, h.Agrees := by
  obtain ⟨hs, hblocks, hagree, hrecords, hleads⟩ := d.handleBlocks_chain behavior extra
    (fun b (_ : b ∈ blocks text.toList) log => d.handleBlock_agrees behavior extra expected b log) log
  refine ⟨hs.flatMap Handling.events, hleads.events fun h hh => (hagree h hh).2, ?_, ?_, hs, hblocks, hrecords, rfl,
    fun h hh => (hagree h hh).1⟩
  · rw [records_of_events, dispatch, hrecords]
  · rw [calls_of_events, dispatch, hrecords, List.map_flatMap, List.flatMap_map]
    exact List.flatMap_congr fun h hh => (hagree h hh).1.tools

end

end Dispatcher
end ToolScript
