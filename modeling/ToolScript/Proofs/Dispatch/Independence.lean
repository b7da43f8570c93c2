import ToolScript.Proofs.Dispatch.Handling

/-! # Blocks do not see each other

    Where the result of a tool depends on its arguments only, two runs of a block from any two logs go side by side:
    they call the same tools, and what they note since is the same (`Abreast`). So the record of a block and its
    events are those of a dispatch of the block alone, whatever stands around it. -/

namespace ToolScript

/-- The result of a tool depends on its arguments only. -/
def Behavior.Stateless {ε σ : Type} (behavior : Behavior ε σ) : Prop :=
  ∀ impl params s s', (behavior impl params s).1 = (behavior impl params s').1

namespace Dispatcher
open Markup Script Security Text

variable {ε σ : Type}

/-- The same events were noted in two logs since they were `log` and `log'`. -/
def SameNews (log log' after after' : Log σ) : Prop :=
  ∃ news, after.events = news ++ log.events ∧ after'.events = news ++ log'.events

namespace SameNews
variable {log log' mid mid' after after' : Log σ}

theorem refl (log log' : Log σ) : SameNews log log' log log' :=
  ⟨[], rfl, rfl⟩

theorem trans (h : SameNews log log' mid mid') (h' : SameNews mid mid' after after') :
    SameNews log log' after after' := by
  obtain ⟨news, hmid, hmid'⟩ := h
  obtain ⟨news', hafter, hafter'⟩ := h'
  exact ⟨news' ++ news, by rw [hafter, hmid, List.append_assoc], by rw [hafter', hmid', List.append_assoc]⟩

theorem note (h : SameNews log log' mid mid') (e : Event) : SameNews log log' (mid.note e) (mid'.note e) :=
  h.trans ⟨[e], rfl, rfl⟩

end SameNews

/-- Two runs that began in `log` and `log'` have gone side by side. -/
structure Abreast (log log' : Log σ) (r r' : Running σ) : Prop where
  executed : r.executed = r'.executed
  news : SameNews log log' r.log r'.log

section
variable (d : Dispatcher ε) {behavior : Behavior ε σ} (extra : ExtraTools (Handle ε)) {log log' : Log σ}

/-! ### Runs side by side -/

theorem call_abreast (stateless : behavior.Stateless) (name : String) (params : Params) (log log' : Log σ) :
    (d.call behavior extra name params log).1 = (d.call behavior extra name params log').1 ∧
      SameNews log log' (d.call behavior extra name params log).2 (d.call behavior extra name params log').2 := by
  simp only [call]
  cases resolve d.registry d.gate extra (pathRepaired name) params with
  | error e => exact ⟨rfl, (SameNews.refl log log').note _⟩
  | ok found =>
    have hresult := stateless found.1.impl (found.1.prepare found.2) log.state log'.state
    simp only [Handle.invoke, hresult]
    exact ⟨trivial, [_], rfl, rfl⟩

theorem executor_abreast (stateless : behavior.Stateless) (tool : String) (params : Params) {r r' : Running σ}
    (h : Abreast log log' r r') :
    (d.executor behavior extra tool params r).1 = (d.executor behavior extra tool params r').1 ∧
      Abreast log log' (d.executor behavior extra tool params r).2 (d.executor behavior extra tool params r').2 := by
  obtain ⟨hresult, hnews⟩ := d.call_abreast extra stateless tool params r.log r'.log
  refine ⟨?_, ?_, h.news.trans hnews⟩
  · simp only [executor, hresult]
  · simp only [executor, h.executed]

theorem runFrom_abreast (stateless : behavior.Stateless) (script : List Statement) (last : Value) (scope : Scope)
    {r r' : Running σ} (h : Abreast log log' r r') :
    (runFrom (d.executor behavior extra) last scope r script).result =
        (runFrom (d.executor behavior extra) last scope r' script).result ∧
      Abreast log log' (runFrom (d.executor behavior extra) last scope r script).state
        (runFrom (d.executor behavior extra) last scope r' script).state := by
  induction script generalizing last scope r r' with
  | nil => exact ⟨rfl, h⟩
  | cons s script ih =>
    obtain ⟨hresult, hstep⟩ := d.executor_abreast extra stateless s.call.tool (s.call.params scope) h
    simp only [runFrom]
    generalize d.executor behavior extra s.call.tool (s.call.params scope) r = ended at hresult hstep
    generalize d.executor behavior extra s.call.tool (s.call.params scope) r' = ended' at hresult hstep
    obtain ⟨result, r⟩ := ended
    obtain ⟨result', r'⟩ := ended'
    obtain rfl : result = result' := hresult
    cases result with
    | error e => exact ⟨rfl, hstep⟩
    | ok v => exact ih _ _ hstep

theorem execute_abreast (stateless : behavior.Stateless) (source : String) {r r' : Running σ} (h : Abreast log log' r r') :
    (execute (d.executor behavior extra) d.limits r source).1 =
        (execute (d.executor behavior extra) d.limits r' source).1 ∧
      Abreast log log' (execute (d.executor behavior extra) d.limits r source).2
        (execute (d.executor behavior extra) d.limits r' source).2 := by
  simp only [execute]
  cases Script.read source with
  | error e => exact ⟨rfl, h⟩
  | ok script =>
    obtain ⟨hresult, hstate⟩ := d.runFrom_abreast extra stateless script .null (.new d.limits) h
    simp only [run, hresult]
    exact ⟨trivial, hstate⟩

/-! ### Blocks side by side -/

theorem runBlock_abreast (stateless : behavior.Stateless) (b : Block) (log log' : Log σ) :
    (d.runBlock behavior extra b log).1 = (d.runBlock behavior extra b log').1 ∧
      SameNews log log' (d.runBlock behavior extra b log).2 (d.runBlock behavior extra b log').2 := by
  obtain ⟨hresult, hstate⟩ := d.execute_abreast extra stateless (String.ofList b.body)
    (⟨rfl, .refl log log'⟩ : Abreast log log' ⟨log, []⟩ ⟨log', []⟩)
  simp only [runBlock, hresult, hstate.executed]
  exact ⟨trivial, hstate.news⟩

theorem handleBlock_abreast (stateless : behavior.Stateless) (expected : Option TurnId) (b : Block) (log log' : Log σ) :
    (d.handleBlock behavior extra expected b log).1 = (d.handleBlock behavior extra expected b log').1 ∧
      SameNews log log' (d.handleBlock behavior extra expected b log).2 (d.handleBlock behavior extra expected b log').2 := by
  by_cases h : (verdict b.turn? expected d.policy).permits = true
  · rw [d.handleBlock_of_permits behavior extra log h, d.handleBlock_of_permits behavior extra log' h]
    exact d.runBlock_abreast extra stateless b log log'
  · obtain ⟨reason, heq⟩ := d.handleBlock_of_not_permits behavior extra h
    rw [heq log, heq log']
    exact ⟨rfl, .refl log log'⟩

/-- The blocks of a list leave the records that each leaves alone, and note what each notes alone. -/
theorem handleBlocks_eq_flatMap (stateless : behavior.Stateless) (expected : Option TurnId) (bs : List Block) (start : Block → σ)
    (log : Log σ) :
    (d.handleBlocks behavior extra expected bs log).1 =
        bs.flatMap (fun b => (d.handleBlocks behavior extra expected [b] ⟨start b, []⟩).1) ∧
      (d.handleBlocks behavior extra expected bs log).2.events.reverse = log.events.reverse ++
        bs.flatMap fun b => (d.handleBlocks behavior extra expected [b] ⟨start b, []⟩).2.events.reverse := by
  induction bs generalizing log with
  | nil => simp [handleBlocks]
  | cons b bs ih =>
    obtain ⟨hrecord, news, hlog, halone⟩ := d.handleBlock_abreast extra stateless expected b log ⟨start b, []⟩
    obtain ⟨hrecords, hevents⟩ :=
      ih ((d.handleBlock behavior extra expected b log).2.note (.finished (d.handleBlock behavior extra expected b log).1))
    constructor
    · rw [List.flatMap_cons, ← hrecords]
      simp [handleBlocks, hrecord]
    · rw [List.flatMap_cons, ← List.append_assoc, handleBlocks, hevents]
      simp [handleBlocks, Log.note, hlog, halone, hrecord]

/-! ### Single blocks -/

theorem handleBlock_raw (behavior : Behavior ε σ) (expected : Option TurnId) (b : Block) (log : Log σ) :
    (d.handleBlock behavior extra expected b log).1.raw = String.ofList b.raw := by
  rw [handleBlock]
  split
  · rfl
  · rfl

theorem runBlock_of_unreadable (behavior : Behavior ε σ) {b : Block} {e : ScriptError}
    (h : Script.read (String.ofList b.body) = .error e) (log : Log σ) :
    d.runBlock behavior extra b log =
      (⟨Record.scriptPlugin, .error, .string ("script error: " ++ e.text), String.ofList b.raw, []⟩, log) := by
  simp [runBlock, execute, h]

/-- A block that cannot be read calls no tool, whether it is refused or not. -/
theorem handleBlock_of_unreadable (behavior : Behavior ε σ) (expected : Option TurnId) {b : Block} {e : ScriptError}
    (h : Script.read (String.ofList b.body) = .error e) :
    ∃ r : Record, (∀ log, d.handleBlock behavior extra expected b log = (r, log)) ∧ r.executed = [] := by
  by_cases permits : (verdict b.turn? expected d.policy).permits = true
  · have hrun := d.runBlock_of_unreadable extra behavior h
    exact ⟨_, fun log => (d.handleBlock_of_permits behavior extra log permits).trans (hrun log), rfl⟩
  · obtain ⟨reason, heq⟩ := d.handleBlock_of_not_permits behavior extra permits
    exact ⟨_, heq, rfl⟩

theorem dispatch_raw (behavior : Behavior ε σ) (expected : Option TurnId) {text : String} {b : Block}
    (hb : b ∈ blocks text.toList) (log : Log σ) :
    d.dispatch behavior extra expected (String.ofList b.raw) log = d.handleBlocks behavior extra expected [b] log := by
  rw [dispatch, String.toList_ofList, blocks_raw (formed_of_mem_blocks hb) (shut_of_mem_blocks hb)]

end

/-- What a dispatch of a block alone comes to, from any log: the record `r` with the text of the block. A block that
    cannot be read tells the error in it unless it is refused, and calls no tool. -/
structure Alone (d : Dispatcher ε) (behavior : Behavior ε σ) (extra : ExtraTools (Handle ε)) (expected : Option TurnId)
    (b : Block) (r : Record) : Prop where
  record : ∀ log, (d.dispatch behavior extra expected (String.ofList b.raw) log).1 = [r]
  raw : r.raw = String.ofList b.raw
  refused : ¬(verdict b.turn? expected d.policy).permits = true → r.status = .blocked
  failed : ∀ e, Script.read (String.ofList b.body) = .error e → (verdict b.turn? expected d.policy).permits = true →
    r.status = .error ∧ r.output = .string ("script error: " ++ e.text)
  silent : ∀ e, Script.read (String.ofList b.body) = .error e → r.executed = [] ∧
    ∀ log, (d.dispatch behavior extra expected (String.ofList b.raw) log).2 = log.note (.finished r)

section
variable (d : Dispatcher ε) {behavior : Behavior ε σ} (extra : ExtraTools (Handle ε))

theorem handleBlock_alone (stateless : behavior.Stateless) (expected : Option TurnId) {text : String} {b : Block}
    (hb : b ∈ blocks text.toList) (log : Log σ) :
    d.Alone behavior extra expected b (d.handleBlock behavior extra expected b log).1 := by
  refine ⟨fun log' => ?_, d.handleBlock_raw extra behavior expected b log, fun hrefused => ?_, fun e he permits => ?_,
    fun e he => ?_⟩
  · rw [d.dispatch_raw extra behavior expected hb, (d.handleBlock_abreast extra stateless expected b log log').1]
    rfl
  · obtain ⟨reason, heq⟩ := d.handleBlock_of_not_permits behavior extra hrefused
    rw [heq]
  · rw [d.handleBlock_of_permits behavior extra log permits, d.runBlock_of_unreadable extra behavior he]
    exact ⟨rfl, rfl⟩
  · obtain ⟨r, heq, hexecuted⟩ := d.handleBlock_of_unreadable extra behavior expected he
    refine ⟨by rw [heq, hexecuted], fun log' => ?_⟩
    rw [d.dispatch_raw extra behavior expected hb, handleBlocks, heq log, heq log']
    rfl

/-- With tools whose results depend on their arguments only, the records and the events of a dispatch are those of
    dispatches of its blocks alone, one after the other. -/
theorem dispatch_eq_flatMap_alone (stateless : behavior.Stateless) (expected : Option TurnId) (text : String)
    (start : Block → σ) (log : Log σ) :
    let found := blocks text.toList
    let ended := d.dispatch behavior extra expected text log
    let alone := fun b : Block => d.dispatch behavior extra expected (String.ofList b.raw) ⟨start b, []⟩
    ended.1 = found.flatMap (fun b => (alone b).1) ∧
      ended.2.events.reverse = log.events.reverse ++ found.flatMap (fun b => (alone b).2.events.reverse) ∧
      List.Forall₂ (d.Alone behavior extra expected) found ended.1 := by
  intro found ended alone
  have halone : ∀ b ∈ found, alone b = d.handleBlocks behavior extra expected [b] ⟨start b, []⟩ :=
    fun b hb => d.dispatch_raw extra behavior expected hb ⟨start b, []⟩
  obtain ⟨hrecords, hevents⟩ := d.handleBlocks_eq_flatMap extra stateless expected found start log
  refine ⟨?_, ?_, ?_⟩
  · rw [List.flatMap_congr fun b hb => congrArg Prod.fst (halone b hb)]
    exact hrecords
  · rw [List.flatMap_congr fun b hb => congrArg (fun r => r.2.events.reverse) (halone b hb)]
    exact hevents
  · have hmap : ended.1 = found.map fun b => (d.handleBlock behavior extra expected b ⟨start b, []⟩).1 := by
      rw [List.map_eq_flatMap]
      exact hrecords
    rw [hmap, List.forall₂_map_right_iff, List.forall₂_same]
    exact fun b hb => d.handleBlock_alone extra stateless expected hb _

end

/-- A tool that gives back its arguments and counts its calls. -/
def countingEcho : Behavior Unit Nat :=
  fun _ params calls => (.ok (Value.ofDict params), calls + 1)

theorem countingEcho_stateless : countingEcho.Stateless :=
  fun _ _ _ _ => rfl

def echoCatalog : Catalog Unit :=
  ⟨[⟨⟨"echo", none, none, none, none⟩, ()⟩], []⟩

theorem dispatch_eq_flatMap_alone_echo : countingEcho.Stateless ∧
    ((new echoCatalog).dispatch countingEcho [] none "a <nit>echo(x=1)</nit> b <nit>echo(</nit>" ⟨0, []⟩).1 =
      (blocks "a <nit>echo(x=1)</nit> b <nit>echo(</nit>".toList).flatMap fun b =>
        ((new echoCatalog).dispatch countingEcho [] none (String.ofList b.raw) ⟨7, []⟩).1 :=
  ⟨countingEcho_stateless,
    ((new echoCatalog).dispatch_eq_flatMap_alone [] countingEcho_stateless none _ (fun _ => 7) ⟨0, []⟩).1⟩

/-- A block of another turn that cannot be read. -/
def brokenBlock : Block :=
  ⟨⟨"nit-9999".toList⟩, "<nit-9999>".toList, "echo(".toList, "</nit-9999>".toList⟩

/-- A refused block that cannot be read is told to be refused and not to be in error. -/
theorem brokenBlock_refused : blocks brokenBlock.raw = [brokenBlock] ∧
    (∃ e, Script.read (String.ofList brokenBlock.body) = .error e) ∧
    ((new echoCatalog).dispatch countingEcho [] (some ⟨0xA9B2⟩) (String.ofList brokenBlock.raw) ⟨0, []⟩).1.map (·.status) =
      [.blocked] := by
  have hname : TagName "nit-9999".toList (some "9999".toList) :=
    @TagName.numbered "nit".toList _ rfl rfl (List.all_eq_true.mp (by decide))
  have hformed : Formed brokenBlock := ⟨rfl, ⟨"nit-9999".toList, rfl, rfl⟩, _, hname, rfl⟩
  have hblocks : blocks brokenBlock.raw = [brokenBlock] := blocks_raw hformed (.of_map_toLower (by decide))
  refine ⟨hblocks, ⟨_, rfl⟩, ?_⟩
  rw [dispatch, String.toList_ofList, hblocks]
  rfl

end Dispatcher
end ToolScript
