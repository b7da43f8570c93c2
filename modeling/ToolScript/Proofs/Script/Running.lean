import ToolScript.Proofs.Script.Bindings
import ToolScript.Script.Run

/-! # How a script runs

    A script calls a tool for each statement in order, up to the first call that fails. Each call is made once, with its
    arguments as they are in the scope that the assignments before it have left (`Evaluates`), and may depend on all calls
    before it. -/

namespace ToolScript.Script

/-! ### Values of arguments -/

/-- The value of an argument in a scope, a variable without a value being null wherever it stands. -/
inductive Evaluates (scope : Scope) : Expr → Value → Prop
  | literal (l : Literal) : Evaluates scope (.literal l) l.value
  | bound {name : String} {v : Value} (h : scope.get? name = some v) : Evaluates scope (.reference name) v
  | unbound {name : String} (h : scope.get? name = none) : Evaluates scope (.reference name) .null
  | list {items : List Expr} {vs : List Value} (hlength : vs.length = items.length)
      (h : ∀ (i : Nat) (e : Expr) (v : Value), items[i]? = some e → vs[i]? = some v → Evaluates scope e v) : Evaluates scope (.list items) (.array vs)

section
variable {scope : Scope}

theorem values_eq_map (items : List Expr) : Expr.values scope items = items.map (Expr.value scope) := by
  induction items with
  | nil => rfl
  | cons e items ih => rw [Expr.values, ih, List.map_cons]

theorem Evaluates.value_eq {e : Expr} {v : Value} (h : Evaluates scope e v) : e.value scope = v := by
  induction h with
  | literal l => rfl
  | bound h => rw [Expr.value, h, Option.getD_some]
  | unbound h => rw [Expr.value, h, Option.getD_none]
  | @list items vs hlength _ ih =>
    rw [Expr.value, values_eq_map]
    refine congrArg Value.array (List.ext_getElem (by rw [List.length_map, hlength]) fun i hi hi' => ?_)
    rw [List.getElem_map]
    exact ih i _ _ (List.getElem?_eq_getElem (by simpa using hi)) (List.getElem?_eq_getElem hi')

mutual

theorem evaluates_value : ∀ e : Expr, Evaluates scope e (e.value scope)
  | .literal l => .literal l
  | .reference name => by
    rw [Expr.value]
    cases h : scope.get? name with
    | none => exact .unbound h
    | some v => exact .bound h
  | .list items => .list (by rw [values_eq_map, List.length_map]) (evaluates_values items)

theorem evaluates_values : ∀ (items : List Expr) (i : Nat) (e : Expr) (v : Value), items[i]? = some e →
    (Expr.values scope items)[i]? = some v → Evaluates scope e v
  | [], i, e, v, he, hv => by simp at he
  | e' :: items, 0, e, v, he, hv => by
    rw [Expr.values] at hv
    cases he
    cases hv
    exact evaluates_value e'
  | e' :: items, i + 1, e, v, he, hv => by
    rw [Expr.values] at hv
    exact evaluates_values items i e v he hv

end

theorem evaluates_iff {e : Expr} {v : Value} : Evaluates scope e v ↔ e.value scope = v :=
  ⟨Evaluates.value_eq, fun h => h ▸ evaluates_value e⟩

end

/-! ### Calls and their results -/

/-- A call of a tool: its name and its arguments. -/
abbrev Invoked := String × Params

/-- An executor that answers a call from all calls made before it, of which it keeps a list. -/
def answering (answer : List Invoked → String → Params → Except RunError Value) : Executor (List Invoked) :=
  fun tool params calls => (answer calls tool params, calls ++ [(tool, params)])

/-- What the assignments of a script bind when its calls come to values. -/
def bindings (script : List Statement) (values : List Value) : List (String × Value) :=
  (script.zip values).filterMap fun x => x.1.target.map (·, x.2)

/-- The scope in which the statement at a place runs: the assignments before it have been made. -/
def scopeAt (scope : Scope) (script : List Statement) (values : List Value) (i : Nat) : Scope :=
  scope.bindAll (bindings (script.take i) values)

/-- The result of a statement whose call comes to a value: an assignment cuts it to the limits, bound or not. -/
def Statement.result (limits : ScopeLimits) (s : Statement) (v : Value) : Value :=
  if s.target.isSome then limits.clamp v else v

/-- A statement calls its tool with its arguments as they are in a scope. -/
structure Calls (s : Statement) (scope : Scope) (call : Invoked) : Prop where
  tool : call.1 = s.call.tool
  params : ∀ name v, call.2.get? name = some v ↔ ∃ e, s.call.args.get? name = some e ∧ Evaluates scope e v

/-- A script made calls one after the other, and those that succeeded came to values. There is one call for each
    statement up to the first that failed, or up to the last one. -/
structure Ran (answer : List Invoked → String → Params → Except RunError Value) (last : Value) (scope : Scope)
    (earlier : List Invoked) (script : List Statement) (calls : List Invoked) (values : List Value)
    (o : Outcome (List Invoked)) : Prop where
  state_eq : o.state = earlier ++ calls
  length_le : calls.length ≤ script.length
  made : ∀ i s call, script[i]? = some s → calls[i]? = some call → Calls s (scopeAt scope script values i) call
  answered : ∀ i call v, calls[i]? = some call → values[i]? = some v →
    answer (earlier ++ calls.take i) call.1 call.2 = .ok v
  scope_eq : o.scope = scopeAt scope script values values.length
  ending : (calls.length = script.length ∧ values.length = script.length ∧
      o.result = .ok ((List.zipWith (Statement.result scope.limits) script values).getLastD last)) ∨
    ∃ call e, calls.length = values.length + 1 ∧ calls[values.length]? = some call ∧
      answer (earlier ++ calls.take values.length) call.1 call.2 = .error e ∧ o.result = .error e

section
variable {scope : Scope} {s : Statement} {script : List Statement} {v : Value} {values : List Value}

theorem calls_params (s : Statement) (scope : Scope) : Calls s scope (s.call.tool, s.call.params scope) := by
  refine ⟨rfl, fun name v => ?_⟩
  simp only [evaluates_iff, Call.params, Dict.get?_map, Option.map_eq_some_iff]

theorem scope_keep (s : Statement) (v : Value) (scope : Scope) : (s.keep v scope).2 = scope.bindAll (bindings [s] [v]) := by
  cases h : s.target <;> simp [Statement.keep, bindings, Scope.bindAll, h]

theorem value_keep (s : Statement) (v : Value) (scope : Scope) : (s.keep v scope).1 = s.result scope.limits v := by
  cases h : s.target <;> simp [Statement.keep, Statement.result, Scope.bind, h]

theorem limits_keep (s : Statement) (v : Value) (scope : Scope) : (s.keep v scope).2.limits = scope.limits := by
  cases h : s.target with
  | none => simp [Statement.keep, h]
  | some name =>
    simp only [Statement.keep, h]
    exact Scope.limits_bind

theorem scopeAt_succ (i : Nat) :
    scopeAt scope (s :: script) (v :: values) (i + 1) = scopeAt (s.keep v scope).2 script values i := by
  have hbindings : bindings (s :: script.take i) (v :: values) = bindings [s] [v] ++ bindings (script.take i) values := by
    rw [bindings, List.zip_cons_cons, ← List.singleton_append, List.filterMap_append]
    rfl
  rw [scope_keep, scopeAt, scopeAt, List.take_succ_cons, hbindings, bindAll_append]

end

/-! ### Runs -/

section
variable {answer : List Invoked → String → Params → Except RunError Value} {last : Value} {scope : Scope}
  {earlier : List Invoked} {s : Statement} {script : List Statement}

theorem ran_nil : Ran answer last scope earlier [] [] [] ⟨.ok last, scope, earlier⟩ where
  state_eq := by simp
  length_le := Nat.le_refl _
  made := by simp
  answered := by simp
  scope_eq := rfl
  ending := Or.inl ⟨rfl, rfl, rfl⟩

/-- A call that fails is the last one. -/
theorem ran_error {e : RunError} (h : answer earlier s.call.tool (s.call.params scope) = .error e) :
    Ran answer last scope earlier (s :: script) [(s.call.tool, s.call.params scope)] []
      ⟨.error e, scope, earlier ++ [(s.call.tool, s.call.params scope)]⟩ where
  state_eq := rfl
  length_le := by simp
  made i s' call hs hcall := by
    cases i with
    | zero =>
      cases hs
      cases hcall
      exact calls_params s scope
    | succ i => simp at hcall
  answered := by simp
  scope_eq := rfl
  ending := Or.inr ⟨_, e, rfl, rfl, by simpa using h, rfl⟩

/-- After a call that succeeds the others are made in the scope that its statement leaves. -/
theorem ran_cons {v : Value} {calls : List Invoked} {values : List Value} {o : Outcome (List Invoked)}
    (h : answer earlier s.call.tool (s.call.params scope) = .ok v)
    (hrest : Ran answer (s.keep v scope).1 (s.keep v scope).2 (earlier ++ [(s.call.tool, s.call.params scope)]) script calls
      values o) :
    Ran answer last scope earlier (s :: script) ((s.call.tool, s.call.params scope) :: calls) (v :: values) o where
  state_eq := by rw [hrest.state_eq]; simp
  length_le := Nat.succ_le_succ hrest.length_le
  made i s' call hs hcall := by
    cases i with
    | zero =>
      cases hs
      cases hcall
      exact calls_params s scope
    | succ i =>
      rw [scopeAt_succ]
      exact hrest.made i s' call hs hcall
  answered i call w hcall hw := by
    cases i with
    | zero =>
      cases hcall
      cases hw
      simpa using h
    | succ i => simpa using hrest.answered i call w hcall hw
  scope_eq := by rw [hrest.scope_eq, List.length_cons, scopeAt_succ]
  ending := by
    rcases hrest.ending with ⟨hcalls, hvalues, hresult⟩ | ⟨call, e, hcalls, hcall, herror, hresult⟩
    · refine Or.inl ⟨congrArg (· + 1) hcalls, congrArg (· + 1) hvalues, ?_⟩
      rw [hresult, limits_keep, value_keep, List.zipWith_cons_cons, List.getLastD_cons]
    · exact Or.inr ⟨call, e, congrArg (· + 1) hcalls, hcall, by simpa using herror, hresult⟩

theorem ran_runFrom (answer : List Invoked → String → Params → Except RunError Value) (last : Value) (scope : Scope)
    (earlier : List Invoked) (script : List Statement) :
    ∃ calls values, Ran answer last scope earlier script calls values (runFrom (answering answer) last scope earlier script) := by
  induction script generalizing last scope earlier with
  | nil => exact ⟨[], [], ran_nil⟩
  | cons s script ih =>
    cases h : answer earlier s.call.tool (s.call.params scope) with
    | error e =>
      have hrun : runFrom (answering answer) last scope earlier (s :: script) =
          ⟨.error e, scope, earlier ++ [(s.call.tool, s.call.params scope)]⟩ := by
        rw [runFrom, answering, h]
      exact ⟨_, _, hrun ▸ ran_error h⟩
    | ok v =>
      obtain ⟨calls, values, hrest⟩ := ih (s.keep v scope).1 (s.keep v scope).2 (earlier ++ [(s.call.tool, s.call.params scope)])
      have hrun : runFrom (answering answer) last scope earlier (s :: script) = runFrom (answering answer) (s.keep v scope).1
          (s.keep v scope).2 (earlier ++ [(s.call.tool, s.call.params scope)]) script := by
        rw [runFrom, answering, h]
      exact ⟨_, _, hrun ▸ ran_cons h hrest⟩

end

/-- A script run by an executor that may answer each call from all calls before it. Its calls are made in order, each once
    and in the scope that the assignments before it leave, up to the first that fails; the scope then is that before the
    failing statement, and else the result is that of the last statement. So also in a scope that other scripts left. -/
theorem run_in_order (answer : List Invoked → String → Params → Except RunError Value) (script : List Statement) :
    (∀ limits, ∃ calls values,
      Ran answer .null (.new limits) [] script calls values (run (answering answer) limits [] script)) ∧
    ∀ scope earlier, ∃ calls values,
      Ran answer .null scope earlier script calls values (runFrom (answering answer) .null scope earlier script) :=
  ⟨fun limits => ran_runFrom answer .null (.new limits) [] script, fun scope earlier => ran_runFrom answer .null scope earlier script⟩

end ToolScript.Script
