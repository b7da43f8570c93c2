import ToolScript.Proofs.Data.Dict
import ToolScript.Script.Parser

/-! # The scripts that tokens write

    The grammar of scripts as relations between rows of tokens and trees, one for each of its rules, with no word of
    how tokens are read. A row of tokens is parsed to a script exactly if it derives the script. What the tokens
    after a place derive is said for each place of the parser (`Reads`), from the last places of a statement to the
    first. -/

namespace ToolScript.Script

/-! ### The grammar -/

/-- A value: a string, a number or a variable. -/
inductive IsValue : TokenKind → Expr → Prop
  | string (s : String) : IsValue (.string s) (.literal (.string s))
  | number (n : Number) : IsValue (.number n) (.literal (.number n))
  | reference (name : String) : IsValue (.reference name) (.reference name)

/-- An argument: a name, an equals sign and a value. -/
inductive IsArgument : List TokenKind → String × Expr → Prop
  | named {name : String} {k : TokenKind} {e : Expr} (value : IsValue k e) : IsArgument [.identifier name, .equals, k] (name, e)

/-- One argument or more, with commas between them. -/
inductive AreArguments : List TokenKind → List (String × Expr) → Prop
  | one {ks : List TokenKind} {a : String × Expr} (first : IsArgument ks a) : AreArguments ks [a]
  | more {ks ks' : List TokenKind} {a : String × Expr} {as : List (String × Expr)} (first : IsArgument ks a)
      (rest : AreArguments ks' as) : AreArguments (ks ++ .comma :: ks') (a :: as)

/-- What may stand between the brackets of a call. -/
inductive IsArgumentList : List TokenKind → List (String × Expr) → Prop
  | empty : IsArgumentList [] []
  | arguments {ks : List TokenKind} {as : List (String × Expr)} (h : AreArguments ks as) : IsArgumentList ks as

/-- A call: perhaps `async`, a tool, and arguments in brackets. Its map of arguments has under every name the value
    that stands last under the name. -/
inductive IsCall : List TokenKind → Call → Prop
  | plain {tool : String} {ks : List TokenKind} {as : List (String × Expr)} {args : Dict Expr} (list : IsArgumentList ks as)
      (values : ∀ name e, args.get? name = some e ↔ Dict.LastEntry as name e) :
      IsCall (.identifier tool :: .openParen :: (ks ++ [.closeParen])) ⟨tool, args, false⟩
  | async {tool : String} {ks : List TokenKind} {args : Dict Expr} (h : IsCall ks ⟨tool, args, false⟩) :
      IsCall (.async :: ks) ⟨tool, args, true⟩

/-- A statement: a call, or a variable, an equals sign and a call. -/
inductive IsStatement : List TokenKind → Statement → Prop
  | call {ks : List TokenKind} {c : Call} (h : IsCall ks c) : IsStatement ks ⟨none, c⟩
  | assignment {target : String} {ks : List TokenKind} {c : Call} (h : IsCall ks c) :
      IsStatement (.reference target :: .equals :: ks) ⟨some target, c⟩

/-- A script: statements one after the other. -/
inductive Derives : List TokenKind → List Statement → Prop
  | nil : Derives [] []
  | cons {ks ks' : List TokenKind} {s : Statement} {ss : List Statement} (first : IsStatement ks s) (rest : Derives ks' ss) :
      Derives (ks ++ ks') (s :: ss)

/-- The kinds of the tokens before the end of a script. -/
def kinds (tokens : List Token) : List TokenKind :=
  (body tokens).map (·.kind)

/-! ### What is read from a place -/

/-- The tokens lead from a place in the grammar to the end of a script, and the statements are completed on the way. -/
inductive Reads : Place → List TokenKind → List Statement → Prop
  | nil : Reads .statement [] []
  | go {p p' : Place} {k : TokenKind} {ks : List TokenKind} {ss : List Statement} (move : p.move? k = some (.go p'))
      (rest : Reads p' ks ss) : Reads p (k :: ks) ss
  | complete {p : Place} {k : TokenKind} {s : Statement} {ks : List TokenKind} {ss : List Statement}
      (move : p.move? k = some (.complete s)) (rest : Reads .statement ks ss) : Reads p (k :: ks) (s :: ss)

theorem reads_nil_iff {p : Place} {ss : List Statement} : Reads p [] ss ↔ p = .statement ∧ ss = [] := by
  constructor
  · intro h
    cases h
    exact ⟨rfl, rfl⟩
  · rintro ⟨rfl, rfl⟩
    exact .nil

theorem reads_cons_iff {p : Place} {k : TokenKind} {ks : List TokenKind} {ss : List Statement} :
    Reads p (k :: ks) ss ↔ (∃ p', p.move? k = some (.go p') ∧ Reads p' ks ss) ∨
      ∃ s ss', p.move? k = some (.complete s) ∧ ss = s :: ss' ∧ Reads .statement ks ss' := by
  constructor
  · intro h
    cases h with
    | go move rest => exact Or.inl ⟨_, move, rest⟩
    | complete move rest => exact Or.inr ⟨_, _, move, rfl, rest⟩
  · rintro (⟨p', move, rest⟩ | ⟨s, ss', move, rfl, rest⟩)
    · exact .go move rest
    · exact .complete move rest

/-- The parser goes from place to place as `Reads` says, and collects the statements. -/
theorem foldlM_step_eq_ok_iff {ts : List Token} {sts script : List Statement} {p : Place} {eof : Token} :
    ((ts.foldlM Parser.step ⟨sts, p⟩).bind fun q => q.finish eof) = .ok script ↔
      ∃ ss, Reads p (ts.map (·.kind)) ss ∧ script = sts.reverse ++ ss := by
  induction ts generalizing sts p with
  | nil =>
    simp only [List.map_nil, reads_nil_iff]
    show Parser.finish ⟨sts, p⟩ eof = .ok script ↔ _
    cases p <;> simp [Parser.finish, eq_comm]
  | cons t ts ih =>
    rw [List.foldlM_cons, List.map_cons]
    simp only [reads_cons_iff]
    show ((Parser.step ⟨sts, p⟩ t).bind fun q => ts.foldlM Parser.step q).bind _ = _ ↔ _
    rw [Parser.step]
    cases hmove : p.move? t.kind with
    | none => simp [Except.bind]
    | some move =>
      cases move with
      | go p' =>
        show (ts.foldlM Parser.step ⟨sts, p'⟩).bind _ = _ ↔ _
        rw [ih]
        simp
      | complete s =>
        show (ts.foldlM Parser.step ⟨s :: sts, .statement⟩).bind _ = _ ↔ _
        rw [ih]
        simp

theorem parse_eq_ok_iff_reads {tokens : List Token} {script : List Statement} :
    parse tokens = .ok script ↔ Reads .statement (kinds tokens) script := by
  show ((body tokens).foldlM Parser.step ⟨[], .statement⟩).bind _ = _ ↔ _
  rw [foldlM_step_eq_ok_iff, kinds]
  simp

/-! ### The moves of each place -/

section
variable {h : Head} {target : Option String} {name : String} {args : Dict Expr} {k : TokenKind}

@[simp] theorem move?_statement : Place.statement.move? k = match k with
    | .reference target => some (.go (.assignment target))
    | .async => some (.go (.tool none))
    | .identifier tool => some (.go (.openParen ⟨none, false, tool⟩))
    | _ => none := by
  cases k <;> rfl

@[simp] theorem move?_assignment : (Place.assignment name).move? k = match k with
    | .equals => some (.go (.call (some name)))
    | _ => none := by
  cases k <;> rfl

@[simp] theorem move?_call : (Place.call target).move? k = match k with
    | .async => some (.go (.tool target))
    | .identifier tool => some (.go (.openParen ⟨target, false, tool⟩))
    | _ => none := by
  cases k <;> rfl

@[simp] theorem move?_tool : (Place.tool target).move? k = match k with
    | .identifier tool => some (.go (.openParen ⟨target, true, tool⟩))
    | _ => none := by
  cases k <;> rfl

@[simp] theorem move?_openParen : (Place.openParen h).move? k = match k with
    | .openParen => some (.go (.firstArgument h))
    | _ => none := by
  cases k <;> rfl

@[simp] theorem move?_firstArgument : (Place.firstArgument h).move? k = match k with
    | .identifier name => some (.go (.equals h .empty name))
    | .closeParen => some (.complete (h.statement .empty))
    | _ => none := by
  cases k <;> rfl

@[simp] theorem move?_argument : (Place.argument h args).move? k = match k with
    | .identifier name => some (.go (.equals h args name))
    | _ => none := by
  cases k <;> rfl

@[simp] theorem move?_equals : (Place.equals h args name).move? k = match k with
    | .equals => some (.go (.value h args name))
    | _ => none := by
  cases k <;> rfl

@[simp] theorem move?_value : (Place.value h args name).move? k = k.expr?.map fun e => .go (.separator h (args.insert name e)) := by
  cases k <;> rfl

@[simp] theorem move?_separator : (Place.separator h args).move? k = match k with
    | .comma => some (.go (.argument h args))
    | .closeParen => some (.complete (h.statement args))
    | _ => none := by
  cases k <;> rfl

end

/-! ### The places of the grammar, from the last to the first -/

theorem expr?_eq_some_iff {k : TokenKind} {e : Expr} : k.expr? = some e ↔ IsValue k e := by
  constructor
  · intro h
    cases k <;> simp only [TokenKind.expr?, Option.some.injEq, reduceCtorEq] at h <;> subst h
    · exact .reference _
    · exact .string _
    · exact .number _
  · rintro (_ | _ | _) <;> rfl

section
variable {h : Head} {target : Option String} {name : String} {args : Dict Expr} {ks : List TokenKind} {ss : List Statement}

theorem reads_separator_iff : Reads (.separator h args) ks ss ↔
    (∃ ks', ks = .comma :: ks' ∧ Reads (.argument h args) ks' ss) ∨
      ∃ ks' ss', ks = .closeParen :: ks' ∧ ss = h.statement args :: ss' ∧ Reads .statement ks' ss' := by
  cases ks with
  | nil => simp [reads_nil_iff]
  | cons k ks => cases k <;> simp [reads_cons_iff]

theorem reads_value_iff : Reads (.value h args name) ks ss ↔
    ∃ k e ks', ks = k :: ks' ∧ IsValue k e ∧ Reads (.separator h (args.insert name e)) ks' ss := by
  cases ks with
  | nil => simp [reads_nil_iff]
  | cons k ks => cases k <;> simp [reads_cons_iff, ← expr?_eq_some_iff, TokenKind.expr?]

theorem reads_equals_iff : Reads (.equals h args name) ks ss ↔
    ∃ ks', ks = .equals :: ks' ∧ Reads (.value h args name) ks' ss := by
  cases ks with
  | nil => simp [reads_nil_iff]
  | cons k ks => cases k <;> simp [reads_cons_iff]

theorem reads_argument_iff : Reads (.argument h args) ks ss ↔
    ∃ ks₁ a ks₂, ks = ks₁ ++ ks₂ ∧ IsArgument ks₁ a ∧ Reads (.separator h (args.insert a.1 a.2)) ks₂ ss := by
  constructor
  · intro hr
    cases ks with
    | nil => simp [reads_nil_iff] at hr
    | cons k ks =>
      obtain ⟨name, rfl, hequals⟩ : ∃ name, k = .identifier name ∧ Reads (.equals h args name) ks ss := by
        cases k <;> simp [reads_cons_iff] at hr
        exact ⟨_, rfl, hr⟩
      obtain ⟨ks, rfl, hvalue⟩ := reads_equals_iff.mp hequals
      obtain ⟨k, e, ks, rfl, value, hrest⟩ := reads_value_iff.mp hvalue
      exact ⟨_, (name, e), ks, rfl, .named value, hrest⟩
  · rintro ⟨ks₁, a, ks₂, rfl, ⟨value⟩, hr⟩
    exact .go rfl (reads_equals_iff.mpr ⟨_, rfl, reads_value_iff.mpr ⟨_, _, ks₂, rfl, value, hr⟩⟩)

/-- The arguments from a place on, up to the bracket that closes them. -/
theorem reads_arguments_iff : Reads (.argument h args) ks ss ↔
    ∃ ks₁ as ks₂ ss', ks = ks₁ ++ .closeParen :: ks₂ ∧ AreArguments ks₁ as ∧
      ss = h.statement (as.foldl (fun d a => d.insert a.1 a.2) args) :: ss' ∧ Reads .statement ks₂ ss' := by
  constructor
  · intro hr
    induction hn : ks.length using Nat.strongRecOn generalizing args ks with
    | ind n ih =>
      obtain ⟨ks₁, a, ks₂, rfl, first, hseparator⟩ := reads_argument_iff.mp hr
      rcases reads_separator_iff.mp hseparator with ⟨ks₃, rfl, hmore⟩ | ⟨ks₃, ss', rfl, rfl, hrest⟩
      · have hlt : ks₃.length < n := by
          simp only [List.length_append, List.length_cons] at hn
          omega
        obtain ⟨ks₄, as, ks₅, ss', rfl, rest, rfl, hrest⟩ := ih _ hlt hmore rfl
        exact ⟨ks₁ ++ .comma :: ks₄, a :: as, ks₅, ss', by simp, .more first rest, rfl, hrest⟩
      · exact ⟨ks₁, [a], ks₃, ss', rfl, .one first, rfl, hrest⟩
  · rintro ⟨ks₁, as, ks₂, ss', rfl, list, rfl, hr⟩
    induction list generalizing args with
    | one first =>
      exact reads_argument_iff.mpr ⟨_, _, _, rfl, first, reads_separator_iff.mpr (Or.inr ⟨ks₂, ss', rfl, rfl, hr⟩)⟩
    | @more ks₁ ks₃ a as first rest ih =>
      rw [List.append_assoc]
      exact reads_argument_iff.mpr ⟨_, _, _, rfl, first, reads_separator_iff.mpr (Or.inl ⟨_, rfl, ih⟩)⟩

theorem reads_firstArgument_iff : Reads (.firstArgument h) ks ss ↔
    (∃ ks' ss', ks = .closeParen :: ks' ∧ ss = h.statement .empty :: ss' ∧ Reads .statement ks' ss') ∨
      Reads (.argument h .empty) ks ss := by
  cases ks with
  | nil => simp [reads_nil_iff]
  | cons k ks => cases k <;> simp [reads_cons_iff]

theorem reads_openParen_iff : Reads (.openParen h) ks ss ↔
    ∃ ks₁ as ks₂ ss', ks = .openParen :: (ks₁ ++ .closeParen :: ks₂) ∧ IsArgumentList ks₁ as ∧
      ss = h.statement (.ofList as) :: ss' ∧ Reads .statement ks₂ ss' := by
  have hopen : Reads (.openParen h) ks ss ↔ ∃ ks', ks = .openParen :: ks' ∧ Reads (.firstArgument h) ks' ss := by
    cases ks with
    | nil => simp [reads_nil_iff]
    | cons k ks => cases k <;> simp [reads_cons_iff]
  rw [hopen]
  constructor
  · rintro ⟨ks, rfl, hr⟩
    rcases reads_firstArgument_iff.mp hr with ⟨ks, ss', rfl, rfl, hrest⟩ | hmore
    · exact ⟨[], [], ks, ss', rfl, .empty, rfl, hrest⟩
    · obtain ⟨ks₁, as, ks₂, ss', rfl, list, rfl, hrest⟩ := reads_arguments_iff.mp hmore
      exact ⟨ks₁, as, ks₂, ss', rfl, .arguments list, rfl, hrest⟩
  · rintro ⟨ks₁, as, ks₂, ss', rfl, list, rfl, hr⟩
    refine ⟨_, rfl, reads_firstArgument_iff.mpr ?_⟩
    cases list with
    | empty => exact Or.inl ⟨ks₂, ss', rfl, rfl, hr⟩
    | arguments list => exact Or.inr (reads_arguments_iff.mpr ⟨ks₁, as, ks₂, ss', rfl, list, rfl, hr⟩)

/-- A call from its tool on. -/
theorem reads_tool_iff {isAsync : Bool} : (∃ tool ks', ks = .identifier tool :: ks' ∧ Reads (.openParen ⟨target, isAsync, tool⟩) ks' ss) ↔
    ∃ ks₁ tool args ks₂ ss', ks = ks₁ ++ ks₂ ∧ IsCall ks₁ ⟨tool, args, false⟩ ∧
      ss = ⟨target, tool, args, isAsync⟩ :: ss' ∧ Reads .statement ks₂ ss' := by
  constructor
  · rintro ⟨tool, ks, rfl, hr⟩
    obtain ⟨ks₁, as, ks₂, ss', rfl, list, rfl, hrest⟩ := reads_openParen_iff.mp hr
    exact ⟨_, tool, .ofList as, ks₂, ss', by simp, .plain list fun _ _ => Dict.get?_ofList_iff, rfl, hrest⟩
  · rintro ⟨ks₁, tool, args, ks₂, ss', rfl, call, rfl, hr⟩
    cases call with
    | @plain _ ks as _ list values =>
      obtain rfl := Dict.eq_ofList_iff.mpr values
      exact ⟨tool, _, rfl, reads_openParen_iff.mpr ⟨ks, as, ks₂, ss', by simp, list, rfl, hr⟩⟩

theorem reads_async_iff : Reads (.tool target) ks ss ↔
    ∃ tool ks', ks = .identifier tool :: ks' ∧ Reads (.openParen ⟨target, true, tool⟩) ks' ss := by
  cases ks with
  | nil => simp [reads_nil_iff]
  | cons k ks => cases k <;> simp [reads_cons_iff]

/-- A call from its beginning on. -/
theorem reads_call_iff : Reads (.call target) ks ss ↔
    ∃ ks₁ c ks₂ ss', ks = ks₁ ++ ks₂ ∧ IsCall ks₁ c ∧ ss = ⟨target, c⟩ :: ss' ∧ Reads .statement ks₂ ss' := by
  have hcall : Reads (.call target) ks ss ↔
      (∃ tool ks', ks = .identifier tool :: ks' ∧ Reads (.openParen ⟨target, false, tool⟩) ks' ss) ∨
        ∃ ks', ks = .async :: ks' ∧ Reads (.tool target) ks' ss := by
    cases ks with
    | nil => simp [reads_nil_iff]
    | cons k ks => cases k <;> simp [reads_cons_iff]
  rw [hcall, reads_tool_iff]
  constructor
  · rintro (⟨ks₁, tool, args, ks₂, ss', rfl, call, rfl, hr⟩ | ⟨ks, rfl, hr⟩)
    · exact ⟨ks₁, _, ks₂, ss', rfl, call, rfl, hr⟩
    · obtain ⟨ks₁, tool, args, ks₂, ss', rfl, call, rfl, hrest⟩ := reads_tool_iff.mp (reads_async_iff.mp hr)
      exact ⟨.async :: ks₁, _, ks₂, ss', rfl, .async call, rfl, hrest⟩
  · rintro ⟨ks₁, c, ks₂, ss', rfl, call, rfl, hr⟩
    cases call with
    | plain list values => exact Or.inl ⟨_, _, _, ks₂, ss', rfl, .plain list values, rfl, hr⟩
    | async call =>
      exact Or.inr ⟨_, rfl, reads_async_iff.mpr (reads_tool_iff.mpr ⟨_, _, _, ks₂, ss', rfl, call, rfl, hr⟩)⟩

theorem reads_first_iff : Reads .statement ks ss ↔
    (ks = [] ∧ ss = []) ∨ ∃ ks₁ s ks₂ ss', ks = ks₁ ++ ks₂ ∧ IsStatement ks₁ s ∧ ss = s :: ss' ∧ Reads .statement ks₂ ss' := by
  have hfirst : Reads .statement ks ss ↔ (ks = [] ∧ ss = []) ∨ Reads (.call none) ks ss ∨
      ∃ target ks', ks = .reference target :: ks' ∧ Reads (.assignment target) ks' ss := by
    cases ks with
    | nil => simp [reads_nil_iff]
    | cons k ks => cases k <;> simp [reads_cons_iff]
  have hassignment : ∀ target ks, Reads (.assignment target) ks ss ↔
      ∃ ks', ks = .equals :: ks' ∧ Reads (.call (some target)) ks' ss := by
    intro target ks
    cases ks with
    | nil => simp [reads_nil_iff]
    | cons k ks => cases k <;> simp [reads_cons_iff]
  simp only [hfirst, hassignment, reads_call_iff]
  constructor
  · rintro (hend | ⟨ks₁, c, ks₂, ss', rfl, call, rfl, hr⟩ | ⟨target, _, rfl, _, rfl, ks₁, c, ks₂, ss', rfl, call, rfl, hr⟩)
    · exact Or.inl hend
    · exact Or.inr ⟨ks₁, _, ks₂, ss', rfl, .call call, rfl, hr⟩
    · exact Or.inr ⟨.reference target :: .equals :: ks₁, _, ks₂, ss', rfl, .assignment call, rfl, hr⟩
  · rintro (hend | ⟨ks₁, s, ks₂, ss', rfl, statement, rfl, hr⟩)
    · exact Or.inl hend
    · cases statement with
      | call call => exact Or.inr (Or.inl ⟨ks₁, _, ks₂, ss', rfl, call, rfl, hr⟩)
      | assignment call => exact Or.inr (Or.inr ⟨_, _, rfl, _, rfl, _, _, ks₂, ss', rfl, call, rfl, hr⟩)

end

/-! ### Whole scripts -/

theorem IsCall.length_pos {ks : List TokenKind} {c : Call} (h : IsCall ks c) : 0 < ks.length := by
  cases h <;> simp

theorem IsStatement.length_pos {ks : List TokenKind} {s : Statement} (h : IsStatement ks s) : 0 < ks.length := by
  cases h with
  | call h => exact h.length_pos
  | assignment h => simp

theorem reads_statement_iff {ks : List TokenKind} {ss : List Statement} : Reads .statement ks ss ↔ Derives ks ss := by
  constructor
  · intro hr
    induction hn : ks.length using Nat.strongRecOn generalizing ks ss with
    | ind n ih =>
      rcases reads_first_iff.mp hr with ⟨rfl, rfl⟩ | ⟨ks₁, s, ks₂, ss', rfl, statement, rfl, hrest⟩
      · exact .nil
      · have hlt : ks₂.length < n := by
          have := statement.length_pos
          rw [List.length_append] at hn
          omega
        exact .cons statement (ih _ hlt hrest rfl)
  · intro hd
    induction hd with
    | nil => exact .nil
    | @cons ks₁ ks₂ s ss statement rest ih => exact reads_first_iff.mpr (Or.inr ⟨ks₁, s, ks₂, ss, rfl, statement, rfl, ih⟩)

theorem parse_eq_ok_iff {tokens : List Token} {script : List Statement} :
    parse tokens = .ok script ↔ Derives (kinds tokens) script := by
  rw [parse_eq_ok_iff_reads, reads_statement_iff]

/-! ### What a derived script is like -/

theorem IsValue.ne_list {k : TokenKind} {e : Expr} (h : IsValue k e) (items : List Expr) : e ≠ .list items := by
  cases h <;> simp

theorem AreArguments.isValue {ks : List TokenKind} {as : List (String × Expr)} (h : AreArguments ks as) :
    ∀ a ∈ as, ∃ k, IsValue k a.2 := by
  induction h with
  | one first =>
    obtain ⟨value⟩ := first
    simpa using ⟨_, value⟩
  | more first rest ih =>
    obtain ⟨value⟩ := first
    exact List.forall_mem_cons.mpr ⟨⟨_, value⟩, ih⟩

theorem IsCall.isValue {ks : List TokenKind} {c : Call} (h : IsCall ks c) {name : String} {e : Expr}
    (he : c.args.get? name = some e) : ∃ k, IsValue k e := by
  induction h with
  | plain list values =>
    cases list with
    | empty => cases ((values name e).mp he).mem
    | arguments list => exact list.isValue _ ((values name e).mp he).mem
  | async h ih => exact ih he

theorem Derives.isCall {ks : List TokenKind} {script : List Statement} (h : Derives ks script) :
    ∀ s ∈ script, ∃ ks', IsCall ks' s.call := by
  induction h with
  | nil => simp
  | cons first rest ih =>
    refine List.forall_mem_cons.mpr ⟨?_, ih⟩
    cases first with
    | call h => exact ⟨_, h⟩
    | assignment h => exact ⟨_, h⟩

theorem IsCall.tool_mem {ks : List TokenKind} {c : Call} (h : IsCall ks c) : .identifier c.tool ∈ ks := by
  induction h with
  | plain list values => exact List.mem_cons_self
  | async h ih => exact List.mem_cons_of_mem _ ih

/-- The tools of a script stand among its tokens. -/
theorem Derives.tool_mem {ks : List TokenKind} {script : List Statement} (h : Derives ks script) :
    ∀ s ∈ script, .identifier s.call.tool ∈ ks := by
  induction h with
  | nil => simp
  | cons first rest ih =>
    refine List.forall_mem_cons.mpr ⟨List.mem_append_left _ ?_, fun s hs => List.mem_append_right _ (ih s hs)⟩
    cases first with
    | call h => exact h.tool_mem
    | assignment h => exact List.mem_cons_of_mem _ (List.mem_cons_of_mem _ h.tool_mem)

theorem Call.callback?_eq_some_iff {c : Call} {text : String} :
    c.callback? = some text ↔ ∃ l, c.args.get? "callback" = some (.literal l) ∧ text = l.text := by
  rw [Call.callback?]
  split
  · rename_i l hl
    simp [hl, eq_comm]
  · rename_i hno
    refine ⟨fun h => (by cases h), ?_⟩
    rintro ⟨l, hl, -⟩
    exact absurd hl (hno l)

/-- The parser accepts the rows of tokens that derive a script, and gives the one script that they derive. A call in
    it has a callback if its argument of that name is a literal, and none of its arguments is a list. -/
theorem parse_accepts_grammar (tokens : List Token) :
    (∀ script, parse tokens = .ok script ↔ Derives (kinds tokens) script) ∧
      (∀ script script', Derives (kinds tokens) script → Derives (kinds tokens) script' → script = script') ∧
      ∀ script, Derives (kinds tokens) script → ∀ s ∈ script,
        (∀ text, s.call.callback? = some text ↔
          ∃ l, s.call.args.get? "callback" = some (.literal l) ∧ text = l.text) ∧
        ∀ name items, s.call.args.get? name ≠ some (.list items) := by
  refine ⟨fun _ => parse_eq_ok_iff, fun script script' h h' => ?_, fun script h s hs => ⟨fun _ => Call.callback?_eq_some_iff, ?_⟩⟩
  · exact Except.ok.inj ((parse_eq_ok_iff.mpr h).symm.trans (parse_eq_ok_iff.mpr h'))
  · intro name items hlist
    obtain ⟨ks, call⟩ := h.isCall s hs
    obtain ⟨k, value⟩ := call.isValue hlist
    exact value.ne_list items rfl

end ToolScript.Script
