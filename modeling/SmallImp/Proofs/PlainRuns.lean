import SmallImp.Proofs.Encodings
import SmallImp.Proofs.Lookup
import SmallImp.Proofs.OperatorRules
import SmallImp.Proofs.PlainPrograms
import SmallImp.Proofs.Rules

/-!
# Runs of programs without surrogates

No operator makes a text, so every text that a run handles is a literal of the program. If no literal
and no name has a surrogate, then all that is printed and traced can be encoded.

* `Value.Plain`, `Scope.Plain`, `Log.Plain` — values, variables and output without surrogates;
* `eval_plain`, `exec_plain`, `callWithin_plain` — expressions, statements and calls;
* `Interpreter.freeLog_plain` — the output of a plain program is plain.
-/

namespace SmallImp

/-! ### Values and variables -/

/-- A value that is no text with a surrogate. -/
def Value.Plain : Value → Prop
  | .str s => Codes.isPlain s = true
  | _ => True

/-- A completion whose returned value, if there is one, has no surrogate. -/
def Completion.Plain : Completion → Prop
  | .returned v => v.Plain
  | .normal => True

/-- The names and values of all variables are without surrogates. -/
def Scope.Plain (σ : Scope) : Prop := ∀ b ∈ σ.entries, b.name.IsPlainText ∧ b.value.Plain

/-- The registered functions are without surrogates. -/
def FunctionTable.Plain (table : FunctionTable) : Prop := ∀ r ∈ table.entries, r.func.Plain

/-- Output that can be encoded. -/
abbrev Log.Plain (log : Log) : Prop := log.Fits .utf8

theorem Literal.Plain.value {value : Literal} (h : value.Plain) : value.value.Plain := by
  cases value with
  | str s => exact h
  | _ => trivial

/-- What is printed of a value that has no surrogate has none. -/
theorem Value.Plain.display {v : Value} (h : v.Plain) : Codes.isPlain v.display = true := by
  cases v with
  | null => rfl
  | bool b => cases b <;> rfl
  | int n => exact Codes.isPlain_ofString _
  | float x => exact Codes.isPlain_ofString _
  | str s => exact h

/-- Operators give numbers and truth values. -/
theorem BinaryOp.apply_plain {op : BinaryOp} {a b v : Value} (h : op.apply a b = .ok v) : v.Plain := by
  cases BinaryRule.of_ok h <;> trivial

theorem UnaryOp.apply_plain {op : UnaryOp} {a v : Value} (h : op.apply a = .ok v) : v.Plain := by
  cases UnaryRule.of_ok h <;> trivial

namespace Scope

variable {σ σ' : Scope} {name : Name} {tag : TypeTag} {v : Value}

theorem Plain.empty : Plain .empty := nofun

theorem Plain.read (hσ : σ.Plain) (h : σ.read name = .ok v) : v.Plain := by
  cases hk : Json.key? name with
  | none =>
    rw [read_unusable hk] at h
    cases h
  | some key =>
    rw [read_eq hk] at h
    split at h
    next b hb =>
      cases h
      exact (hσ b (Table.mem_entries_of_find? hb)).2
    next => cases h

theorem Plain.declare (hσ : σ.Plain) (hname : name.IsPlainText) (hv : v.Plain)
    (h : σ.declare tag name v = .ok σ') : σ'.Plain := by
  cases hk : Json.key? name with
  | none =>
    rw [declare_unusable hk] at h
    cases h
  | some key =>
    rw [declare_eq hk] at h
    cases h
    intro b hb
    rcases Table.mem_entries_upsert hb with hb | rfl
    · exact hσ b hb
    · cases hfound : σ.find? key with
      | some b => exact ⟨(hσ b (Table.mem_entries_of_find? hfound)).1, hv⟩
      | none => exact ⟨hname, hv⟩

theorem Plain.assign (hσ : σ.Plain) (hv : v.Plain) (h : σ.assign name v = .ok σ') : σ'.Plain := by
  cases hk : Json.key? name with
  | none =>
    rw [assign_unusable hk] at h
    cases h
  | some key =>
    rw [assign_eq hk] at h
    split at h
    next b hfound =>
      cases h
      intro b' hb'
      rcases Table.mem_entries_upsert hb' with hb' | rfl
      · exact hσ b' hb'
      · exact ⟨(hσ b (Table.mem_entries_of_find? hfound)).1, hv⟩
    next => cases h

end Scope

/-! ### Evaluations -/

variable {α β : Type}

/-- Plain output stays plain, and `Q` holds of the result if there is one. -/
def EvalPlain (x : Eval α) (Q : α → Prop) : Prop :=
  ∀ log : Log, log.Plain → Ensures x log (fun a log' => log'.Plain ∧ Q a) (fun _ log' => log'.Plain)

namespace EvalPlain

variable {Q : α → Prop} {R : β → Prop}

theorem pure {a : α} (h : Q a) : EvalPlain (Pure.pure a) Q := fun _ hlog => ⟨hlog, h⟩

theorem throw (e : Failure) : EvalPlain (MonadExcept.throw e : Eval α) Q := fun _ hlog => hlog

theorem ofExcept {r : Except Failure α} (h : ∀ a, r = .ok a → Q a) : EvalPlain (Eval.ofExcept r) Q :=
  fun _ hlog => .ofExcept (fun a ha => ⟨hlog, h a ha⟩) fun _ _ => hlog

theorem bind {x : Eval α} {f : α → Eval β} (hx : EvalPlain x Q)
    (hf : ∀ a, Q a → EvalPlain (f a) R) : EvalPlain (x >>= f) R :=
  fun log hlog => (hx log hlog).bind (fun _ _ he => he) fun a log' ha => hf a ha.2 log' ha.1

theorem write {text : Codes} (h : Codes.isPlain text = true) :
    EvalPlain (Eval.write .any text) fun _ => True :=
  fun _ hlog => ⟨Log.fits_write.mpr ⟨hlog, h⟩, trivial⟩

theorem note {verbosity level : Nat} {line : Codes} (h : Codes.isPlain line = true) :
    EvalPlain (Eval.note .any verbosity level line) fun _ => True := by
  unfold Eval.note
  split
  · exact fun _ hlog => ⟨Log.fits_note.mpr ⟨hlog, h⟩, trivial⟩
  · exact .pure trivial

end EvalPlain

/-- Calls of plain functions on plain values. -/
def CallPlain (call : Caller) : Prop :=
  ∀ f args, f.Plain → (∀ v ∈ args, v.Plain) → EvalPlain (call f args) Value.Plain

theorem isPlain_callLine {name : Name} {args : List Value} (hname : name.IsPlainText)
    (hargs : ∀ v ∈ args, v.Plain) : Codes.isPlain (callLine name args) = true := by
  have hvalues : ∀ t ∈ args.map Value.display, Codes.isPlain t = true := by
    intro t ht
    obtain ⟨v, hv, rfl⟩ := List.mem_map.mp ht
    exact (hargs v hv).display
  have hlist := Codes.isPlain_intercalate (Codes.isPlain_ofString ", ") hvalues
  simp [callLine, hname.isPlain, hlist]

/-- What a call refers to is plain. -/
def Callee.Plain : Callee → Prop
  | .builtin _ => True
  | .func f => f.Plain

section Expressions

variable {s : Setting} {call : Caller} {σ : Scope}

theorem callee_plain (hs : s.functions.Plain) {name : Name} {count : Nat} {callee : Callee}
    (h : s.callee name count = .ok callee) : callee.Plain := by
  cases callee with
  | builtin b => trivial
  | func f =>
    obtain ⟨key, first, -, -, hf, -⟩ := callee_eq_func h
    exact hs _ (Table.mem_entries_of_find? hf)

mutual

theorem eval_plain (hs : s.functions.Plain) (hcall : CallPlain call) (hσ : σ.Plain) :
    ∀ e : Expr, e.Plain → EvalPlain (eval s call σ e) Value.Plain
  | .lit value, h => .pure (Literal.Plain.value h)
  | .var name, _ => .ofExcept fun v hv => hσ.read hv
  | .binary left op right, h => by
    refine (eval_plain hs hcall hσ left h.1).bind fun a _ => ?_
    refine (eval_plain hs hcall hσ right h.2).bind fun b _ => ?_
    exact .ofExcept fun v hv => BinaryOp.apply_plain hv
  | .unary op operand, h => by
    refine (eval_plain hs hcall hσ operand h).bind fun a _ => ?_
    exact .ofExcept fun v hv => UnaryOp.apply_plain hv
  | .call name args, h => by
    have hcallee : EvalPlain (Eval.ofExcept (s.callee name args.length)) Callee.Plain :=
      .ofExcept fun callee hc => callee_plain hs hc
    refine hcallee.bind fun callee hc => ?_
    cases callee with
    | builtin b =>
      cases hb : b.action with
      | print => simpa only [hb] using printAll_plain hs hcall hσ args h.2
      | last => simpa only [hb] using evalLast_plain hs hcall hσ .null args trivial h.2
    | func f =>
      refine (evalAll_plain hs hcall hσ args h.2).bind fun values hvalues => ?_
      have hf : f.Plain := hc
      exact (EvalPlain.note (isPlain_callLine hf.name hvalues)).bind fun _ _ => hcall f values hf hvalues
  | .misfit _, h => h.elim

theorem evalAll_plain (hs : s.functions.Plain) (hcall : CallPlain call) (hσ : σ.Plain) :
    ∀ args : List Expr, Expr.AllPlain args →
      EvalPlain (evalAll s call σ args) fun vs => ∀ v ∈ vs, v.Plain
  | [], _ => .pure nofun
  | e :: rest, h => by
    refine (eval_plain hs hcall hσ e h.1).bind fun v hv => ?_
    refine (evalAll_plain hs hcall hσ rest h.2).bind fun vs hvs => ?_
    exact .pure (List.forall_mem_cons.mpr ⟨hv, hvs⟩)

theorem printAll_plain (hs : s.functions.Plain) (hcall : CallPlain call) (hσ : σ.Plain) :
    ∀ args : List Expr, Expr.AllPlain args → EvalPlain (printAll s call σ args) Value.Plain
  | [], _ => (EvalPlain.write rfl).bind fun _ _ => .pure trivial
  | [e], h => by
    refine (eval_plain hs hcall hσ e h.1).bind fun v hv => ?_
    refine (EvalPlain.write hv.display).bind fun _ _ => ?_
    exact (EvalPlain.write rfl).bind fun _ _ => .pure trivial
  | e :: next :: rest, h => by
    refine (eval_plain hs hcall hσ e h.1).bind fun v hv => ?_
    refine (EvalPlain.write hv.display).bind fun _ _ => ?_
    exact (EvalPlain.write rfl).bind fun _ _ => printAll_plain hs hcall hσ (next :: rest) h.2

theorem evalLast_plain (hs : s.functions.Plain) (hcall : CallPlain call) (hσ : σ.Plain) :
    ∀ (last : Value) (args : List Expr), last.Plain → Expr.AllPlain args →
      EvalPlain (evalLast s call σ last args) Value.Plain
  | _, [], hlast, _ => .pure hlast
  | _, e :: rest, _, h =>
    (eval_plain hs hcall hσ e h.1).bind fun v hv => evalLast_plain hs hcall hσ v rest hv h.2

end

end Expressions

/-! ### Executions -/

/-- The variables and the output are without surrogates. -/
structure Store.Plain (st : Store) : Prop where
  scope : st.scope.Plain
  log : st.log.Plain

/-- A plain store stays plain, and `Q` holds of the result if there is one. -/
def ExecPlain (x : Exec α) (Q : α → Prop) : Prop :=
  ∀ st : Store, st.Plain → Ensures x st (fun a st' => st'.Plain ∧ Q a) (fun _ st' => st'.Plain)

namespace ExecPlain

variable {Q : α → Prop} {R : β → Prop}

theorem pure {a : α} (h : Q a) : ExecPlain (Pure.pure a) Q := fun _ hst => ⟨hst, h⟩

theorem throw (e : Failure) : ExecPlain (MonadExcept.throw e : Exec α) Q := fun _ hst => hst

theorem bind {x : Exec α} {f : α → Exec β} (hx : ExecPlain x Q)
    (hf : ∀ a, Q a → ExecPlain (f a) R) : ExecPlain (x >>= f) R :=
  fun st hst => (hx st hst).bind (fun _ _ he => he) fun a st' ha => hf a ha.2 st' ha.1

theorem ofEval {f : Scope → Eval α} (h : ∀ σ, σ.Plain → EvalPlain (f σ) Q) :
    ExecPlain (Exec.ofEval f) Q :=
  fun st hst => .ofEval (h st.scope hst.scope st.log hst.log)
    (fun _ _ ha => ⟨⟨hst.scope, ha.1⟩, ha.2⟩) fun _ _ he => ⟨hst.scope, he⟩

theorem update {f : Scope → Except Failure Scope} (h : ∀ σ σ', σ.Plain → f σ = .ok σ' → σ'.Plain) :
    ExecPlain (Exec.update f) fun _ => True := by
  intro st hst
  rw [Ensures, Exec.update]
  cases hf : f st.scope with
  | ok σ' => exact ⟨⟨h st.scope σ' hst.scope hf, hst.log⟩, trivial⟩
  | error e => exact hst

theorem note {verbosity level : Nat} {line : Codes} (h : Codes.isPlain line = true) :
    ExecPlain (Exec.note .any verbosity level line) fun _ => True := by
  unfold Exec.note
  split
  · exact fun _ hst => ⟨⟨hst.scope, Log.fits_note.mpr ⟨hst.log, h⟩⟩, trivial⟩
  · exact .pure trivial

end ExecPlain

section Statements

variable {s : Setting} {call : Caller}

theorem condition_plain (hs : s.functions.Plain) (hcall : CallPlain call) {test : Expr}
    (htest : test.Plain) (statement : String) :
    ExecPlain (condition s call statement test) fun _ => True := by
  refine (ExecPlain.ofEval fun σ hσ => eval_plain hs hcall hσ test htest).bind fun v _ => ?_
  have htruth : ExecPlain (Exec.ofEval fun _ => Eval.ofExcept (v.condition statement))
      fun _ => True := .ofEval fun _ _ => .ofExcept fun _ _ => trivial
  refine htruth.bind fun holds _ => ?_
  have hholds : Codes.isPlain (Value.bool holds).display = true := Value.Plain.display trivial
  exact (ExecPlain.note (by simp [hholds])).bind fun _ _ => .pure trivial

theorem startValue_plain (hs : s.functions.Plain) (hcall : CallPlain call) {σ : Scope} (hσ : σ.Plain)
    {start : Option Expr} (hstart : ∀ e ∈ start, e.Plain) :
    EvalPlain (startValue s call σ start) Value.Plain := by
  cases start with
  | some e => exact eval_plain hs hcall hσ e (hstart e rfl)
  | none => exact .pure trivial

/-- What a turn of a loop completes the loop with, if anything, is plain. -/
theorem loopTurn_plain {x : Exec Bool} {y : Exec Completion} (hx : ExecPlain x fun _ => True)
    (hy : ExecPlain y Completion.Plain) :
    ExecPlain (loopTurn x y) fun next => ∀ c, next = some c → c.Plain := by
  refine hx.bind fun holds _ => ?_
  cases holds with
  | false =>
    refine .pure ?_
    rintro c ⟨rfl⟩
    trivial
  | true =>
    refine hy.bind fun c hc => ?_
    cases c with
    | normal => exact .pure nofun
    | returned v =>
      refine .pure ?_
      rintro c ⟨rfl⟩
      exact hc

/-- The turns of a loop, by induction on how many it may take. -/
theorem repeatTurns_plain {turn : Exec (Option Completion)}
    (hturn : ExecPlain turn fun next => ∀ c, next = some c → c.Plain) :
    ∀ turns, ExecPlain (repeatTurns turn turns) Completion.Plain := by
  intro turns
  induction turns with
  | zero => exact .throw _
  | succ turns ih =>
    refine hturn.bind fun next hnext => ?_
    cases next with
    | some c => exact .pure (hnext c rfl)
    | none => exact ih

mutual

theorem exec_plain (hs : s.functions.Plain) (hcall : CallPlain call) :
    ∀ stmt : Stmt, stmt.Plain → ExecPlain (exec s call stmt) Completion.Plain
  | .declare tag name start, h => by
    have hstart : ExecPlain (Exec.ofEval fun σ => startValue s call σ start) Value.Plain :=
      .ofEval fun σ hσ => startValue_plain hs hcall hσ h.2.2
    refine hstart.bind fun v hv => ?_
    refine (ExecPlain.update fun σ σ' hσ hd => hσ.declare h.2.1 hv hd).bind fun _ _ => ?_
    refine (ExecPlain.note ?_).bind fun _ _ => .pure trivial
    simp [h.1.isPlain, h.2.1.isPlain, hv.display]
  | .assign name e, h => by
    have hvalue : ExecPlain (Exec.ofEval fun σ => eval s call σ e) Value.Plain :=
      .ofEval fun σ hσ => eval_plain hs hcall hσ e h.2
    refine hvalue.bind fun v hv => ?_
    refine (ExecPlain.update fun σ σ' hσ ha => hσ.assign hv ha).bind fun _ _ => ?_
    refine (ExecPlain.note ?_).bind fun _ _ => .pure trivial
    simp [h.1.isPlain, hv.display]
  | .branch test yes no, h => by
    refine (condition_plain hs hcall h.1 "if").bind fun holds _ => ?_
    cases holds with
    | true => exact execBlock_plain hs hcall yes h.2.1
    | false => exact execElse_plain hs hcall no h.2.2
  | .loop test body, h =>
    repeatTurns_plain (loopTurn_plain (condition_plain hs hcall h.1 "while")
      (execBlock_plain hs hcall body h.2)) s.turns
  | .ret e, h => by
    have hvalue : ExecPlain (Exec.ofEval fun σ => eval s call σ e) Value.Plain :=
      .ofEval fun σ hσ => eval_plain hs hcall hσ e h
    refine hvalue.bind fun v hv => (ExecPlain.note ?_).bind fun _ _ => .pure hv
    simp [hv.display]
  | .expr e, h => by
    have hvalue : ExecPlain (Exec.ofEval fun σ => eval s call σ e) Value.Plain :=
      .ofEval fun σ hσ => eval_plain hs hcall hσ e h
    exact hvalue.bind fun v _ => .pure trivial
  | .block body, h => execAll_plain hs hcall body h
  | .misfit _, h => h.elim

theorem execBlock_plain (hs : s.functions.Plain) (hcall : CallPlain call) :
    ∀ block : Block, block.Plain → ExecPlain (execBlock s call block) Completion.Plain
  | .stmts body, h => execAll_plain hs hcall body h
  | .main body, h => execAll_plain hs hcall body h
  | .absent, _ => .throw _
  | .misfit _, h => h.elim

theorem execElse_plain (hs : s.functions.Plain) (hcall : CallPlain call) :
    ∀ block : Block, block.Plain → ExecPlain (execElse s call block) Completion.Plain
  | .stmts body, h => execAll_plain hs hcall body h
  | .main body, h => execAll_plain hs hcall body h
  | .absent, _ => .pure trivial
  | .misfit _, h => h.elim

theorem execAll_plain (hs : s.functions.Plain) (hcall : CallPlain call) :
    ∀ body : List Stmt, Stmt.AllPlain body → ExecPlain (execAll s call body) Completion.Plain
  | [], _ => .pure trivial
  | stmt :: rest, h => by
    refine (exec_plain hs hcall stmt h.1).bind fun c hc => ?_
    cases c with
    | normal => exact execAll_plain hs hcall rest h.2
    | returned v => exact .pure hc

end

end Statements

/-! ### Calls -/

theorem Binds.plain {σ σ' : Scope} {params : List Param} {args : List Value}
    (h : Binds σ params args σ') (hσ : σ.Plain) (hparams : ∀ p ∈ params, p.Plain)
    (hargs : ∀ v ∈ args, v.Plain) : σ'.Plain := by
  induction h with
  | done h => exact hσ
  | @param _ _ _ p _ _ _ _ _ hp hd h ih =>
    obtain ⟨hv, hargs⟩ := List.forall_mem_cons.mp hargs
    obtain ⟨hparam, hrest⟩ := List.forall_mem_cons.mp hparams
    cases p with
    | misfit node => exact hparam.elim
    | param tag name =>
      cases hp
      exact ih (hσ.declare hparam.2 hv hd) hrest hargs

section Calls

variable {s : Setting} {call : Caller}

theorem callWith_plain (hs : s.functions.Plain) (hcall : CallPlain call) :
    CallPlain (callWith s call) := by
  intro f args hf hargs
  have hframe : EvalPlain (Eval.ofExcept (bindParams .empty f.params args)) Scope.Plain :=
    .ofExcept fun σ hσ => (bindParams_iff.mp hσ).plain .empty hf.params hargs
  refine hframe.bind fun σ hσ log hlog => ?_
  have hbody := execBlock_plain hs hcall f.body hf.body ⟨σ, log⟩ ⟨hσ, hlog⟩
  rw [Ensures, runBody]
  cases hx : execBlock s call f.body ⟨σ, log⟩ with
  | ok c st =>
    obtain ⟨hst, hc⟩ := hbody.ok hx
    cases c with
    | returned v => exact ⟨hst.log, hc⟩
    | normal => exact hst.log
  | error e st => exact (hbody.error hx).log

/-- Calls of any depth, by induction on the depth. -/
theorem callWithin_plain (hs : s.functions.Plain) : ∀ depth, CallPlain (callWithin s depth) := by
  intro depth
  induction depth with
  | zero => exact fun _ _ _ _ => .throw _
  | succ depth ih => exact callWith_plain hs ih

end Calls

/-! ### Runs -/

/-- The functions, the variables and the output of a world are without surrogates. -/
structure World.Plain (w : World) : Prop where
  functions : w.functions.Plain
  scope : w.scope.Plain
  log : w.log.Plain

/-- A plain world stays plain. -/
def RunPlain (x : Run α) : Prop :=
  ∀ w : World, w.Plain → Ensures x w (fun _ w' => w'.Plain) (fun _ w' => w'.Plain)

theorem RunPlain.bind {x : Run α} {f : α → Run β} (hx : RunPlain x) (hf : ∀ a, RunPlain (f a)) :
    RunPlain (x >>= f) :=
  fun w hw => (hx w hw).bind (fun _ _ he => he) fun a w' hw' => hf a w' hw'

namespace Interpreter

variable {i : Interpreter}

theorem note_plain {line : Codes} (h : Codes.isPlain line = true) : RunPlain (i.note line) := by
  unfold note
  split
  · exact fun w hw => ⟨hw.functions, hw.scope, Log.fits_note.mpr ⟨hw.log, h⟩⟩
  · exact fun w hw => hw

theorem register_plain {func : Func} (h : func.Plain) : RunPlain (i.register func) := by
  cases func with
  | misfit node => exact h.elim
  | decl f =>
    have hf : f.Plain := h
    have hname : (Func.decl f).name? = some f.name := rfl
    rw [register, hname]
    dsimp only
    cases hkey : f.name.key with
    | error e => exact fun w hw => hw
    | ok key =>
      dsimp only
      refine RunPlain.bind (fun w hw => hw) fun w => (note_plain ?_).bind fun _ => ?_
      · cases (w.functions.find? key).isSome <;> simp [hf.name.isPlain]
      · intro w hw
        refine ⟨fun r hr => ?_, hw.scope, hw.log⟩
        rcases Table.mem_entries_upsert hr with hr | rfl
        · exact hw.functions r hr
        · cases w.functions.find? key with
          | some r => exact h
          | none => exact h

theorem registerAll_plain {functions : List Func} (h : ∀ func ∈ functions, func.Plain) :
    RunPlain (i.registerAll functions) := by
  induction functions with
  | nil => exact fun w hw => hw
  | cons func rest ih =>
    obtain ⟨hfunc, hrest⟩ := List.forall_mem_cons.mp h
    exact (register_plain hfunc).bind fun _ => ih hrest

theorem isPlain_reportText {σ : Scope} (h : σ.Plain) : Codes.isPlain (reportText σ) = true := by
  have hrows : Codes.isPlain (σ.values.flatMap fun row => reportLine row.1 row.2) = true := by
    rw [Codes.isPlain, List.all_eq_true]
    intro code hcode
    obtain ⟨row, hrow, hcode⟩ := List.mem_flatMap.mp hcode
    obtain ⟨b, hb, rfl⟩ := List.mem_map.mp hrow
    have hline : Codes.isPlain (reportLine b.name b.value) = true := by
      simp [reportLine, (h b hb).1.isPlain, (h b hb).2.display]
    exact List.all_eq_true.mp hline code hcode
  rw [reportText, Codes.isPlain_append, hrows]
  rfl

theorem execBlock_plain (block : Block) (h : block.Plain) : RunPlain (i.execBlock block) := by
  intro w hw
  have hblock := SmallImp.execBlock_plain (s := i.setting w.functions) hw.functions
    (callWithin_plain (s := i.setting w.functions) hw.functions i.budget.calls) block h
    ⟨w.scope, w.log⟩ ⟨hw.scope, hw.log⟩
  rw [Ensures, execBlock, inScope]
  cases hx : SmallImp.execBlock (i.setting w.functions) (i.caller w.functions) block
      ⟨w.scope, w.log⟩ with
  | ok c st =>
    obtain ⟨hst, -⟩ := hblock.ok hx
    exact ⟨hw.functions, hst.scope, hst.log⟩
  | error e st =>
    have hst := hblock.error hx
    exact ⟨hw.functions, hst.scope, hst.log⟩

theorem runMain_plain {block : Block} (h : block.Plain) : RunPlain (i.runMain block) := by
  have hreport : RunPlain (if i.report then reportState .free else pure ()) := by
    intro w hw
    split
    · rw [Ensures, reportState_free]
      exact ⟨hw.functions, hw.scope, Log.fits_write.mpr ⟨hw.log, isPlain_reportText hw.scope⟩⟩
    · exact hw
  cases block with
  | absent => exact fun w hw => hw
  | main body => exact (execBlock_plain (.main body) h).bind fun _ => hreport
  | stmts body => exact (execBlock_plain (.stmts body) h).bind fun _ => hreport
  | misfit node => exact h.elim

/-- **All that a program without surrogates writes can be encoded.** -/
theorem freeLog_plain {streams : Streams} (j : Interpreter streams) {p : Program} (h : p.Plain) :
    (j.freeLog p).Plain := by
  have hparts : RunPlain ((j.on .free).runParts p) :=
    (registerAll_plain h.functions).bind fun _ => runMain_plain h.main
  have hend := hparts .empty ⟨nofun, .empty, Log.fits_empty⟩
  rw [freeLog, finalState_run]
  cases hx : (j.on .free).runParts p .empty with
  | ok u w => exact (hend.ok hx).log
  | error e w => exact (hend.error hx).log

end Interpreter

end SmallImp
