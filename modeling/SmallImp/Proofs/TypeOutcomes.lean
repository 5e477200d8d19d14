import SmallImp.Proofs.Isolation
import SmallImp.Proofs.Rules
import SmallImp.Proofs.Sorts

/-!
# Types decide outcomes

Whether an expression without calls has a value or fails, and which type the value or which kind the
error has, can be told from the types of the variables alone. Only a zero divisor depends on more
than types. So two scopes in which the same names have values of the same types cannot be told apart
by the type of what an expression comes to.

* `ValueType`, `TypeFault` — the types of values, and the errors that types decide;
* `BinaryOp.typing`, `UnaryOp.typing`, `Expr.typing` — the type of a result or the error, from types;
* `Foreseen`, `Decided` — results and evaluations that come out as their types say;
* `BinaryRule.foreseen`, `UnaryRule.foreseen` — the operators;
* `eval_decided` — expressions;
* `types_decide_outcomes` — two scopes with values of the same types.
-/

namespace SmallImp

/-! ### Types -/

/-- The types of values. -/
inductive ValueType where
  | null | bool | int | float | str
deriving DecidableEq

/-- The type of a value. -/
def Value.type : Value → ValueType
  | .null => .null
  | .bool _ => .bool
  | .int _ => .int
  | .float _ => .float
  | .str _ => .str

/-- Whether values of a type are numbers. -/
def ValueType.isNumber : ValueType → Bool
  | .int | .float => true
  | _ => false

/-- The errors that types decide. -/
inductive TypeFault where
  /-- A variable that is not bound. -/
  | unbound
  /-- An absent operand. -/
  | absent
  /-- An operand of a type that its operator does not take. -/
  | mismatch

/-- The kind of the error that is reported for a fault. -/
def TypeFault.kind : TypeFault → ErrorKind
  | .unbound => .undefinedVariable
  | .absent => .nullOperand
  | .mismatch => .typeMismatch

/-- What a binary operator makes of operands of two types that are both present. -/
def BinaryOp.typingPresent (op : BinaryOp) (a b : ValueType) : Except TypeFault ValueType :=
  match op.family with
  | .arithmetic _ =>
    if a = .int ∧ b = .int then .ok .int
    else if a.isNumber ∧ b.isNumber then .ok .float else .error .mismatch
  | .comparison _ => if a.isNumber ∧ b.isNumber then .ok .bool else .error .mismatch
  | .equality => .ok .bool
  | .connective _ => if a = .bool ∧ b = .bool then .ok .bool else .error .mismatch

/-- What a binary operator makes of operands of two types. -/
def BinaryOp.typing (op : BinaryOp) (a b : ValueType) : Except TypeFault ValueType :=
  if a = .null ∨ b = .null then .error .absent else op.typingPresent a b

/-- What a unary operator makes of an operand of a type. -/
def UnaryOp.typing : UnaryOp → ValueType → Except TypeFault ValueType
  | .not, .bool => .ok .bool
  | .neg, .int => .ok .int
  | .neg, .float => .ok .float
  | _, _ => .error .mismatch

/-- The types of the variables of a scope. -/
def Scope.types (σ : Scope) (key : Key) : Option ValueType := (σ.find? key).map fun b => b.value.type

/-- What an expression comes to, from the types of the variables. Calls are not looked at. -/
def Expr.typing (types : Key → Option ValueType) : Expr → Except TypeFault ValueType
  | .lit value => .ok value.value.type
  | .var name => ((Json.key? name).bind types).elim (.error .unbound) .ok
  | .binary left op right => do
    let a ← left.typing types
    let b ← right.typing types
    op.typing a b
  | .unary op operand => do
    let a ← operand.typing types
    op.typing a
  | .call _ _ | .misfit _ => .error .mismatch

/-- An expression in which nothing is called. -/
def Expr.CallFree : Expr → Prop
  | .binary left _ right => left.CallFree ∧ right.CallFree
  | .unary _ operand => operand.CallFree
  | .call _ _ => False
  | .lit _ | .var _ | .misfit _ => True

theorem Value.typeName_eq_iff {a b : Value} : a.typeName = b.typeName ↔ a.type = b.type := by
  cases a <;> cases b <;> simp [Value.typeName, Value.type]

theorem Value.type_eq_null {a : Value} : a.type = .null ↔ a = .null := by
  cases a <;> simp [Value.type]

theorem Value.type_eq_bool {a : Value} : a.type = .bool ↔ ∃ p, a = .bool p := by
  cases a <;> simp [Value.type]

theorem Widens.isNumber {a : Value} {x : Float} (h : Widens a x) : a.type.isNumber = true := by
  cases h <;> rfl

theorem NoNumber.isNumber {a : Value} (h : NoNumber a) : a.type.isNumber = false := by
  cases h <;> rfl

/-- Scopes in which the same names have values of the same types. -/
theorem Scope.types_eq {σ τ : Scope} (h : ∀ key, (σ.find? key).map (fun b => b.value.typeName) =
    (τ.find? key).map fun b => b.value.typeName) : σ.types = τ.types := by
  funext key
  have hkey := h key
  rw [Scope.types, Scope.types]
  cases hb : σ.find? key with
  | none =>
    cases hc : τ.find? key with
    | none => rfl
    | some c => simp [hb, hc] at hkey
  | some b =>
    cases hc : τ.find? key with
    | none => simp [hb, hc] at hkey
    | some c =>
      rw [hb, hc] at hkey
      exact congrArg some (Value.typeName_eq_iff.mp (Option.some.inj hkey))

/-! ### Operators -/

/-- A value of the type that was told, or an error of the kind that was told or for a zero divisor. -/
def Foreseen (t : Except TypeFault ValueType) : Except RuntimeError Value → Prop
  | .ok v => t = .ok v.type
  | .error err => err = .zeroDivisor ∨ ∃ fault, t = .error fault ∧ err.kind = fault.kind

section

variable {op : BinaryOp} {a b : Value}

theorem BinaryOp.typing_present (op : BinaryOp) (ha : a ≠ .null) (hb : b ≠ .null) :
    op.typing a.type b.type = op.typingPresent a.type b.type := by
  have hpresent : ¬(a.type = .null ∨ b.type = .null) :=
    not_or.mpr ⟨mt Value.type_eq_null.mp ha, mt Value.type_eq_null.mp hb⟩
  rw [BinaryOp.typing, if_neg hpresent]

/-- An operator on numbers refuses operands that are not both numbers. -/
theorem BinaryOp.typing_noNumber (hop : op.onNumbers) (ha : a ≠ .null) (hb : b ≠ .null)
    (h : a.type.isNumber = false ∨ b.type.isNumber = false) :
    op.typing a.type b.type = .error .mismatch := by
  have hnumbers : ¬(a.type.isNumber ∧ b.type.isNumber) := by
    rcases h with h | h <;> simp [h]
  have hints : ¬(a.type = .int ∧ b.type = .int) := by
    rintro ⟨hta, htb⟩
    rw [hta, htb] at hnumbers
    exact hnumbers ⟨rfl, rfl⟩
  rw [typing_present op ha hb]
  cases op with
  | add | sub | mul | div =>
    simp only [BinaryOp.typingPresent, BinaryOp.family, if_neg hints, if_neg hnumbers]
  | gt | lt | ge | le => simp only [BinaryOp.typingPresent, BinaryOp.family, if_neg hnumbers]
  | eq | and | or => simp [BinaryOp.onNumbers] at hop

/-- Two numbers that are not both integers give a float. -/
theorem BinaryOp.typing_floats {f : BinaryOp.Arithmetic} (hf : op.family = .arithmetic f)
    (h : ¬(a.isInt ∧ b.isInt)) {x y : Float} (ha : Widens a x) (hb : Widens b y) :
    op.typing a.type b.type = .ok .float := by
  rw [typing_present op ha.ne_null hb.ne_null, BinaryOp.typingPresent, hf]
  cases ha with
  | int hm =>
    cases hb with
    | int hn => exact absurd ⟨rfl, rfl⟩ h
    | float => rfl
  | float => cases hb <;> rfl

/-- Two numbers can be compared. -/
theorem BinaryOp.typing_comparison {f : BinaryOp.Comparison} (hf : op.family = .comparison f)
    {x y : Float} (ha : Widens a x) (hb : Widens b y) : op.typing a.type b.type = .ok .bool := by
  rw [typing_present op ha.ne_null hb.ne_null, BinaryOp.typingPresent, hf]
  exact if_pos ⟨ha.isNumber, hb.isNumber⟩

/-- A connective refuses operands that are not both truth values. -/
theorem BinaryOp.typing_noTruth (hop : op = .and ∨ op = .or) (ha : a ≠ .null) (hb : b ≠ .null)
    (h : ¬∃ p q, a = .bool p ∧ b = .bool q) : op.typing a.type b.type = .error .mismatch := by
  have htruth : ¬(a.type = .bool ∧ b.type = .bool) := by
    rw [Value.type_eq_bool, Value.type_eq_bool]
    rintro ⟨⟨p, rfl⟩, ⟨q, rfl⟩⟩
    exact h ⟨p, q, rfl, rfl⟩
  rw [typing_present op ha hb]
  rcases hop with rfl | rfl
  · exact if_neg htruth
  · exact if_neg htruth

/-- **The types of two operands decide what an operator gives**, a zero divisor apart. -/
theorem BinaryRule.foreseen {r : Except RuntimeError Value} (h : BinaryRule op a b r) :
    Foreseen (op.typing a.type b.type) r := by
  cases h with
  | absent h =>
    have hnull : a.type = .null ∨ b.type = .null :=
      h.imp Value.type_eq_null.mpr Value.type_eq_null.mpr
    exact .inr ⟨.absent, if_pos hnull, rfl⟩
  | addInts | subInts | mulInts => rfl
  | divInts h => rfl
  | divZero => exact .inl rfl
  | addFloats h ha hb => exact BinaryOp.typing_floats rfl h ha hb
  | subFloats h ha hb => exact BinaryOp.typing_floats rfl h ha hb
  | mulFloats h ha hb => exact BinaryOp.typing_floats rfl h ha hb
  | divFloats h ha hb => exact BinaryOp.typing_floats rfl h ha hb
  | gt ha hb => exact BinaryOp.typing_comparison rfl ha hb
  | lt ha hb => exact BinaryOp.typing_comparison rfl ha hb
  | ge ha hb => exact BinaryOp.typing_comparison rfl ha hb
  | le ha hb => exact BinaryOp.typing_comparison rfl ha hb
  | leftNoNumber hop ha hb =>
    exact .inr ⟨.mismatch, BinaryOp.typing_noNumber hop ha.ne_null hb (.inl ha.isNumber), rfl⟩
  | rightNoNumber hop ha hb =>
    exact .inr ⟨.mismatch, BinaryOp.typing_noNumber hop ha.ne_null hb.ne_null (.inr hb.isNumber), rfl⟩
  | eq ha hb => exact BinaryOp.typing_present .eq ha hb
  | and | or => rfl
  | noTruth hop ha hb hab =>
    exact .inr ⟨.mismatch, BinaryOp.typing_noTruth hop ha hb hab, rfl⟩

/-- The type of an operand decides what an operator gives. -/
theorem UnaryRule.foreseen {op : UnaryOp} {r : Except RuntimeError Value} (h : UnaryRule op a r) :
    Foreseen (op.typing a.type) r := by
  cases h with
  | not | negInt | negFloat => rfl
  | notFails h =>
    refine .inr ⟨.mismatch, ?_, rfl⟩
    cases a with
    | bool p => exact absurd rfl (h p)
    | _ => rfl
  | negFails hi hf =>
    refine .inr ⟨.mismatch, ?_, rfl⟩
    cases a with
    | int n => exact absurd rfl (hi n)
    | float x => exact absurd rfl (hf x)
    | _ => rfl

/-- No operator is of the type of the absent value. -/
theorem BinaryOp.apply_ne_null {v : Value} (h : op.apply a b = .ok v) : v ≠ .null := by
  cases BinaryRule.of_ok h <;> simp

theorem UnaryOp.apply_ne_null {op : UnaryOp} {v : Value} (h : op.apply a = .ok v) : v ≠ .null := by
  cases UnaryRule.of_ok h <;> simp

end

/-! ### Expressions -/

/-- An evaluation that comes out as its type says. It prints nothing. -/
def Decided (t : Except TypeFault ValueType) (x : Eval Value) : Prop :=
  ∀ log, Ensures x log (fun v log' => log' = log ∧ v.InRange ∧ Foreseen t (.ok v))
    (fun e log' => log' = log ∧ ∃ err, e = .error err ∧ Foreseen t (.error err))

namespace Decided

theorem value {v : Value} (h : v.InRange) : Decided (.ok v.type) (pure v) :=
  fun _ => .pure ⟨rfl, h, rfl⟩

/-- A computed result that its type foresees. -/
theorem ofRule {t : Except TypeFault ValueType} {r : Except RuntimeError Value} (h : Foreseen t r)
    (hrange : ∀ v, r = .ok v → v.InRange) : Decided t (Eval.ofExcept (r.mapError .error)) := by
  intro log
  cases r with
  | ok v => exact Ensures.pure ⟨rfl, hrange v rfl, h⟩
  | error err => exact ⟨rfl, err, rfl, h⟩

/-- An evaluation whose value goes into another one: the type of the value goes the same way. -/
theorem bind {t : Except TypeFault ValueType} {x : Eval Value} {next : ValueType → Except TypeFault ValueType}
    {f : Value → Eval Value} (hx : Decided t x)
    (hf : ∀ v, v.InRange → Decided (next v.type) (f v)) : Decided (t >>= next) (x >>= f) := by
  intro log
  refine (hx log).bind ?_ ?_
  · rintro _ _ ⟨rfl, err, rfl, h⟩
    refine ⟨rfl, err, rfl, ?_⟩
    rcases h with h | ⟨fault, rfl, hkind⟩
    · exact .inl h
    · exact .inr ⟨fault, rfl, hkind⟩
  · rintro v _ ⟨rfl, hv, htype⟩
    rw [show t = .ok v.type from htype]
    exact hf v hv _

end Decided

theorem BinaryOp.apply_decided (op : BinaryOp) {a b : Value} (ha : a.InRange) (hb : b.InRange) :
    Decided (op.typing a.type b.type) (Eval.ofExcept (op.apply a b)) := by
  obtain ⟨r, hr⟩ := BinaryRule.total_inRange op ha hb
  rw [hr.apply_eq]
  refine .ofRule hr.foreseen ?_
  rintro v rfl
  exact hr.inRange

theorem UnaryOp.apply_decided (op : UnaryOp) (a : Value) :
    Decided (op.typing a.type) (Eval.ofExcept (op.apply a)) := by
  obtain ⟨r, hr⟩ := UnaryRule.total op a
  rw [hr.apply_eq]
  refine .ofRule hr.foreseen ?_
  rintro v rfl
  exact hr.inRange

theorem Scope.read_decided {σ : Scope} (hσ : σ.InRange) {name : Name} (hn : name.IsText) :
    Decided (Expr.typing σ.types (.var name)) (Eval.ofExcept (σ.read name)) := by
  obtain ⟨key, hk⟩ := hn.key?
  rw [Scope.read_eq hk, Expr.typing, hk, Option.bind_some, Scope.types]
  cases hb : σ.find? key with
  | none => exact .ofRule (r := .error (.unbound name)) (.inr ⟨.unbound, rfl, rfl⟩) (by simp)
  | some b => exact .value (hσ b (Table.mem_entries_of_find? hb))

/-- **The types of the variables decide what an expression without calls comes to.** -/
theorem eval_decided {s : Setting} {call : Caller} {σ : Scope} (hσ : σ.InRange) : ∀ e : Expr,
    e.Sorted True → e.CallFree → Decided (e.typing σ.types) (eval s call σ e)
  | .lit value, hsorted, _ => .value (Literal.value_inRange hsorted)
  | .var name, hsorted, _ => Scope.read_decided hσ (hsorted trivial)
  | .binary left op right, hsorted, hfree => by
    rw [Expr.typing, eval]
    refine (eval_decided hσ left hsorted.1 hfree.1).bind fun a ha => ?_
    refine (eval_decided hσ right hsorted.2 hfree.2).bind fun b hb => ?_
    exact op.apply_decided ha hb
  | .unary op operand, hsorted, hfree => by
    rw [Expr.typing, eval]
    exact (eval_decided hσ operand hsorted hfree).bind fun a _ => op.apply_decided a
  | .call _ _, _, hfree => hfree.elim
  | .misfit _, hsorted, _ => (hsorted trivial).elim

/-- What is shown of the value of a computation, whatever was done before. -/
theorem Ensures.afterAny {ε σ α β : Type} {x : EStateM ε σ α} {f : α → EStateM ε σ β} {st : σ}
    {Q : β → σ → Prop} (h : ∀ a st', Ensures (f a) st' Q (fun _ _ => True)) :
    Ensures (x >>= f) st Q (fun _ _ => True) := by
  have hx : Ensures x st (fun _ _ => True) (fun _ _ => True) :=
    .intro (fun _ _ _ => trivial) fun _ _ _ => trivial
  exact hx.bind (fun _ _ h => h) fun a st' _ => h a st'

/-- An operator never gives the absent value. -/
theorem eval_ne_null {s : Setting} {call : Caller} {σ : Scope} (log : Log) :
    (∀ left op right, Ensures (eval s call σ (.binary left op right)) log (fun v _ => v ≠ .null)
      (fun _ _ => True)) ∧
    ∀ op operand, Ensures (eval s call σ (.unary op operand)) log (fun v _ => v ≠ .null)
      (fun _ _ => True) := by
  refine ⟨?_, ?_⟩
  · intro left op right
    rw [eval]
    refine .afterAny fun a _ => .afterAny fun b _ => ?_
    exact .ofExcept (fun v hv => BinaryOp.apply_ne_null hv) fun _ _ => trivial
  · intro op operand
    rw [eval]
    refine .afterAny fun a _ => ?_
    exact .ofExcept (fun v hv => UnaryOp.apply_ne_null hv) fun _ _ => trivial

/-! ### Interpreters -/

/-- What a decided expression comes to at the top level. -/
theorem Interpreter.eval_decided {i : Interpreter} {e : Expr} {w : World} {t : Except TypeFault ValueType}
    (h : Decided t (SmallImp.eval (i.setting w.functions) (i.caller w.functions) w.scope e)) :
    i.eval e w = .error (.error .zeroDivisor) w ∨ (∃ v, i.eval e w = .ok v w ∧ t = .ok v.type) ∨
      ∃ err fault, i.eval e w = .error (.error err) w ∧ t = .error fault ∧ err.kind = fault.kind := by
  have hend := h w.log
  cases hx : SmallImp.eval (i.setting w.functions) (i.caller w.functions) w.scope e w.log with
  | ok v log =>
    obtain ⟨rfl, -, htype⟩ := hend.ok hx
    exact .inr (.inl ⟨v, Interpreter.eval_eq_ok.mpr ⟨_, hx, rfl⟩, htype⟩)
  | error failure log =>
    obtain ⟨rfl, err, rfl, hforeseen⟩ := hend.error hx
    have heval : i.eval e w = .error (.error err) w := Interpreter.eval_eq_error.mpr ⟨_, hx, rfl⟩
    rcases hforeseen with rfl | ⟨fault, htype, hkind⟩
    · exact .inl heval
    · exact .inr (.inr ⟨err, fault, heval, htype, hkind⟩)

/-- **Types decide outcomes.** Take an expression without calls and two worlds in which the same names
have values of the same types, all integers being in range. Unless one of the two evaluations divides
by zero, both give values of the same type, or both fail with an error of the same kind: for a
variable that is not bound, an absent operand or an operand of a wrong type. And no operator, whatever
its operands are, gives the absent value. -/
theorem types_decide_outcomes (i : Interpreter) :
    (∀ (e : Expr) (w w' : World), e.Sorted True → e.CallFree → w.scope.InRange → w'.scope.InRange →
      (∀ key, (w.scope.find? key).map (fun b => b.value.typeName) =
        (w'.scope.find? key).map fun b => b.value.typeName) →
      i.eval e w = .error (.error .zeroDivisor) w ∨ i.eval e w' = .error (.error .zeroDivisor) w' ∨
      (∃ v v', i.eval e w = .ok v w ∧ i.eval e w' = .ok v' w' ∧ v.typeName = v'.typeName) ∨
      ∃ err err', i.eval e w = .error (.error err) w ∧ i.eval e w' = .error (.error err') w' ∧
        err.kind = err'.kind ∧
        err.kind ∈ [ErrorKind.undefinedVariable, .nullOperand, .typeMismatch]) ∧
    (∀ left op right w v w', i.eval (.binary left op right) w = .ok v w' → v ≠ .null) ∧
    ∀ op operand w v w', i.eval (.unary op operand) w = .ok v w' → v ≠ .null := by
  refine ⟨?_, ?_, ?_⟩
  · intro e w w' hsorted hfree hw hw' hsame
    rcases Interpreter.eval_decided (i := i) (eval_decided hw e hsorted hfree) with hzero | hfirst
    · exact .inl hzero
    rcases Interpreter.eval_decided (i := i) (eval_decided hw' e hsorted hfree) with hzero | hsecond
    · exact .inr (.inl hzero)
    rw [Scope.types_eq hsame] at hfirst
    rcases hfirst with ⟨v, hv, htype⟩ | ⟨err, fault, herr, htype, hkind⟩
    · rcases hsecond with ⟨v', hv', htype'⟩ | ⟨_, _, _, htype', _⟩
      · have hvalues := Except.ok.inj (htype.symm.trans htype')
        exact .inr (.inr (.inl ⟨v, v', hv, hv', Value.typeName_eq_iff.mpr hvalues⟩))
      · cases htype.symm.trans htype'
    · rcases hsecond with ⟨_, _, htype'⟩ | ⟨err', fault', herr', htype', hkind'⟩
      · cases htype.symm.trans htype'
      · cases htype.symm.trans htype'
        refine .inr (.inr (.inr ⟨err, err', herr, herr', hkind.trans hkind'.symm, ?_⟩))
        rw [hkind]
        cases fault <;> decide
  · intro left op right w v w' h
    obtain ⟨log, hlog, -⟩ := Interpreter.eval_eq_ok.mp h
    exact ((eval_ne_null w.log).1 left op right).ok hlog
  · intro op operand w v w' h
    obtain ⟨log, hlog, -⟩ := Interpreter.eval_eq_ok.mp h
    exact ((eval_ne_null w.log).2 op operand).ok hlog

/-- `!(a / b == 3) & p` -/
def quotientTest : Expr :=
  .binary (.unary .not (.binary (.binary (.var (.str "a")) .div (.var (.str "b"))) .eq (.lit (.int 3))))
    .and (.var (.str "p"))

/-- A world with these values of the variables of `quotientTest`. -/
def quotientWorld (a b : Int) (p : Bool) : World :=
  .ofVariables [("a", "int", .int a), ("b", "int", .int b), ("p", "bool", .bool p)]

theorem quotientWorld_inRange {a b : Int} (ha : InRange a) (hb : InRange b) (p : Bool) :
    (quotientWorld a b p).scope.InRange := by
  show ∀ c ∈ [Binding.mk (.str "a") (.str "int") (.int a), ⟨.str "b", .str "int", .int b⟩,
    ⟨.str "p", .str "bool", .bool p⟩], c.value.InRange
  simp only [List.forall_mem_cons]
  exact ⟨ha, hb, trivial, by simp⟩

/-- Two worlds that differ in all values and in no type: the quotient wraps in the second one. -/
theorem types_decide_outcomes_quotientTest :
    let i := Interpreter.fresh 0 false .standard
    let w := quotientWorld 7 2 true
    let w' := quotientWorld minInt (-1) false
    quotientTest.Sorted True ∧ quotientTest.CallFree ∧
    (∀ key, (w.scope.find? key).map (fun b => b.value.typeName) =
      (w'.scope.find? key).map fun b => b.value.typeName) ∧
    ∃ v v', i.eval quotientTest w = .ok v w ∧ i.eval quotientTest w' = .ok v' w' ∧
      v.typeName = v'.typeName := by
  intro i w w'
  have hsorted : quotientTest.Sorted True := by
    simp [quotientTest, Expr.Sorted, Json.IsText, Literal.InRange, InRange, minInt, maxInt]
  have hfree : quotientTest.CallFree := by simp [quotientTest, Expr.CallFree]
  have hsame : ∀ key, (w.scope.find? key).map (fun b => b.value.typeName) =
      (w'.scope.find? key).map fun b => b.value.typeName := by
    intro key
    simp only [w, w', quotientWorld, World.ofVariables, Table.find?, Table.lookup, List.map_cons,
      List.map_nil]
    split_ifs <;> rfl
  have hw : i.eval quotientTest w = .ok (.bool false) w := rfl
  have hw' : i.eval quotientTest w' = .ok (.bool false) w' := rfl
  refine ⟨hsorted, hfree, hsame, ?_⟩
  rcases (types_decide_outcomes i).1 quotientTest w w' hsorted hfree
    (quotientWorld_inRange (by decide) (by decide) true)
    (quotientWorld_inRange (by decide) (by decide) false) hsame with h | h | h | ⟨_, _, h, _⟩
  · cases hw.symm.trans h
  · cases hw'.symm.trans h
  · exact h
  · cases hw.symm.trans h

end SmallImp
