import Mathlib.Data.Int.ModEq
import SmallImp.Proofs.Isolation
import SmallImp.Proofs.Rules
import SmallImp.Proofs.Sorts

/-!
# Arithmetic modulo `2 ^ 64`

Each operation on integers wraps its result, so a long expression wraps many times. All this comes to
wrapping once: the value of an expression is the one integer of 64 bits that is congruent to what the
expression is worth over the unbounded integers.

* `BinaryOp.ring?`, `Expr.integer?` — the operators `+`, `-` and `*` over all integers, and the exact
  value of an expression made of them;
* `wrap64_modEq`, `eq_wrap64` — the wrapped integer as the representative of its residue class;
* `BinaryOp.apply_wrap64`, `UnaryOp.neg_wrap64` — an operator on wrapped integers;
* `eval_integer` — the value of an expression;
* `arithmetic_modular` — the same for interpreters, and expressions of congruent exact values.
-/

namespace SmallImp

/-! ### Exact values -/

/-- What an operator other than the division computes over the unbounded integers. -/
def BinaryOp.ring? : BinaryOp → Option (Int → Int → Int)
  | .add => some (· + ·)
  | .sub => some (· - ·)
  | .mul => some (· * ·)
  | _ => none

/-- The exact value of an expression that is built from integer literals and from variables bound to
integers with `+`, `-`, `*` and the unary `-`, all these integers being in range; no other expression
has one. -/
def Expr.integer? (σ : Scope) : Expr → Option Int
  | .lit (.int n) => if InRange n then some n else none
  | .var name =>
    match σ.read name with
    | .ok (.int n) => if InRange n then some n else none
    | _ => none
  | .binary left op right => do
    let f ← op.ring?
    return f (← left.integer? σ) (← right.integer? σ)
  | .unary .neg operand => (operand.integer? σ).map (- ·)
  | _ => none

/-! ### Residue classes -/

theorem wrap64_modEq (n : Int) : wrap64 n ≡ n [ZMOD 2 ^ 64] := by
  rw [Int.modEq_iff_dvd]
  have hdiv := Int.emod_add_mul_ediv (n - minInt) wordCount
  refine ⟨(n - minInt) / wordCount, ?_⟩
  unfold wrap64
  unfold wordCount at hdiv ⊢
  omega

/-- A residue class has one member in range. -/
theorem eq_wrap64 {m n : Int} (hm : InRange m) (h : m ≡ n [ZMOD 2 ^ 64]) : m = wrap64 n := by
  have hclass : m ≡ wrap64 n [ZMOD 2 ^ 64] := h.trans (wrap64_modEq n).symm
  obtain ⟨k, hk⟩ := hclass.dvd
  have hwrap := wrap64_inRange n
  unfold InRange minInt maxInt at hm hwrap
  omega

theorem wrap64_congr {m n : Int} (h : m ≡ n [ZMOD 2 ^ 64]) : wrap64 m = wrap64 n :=
  eq_wrap64 (wrap64_inRange m) ((wrap64_modEq m).trans h)

theorem wrap64_of_inRange {n : Int} (h : InRange n) : wrap64 n = n := (eq_wrap64 h rfl).symm

/-! ### Operators -/

/-- An operator on wrapped integers gives what wrapping its exact value gives. -/
theorem BinaryOp.apply_wrap64 {op : BinaryOp} {f : Int → Int → Int} (h : op.ring? = some f)
    (m n : Int) : op.apply (.int (wrap64 m)) (.int (wrap64 n)) = .ok (.int (wrap64 (f m n))) := by
  have hm := wrap64_modEq m
  have hn := wrap64_modEq n
  cases op with
  | add =>
    cases h
    rw [← wrap64_congr (hm.add hn)]
    exact BinaryRule.addInts.apply_eq
  | sub =>
    cases h
    rw [← wrap64_congr (hm.sub hn)]
    exact BinaryRule.subInts.apply_eq
  | mul =>
    cases h
    rw [← wrap64_congr (hm.mul hn)]
    exact BinaryRule.mulInts.apply_eq
  | div | gt | lt | ge | le | eq | and | or => cases h

theorem UnaryOp.neg_wrap64 (n : Int) : UnaryOp.neg.apply (.int (wrap64 n)) = .ok (.int (wrap64 (-n))) := by
  rw [← wrap64_congr (wrap64_modEq n).neg]
  exact UnaryRule.negInt.apply_eq

/-! ### Expressions -/

section

variable {s : Setting} {call : Caller} {σ : Scope}

/-- An expression that has an exact value evaluates to it, wrapped, and prints nothing. -/
theorem eval_integer (log : Log) : ∀ (e : Expr) {z : Int}, e.integer? σ = some z →
    eval s call σ e log = .ok (.int (wrap64 z)) log
  | .lit (.int n), z, h => by
    simp only [Expr.integer?, Option.ite_none_right_eq_some, Option.some.injEq] at h
    obtain ⟨hn, rfl⟩ := h
    rw [wrap64_of_inRange hn]
    rfl
  | .var name, z, h => by
    rw [Expr.integer?] at h
    split at h
    next n hread =>
      simp only [Option.ite_none_right_eq_some, Option.some.injEq] at h
      obtain ⟨hn, rfl⟩ := h
      rw [eval, hread, wrap64_of_inRange hn]
      rfl
    next => cases h
  | .binary left op right, z, h => by
    simp only [Expr.integer?, Option.bind_eq_bind, Option.bind_eq_some_iff, Option.pure_def,
      Option.some.injEq] at h
    obtain ⟨f, hf, m, hleft, n, hright, rfl⟩ := h
    rw [eval, bind_of_ok (eval_integer log left hleft), bind_of_ok (eval_integer log right hright),
      BinaryOp.apply_wrap64 hf]
    rfl
  | .unary .neg operand, z, h => by
    obtain ⟨n, hoperand, rfl⟩ := Option.map_eq_some_iff.mp h
    rw [eval, bind_of_ok (eval_integer log operand hoperand), UnaryOp.neg_wrap64]
    rfl
  | .lit (.float _), z, h => by cases h
  | .lit (.bool _), z, h => by cases h
  | .lit (.str _), z, h => by cases h
  | .unary .not _, z, h => by cases h
  | .call _ _, z, h => by cases h
  | .misfit _, z, h => by cases h

end

/-- **Arithmetic is modular.** Let an expression of integer literals and integer variables, with `+`,
`-`, `*` and the unary `-`, have the exact value `z` over the unbounded integers. It evaluates without
an error to `wrap64 z`, and this is the one integer in range that is congruent to `z` modulo `2 ^ 64`.
So two such expressions, perhaps in different worlds, come to the same integer if their exact values
are congruent. -/
theorem arithmetic_modular (i : Interpreter) {e : Expr} {w : World} {z : Int}
    (h : e.integer? w.scope = some z) :
    i.eval e w = .ok (.int (wrap64 z)) w ∧
    (∀ n, n = wrap64 z ↔ InRange n ∧ n ≡ z [ZMOD 2 ^ 64]) ∧
    ∀ (e' : Expr) (w' : World) (z' : Int), e'.integer? w'.scope = some z' → z ≡ z' [ZMOD 2 ^ 64] →
      ∃ n, i.eval e w = .ok (.int n) w ∧ i.eval e' w' = .ok (.int n) w' := by
  have heval : ∀ {e : Expr} {w : World} {z : Int}, e.integer? w.scope = some z →
      i.eval e w = .ok (.int (wrap64 z)) w :=
    fun h => Interpreter.eval_eq_ok.mpr ⟨_, eval_integer _ _ h, rfl⟩
  refine ⟨heval h, ?_, ?_⟩
  · intro n
    constructor
    · rintro rfl
      exact ⟨wrap64_inRange z, wrap64_modEq z⟩
    · rintro ⟨hn, hmod⟩
      exact eq_wrap64 hn hmod
  · intro e' w' z' h' hmod
    exact ⟨wrap64 z, heval h, (wrap64_congr hmod) ▸ heval h'⟩

/-- `x * x - -(9223372036854775807 * 9223372036854775807)` -/
def sumOfSquares : Expr :=
  .binary (.binary (.var (.str "x")) .mul (.var (.str "x"))) .sub
    (.unary .neg (.binary (.lit (.int maxInt)) .mul (.lit (.int maxInt))))

/-- The square of the largest integer. -/
def largestSquare : Expr := .binary (.lit (.int maxInt)) .mul (.lit (.int maxInt))

/-- The world in which `x` is the least integer. -/
def leastX : World := .ofVariables [("x", "int", .int minInt)]

/-- Products out of range, and a sum of squares that is another number than the second square but
congruent to it, as the first square is a multiple of `2 ^ 64`. -/
theorem arithmetic_modular_squares :
    let i := Interpreter.fresh 0 false .standard
    sumOfSquares.integer? leastX.scope = some (2 ^ 126 + (2 ^ 63 - 1) ^ 2) ∧
    largestSquare.integer? World.empty.scope = some ((2 ^ 63 - 1) ^ 2) ∧
    i.eval sumOfSquares leastX = .ok (.int 1) leastX ∧
    ∃ n, i.eval sumOfSquares leastX = .ok (.int n) leastX ∧
      i.eval largestSquare .empty = .ok (.int n) .empty := by
  intro i
  have hsum : sumOfSquares.integer? leastX.scope = some (2 ^ 126 + (2 ^ 63 - 1) ^ 2) := by decide
  have hlargest : largestSquare.integer? World.empty.scope = some ((2 ^ 63 - 1) ^ 2) := by decide
  obtain ⟨heval, -, hsame⟩ := arithmetic_modular i hsum
  refine ⟨hsum, hlargest, heval, hsame largestSquare .empty _ hlargest ?_⟩
  decide

end SmallImp
