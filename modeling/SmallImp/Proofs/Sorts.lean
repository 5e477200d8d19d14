import SmallImp.Machine.Run
import SmallImp.Proofs.FiniteFloats
import SmallImp.Proofs.Lookup
import SmallImp.Proofs.OperatorRules

/-!
# Sorts and ranges

What is expected of the parts of a program, and of the values that its run handles.

* `Expr.Sorted`, `Stmt.Sorted`, …, `Program.Sorted` — integer literals fit in 64 bits; in the strict
  sense, moreover, every part is of the sort that its place asks for, and names are texts;
* `Program.WellSorted`, `Program.Bounded` — the strict and the lax sense;
* `Value.InRange`, `Scope.InRange` — integers that fit in 64 bits;
* `Failure.Ordinary` — an error of the language or a lack of budget;
* `BinaryOp.apply_inRange`, `BinaryOp.apply_ordinary` — operators on values in range.
-/

namespace SmallImp

/-! ### Sorts -/

/-- A literal whose integer, if it is one, fits in 64 bits. -/
def Literal.InRange : Literal → Prop
  | .int n => SmallImp.InRange n
  | _ => True

/-- A name or a type that is a text. -/
def Json.IsText (name : Json) : Prop := ∃ s, name = .str s

variable (strict : Prop)

mutual

/-- An expression. In the strict sense there is no tree of another kind in it, and its names are
texts. -/
def Expr.Sorted : Expr → Prop
  | .lit value => value.InRange
  | .var name => strict → name.IsText
  | .binary left _ right => Expr.Sorted left ∧ Expr.Sorted right
  | .unary _ operand => Expr.Sorted operand
  | .call name args => (strict → name.IsText) ∧ Expr.AllSorted args
  | .misfit _ => ¬strict

/-- Expressions, all of them sorted. -/
def Expr.AllSorted : List Expr → Prop
  | [] => True
  | e :: rest => Expr.Sorted e ∧ Expr.AllSorted rest

end

mutual

/-- A statement. In the strict sense, a block is no statement. -/
def Stmt.Sorted : Stmt → Prop
  | .declare tag name start => (strict → tag.IsText ∧ name.IsText) ∧ ∀ e ∈ start, e.Sorted strict
  | .assign name value => (strict → name.IsText) ∧ value.Sorted strict
  | .branch condition yes no =>
    condition.Sorted strict ∧ Block.Sorted False yes ∧ Block.Sorted True no
  | .loop condition body => condition.Sorted strict ∧ Block.Sorted False body
  | .ret value => value.Sorted strict
  | .expr value => value.Sorted strict
  | .block body => ¬strict ∧ Stmt.AllSorted body
  | .misfit _ => ¬strict

/-- What stands in the place of a block. In the strict sense it is a block, and may be absent only
if it is optional. -/
def Block.Sorted (optional : Prop) : Block → Prop
  | .stmts body => Stmt.AllSorted body
  | .main body => ¬strict ∧ Stmt.AllSorted body
  | .absent => strict → optional
  | .misfit _ => ¬strict

/-- Statements, all of them sorted. -/
def Stmt.AllSorted : List Stmt → Prop
  | [] => True
  | stmt :: rest => Stmt.Sorted stmt ∧ Stmt.AllSorted rest

end

/-- What stands in the place of a parameter. -/
def Param.Sorted : Param → Prop
  | .param tag name => strict → tag.IsText ∧ name.IsText
  | .misfit _ => ¬strict

/-- A function declaration. -/
structure FuncDecl.Sorted (f : FuncDecl) : Prop where
  texts : strict → f.name.IsText ∧ f.returnTag.IsText
  params : ∀ p ∈ f.params, p.Sorted strict
  body : f.body.Sorted strict False

/-- What stands in the place of a function. -/
def Func.Sorted : Func → Prop
  | .decl f => f.Sorted strict
  | .misfit _ => ¬strict

/-- What stands in the place of a main block. In the strict sense it is a main block or absent. -/
def Block.MainSorted : Block → Prop
  | .main body => Stmt.AllSorted strict body
  | .stmts body => ¬strict ∧ Stmt.AllSorted strict body
  | .absent => True
  | .misfit _ => ¬strict

/-- A program. -/
structure Program.Sorted (p : Program) : Prop where
  functions : ∀ func ∈ p.functions, func.Sorted strict
  main : p.main.MainSorted strict

/-- Functions that are all sorted. -/
def FunctionTable.Sorted (table : FunctionTable) : Prop :=
  ∀ r ∈ table.entries, r.func.Sorted strict

/-- Every part of a program is of the sort that its place asks for, names are texts, and integer
literals fit in 64 bits. -/
abbrev Program.WellSorted (p : Program) : Prop := p.Sorted True

/-- The integer literals of a program fit in 64 bits. -/
abbrev Program.Bounded (p : Program) : Prop := p.Sorted False

theorem Expr.allSorted_iff {es : List Expr} :
    Expr.AllSorted strict es ↔ ∀ e ∈ es, e.Sorted strict := by
  induction es with
  | nil => simp [Expr.AllSorted]
  | cons e rest ih => simp [Expr.AllSorted, ih]

theorem Stmt.allSorted_iff {body : List Stmt} :
    Stmt.AllSorted strict body ↔ ∀ stmt ∈ body, stmt.Sorted strict := by
  induction body with
  | nil => simp [Stmt.AllSorted]
  | cons stmt rest ih => simp [Stmt.AllSorted, ih]

/-! ### Ranges -/

/-- A value whose integer, if it is one, fits in 64 bits. -/
def Value.InRange : Value → Prop
  | .int n => SmallImp.InRange n
  | _ => True

/-- A completion whose returned value, if there is one, is in range. -/
def Completion.InRange : Completion → Prop
  | .returned v => v.InRange
  | .normal => True

/-- The values of all variables are in range. -/
def Scope.InRange (σ : Scope) : Prop := ∀ b ∈ σ.entries, b.value.InRange

/-- A lack of budget, or an error of the language that is not about the symbol of an operator. -/
def Failure.Ordinary : Failure → Prop
  | .error e => (∀ symbol, e ≠ .binarySymbol symbol) ∧ ∀ symbol, e ≠ .unarySymbol symbol
  | .defect _ => False
  | .unencodable => False
  | .exhausted _ => True

theorem wrap64_inRange (n : Int) : InRange (wrap64 n) := by
  unfold InRange wrap64 minInt maxInt wordCount
  omega

theorem Literal.value_inRange {value : Literal} (h : value.InRange) : value.value.InRange := by
  cases value with
  | int n => exact h
  | _ => trivial

/-! ### Operators on values in range -/

theorem Value.toFloat_ne_tooLarge {v : Value} (h : v.InRange) :
    v.toFloat ≠ .error (.defect .tooLarge) := by
  cases v with
  | int n => simp [Value.toFloat, Binary64.isInfinite_ofInt h]
  | _ => simp [Value.toFloat]

/-- Any two operands in range have a rule. -/
theorem BinaryRule.total_inRange (op : BinaryOp) {a b : Value} (ha : a.InRange) (hb : b.InRange) :
    ∃ r, BinaryRule op a b r := by
  rcases BinaryRule.total op a b with h | ⟨-, h | h⟩
  · exact h
  · exact absurd h (Value.toFloat_ne_tooLarge ha)
  · exact absurd h (Value.toFloat_ne_tooLarge hb)

/-- Whatever the operands are, an integer that an operator gives is wrapped. -/
theorem BinaryRule.inRange {op : BinaryOp} {a b v : Value} (h : BinaryRule op a b (.ok v)) :
    v.InRange := by
  cases h with
  | addInts => exact wrap64_inRange _
  | subInts => exact wrap64_inRange _
  | mulInts => exact wrap64_inRange _
  | divInts h => exact wrap64_inRange _
  | _ => trivial

theorem BinaryRule.ordinary {op : BinaryOp} {a b : Value} {e : RuntimeError}
    (h : BinaryRule op a b (.error e)) : (Failure.error e).Ordinary := by
  cases h <;> exact ⟨nofun, nofun⟩

theorem UnaryRule.inRange {op : UnaryOp} {a v : Value} (h : UnaryRule op a (.ok v)) : v.InRange := by
  cases h with
  | negInt => exact wrap64_inRange _
  | _ => trivial

theorem UnaryRule.ordinary {op : UnaryOp} {a : Value} {e : RuntimeError}
    (h : UnaryRule op a (.error e)) : (Failure.error e).Ordinary := by
  cases h <;> exact ⟨nofun, nofun⟩

theorem BinaryOp.apply_inRange {op : BinaryOp} {a b v : Value} (h : op.apply a b = .ok v) :
    v.InRange := (BinaryRule.of_ok h).inRange

theorem BinaryOp.apply_ordinary {op : BinaryOp} {a b : Value} {e : Failure} (ha : a.InRange)
    (hb : b.InRange) (h : op.apply a b = .error e) : e.Ordinary := by
  obtain ⟨r, hr⟩ := BinaryRule.total_inRange op ha hb
  rw [hr.apply_eq] at h
  cases r with
  | ok v => cases h
  | error err =>
    cases h
    exact hr.ordinary

theorem UnaryOp.apply_inRange {op : UnaryOp} {a v : Value} (h : op.apply a = .ok v) : v.InRange :=
  (UnaryRule.of_ok h).inRange

theorem UnaryOp.apply_ordinary {op : UnaryOp} {a : Value} {e : Failure} (h : op.apply a = .error e) :
    e.Ordinary := by
  obtain ⟨r, hr⟩ := UnaryRule.total op a
  rw [hr.apply_eq] at h
  cases r with
  | ok v => cases h
  | error err =>
    cases h
    exact hr.ordinary

/-! ### Scopes in range -/

theorem Json.IsText.key? {name : Name} (h : name.IsText) : ∃ key, Json.key? name = some key := by
  obtain ⟨s, rfl⟩ := h
  exact ⟨.str s, rfl⟩

namespace Scope

variable {σ σ' : Scope} {name : Name} {tag : TypeTag} {v : Value} {e : Failure}

theorem InRange.empty : InRange .empty := nofun

theorem InRange.upsert {key : Key} {f : Option Binding → Binding} (hσ : σ.InRange)
    (hf : ∀ b, (f b).value.InRange) : InRange (σ.upsert key f) := by
  intro b hb
  rcases Table.mem_entries_upsert hb with hb | rfl
  · exact hσ b hb
  · exact hf _

theorem InRange.read (hσ : σ.InRange) (h : σ.read name = .ok v) : v.InRange := by
  cases hk : Json.key? name with
  | none =>
    rw [read_unusable hk] at h
    cases h
  | some key =>
    rw [read_eq hk] at h
    cases hb : σ.find? key with
    | none =>
      rw [hb] at h
      cases h
    | some b =>
      rw [hb] at h
      cases h
      exact hσ b (Table.mem_entries_of_find? hb)

theorem InRange.declare (hσ : σ.InRange) (hv : v.InRange) (h : σ.declare tag name v = .ok σ') :
    σ'.InRange := by
  cases hk : Json.key? name with
  | none =>
    rw [declare_unusable hk] at h
    cases h
  | some key =>
    rw [declare_eq hk] at h
    cases h
    refine hσ.upsert fun b => ?_
    cases b with
    | some b => exact hv
    | none => exact hv

theorem InRange.assign (hσ : σ.InRange) (hv : v.InRange) (h : σ.assign name v = .ok σ') :
    σ'.InRange := by
  cases hk : Json.key? name with
  | none =>
    rw [assign_unusable hk] at h
    cases h
  | some key =>
    rw [assign_eq hk] at h
    cases hb : σ.find? key with
    | none =>
      rw [hb] at h
      cases h
    | some b =>
      rw [hb] at h
      cases h
      exact hσ.upsert fun _ => hv

theorem read_ordinary (hn : name.IsText) (h : σ.read name = .error e) : e.Ordinary := by
  obtain ⟨key, hk⟩ := hn.key?
  rw [read_eq hk] at h
  cases hb : σ.find? key with
  | some b =>
    rw [hb] at h
    cases h
  | none =>
    rw [hb] at h
    cases h
    exact ⟨nofun, nofun⟩

theorem assign_ordinary (hn : name.IsText) (h : σ.assign name v = .error e) : e.Ordinary := by
  obtain ⟨key, hk⟩ := hn.key?
  rw [assign_eq hk] at h
  cases hb : σ.find? key with
  | some b =>
    rw [hb] at h
    cases h
  | none =>
    rw [hb] at h
    cases h
    exact ⟨nofun, nofun⟩

theorem declare_ok (hn : name.IsText) : ∃ σ', σ.declare tag name v = .ok σ' := by
  obtain ⟨key, hk⟩ := hn.key?
  rw [declare_eq hk]
  exact ⟨_, rfl⟩

end Scope

end SmallImp
