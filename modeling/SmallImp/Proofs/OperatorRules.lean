import SmallImp.Value.Operators

/-!
# Rules of the operators

What every operator gives on every pair of operands, as rules that are read off the language and not
off the functions that compute it.

* `Widens` — the float that a number counts as;
* `BinaryRule`, `UnaryRule` — the rules, one for each shape of operands;
* `BinaryOp.apply_iff`, `UnaryOp.apply_iff` — the operators compute what the rules say.

An integer that is too large for a float has no rule; no run produces one.
-/

namespace SmallImp

/-! ### The rules -/

/-- A number and the float it counts as beside a float and in comparisons. -/
inductive Widens : Value → Float → Prop where
  | int {n : Int} (h : Binary64.isInfinite (Binary64.ofInt n) = false) :
      Widens (.int n) (Binary64.ofInt n)
  | float {x : Float} : Widens (.float x) x

/-- A value that is there and that no operator takes for a number. -/
inductive NoNumber : Value → Prop where
  | bool {b : Bool} : NoNumber (.bool b)
  | str {s : Codes} : NoNumber (.str s)

/-- The operators that take numbers. -/
def BinaryOp.onNumbers (op : BinaryOp) : Prop := op ∈ [add, sub, mul, div, gt, lt, ge, le]

instance (op : BinaryOp) : Decidable op.onNumbers := inferInstanceAs (Decidable (op ∈ _))

/-- What a binary operator gives on two operands. -/
inductive BinaryRule : BinaryOp → Value → Value → Except RuntimeError Value → Prop where
  /-- An absent operand is looked at before anything else. -/
  | absent {op a b} (h : a = .null ∨ b = .null) :
      BinaryRule op a b (.error (.absentOperand op.symbol a.display b.display))
  -- two integers
  | addInts {m n} : BinaryRule .add (.int m) (.int n) (.ok (.int (wrap64 (m + n))))
  | subInts {m n} : BinaryRule .sub (.int m) (.int n) (.ok (.int (wrap64 (m - n))))
  | mulInts {m n} : BinaryRule .mul (.int m) (.int n) (.ok (.int (wrap64 (m * n))))
  | divInts {m n} (h : n ≠ 0) : BinaryRule .div (.int m) (.int n) (.ok (.int (wrap64 (m.tdiv n))))
  | divZero {m} : BinaryRule .div (.int m) (.int 0) (.error .zeroDivisor)
  -- two numbers, at least one of them a float
  | addFloats {a b x y} (h : ¬(a.isInt ∧ b.isInt)) (ha : Widens a x) (hb : Widens b y) :
      BinaryRule .add a b (.ok (.float (x + y)))
  | subFloats {a b x y} (h : ¬(a.isInt ∧ b.isInt)) (ha : Widens a x) (hb : Widens b y) :
      BinaryRule .sub a b (.ok (.float (x - y)))
  | mulFloats {a b x y} (h : ¬(a.isInt ∧ b.isInt)) (ha : Widens a x) (hb : Widens b y) :
      BinaryRule .mul a b (.ok (.float (x * y)))
  | divFloats {a b x y} (h : ¬(a.isInt ∧ b.isInt)) (ha : Widens a x) (hb : Widens b y) :
      BinaryRule .div a b (.ok (.float (x / y)))
  -- comparisons are always made between floats
  | gt {a b x y} (ha : Widens a x) (hb : Widens b y) : BinaryRule .gt a b (.ok (.bool (y < x)))
  | lt {a b x y} (ha : Widens a x) (hb : Widens b y) : BinaryRule .lt a b (.ok (.bool (x < y)))
  | ge {a b x y} (ha : Widens a x) (hb : Widens b y) : BinaryRule .ge a b (.ok (.bool (y ≤ x)))
  | le {a b x y} (ha : Widens a x) (hb : Widens b y) : BinaryRule .le a b (.ok (.bool (x ≤ y)))
  | leftNoNumber {op a b} (h : op.onNumbers) (ha : NoNumber a) (hb : b ≠ .null) :
      BinaryRule op a b (.error (.notNumber a.typeName))
  | rightNoNumber {op a b x} (h : op.onNumbers) (ha : Widens a x) (hb : NoNumber b) :
      BinaryRule op a b (.error (.notNumber b.typeName))
  -- equality and the connectives
  | eq {a b} (ha : a ≠ .null) (hb : b ≠ .null) : BinaryRule .eq a b (.ok (.bool (a = b)))
  | and {p q} : BinaryRule .and (.bool p) (.bool q) (.ok (.bool (p && q)))
  | or {p q} : BinaryRule .or (.bool p) (.bool q) (.ok (.bool (p || q)))
  | noTruth {op a b} (h : op = .and ∨ op = .or) (ha : a ≠ .null) (hb : b ≠ .null)
      (hab : ¬∃ p q, a = .bool p ∧ b = .bool q) :
      BinaryRule op a b (.error (.logicOperands op.symbol a.typeName b.typeName))

/-- What a unary operator gives on an operand. -/
inductive UnaryRule : UnaryOp → Value → Except RuntimeError Value → Prop where
  | not {b} : UnaryRule .not (.bool b) (.ok (.bool (!b)))
  | notFails {v} (h : ∀ b, v ≠ .bool b) : UnaryRule .not v (.error (.notOperand v.typeName))
  | negInt {n} : UnaryRule .neg (.int n) (.ok (.int (wrap64 (-n))))
  | negFloat {x} : UnaryRule .neg (.float x) (.ok (.float (-x)))
  | negFails {v} (hi : ∀ n, v ≠ .int n) (hf : ∀ x, v ≠ .float x) :
      UnaryRule .neg v (.error (.negOperand v.typeName))

/-! ### Widening -/

theorem Widens.toFloat_eq {a : Value} {x : Float} (h : Widens a x) : a.toFloat = .ok x := by
  cases h with
  | int h => simp [Value.toFloat, h]
  | float => rfl

theorem NoNumber.toFloat_eq {a : Value} (h : NoNumber a) :
    a.toFloat = .error (.error (.notNumber a.typeName)) := by
  cases h <;> rfl

theorem Widens.ne_null {a : Value} {x : Float} (h : Widens a x) : a ≠ .null := by
  cases h <;> exact nofun

theorem NoNumber.ne_null {a : Value} (h : NoNumber a) : a ≠ .null := by
  cases h <;> exact nofun

/-- A value that is there is a number, is no number, or is an integer beyond all floats. -/
theorem widens_or_noNumber (a : Value) (h : a ≠ .null) :
    (∃ x, Widens a x) ∨ NoNumber a ∨ a.toFloat = .error (.defect .tooLarge) := by
  cases a with
  | null => exact absurd rfl h
  | bool b => exact .inr (.inl .bool)
  | str s => exact .inr (.inl .str)
  | float x => exact .inl ⟨x, .float⟩
  | int n =>
    by_cases hn : Binary64.isInfinite (Binary64.ofInt n) = false
    · exact .inl ⟨_, .int hn⟩
    · rw [Bool.not_eq_false] at hn
      exact .inr (.inr (by simp [Value.toFloat, hn]))

/-! ### The operators compute what the rules say -/

theorem BinaryOp.apply_present (op : BinaryOp) {a b : Value} (ha : a ≠ .null) (hb : b ≠ .null) :
    op.apply a b = op.applyPresent a b := by
  rw [BinaryOp.apply, if_neg (not_or.mpr ⟨ha, hb⟩)]

/-- What an operator on numbers does with two floats. -/
def BinaryOp.onFloats (op : BinaryOp) (x y : Float) : Value :=
  match op.family with
  | .arithmetic f => .float (f.onFloats x y)
  | .comparison f => .bool (f.holds x y)
  | _ => .null

/-- An operator on numbers converts its operands from left to right, unless it is an arithmetic
operator between two integers. -/
theorem BinaryOp.applyPresent_numbers {op : BinaryOp} (hop : op.onNumbers) {a b : Value}
    (h : (∃ f, op.family = .arithmetic f) → ¬(a.isInt ∧ b.isInt)) :
    op.applyPresent a b =
      (a.toFloat >>= fun x => b.toFloat >>= fun y => .ok (op.onFloats x y)) := by
  have harith : ∀ f : Arithmetic, ¬(a.isInt ∧ b.isInt) → arithmetic f a b =
      (a.toFloat >>= fun x => b.toFloat >>= fun y => .ok (.float (f.onFloats x y))) := by
    intro f hab
    cases a with
    | int m =>
      cases b with
      | int n => exact absurd ⟨rfl, rfl⟩ hab
      | _ => rfl
    | _ => rfl
  cases op with
  | add => exact harith .add (h ⟨.add, rfl⟩)
  | sub => exact harith .sub (h ⟨.sub, rfl⟩)
  | mul => exact harith .mul (h ⟨.mul, rfl⟩)
  | div => exact harith .div (h ⟨.div, rfl⟩)
  | gt => rfl
  | lt => rfl
  | ge => rfl
  | le => rfl
  | eq => simp [onNumbers] at hop
  | and => simp [onNumbers] at hop
  | or => simp [onNumbers] at hop

/-- The rule of two numbers that are converted to floats. -/
theorem BinaryRule.floats {op : BinaryOp} (hop : op.onNumbers) {a b : Value} {x y : Float}
    (h : (∃ f, op.family = .arithmetic f) → ¬(a.isInt ∧ b.isInt)) (ha : Widens a x)
    (hb : Widens b y) : BinaryRule op a b (.ok (op.onFloats x y)) := by
  cases op with
  | add => exact .addFloats (h ⟨.add, rfl⟩) ha hb
  | sub => exact .subFloats (h ⟨.sub, rfl⟩) ha hb
  | mul => exact .mulFloats (h ⟨.mul, rfl⟩) ha hb
  | div => exact .divFloats (h ⟨.div, rfl⟩) ha hb
  | gt => exact .gt ha hb
  | lt => exact .lt ha hb
  | ge => exact .ge ha hb
  | le => exact .le ha hb
  | eq => simp [BinaryOp.onNumbers] at hop
  | and => simp [BinaryOp.onNumbers] at hop
  | or => simp [BinaryOp.onNumbers] at hop

/-- An operator on two numbers that are converted to floats. -/
theorem BinaryOp.apply_floats {op : BinaryOp} (hop : op.onNumbers) {a b : Value} {x y : Float}
    (h : (∃ f, op.family = .arithmetic f) → ¬(a.isInt ∧ b.isInt)) (ha : Widens a x)
    (hb : Widens b y) : op.apply a b = .ok (op.onFloats x y) := by
  rw [apply_present op ha.ne_null hb.ne_null, applyPresent_numbers hop h, ha.toFloat_eq,
    hb.toFloat_eq]
  rfl

/-- Dividing the magnitudes and then setting the sign is division toward zero. -/
theorem signedQuotient_eq_tdiv (a b : Int) : signedQuotient a b = a.tdiv b := by
  have hnonneg (n : Nat) : ¬Int.ofNat n < 0 := Int.not_lt.mpr (Int.natCast_nonneg n)
  unfold signedQuotient
  cases a with
  | ofNat m =>
    cases b with
    | ofNat n => rw [if_pos (iff_of_false (hnonneg m) (hnonneg n))]; rfl
    | negSucc n => rw [if_neg fun h => hnonneg m (h.mpr (Int.negSucc_lt_zero n))]; rfl
  | negSucc m =>
    cases b with
    | ofNat n => rw [if_neg fun h => hnonneg n (h.mp (Int.negSucc_lt_zero m))]; rfl
    | negSucc n => rw [if_pos (iff_of_true (Int.negSucc_lt_zero m) (Int.negSucc_lt_zero n))]; rfl

/-- What the rules say of two operands is what the operator computes. -/
theorem BinaryRule.apply_eq {op : BinaryOp} {a b : Value} {r : Except RuntimeError Value}
    (h : BinaryRule op a b r) : op.apply a b = r.mapError .error := by
  cases h with
  | absent h => rw [BinaryOp.apply, if_pos h]; rfl
  | addInts => rfl
  | subInts => rfl
  | mulInts => rfl
  | divInts h =>
    show (divideInt _ _).map Value.int = _
    rw [divideInt, if_neg h, signedQuotient_eq_tdiv]
    rfl
  | divZero => rfl
  | addFloats h ha hb => exact BinaryOp.apply_floats (by decide) (fun _ => h) ha hb
  | subFloats h ha hb => exact BinaryOp.apply_floats (by decide) (fun _ => h) ha hb
  | mulFloats h ha hb => exact BinaryOp.apply_floats (by decide) (fun _ => h) ha hb
  | divFloats h ha hb => exact BinaryOp.apply_floats (by decide) (fun _ => h) ha hb
  | gt ha hb => exact BinaryOp.apply_floats (by decide) (by simp [BinaryOp.family]) ha hb
  | lt ha hb => exact BinaryOp.apply_floats (by decide) (by simp [BinaryOp.family]) ha hb
  | ge ha hb => exact BinaryOp.apply_floats (by decide) (by simp [BinaryOp.family]) ha hb
  | le ha hb => exact BinaryOp.apply_floats (by decide) (by simp [BinaryOp.family]) ha hb
  | leftNoNumber hop ha hb =>
    rw [BinaryOp.apply_present op ha.ne_null hb,
      BinaryOp.applyPresent_numbers hop (fun _ => by cases ha <;> simp [Value.isInt]),
      ha.toFloat_eq]
    rfl
  | rightNoNumber hop ha hb =>
    rw [BinaryOp.apply_present op ha.ne_null hb.ne_null,
      BinaryOp.applyPresent_numbers hop (fun _ => by cases hb <;> simp [Value.isInt]),
      ha.toFloat_eq]
    show (b.toFloat >>= _) = _
    rw [hb.toFloat_eq]
    rfl
  | eq ha hb => rw [BinaryOp.apply_present _ ha hb]; rfl
  | and => rfl
  | or => rfl
  | noTruth h ha hb hab =>
    rw [BinaryOp.apply_present op ha hb]
    have hconnect : ∀ f symbol, BinaryOp.connect f symbol a b =
        .error (.error (.logicOperands symbol a.typeName b.typeName)) := by
      intro f symbol
      cases a with
      | bool p =>
        cases b with
        | bool q => exact absurd ⟨p, q, rfl, rfl⟩ hab
        | _ => rfl
      | _ => rfl
    rcases h with rfl | rfl
    · exact hconnect .and _
    · exact hconnect .or _

/-- Two operands of an operator on numbers have a rule, unless one of them is an integer that is too
large for a float. -/
theorem BinaryRule.total_numbers {op : BinaryOp} (hop : op.onNumbers) {a b : Value}
    (h : (∃ f, op.family = .arithmetic f) → ¬(a.isInt ∧ b.isInt)) (ha : a ≠ .null)
    (hb : b ≠ .null) :
    (∃ r, BinaryRule op a b r) ∨ op.apply a b = .error (.defect .tooLarge) ∧
      (a.toFloat = .error (.defect .tooLarge) ∨ b.toFloat = .error (.defect .tooLarge)) := by
  rw [BinaryOp.apply_present op ha hb, BinaryOp.applyPresent_numbers hop h]
  rcases widens_or_noNumber a ha with ⟨x, hx⟩ | hx | hx
  · rcases widens_or_noNumber b hb with ⟨y, hy⟩ | hy | hy
    · exact .inl ⟨_, .floats hop h hx hy⟩
    · exact .inl ⟨_, .rightNoNumber hop hx hy⟩
    · exact .inr ⟨by rw [hx.toFloat_eq, hy]; rfl, .inr hy⟩
  · exact .inl ⟨_, .leftNoNumber hop hx hb⟩
  · exact .inr ⟨by rw [hx]; rfl, .inl hx⟩

/-- Two integers have a rule under every arithmetic operator. -/
theorem BinaryRule.total_ints {op : BinaryOp} {f : BinaryOp.Arithmetic}
    (hf : op.family = .arithmetic f) (m n : Int) : ∃ r, BinaryRule op (.int m) (.int n) r := by
  cases op with
  | add => exact ⟨_, .addInts⟩
  | sub => exact ⟨_, .subInts⟩
  | mul => exact ⟨_, .mulInts⟩
  | div =>
    by_cases hn : n = 0
    · subst hn
      exact ⟨_, .divZero⟩
    · exact ⟨_, .divInts hn⟩
  | gt => cases hf
  | lt => cases hf
  | ge => cases hf
  | le => cases hf
  | eq => cases hf
  | and => cases hf
  | or => cases hf

/-- The families of operators, as the rules tell them apart. -/
theorem BinaryOp.onNumbers_or (op : BinaryOp) :
    op.onNumbers ∨ op = .eq ∨ op = .and ∨ op = .or := by
  cases op <;> decide

theorem Value.eq_int_of_isInt {a : Value} (h : a.isInt) : ∃ n, a = .int n := by
  cases a with
  | int n => exact ⟨n, rfl⟩
  | _ => cases h

/-- Any two operands have a rule, unless one of them is an integer that is too large for a float. -/
theorem BinaryRule.total (op : BinaryOp) (a b : Value) :
    (∃ r, BinaryRule op a b r) ∨ op.apply a b = .error (.defect .tooLarge) ∧
      (a.toFloat = .error (.defect .tooLarge) ∨ b.toFloat = .error (.defect .tooLarge)) := by
  by_cases hnull : a = .null ∨ b = .null
  · exact .inl ⟨_, .absent hnull⟩
  obtain ⟨ha, hb⟩ := not_or.mp hnull
  rcases op.onNumbers_or with hop | rfl | hor
  · by_cases hints : (∃ f, op.family = .arithmetic f) ∧ a.isInt ∧ b.isInt
    · obtain ⟨⟨f, hf⟩, hia, hib⟩ := hints
      obtain ⟨m, rfl⟩ := Value.eq_int_of_isInt hia
      obtain ⟨n, rfl⟩ := Value.eq_int_of_isInt hib
      exact .inl (BinaryRule.total_ints hf m n)
    · exact BinaryRule.total_numbers hop (fun hf hab => hints ⟨hf, hab⟩) ha hb
  · exact .inl ⟨_, .eq ha hb⟩
  · by_cases hab : ∃ p q, a = .bool p ∧ b = .bool q
    · obtain ⟨p, q, rfl, rfl⟩ := hab
      rcases hor with rfl | rfl
      · exact .inl ⟨_, .and⟩
      · exact .inl ⟨_, .or⟩
    · exact .inl ⟨_, .noTruth hor ha hb hab⟩

theorem mapError_injective {r r' : Except RuntimeError Value}
    (h : r.mapError Failure.error = r'.mapError Failure.error) : r = r' := by
  cases r <;> cases r' <;> cases h <;> rfl

/-- **Binary operators compute what the rules say.** -/
theorem BinaryOp.apply_iff {op : BinaryOp} {a b : Value} {r : Except RuntimeError Value} :
    op.apply a b = r.mapError .error ↔ BinaryRule op a b r := by
  refine ⟨fun h => ?_, BinaryRule.apply_eq⟩
  rcases BinaryRule.total op a b with ⟨r', hr'⟩ | ⟨hlarge, -⟩
  · rw [mapError_injective (h.symm.trans hr'.apply_eq)]
    exact hr'
  · rw [hlarge] at h
    cases r <;> cases h

theorem UnaryRule.apply_eq {op : UnaryOp} {v : Value} {r : Except RuntimeError Value}
    (h : UnaryRule op v r) : op.apply v = r.mapError .error := by
  cases h with
  | not => rfl
  | notFails h =>
    cases v with
    | bool b => exact absurd rfl (h b)
    | _ => rfl
  | negInt => rfl
  | negFloat => rfl
  | negFails hi hf =>
    cases v with
    | int n => exact absurd rfl (hi n)
    | float x => exact absurd rfl (hf x)
    | _ => rfl

/-- Any operand has a rule. -/
theorem UnaryRule.total (op : UnaryOp) (v : Value) : ∃ r, UnaryRule op v r := by
  cases op with
  | not =>
    by_cases h : ∃ b, v = .bool b
    · obtain ⟨b, rfl⟩ := h
      exact ⟨_, .not⟩
    · exact ⟨_, .notFails (not_exists.mp h)⟩
  | neg =>
    by_cases hi : ∃ n, v = .int n
    · obtain ⟨n, rfl⟩ := hi
      exact ⟨_, .negInt⟩
    · by_cases hf : ∃ x, v = .float x
      · obtain ⟨x, rfl⟩ := hf
        exact ⟨_, .negFloat⟩
      · exact ⟨_, .negFails (not_exists.mp hi) (not_exists.mp hf)⟩

/-- **Unary operators compute what the rules say.** -/
theorem UnaryOp.apply_iff {op : UnaryOp} {v : Value} {r : Except RuntimeError Value} :
    op.apply v = r.mapError .error ↔ UnaryRule op v r := by
  refine ⟨fun h => ?_, UnaryRule.apply_eq⟩
  obtain ⟨r', hr'⟩ := UnaryRule.total op v
  rw [mapError_injective (h.symm.trans hr'.apply_eq)]
  exact hr'

/-- What is read off an applied operator. -/
theorem BinaryRule.of_ok {op : BinaryOp} {a b v : Value} (h : op.apply a b = .ok v) :
    BinaryRule op a b (.ok v) := BinaryOp.apply_iff.mp h

theorem BinaryRule.of_error {op : BinaryOp} {a b : Value} {err : RuntimeError}
    (h : op.apply a b = .error (.error err)) : BinaryRule op a b (.error err) :=
  BinaryOp.apply_iff.mp h

theorem UnaryRule.of_ok {op : UnaryOp} {a v : Value} (h : op.apply a = .ok v) :
    UnaryRule op a (.ok v) := UnaryOp.apply_iff.mp h

theorem UnaryRule.of_error {op : UnaryOp} {a : Value} {err : RuntimeError}
    (h : op.apply a = .error (.error err)) : UnaryRule op a (.error err) :=
  UnaryOp.apply_iff.mp h

end SmallImp
