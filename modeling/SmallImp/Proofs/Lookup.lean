import SmallImp.Machine.Eval

/-!
# Looking up names

* `Table.find?_upsert`, `Table.mem_entries_upsert` — the entries of a table after a key was set;
* `Scope.read_eq`, `Scope.assign_eq`, `Scope.declare_eq` — the operations of a scope, given the key
  of the name;
* `callee_eq` — what a call refers to, given the key of the name;
* `callee_print`, `callee_function` — the same when `print` is the only builtin.
-/

namespace SmallImp

/-! ### Keys -/

theorem Json.key_of_key? {name : Name} {key : Key} (h : Json.key? name = some key) :
    Json.key name = .ok key := by
  rw [Json.key, h]

theorem Json.key_of_unusable {name : Name} (h : Json.key? name = none) :
    Json.key name = .error (.defect (.unusableName name.shape)) := by
  rw [Json.key, h]

/-- No name but a text itself has the key of the text. -/
theorem Json.key?_eq_str {name : Name} {text : Codes} :
    Json.key? name = some (.str text) ↔ name = .str text := by
  cases name with
  | str s => simp [Json.key?]
  | float x =>
    simp only [Json.key?]
    cases Binary64.toInt? x <;> simp
  | _ => simp [Json.key?]

/-! ### Tables -/

namespace Table

variable {α : Type}

theorem lookup_upsertRows (key key' : Key) (f : Option α → α) (rows : List (Key × α)) :
    lookup key' (upsertRows key f rows) =
      if key = key' then some (f (lookup key rows)) else lookup key' rows := by
  induction rows with
  | nil => rfl
  | cons row rest ih =>
    obtain ⟨k, entry⟩ := row
    by_cases hk : k = key
    · subst hk
      by_cases hk' : k = key' <;> simp [upsertRows, lookup, hk']
    · rw [upsertRows, if_neg hk, lookup, lookup, ih, lookup, if_neg hk]
      by_cases hk' : k = key'
      · subst hk'
        rw [if_pos rfl, if_neg (Ne.symm hk)]
        simp
      · rw [if_neg hk', if_neg hk']

/-- The entry of a key after some key was set. -/
theorem find?_upsert (t : Table α) (key key' : Key) (f : Option α → α) :
    (t.upsert key f).find? key' = if key = key' then some (f (t.find? key)) else t.find? key' :=
  lookup_upsertRows key key' f t.rows

/-- What is found under a key is one of the entries. -/
theorem mem_entries_of_find? {t : Table α} {key : Key} {a : α} (h : t.find? key = some a) :
    a ∈ t.entries := by
  obtain ⟨rows⟩ := t
  show a ∈ rows.map (·.2)
  replace h : lookup key rows = some a := h
  induction rows with
  | nil => cases h
  | cons row rest ih =>
    obtain ⟨k, entry⟩ := row
    rw [lookup] at h
    split at h
    · cases h
      exact List.mem_cons_self
    · exact List.mem_cons_of_mem _ (ih h)

/-- After a key was set, every entry is one that was there or the new one. -/
theorem mem_entries_upsert {t : Table α} {key : Key} {f : Option α → α} {a : α}
    (h : a ∈ (t.upsert key f).entries) : a ∈ t.entries ∨ a = f (t.find? key) := by
  obtain ⟨rows⟩ := t
  show a ∈ rows.map (·.2) ∨ a = f (lookup key rows)
  replace h : a ∈ (upsertRows key f rows).map (·.2) := h
  induction rows with
  | nil => exact .inr (List.mem_singleton.mp h)
  | cons row rest ih =>
    obtain ⟨k, entry⟩ := row
    rw [upsertRows] at h
    rw [lookup]
    split at h
    next hk =>
      rw [if_pos hk]
      rcases List.mem_cons.mp h with h | h
      · exact .inr h
      · exact .inl (List.mem_cons_of_mem _ h)
    next hk =>
      rw [if_neg hk]
      rcases List.mem_cons.mp h with h | h
      · exact .inl (List.mem_cons.mpr (.inl h))
      · rcases ih h with h | h
        · exact .inl (List.mem_cons_of_mem _ h)
        · exact .inr h

end Table

/-! ### Scopes -/

namespace Scope

variable {scope : Scope} {name : Name} {key : Key}

theorem read_eq (hk : Json.key? name = some key) :
    scope.read name =
      match scope.find? key with
      | some b => .ok b.value
      | none => .error (.error (.unbound name)) := by
  rw [read, Json.key_of_key? hk]
  rfl

theorem read_unusable (hk : Json.key? name = none) :
    scope.read name = .error (.defect (.unusableName name.shape)) := by
  rw [read, Json.key_of_unusable hk]
  rfl

theorem assign_eq (hk : Json.key? name = some key) (value : Value) :
    scope.assign name value =
      match scope.find? key with
      | some b => .ok (scope.upsert key fun _ => { b with value })
      | none => .error (.error (.unbound name)) := by
  rw [assign, Json.key_of_key? hk]
  rfl

theorem assign_unusable (hk : Json.key? name = none) (value : Value) :
    scope.assign name value = .error (.defect (.unusableName name.shape)) := by
  rw [assign, Json.key_of_unusable hk]
  rfl

theorem declare_eq (hk : Json.key? name = some key) (tag : TypeTag) (value : Value) :
    scope.declare tag name value =
      .ok (scope.upsert key fun
        | some b => { b with tag, value }
        | none => ⟨name, tag, value⟩) := by
  rw [declare, Json.key_of_key? hk]
  rfl

theorem declare_unusable (hk : Json.key? name = none) (tag : TypeTag) (value : Value) :
    scope.declare tag name value = .error (.defect (.unusableName name.shape)) := by
  rw [declare, Json.key_of_unusable hk]
  rfl

/-- A declaration is refused only for a name without a key. -/
theorem declare_error {tag : TypeTag} {value : Value} {e : Failure}
    (h : scope.declare tag name value = .error e) : ∃ d, e = .defect d := by
  cases hk : Json.key? name with
  | none =>
    rw [declare_unusable hk] at h
    cases h
    exact ⟨_, rfl⟩
  | some key =>
    rw [declare_eq hk] at h
    cases h

/-- An assignment is refused with an error of the language only for a name that is not bound. -/
theorem assign_error {value : Value} {err : RuntimeError}
    (h : scope.assign name value = .error (.error err)) :
    ∃ key, Json.key? name = some key ∧ scope.find? key = none ∧ err = .unbound name := by
  cases hk : Json.key? name with
  | none =>
    rw [assign_unusable hk] at h
    cases h
  | some key =>
    rw [assign_eq hk] at h
    cases hb : scope.find? key with
    | some b =>
      rw [hb] at h
      cases h
    | none =>
      rw [hb] at h
      cases h
      exact ⟨key, rfl, hb, rfl⟩

end Scope

/-! ### Calls -/

theorem BuiltinTable.find?_standard (key : Key) :
    BuiltinTable.standard.find? key =
      if Key.str "print" = key then some ⟨"print", none, .print⟩ else none := rfl

section Callee

variable {s : Setting} {name : Name} {key : Key} {count : Nat}

theorem callee_unusable (hk : Json.key? name = none) :
    s.callee name count = .error (.defect (.unusableName name.shape)) := by
  rw [Setting.callee, Json.key_of_unusable hk]
  rfl

/-- A call looks for a builtin, and then for a registered function. -/
theorem callee_eq (hk : Json.key? name = some key) :
    s.callee name count =
      match s.builtins.find? key with
      | some b =>
        if b.takes count then .ok (.builtin b)
        else .error (.error (.builtinArguments b.name (b.arity.getD 0)))
      | none =>
        match s.functions.find? key with
        | none => .error (.error (.unknownFunction name))
        | some ⟨_, .misfit _⟩ => .error (.defect .missingField)
        | some ⟨_, .decl f⟩ =>
          if count = f.params.length then .ok (.func f)
          else .error (.error (.arguments f.name f.params.length count)) := by
  rw [Setting.callee, Json.key_of_key? hk]
  rfl

/-- A call of a function: its name has a key of no builtin, under which the function is registered, and
there are as many arguments as parameters. -/
theorem callee_eq_func {f : FuncDecl} (h : s.callee name count = .ok (.func f)) :
    ∃ key first, Json.key? name = some key ∧ s.builtins.find? key = none ∧
      s.functions.find? key = some ⟨first, .decl f⟩ ∧ count = f.params.length := by
  cases hk : Json.key? name with
  | none =>
    rw [callee_unusable hk] at h
    cases h
  | some key =>
    rw [callee_eq hk] at h
    split at h
    · split at h
      · cases h
      · cases h
    next hb =>
      split at h
      · cases h
      · cases h
      next first g hg =>
        split at h
        next hl =>
          cases h
          exact ⟨key, first, rfl, hb, hg, hl⟩
        next => cases h

variable (hs : s.builtins = .standard)

include hs

theorem callee_print : s.callee (.str "print") count = .ok (.builtin ⟨"print", none, .print⟩) := by
  rw [callee_eq rfl, hs]
  rfl

/-- A name other than `print` refers to a registered function. -/
theorem callee_function (hn : name ≠ .str "print") (hk : Json.key? name = some key) :
    s.callee name count =
      match s.functions.find? key with
      | none => .error (.error (.unknownFunction name))
      | some ⟨_, .misfit _⟩ => .error (.defect .missingField)
      | some ⟨_, .decl f⟩ =>
        if count = f.params.length then .ok (.func f)
        else .error (.error (.arguments f.name f.params.length count)) := by
  have hkey : Key.str "print" ≠ key := by
    rintro rfl
    exact hn (Json.key?_eq_str.mp hk)
  rw [callee_eq hk, hs, BuiltinTable.find?_standard, if_neg hkey]

end Callee

end SmallImp
