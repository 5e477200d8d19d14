import Mathlib.Data.List.Nodup
import SmallImp.Proofs.Isolation
import SmallImp.Proofs.Sorts

/-!
# Environments

An environment is two dictionaries side by side, the values of the variables and their types, each in
the order in which names were first put there. A declaration writes to both, an assignment to the
values only. A scope keeps the two together and shows them as one.

* `put`, `addName` — a dictionary and its names after an entry was put there;
* `Environment`, `Environment.Changes` — declarations and assignments one after the other;
* `Environment.Orderly`, `Environment.Changes.orderly` — names are distinct and the same in both
  dictionaries;
* `Environment.Changes.keys_eq` — new names are added at the end, in the order of first declaration;
* `Scope.Shows` — a scope holds the two dictionaries of an environment;
* `Scope.Becomes` — declarations and assignments lead from one scope to another.
-/

namespace SmallImp

/-! ### Dictionaries -/

/-- Puts an entry under a name: in the place of the one it had, or at the end. -/
def put {α : Type} (name : Codes) (a : α) : List (Codes × α) → List (Codes × α)
  | [] => [(name, a)]
  | row :: rest => if row.1 = name then (name, a) :: rest else row :: put name a rest

/-- Adds a name at the end unless it is there. -/
def addName (names : List Codes) (name : Codes) : List Codes :=
  if name ∈ names then names else names ++ [name]

/-- The names of a dictionary after an entry was put there. -/
theorem map_fst_put {α : Type} (name : Codes) (a : α) (rows : List (Codes × α)) :
    (put name a rows).map Prod.fst = addName (rows.map Prod.fst) name := by
  induction rows with
  | nil => simp [put, addName]
  | cons row rest ih =>
    rw [put]
    by_cases hrow : row.1 = name
    · simp [hrow, addName]
    · rw [if_neg hrow, List.map_cons, ih, addName, addName, List.map_cons]
      by_cases hrest : name ∈ rest.map Prod.fst
      · rw [if_pos hrest, if_pos (List.mem_cons_of_mem _ hrest)]
      · rw [if_neg hrest, if_neg (by simp [hrest, Ne.symm hrow]), List.cons_append]

theorem addName_of_mem {names : List Codes} {name : Codes} (h : name ∈ names) :
    addName names name = names := if_pos h

theorem nodup_addName {names : List Codes} (h : names.Nodup) (name : Codes) :
    (addName names name).Nodup := by
  by_cases hname : name ∈ names
  · rwa [addName_of_mem hname]
  · rw [addName, if_neg hname, List.nodup_append]
    refine ⟨h, List.nodup_singleton name, ?_⟩
    intro a ha b hb hab
    rw [List.mem_singleton.mp hb] at hab
    exact hname (hab ▸ ha)

/-- Names added one after the other: what is new comes after what was there, each name where it is
met first. -/
theorem foldl_addName (declared : List Codes) : ∀ names : List Codes,
    declared.foldl addName names = names ++ (declared.filter (· ∉ names)).eraseDups := by
  induction declared with
  | nil => simp
  | cons name rest ih =>
    intro names
    rw [List.foldl_cons, ih]
    by_cases hname : name ∈ names
    · rw [addName_of_mem hname, List.filter_cons_of_neg (by simp [hname])]
    · have hrest : rest.filter (· ∉ names ++ [name]) =
          (rest.filter (· ∉ names)).filter fun other => !other == name := by
        rw [List.filter_filter]
        refine List.filter_congr fun other _ => ?_
        by_cases hother : other = name <;> simp [hother, hname]
      rw [addName, if_neg hname, List.filter_cons_of_pos (by simp [hname]), List.eraseDups_cons,
        List.append_assoc, List.singleton_append, hrest]

theorem eraseDups_eq_foldl (names : List Codes) : names.eraseDups = names.foldl addName [] := by
  rw [foldl_addName, List.nil_append]
  simp

theorem nodup_foldl_addName (declared : List Codes) : ∀ {names : List Codes}, names.Nodup →
    (declared.foldl addName names).Nodup := by
  induction declared with
  | nil => exact id
  | cons name rest ih => exact fun h => ih (nodup_addName h name)

/-! ### Environments -/

/-- The values of variables and their types. -/
structure Environment where
  values : List (Codes × Value)
  types : List (Codes × TypeTag)

namespace Environment

/-- No variables. -/
def empty : Environment := ⟨[], []⟩

/-- The names of the variables that have a value. -/
def keys (E : Environment) : List Codes := E.values.map Prod.fst

/-- A declaration puts a value and a type there. -/
def declare (E : Environment) (tag : TypeTag) (name : Codes) (v : Value) : Environment :=
  ⟨put name v E.values, put name tag E.types⟩

/-- An assignment puts a value in the place of the one that was there. -/
def set? (E : Environment) (name : Codes) (v : Value) : Option Environment :=
  if name ∈ E.keys then some { E with values := put name v E.values } else none

/-- Declarations and assignments one after the other lead from one environment to another. The names
are those that are declared, in order. -/
inductive Changes : Environment → List Codes → Environment → Prop where
  | done {E : Environment} : Changes E [] E
  | declare {E E' : Environment} {tag : TypeTag} {name : Codes} {v : Value} {declared : List Codes}
      (more : Changes (E.declare tag name v) declared E') : Changes E (name :: declared) E'
  | set {E E₁ E' : Environment} {name : Codes} {v : Value} {declared : List Codes}
      (h : E.set? name v = some E₁) (more : Changes E₁ declared E') : Changes E declared E'

/-- The names of values are distinct, and they are the names of types, in the same order. -/
structure Orderly (E : Environment) : Prop where
  distinct : (E.values.map Prod.fst).Nodup
  parallel : E.types.map Prod.fst = E.values.map Prod.fst

variable {E E₁ E' E'' : Environment} {declared declared' : List Codes}

theorem keys_declare (E : Environment) (tag : TypeTag) (name : Codes) (v : Value) :
    (E.declare tag name v).keys = addName E.keys name := map_fst_put ..

theorem keys_set {name : Codes} {v : Value} (h : E.set? name v = some E₁) : E₁.keys = E.keys := by
  rw [set?] at h
  split at h
  next hname =>
    cases h
    exact (map_fst_put ..).trans (addName_of_mem hname)
  next => cases h

theorem types_set {name : Codes} {v : Value} (h : E.set? name v = some E₁) : E₁.types = E.types := by
  rw [set?] at h
  split at h
  next =>
    cases h
    rfl
  next => cases h

theorem Orderly.empty : Orderly .empty := ⟨List.nodup_nil, rfl⟩

theorem Orderly.declare (h : E.Orderly) (tag : TypeTag) (name : Codes) (v : Value) :
    (E.declare tag name v).Orderly := by
  refine ⟨?_, ?_⟩
  · rw [Environment.declare, map_fst_put]
    exact nodup_addName h.distinct name
  · rw [Environment.declare, map_fst_put, map_fst_put, h.parallel]

theorem Orderly.set {name : Codes} {v : Value} (h : E.Orderly) (hset : E.set? name v = some E₁) :
    E₁.Orderly := by
  have hkeys : E₁.values.map Prod.fst = E.values.map Prod.fst := keys_set hset
  refine ⟨?_, ?_⟩
  · rw [hkeys]
    exact h.distinct
  · rw [hkeys, types_set hset]
    exact h.parallel

namespace Changes

theorem trans (h : Changes E declared E') (h' : Changes E' declared' E'') :
    Changes E (declared ++ declared') E'' := by
  induction h with
  | done => exact h'
  | declare more ih => exact .declare (ih h')
  | set h more ih => exact .set h (ih h')

/-- **Declarations and assignments keep an environment orderly.** -/
theorem orderly (h : Changes E declared E') (hE : E.Orderly) : E'.Orderly := by
  induction h with
  | done => exact hE
  | declare more ih => exact ih (hE.declare ..)
  | set h more ih => exact ih (hE.set h)

/-- **Names that are declared anew come at the end, in the order in which they are first declared.**
-/
theorem keys_eq (h : Changes E declared E') :
    E'.keys = E.keys ++ (declared.filter (· ∉ E.keys)).eraseDups := by
  rw [← foldl_addName]
  induction h with
  | done => rfl
  | declare more ih => rw [List.foldl_cons, ih, keys_declare]
  | set h more ih => rw [ih, keys_set h]

end Changes

end Environment

/-! ### Scopes as environments -/

/-- A name that is a text. -/
def Json.texts : Json → List Codes
  | .str s => [s]
  | _ => []

theorem Json.key?_str (s : Codes) : Json.key? (.str s) = some (.str s) := rfl

namespace Scope

open Json (key?_str)

/-- A scope holds the values and the types of an environment, under the keys of their names. -/
structure Shows (σ : Scope) (E : Environment) : Prop where
  values : σ.values = E.values.map fun row => (.str row.1, row.2)
  types : σ.tags = E.types.map fun row => (.str row.1, row.2)
  keys : σ.keys = E.keys.map .str

theorem Shows.empty : Shows .empty .empty := ⟨rfl, rfl, rfl⟩

theorem Shows.cons {rows : List (Key × Binding)} {values : List (Codes × Value)}
    {types : List (Codes × TypeTag)} (h : Shows ⟨rows⟩ ⟨values, types⟩) (name : Codes) (tag : TypeTag)
    (v : Value) :
    Shows ⟨(.str name, ⟨.str name, tag, v⟩) :: rows⟩ ⟨(name, v) :: values, (name, tag) :: types⟩ :=
  ⟨congrArg (List.cons (Json.str name, v)) h.values, congrArg (List.cons (Json.str name, tag)) h.types,
    congrArg (List.cons (Key.str name)) h.keys⟩

/-- The first row of a scope is the first entry of both dictionaries. -/
theorem Shows.uncons {row : Key × Binding} {rows : List (Key × Binding)} {E : Environment}
    (h : Shows ⟨row :: rows⟩ E) : ∃ name tag v values types,
      row = (.str name, ⟨.str name, tag, v⟩) ∧ E = ⟨(name, v) :: values, (name, tag) :: types⟩ ∧
      Shows ⟨rows⟩ ⟨values, types⟩ := by
  obtain ⟨key, name, tag, v⟩ := row
  obtain ⟨values, types⟩ := E
  obtain ⟨hvalues, htypes, hkeys⟩ := h
  cases values with
  | nil => cases hvalues
  | cons first values =>
    cases types with
    | nil => cases htypes
    | cons second types =>
      obtain ⟨hfirst, hvalues'⟩ := List.cons.inj hvalues
      obtain ⟨hsecond, htypes'⟩ := List.cons.inj htypes
      obtain ⟨hkey, hkeys'⟩ := List.cons.inj hkeys
      obtain ⟨n, a⟩ := first
      obtain ⟨n', b⟩ := second
      cases hfirst
      cases hsecond
      cases hkey
      exact ⟨_, _, _, values, types, rfl, rfl, hvalues', htypes', hkeys'⟩

theorem Shows.eq_empty {E : Environment} (h : Shows ⟨[]⟩ E) : E = .empty := by
  obtain ⟨values, types⟩ := E
  obtain ⟨hvalues, htypes, -⟩ := h
  cases values with
  | cons => cases hvalues
  | nil =>
    cases types with
    | cons => cases htypes
    | nil => rfl

theorem Shows.declare {σ σ' : Scope} {E : Environment} (h : σ.Shows E) {tag : TypeTag} {name : Codes}
    {v : Value} (hσ : σ.declare tag (.str name) v = .ok σ') : σ'.Shows (E.declare tag name v) := by
  rw [declare_eq (key?_str name)] at hσ
  cases hσ
  obtain ⟨rows⟩ := σ
  induction rows generalizing E with
  | nil =>
    rw [h.eq_empty]
    exact Shows.empty.cons name tag v
  | cons row rows ih =>
    obtain ⟨name', tag', v', values, types, rfl, rfl, hrest⟩ := h.uncons
    rw [Table.upsert, Table.upsertRows, Environment.declare, put, put]
    by_cases hname : name' = name
    · subst hname
      rw [if_pos rfl, if_pos rfl, if_pos rfl]
      exact hrest.cons name' tag v
    · rw [if_neg (by simpa using hname), if_neg hname, if_neg hname]
      exact (ih hrest).cons name' tag' v'

/-- A new value in the place of one that is there. -/
theorem Shows.replace {rows : List (Key × Binding)} {E : Environment} (h : Shows ⟨rows⟩ E)
    {name : Codes} {b : Binding} (hb : Table.lookup (.str name) rows = some b) (v : Value) :
    name ∈ E.keys ∧ Shows ⟨Table.upsertRows (.str name) (fun _ => { b with value := v }) rows⟩
      { E with values := put name v E.values } := by
  induction rows generalizing E with
  | nil => cases hb
  | cons row rows ih =>
    obtain ⟨name', tag', v', values, types, rfl, rfl, hrest⟩ := h.uncons
    rw [Table.lookup] at hb
    rw [Table.upsertRows, put]
    by_cases hname : name' = name
    · subst hname
      rw [if_pos rfl] at hb
      cases hb
      rw [if_pos rfl, if_pos rfl]
      exact ⟨List.mem_cons_self, hrest.cons name' tag' v⟩
    · rw [if_neg (by simpa using hname)] at hb
      obtain ⟨hmem, hshows⟩ := ih hrest hb
      rw [if_neg (by simpa using hname), if_neg hname]
      exact ⟨List.mem_cons_of_mem _ hmem, hshows.cons name' tag' v'⟩

theorem Shows.assign {σ σ' : Scope} {E : Environment} (h : σ.Shows E) {name : Codes} {v : Value}
    (hσ : σ.assign (.str name) v = .ok σ') : ∃ E', E.set? name v = some E' ∧ σ'.Shows E' := by
  rw [assign_eq (key?_str name)] at hσ
  split at hσ
  next b hb =>
    cases hσ
    obtain ⟨hmem, hshows⟩ := h.replace hb v
    exact ⟨_, if_pos hmem, hshows⟩
  next => cases hσ

/-- Assignments, and declarations of these names in this order, lead from one scope to another. -/
def Becomes (σ : Scope) (declared : List Codes) (σ' : Scope) : Prop :=
  ∀ E, σ.Shows E → ∃ E', E.Changes declared E' ∧ σ'.Shows E'

variable {σ σ' σ'' : Scope} {declared declared' : List Codes}

theorem Becomes.refl (σ : Scope) : σ.Becomes [] σ := fun E h => ⟨E, .done, h⟩

theorem Becomes.trans (h : σ.Becomes declared σ') (h' : σ'.Becomes declared' σ'') :
    σ.Becomes (declared ++ declared') σ'' := by
  intro E hE
  obtain ⟨E', hchanges, hE'⟩ := h E hE
  obtain ⟨E'', hchanges', hE''⟩ := h' E' hE'
  exact ⟨E'', hchanges.trans hchanges', hE''⟩

theorem Becomes.declare {name : Name} (hn : name.IsText) {tag : TypeTag} {v : Value}
    (h : σ.declare tag name v = .ok σ') : σ.Becomes name.texts σ' := by
  obtain ⟨s, rfl⟩ := hn
  exact fun E hE => ⟨_, .declare .done, hE.declare h⟩

theorem Becomes.assign {name : Name} (hn : name.IsText) {v : Value}
    (h : σ.assign name v = .ok σ') : σ.Becomes [] σ' := by
  obtain ⟨s, rfl⟩ := hn
  intro E hE
  obtain ⟨E', hset, hE'⟩ := hE.assign h
  exact ⟨E', .set hset .done, hE'⟩

end Scope

end SmallImp
