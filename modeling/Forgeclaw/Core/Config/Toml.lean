/-
  TOML trees (`toml::Value`) and lookup along a path.

  A table is the list of its entries in key order, as the crate's map (a B-tree map) holds
  them. Floats are kept by their bits and datetimes by their text: no function of the
  configuration looks into them.
-/
import Forgeclaw.Foundation.AssocMap

namespace Forgeclaw.Core.Config

inductive Value where
  | string (s : String)
  | integer (i : Int)
  | float (bits : UInt64)
  | boolean (b : Bool)
  | datetime (text : String)
  | array (items : List Value)
  | table (entries : List (String × Value))

/-- Entries of a table. -/
abbrev Table := List (String × Value)

namespace Value

def isTable : Value → Bool
  | table _ => true
  | _ => false

mutual

/-- Every table in the value has its keys in order, each once. -/
def wellFormed : Value → Bool
  | .table t => decide (AssocMap.Ordered t) && entriesWellFormed t
  | .array items => itemsWellFormed items
  | _ => true

def entriesWellFormed : List (String × Value) → Bool
  | [] => true
  | e :: rest => entryWellFormed e && entriesWellFormed rest

def entryWellFormed : String × Value → Bool
  | (_, v) => v.wellFormed

def itemsWellFormed : List Value → Bool
  | [] => true
  | v :: rest => v.wellFormed && itemsWellFormed rest

end

/-- The value at a path, if every step leads from a table to one of its keys. -/
def lookup : Value → List String → Option Value
  | v, [] => some v
  | .table t, k :: rest =>
    match AssocMap.get k t with
    | some c => lookup c rest
    | none => none
  | _, _ :: _ => none

/-- Nothing on the way to the path is in the way of it: each of its proper prefixes holds a
    table or nothing. -/
def Unblocked : Value → List String → Prop
  | _, [] => True
  | .table t, k :: rest => ∀ c, AssocMap.get k t = some c → Unblocked c rest
  | _, _ :: _ => False

theorem eq_table_of_isTable {v : Value} (h : v.isTable = true) : ∃ t, v = table t := by
  cases v with
  | table t => exact ⟨t, rfl⟩
  | _ => simp [isTable] at h

/-- Induction on a tree: what holds of the values in a table holds of the table. -/
theorem induction_tables {P : Value → Prop} (hleaf : ∀ v, v.isTable = false → P v)
    (htable : ∀ t, (∀ e ∈ t, P e.2) → P (.table t)) : ∀ v, P v
  | .table t => htable t fun e _ => induction_tables hleaf htable e.2
  | .string _ | .integer _ | .float _ | .boolean _ | .datetime _ | .array _ => hleaf _ rfl
termination_by v => sizeOf v
decreasing_by
  rename_i he
  obtain ⟨k, v⟩ := e
  have hlt := List.sizeOf_lt_of_mem he
  simp only [Prod.mk.sizeOf_spec, table.sizeOf_spec] at hlt ⊢
  omega

theorem entriesWellFormed_iff {t : Table} :
    entriesWellFormed t = true ↔ ∀ e ∈ t, e.2.wellFormed = true := by
  induction t with
  | nil => simp [entriesWellFormed]
  | cons e t ih =>
    rw [entriesWellFormed, Bool.and_eq_true, ih, List.forall_mem_cons, entryWellFormed]

theorem wellFormed_table {t : Table} :
    (table t).wellFormed = true ↔ AssocMap.Ordered t ∧ ∀ e ∈ t, e.2.wellFormed = true := by
  rw [wellFormed, Bool.and_eq_true, decide_eq_true_eq, entriesWellFormed_iff]

@[simp] theorem lookup_nil (v : Value) : v.lookup [] = some v := by
  unfold lookup
  rfl

theorem lookup_table_cons (t : Table) (k : String) (rest : List String) :
    (table t).lookup (k :: rest) = (AssocMap.get k t).bind (·.lookup rest) := by
  rw [lookup]
  cases AssocMap.get k t <;> rfl

theorem lookup_of_not_isTable {v : Value} (h : v.isTable = false) (k : String)
    (rest : List String) : v.lookup (k :: rest) = none := by
  cases v with
  | table t => simp [isTable] at h
  | _ => rfl

theorem lookup_append (v : Value) (p q : List String) :
    v.lookup (p ++ q) = (v.lookup p).bind (·.lookup q) := by
  induction p generalizing v with
  | nil => simp
  | cons k p ih =>
    cases hv : v.isTable with
    | false => simp [lookup_of_not_isTable hv]
    | true =>
      obtain ⟨t, rfl⟩ := eq_table_of_isTable hv
      rw [List.cons_append, lookup_table_cons, lookup_table_cons, Option.bind_assoc]
      exact congrArg (Option.bind _) (funext ih)

theorem lookup_key (v : Value) (path : List String) (k : String) :
    v.lookup (path ++ [k]) = (v.lookup path).bind (·.lookup [k]) :=
  lookup_append v path [k]

theorem lookup_table_key (t : Table) (k : String) :
    (table t).lookup [k] = AssocMap.get k t := by
  rw [lookup_table_cons]
  cases AssocMap.get k t <;> simp

theorem isTable_of_lookup {v x : Value} {k : String} {rest : List String}
    (h : v.lookup (k :: rest) = some x) : v.isTable = true := by
  by_contra hv
  rw [lookup_of_not_isTable (by simpa using hv)] at h
  cases h

@[simp] theorem unblocked_nil (v : Value) : v.Unblocked [] := by
  unfold Unblocked
  trivial

theorem unblocked_table_cons (t : Table) (k : String) (rest : List String) :
    (table t).Unblocked (k :: rest) ↔ ∀ c, AssocMap.get k t = some c → c.Unblocked rest := by
  rw [Unblocked]

theorem unblocked_empty (path : List String) : (table []).Unblocked path := by
  cases path with
  | nil => simp
  | cons k rest => simp [unblocked_table_cons]

theorem not_unblocked_of_not_isTable {v : Value} (h : v.isTable = false) (k : String)
    (rest : List String) : ¬ v.Unblocked (k :: rest) := by
  cases v with
  | table t => simp [isTable] at h
  | _ => simp [Unblocked]

theorem unblocked_iff (v : Value) (path : List String) :
    v.Unblocked path ↔
      ∀ q, q <+: path → q ≠ path → ∀ x, v.lookup q = some x → x.isTable = true := by
  induction path generalizing v with
  | nil =>
    simp only [unblocked_nil, true_iff]
    intro q hq hne
    exact absurd (List.prefix_nil.mp hq) hne
  | cons k rest ih =>
    cases hv : v.isTable with
    | false =>
      refine iff_of_false (not_unblocked_of_not_isTable hv k rest) fun h => ?_
      have := h [] (by simp) (by simp) v (by simp)
      simp [hv] at this
    | true =>
      obtain ⟨t, rfl⟩ := eq_table_of_isTable hv
      rw [unblocked_table_cons]
      constructor
      · intro h q hq hne x hx
        cases q with
        | nil =>
          rw [lookup_nil] at hx
          exact Option.some.inj hx ▸ rfl
        | cons k' q =>
          obtain ⟨rfl, hq'⟩ := List.cons_prefix_cons.mp hq
          rw [lookup_table_cons] at hx
          obtain ⟨c, hc, hcx⟩ := Option.bind_eq_some_iff.mp hx
          exact (ih c).mp (h c hc) q hq' (by simpa using hne) x hcx
      · intro h c hc
        refine (ih c).mpr fun q hq hne x hx => ?_
        refine h (k :: q) (List.cons_prefix_cons.mpr ⟨rfl, hq⟩) (by simpa using hne) x ?_
        rw [lookup_table_cons, hc]
        exact hx

/-- Where there is a value, nothing is in the way. -/
theorem unblocked_of_lookup {v x : Value} {path : List String} (h : v.lookup path = some x) :
    v.Unblocked path := by
  refine (unblocked_iff v path).mpr fun q hq hne y hy => ?_
  obtain ⟨r, rfl⟩ := hq
  rw [lookup_append, hy, Option.bind_some] at h
  obtain ⟨k, r, rfl⟩ := List.exists_cons_of_ne_nil (l := r) (by rintro rfl; simp at hne)
  exact isTable_of_lookup h

theorem Unblocked.of_isPrefix {v : Value} {q path : List String} (h : v.Unblocked path)
    (hq : q <+: path) : v.Unblocked q :=
  (unblocked_iff v q).mpr fun q' hq' hne x hx =>
    (unblocked_iff v path).mp h q' (hq'.trans hq)
      (fun he => hne (hq'.eq_of_length_le (he ▸ hq.length_le))) x hx

end Value

/-- A parsed document: `toml::from_str` on a whole file, which gives a table. -/
structure Document where
  entries : Table
  ordered : (Value.table entries).wellFormed = true

def Document.value (d : Document) : Value := .table d.entries

end Forgeclaw.Core.Config
