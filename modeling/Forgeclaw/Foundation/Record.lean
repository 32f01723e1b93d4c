/-
  Records, and the keyed entries that they are written to and read from.

  A `Codec` writes values and reads them. A `Field` puts one under a name and says what is read
  where there is nothing under it; `Fields` is a list of them, and is written from a tuple and
  read to one: from entries in any order, each under a known name (`fromEntries`), or from items
  in the order of the fields (`fromItems`). `fromKeyed` reads entries whose names are free.

  * `fromEntries_eq_ok_iff`: entries are read exactly if each name is known and each field is
    read from what is under its name;
  * `fromEntries_toMap`: what is written is read back, if it is in each field;
  * `exists_field`: reading and writing again goes field by field.
-/
import Forgeclaw.Foundation.AssocMap
import Forgeclaw.Foundation.Page

namespace Record

open Page (mapM_eq_ok_iff exists_forall₂)

variable {ε ν α γ : Type}

/-- What a reader reports. -/
structure Faults (ε : Type) where
  unknownField : String → List String → ε
  missingField : String → ε
  /-- The number of items that there are, and what was expected. -/
  invalidLength : Nat → String → ε
  /-- Something is wrong under a key. -/
  atKey : String → ε → ε

/-! ## Values -/

structure Codec (ε ν α : Type) where
  serialize : α → Except ε ν
  deserialize : ν → Except ε α

/-- The value is written, and read back. -/
def Codec.RoundTrips (c : Codec ε ν α) (a : α) : Prop :=
  ∃ v, c.serialize a = .ok v ∧ c.deserialize v = .ok a

theorem bind_eq_ok {β : Type} {x : Except ε α} {f : α → Except ε β} {b : β} :
    (x >>= f) = .ok b ↔ ∃ a, x = .ok a ∧ f a = .ok b := by
  cases x with
  | error e => exact ⟨fun h => (by cases h), fun ⟨a, h, _⟩ => (by cases h)⟩
  | ok a => exact ⟨fun h => ⟨a, rfl, h⟩, fun ⟨_, h, hf⟩ => (by cases h; exact hf)⟩

theorem map_eq_ok {β : Type} {x : Except ε α} {f : α → β} {b : β} :
    x.map f = .ok b ↔ ∃ a, x = .ok a ∧ f a = b := by
  cases x <;> simp [Except.map]

theorem mapError_eq_ok {ε' : Type} {x : Except ε α} {f : ε → ε'} {a : α} :
    x.mapError f = .ok a ↔ x = .ok a := by
  cases x <;> simp [Except.mapError]

theorem Codec.mapM_roundTrips {c : Codec ε ν α} {as : List α} (h : ∀ a ∈ as, c.RoundTrips a) :
    ∃ vs, as.mapM c.serialize = .ok vs ∧ vs.mapM c.deserialize = .ok as := by
  obtain ⟨vs, hvs⟩ := exists_forall₂ h
  exact ⟨vs, mapM_eq_ok_iff.mpr (hvs.imp fun _ _ hv => hv.1),
    mapM_eq_ok_iff.mpr (hvs.imp fun _ _ hv => hv.2).flip⟩

/-! ## Fields -/

structure Field (ε ν α : Type) where
  name : String
  /-- `none`: nothing is put under the name. -/
  serialize : α → Except ε (Option ν)
  deserialize : ν → Except ε α
  /-- What is read where nothing is under the name. -/
  default : Option α := none
  /-- What is read where no item is left. -/
  defaultItem : Option α := none

namespace Field

def required (name : String) (c : Codec ε ν α) : Field ε ν α where
  name
  serialize a := (c.serialize a).map some
  deserialize := c.deserialize

def defaulted (name : String) (c : Codec ε ν α) (default : α) : Field ε ν α where
  name
  serialize a := (c.serialize a).map some
  deserialize := c.deserialize
  default := some default
  defaultItem := some default

def optional (name : String) (c : Codec ε ν α) : Field ε ν (Option α) where
  name
  serialize
    | none => .ok none
    | some a => (c.serialize a).map some
  deserialize v := (c.deserialize v).map some
  default := some none

@[simp] theorem required_name (name : String) (c : Codec ε ν α) :
    (required name c).name = name := rfl

@[simp] theorem defaulted_name (name : String) (c : Codec ε ν α) (d : α) :
    (defaulted name c d).name = name := rfl

@[simp] theorem optional_name (name : String) (c : Codec ε ν α) :
    (optional name c).name = name := rfl

variable (faults : Faults ε)

/-- Read a field from what is under its name. -/
def resolve (x : Field ε ν α) : Option ν → Except ε α
  | some v => (x.deserialize v).mapError (faults.atKey x.name)
  | none =>
    match x.default with
    | some a => .ok a
    | none => .error (faults.missingField x.name)

def RoundTrips (x : Field ε ν α) (a : α) : Prop :=
  ∃ o, x.serialize a = .ok o ∧ x.resolve faults o = .ok a

variable {faults}

theorem resolve_some {x : Field ε ν α} {v : ν} {a : α} :
    x.resolve faults (some v) = .ok a ↔ x.deserialize v = .ok a :=
  mapError_eq_ok

theorem resolve_none {x : Field ε ν α} {a : α} :
    x.resolve faults none = .ok a ↔ x.default = some a := by
  unfold resolve
  cases x.default <;> simp

theorem roundTrips_required {name : String} {c : Codec ε ν α} {a : α} (h : c.RoundTrips a) :
    (required name c).RoundTrips faults a := by
  obtain ⟨v, hv, ha⟩ := h
  exact ⟨some v, map_eq_ok.mpr ⟨v, hv, rfl⟩, resolve_some.mpr ha⟩

theorem roundTrips_defaulted {name : String} {c : Codec ε ν α} {d a : α} (h : c.RoundTrips a) :
    (defaulted name c d).RoundTrips faults a := by
  obtain ⟨v, hv, ha⟩ := h
  exact ⟨some v, map_eq_ok.mpr ⟨v, hv, rfl⟩, resolve_some.mpr ha⟩

theorem roundTrips_optional {name : String} {c : Codec ε ν α} {o : Option α}
    (h : ∀ a ∈ o, c.RoundTrips a) : (optional name c).RoundTrips faults o := by
  cases o with
  | none => exact ⟨none, rfl, rfl⟩
  | some a =>
    obtain ⟨v, hv, ha⟩ := h a rfl
    exact ⟨some v, map_eq_ok.mpr ⟨v, hv, rfl⟩, resolve_some.mpr (map_eq_ok.mpr ⟨a, ha, rfl⟩)⟩

end Field

/-- Fields one after the other, and the tuple of their values. -/
inductive Fields (ε ν : Type) : Type → Type 1
  | nil : Fields ε ν Unit
  | cons {α γ : Type} (x : Field ε ν α) (F : Fields ε ν γ) : Fields ε ν (α × γ)

namespace Fields

def names : {γ : Type} → Fields ε ν γ → List String
  | _, nil => []
  | _, cons x F => x.name :: F.names

/-- Each of the fields has the property. -/
def Forall (P : ∀ {α : Type}, Field ε ν α → Prop) : {γ : Type} → Fields ε ν γ → Prop
  | _, nil => True
  | _, cons x F => P x ∧ F.Forall P

@[simp] theorem names_nil : (nil : Fields ε ν Unit).names = [] := rfl

@[simp] theorem names_cons (x : Field ε ν α) (F : Fields ε ν γ) :
    (cons x F).names = x.name :: F.names := rfl

variable (faults : Faults ε)

/-- Read an entry for the field of its name, if there is one. -/
def check (key : String) (v : ν) : {γ : Type} → Fields ε ν γ → Option (Except ε Unit)
  | _, nil => none
  | _, cons x F =>
    if key = x.name then some ((x.resolve faults (some v)).map fun _ => ())
    else F.check key v

/-- The loop over the entries. -/
def visit (F : Fields ε ν γ) : List (String × ν) → Except ε Unit
  | [] => .ok ()
  | (key, v) :: rest => do
    (F.check faults key v).getD (.error (faults.unknownField key F.names))
    F.visit rest

/-- Each field from what is under its name. -/
def resolve (found : String → Option ν) : {γ : Type} → Fields ε ν γ → Except ε γ
  | _, nil => .ok ()
  | _, cons x F => do
    let a ← x.resolve faults (found x.name)
    let g ← F.resolve found
    pure (a, g)

def fromEntries (F : Fields ε ν γ) (t : List (String × ν)) : Except ε γ := do
  F.visit faults t
  F.resolve faults fun key => AssocMap.get key t

/-- Each field from an item, from the `i`-th field on; and the items that are left. -/
def takeItems (expected : String) :
    {γ : Type} → Fields ε ν γ → (i : Nat) → List ν → Except ε (γ × List ν)
  | _, nil, _, items => .ok ((), items)
  | _, cons x F, i, [] =>
    match x.defaultItem with
    | some a => (F.takeItems expected (i + 1) []).map fun p => ((a, p.1), p.2)
    | none => .error (faults.invalidLength i expected)
  | _, cons x F, i, v :: items => do
    let a ← x.deserialize v
    let p ← F.takeItems expected (i + 1) items
    pure ((a, p.1), p.2)

def fromItems (expected : String) (F : Fields ε ν γ) (items : List ν) : Except ε γ := do
  let p ← F.takeItems faults expected 0 items
  if p.2.isEmpty then .ok p.1
  else .error (faults.invalidLength items.length "fewer elements in array")

def toEntries : {γ : Type} → Fields ε ν γ → γ → Except ε (List (String × ν))
  | _, nil, _ => .ok []
  | _, cons x F, p => do
    let o ← x.serialize p.1
    let rest ← F.toEntries p.2
    pure (o.toList.map (x.name, ·) ++ rest)

/-- The entries put into a map one after the other. -/
def toMap (F : Fields ε ν γ) (g : γ) : Except ε (List (String × ν)) :=
  (F.toEntries g).map AssocMap.ofList

def RoundTrips : {γ : Type} → Fields ε ν γ → γ → Prop
  | _, nil, _ => True
  | _, cons x F, p => x.RoundTrips faults p.1 ∧ F.RoundTrips p.2

variable {faults}

/-! ## Reading -/

theorem resolve_cons {x : Field ε ν α} {F : Fields ε ν γ} {found : String → Option ν} {p : α × γ} :
    (cons x F).resolve faults found = .ok p ↔
      x.resolve faults (found x.name) = .ok p.1 ∧ F.resolve faults found = .ok p.2 := by
  rw [resolve, bind_eq_ok]
  constructor
  · rintro ⟨a, ha, h⟩
    obtain ⟨g, hg, h⟩ := bind_eq_ok.mp h
    cases h
    exact ⟨ha, hg⟩
  · rintro ⟨ha, hg⟩
    exact ⟨p.1, ha, bind_eq_ok.mpr ⟨p.2, hg, rfl⟩⟩

theorem check_eq_none {F : Fields ε ν γ} {key : String} {v : ν} :
    F.check faults key v = none ↔ key ∉ F.names := by
  induction F with
  | nil => simp [check, names]
  | cons x F ih =>
    rw [check, names, List.mem_cons, not_or]
    split
    · rename_i heq
      simp [heq]
    · rename_i hne
      simp [hne, ih]

/-- What a field is read from passes the check. -/
theorem check_of_resolve {F : Fields ε ν γ} {found : String → Option ν} {g : γ}
    (h : F.resolve faults found = .ok g) {key : String} (hkey : key ∈ F.names) {v : ν}
    (hv : found key = some v) : F.check faults key v = some (.ok ()) := by
  induction F with
  | nil => simp [names] at hkey
  | cons x F ih =>
    obtain ⟨hx, hF⟩ := resolve_cons.mp h
    rw [check]
    split
    · rename_i heq
      rw [← heq, hv] at hx
      rw [hx]
      rfl
    · rename_i hne
      exact ih hF ((List.mem_cons.mp hkey).resolve_left hne)

theorem visit_eq_ok {F : Fields ε ν γ} {t : List (String × ν)} :
    F.visit faults t = .ok () ↔ ∀ e ∈ t, F.check faults e.1 e.2 = some (.ok ()) := by
  induction t with
  | nil => simp [visit]
  | cons e t ih =>
    obtain ⟨key, v⟩ := e
    rw [visit, bind_eq_ok, List.forall_mem_cons, ← ih]
    cases F.check faults key v with
    | none => simp
    | some r =>
      exact ⟨fun ⟨_, hr, h⟩ => ⟨congrArg some hr, h⟩, fun ⟨hr, h⟩ => ⟨(), Option.some.inj hr, h⟩⟩

theorem of_fromEntries {F : Fields ε ν γ} {t : List (String × ν)} {g : γ}
    (h : F.fromEntries faults t = .ok g) :
    (∀ e ∈ t, e.1 ∈ F.names) ∧ F.resolve faults (fun key => AssocMap.get key t) = .ok g := by
  obtain ⟨_, hvisit, hresolve⟩ := bind_eq_ok.mp h
  refine ⟨fun e he => ?_, hresolve⟩
  by_contra hkey
  have hcheck := visit_eq_ok.mp hvisit e he
  rw [check_eq_none.mpr hkey] at hcheck
  cases hcheck

/-- **When entries are read.** -/
theorem fromEntries_eq_ok_iff {F : Fields ε ν γ} {t : List (String × ν)}
    (ht : AssocMap.Ordered t) {g : γ} :
    F.fromEntries faults t = .ok g ↔
      (∀ e ∈ t, e.1 ∈ F.names) ∧ F.resolve faults (fun key => AssocMap.get key t) = .ok g := by
  refine ⟨of_fromEntries, fun ⟨hkeys, hresolve⟩ => ?_⟩
  refine bind_eq_ok.mpr ⟨(), visit_eq_ok.mpr fun e he => ?_, hresolve⟩
  exact check_of_resolve hresolve (hkeys e he) (ht.get_of_mem he)

/-! ## Writing -/

theorem toEntries_cons {x : Field ε ν α} {F : Fields ε ν γ} {p : α × γ}
    {es : List (String × ν)} :
    (cons x F).toEntries p = .ok es ↔
      ∃ o rest, x.serialize p.1 = .ok o ∧ F.toEntries p.2 = .ok rest ∧
        es = o.toList.map (x.name, ·) ++ rest := by
  rw [toEntries, bind_eq_ok]
  constructor
  · rintro ⟨o, ho, h⟩
    obtain ⟨rest, hrest, h⟩ := bind_eq_ok.mp h
    cases h
    exact ⟨o, rest, ho, hrest, rfl⟩
  · rintro ⟨o, rest, ho, hrest, rfl⟩
    exact ⟨o, ho, bind_eq_ok.mpr ⟨rest, hrest, rfl⟩⟩

theorem keys_sublist {F : Fields ε ν γ} {g : γ} {es : List (String × ν)}
    (h : F.toEntries g = .ok es) : (es.map Prod.fst).Sublist F.names := by
  induction F generalizing es with
  | nil =>
    cases h
    exact .slnil
  | cons x F ih =>
    obtain ⟨o, rest, -, hrest, rfl⟩ := toEntries_cons.mp h
    cases o with
    | none => exact (ih hrest).cons x.name
    | some v => exact (ih hrest).cons_cons x.name

theorem get_toEntries_cons {name key : String} {o : Option ν} {rest : List (String × ν)} :
    AssocMap.get key (o.toList.map (name, ·) ++ rest) =
      if key = name then o.or (AssocMap.get key rest) else AssocMap.get key rest := by
  cases o with
  | none => simp
  | some v =>
    show AssocMap.get key ((name, v) :: rest) = _
    rw [AssocMap.get]
    rfl

/-- The names of the fields that follow are other ones. -/
theorem get_rest {x : Field ε ν α} {F : Fields ε ν γ} {g : γ} {rest : List (String × ν)}
    (hnodup : (cons x F).names.Nodup) (h : F.toEntries g = .ok rest) :
    AssocMap.get x.name rest = none := by
  refine AssocMap.get_eq_none fun e he heq => (List.nodup_cons.mp hnodup).1 ?_
  rw [← heq]
  exact (keys_sublist h).subset (List.mem_map_of_mem he)

theorem toMap_eq_ok {F : Fields ε ν γ} (hnodup : F.names.Nodup) {g : γ} {t : List (String × ν)}
    (h : F.toMap g = .ok t) :
    ∃ es, F.toEntries g = .ok es ∧ AssocMap.Ordered t ∧
      ∀ key, AssocMap.get key t = AssocMap.get key es := by
  obtain ⟨es, hes, rfl⟩ := map_eq_ok.mp h
  exact ⟨es, hes, AssocMap.ordered_ofList es,
    AssocMap.get_ofList ((keys_sublist hes).nodup hnodup)⟩

theorem get_toMap_of_not_mem {F : Fields ε ν γ} (hnodup : F.names.Nodup) {g : γ}
    {t : List (String × ν)} (h : F.toMap g = .ok t) {key : String} (hkey : key ∉ F.names) :
    AssocMap.get key t = none := by
  obtain ⟨es, hes, -, hget⟩ := toMap_eq_ok hnodup h
  rw [hget]
  refine AssocMap.get_eq_none fun e he heq => hkey ?_
  rw [← heq]
  exact (keys_sublist hes).subset (List.mem_map_of_mem he)

/-! ## Writing and reading back -/

theorem toEntries_of_roundTrips {F : Fields ε ν γ} {g : γ} (h : F.RoundTrips faults g) :
    ∃ es, F.toEntries g = .ok es := by
  induction F with
  | nil => exact ⟨[], rfl⟩
  | cons x F ih =>
    obtain ⟨⟨o, ho, -⟩, hF⟩ := h
    obtain ⟨rest, hrest⟩ := ih hF
    exact ⟨_, toEntries_cons.mpr ⟨o, rest, ho, hrest, rfl⟩⟩

theorem resolve_toEntries {F : Fields ε ν γ} (hnodup : F.names.Nodup) {g : γ}
    (h : F.RoundTrips faults g) {es : List (String × ν)} (hes : F.toEntries g = .ok es)
    {found : String → Option ν} (hfound : ∀ key ∈ F.names, found key = AssocMap.get key es) :
    F.resolve faults found = .ok g := by
  induction F generalizing es with
  | nil => rfl
  | cons x F ih =>
    obtain ⟨⟨o, ho, hx⟩, hF⟩ := h
    obtain ⟨o', rest, ho', hrest, rfl⟩ := toEntries_cons.mp hes
    obtain rfl : o = o' := Except.ok.inj (ho.symm.trans ho')
    simp only [names, List.mem_cons, forall_eq_or_imp] at hfound
    refine resolve_cons.mpr ⟨?_, ih (List.nodup_cons.mp hnodup).2 hF hrest fun key hkey => ?_⟩
    · rw [hfound.1, get_toEntries_cons, if_pos rfl, get_rest hnodup hrest, Option.or_none]
      exact hx
    · rw [hfound.2 key hkey, get_toEntries_cons, if_neg]
      rintro rfl
      exact (List.nodup_cons.mp hnodup).1 hkey

/-- **What is written is read back.** -/
theorem fromEntries_toMap {F : Fields ε ν γ} (hnodup : F.names.Nodup) {g : γ}
    (h : F.RoundTrips faults g) :
    ∃ t, F.toMap g = .ok t ∧ F.fromEntries faults t = .ok g := by
  obtain ⟨es, hes⟩ := toEntries_of_roundTrips h
  have hmap : F.toMap g = .ok (AssocMap.ofList es) := map_eq_ok.mpr ⟨es, hes, rfl⟩
  obtain ⟨_, hes', hordered, hget⟩ := toMap_eq_ok hnodup hmap
  obtain rfl := Except.ok.inj (hes.symm.trans hes')
  refine ⟨_, hmap, (fromEntries_eq_ok_iff hordered).mpr ⟨fun e he => ?_, ?_⟩⟩
  · by_contra hkey
    have hnone := get_toMap_of_not_mem hnodup hmap hkey
    rw [hordered.get_of_mem he] at hnone
    cases hnone
  · exact resolve_toEntries hnodup h hes fun key _ => hget key

/-- The field of a name: what it is read from, and what it is written to again. -/
theorem exists_field {P : ∀ {α : Type}, Field ε ν α → Prop} {F : Fields ε ν γ}
    (hnodup : F.names.Nodup) (hP : F.Forall P) {found : String → Option ν} {g : γ}
    (hg : F.resolve faults found = .ok g) {key : String} (hkey : key ∈ F.names) :
    ∃ (α : Type) (x : Field ε ν α) (a : α), P x ∧ x.name = key ∧
      x.resolve faults (found key) = .ok a ∧
      ∀ es, F.toEntries g = .ok es → x.serialize a = .ok (AssocMap.get key es) := by
  induction F with
  | nil => simp at hkey
  | cons x F ih =>
    obtain ⟨hx, hF⟩ := resolve_cons.mp hg
    obtain ⟨hhead, htail⟩ := List.nodup_cons.mp hnodup
    rcases List.mem_cons.mp hkey with rfl | hkey
    · refine ⟨_, x, g.1, hP.1, rfl, hx, fun es hes => ?_⟩
      obtain ⟨o, rest, ho, hrest, rfl⟩ := toEntries_cons.mp hes
      rw [get_toEntries_cons, if_pos rfl, get_rest hnodup hrest, Option.or_none]
      exact ho
    · obtain ⟨α, y, a, hy, hname, ha, hwrite⟩ := ih htail hP.2 hF hkey
      refine ⟨α, y, a, hy, hname, ha, fun es hes => ?_⟩
      obtain ⟨o, rest, -, hrest, rfl⟩ := toEntries_cons.mp hes
      have hne : key ≠ x.name := by
        rintro rfl
        exact hhead hkey
      rw [get_toEntries_cons, if_neg hne]
      exact hwrite rest hrest

end Fields

/-! ## Entries under free names -/

section Keyed

variable (faults : Faults ε)

/-- A value for a value, under the same key. -/
def mapValues {β : Type} (f : String → α → Except ε β) (m : List (String × α)) :
    Except ε (List (String × β)) :=
  m.mapM fun e => (f e.1 e.2).map (e.1, ·)

def fromKeyed (c : Codec ε ν α) (t : List (String × ν)) : Except ε (List (String × α)) :=
  mapValues (fun key v => (c.deserialize v).mapError (faults.atKey key)) t

def toKeyed (c : Codec ε ν α) (m : List (String × α)) : Except ε (List (String × ν)) :=
  mapValues (fun _ a => c.serialize a) m

variable {faults}

theorem mapValues_eq_ok {β : Type} {f : String → α → Except ε β} {m : List (String × α)}
    {m' : List (String × β)} :
    mapValues f m = .ok m' ↔
      List.Forall₂ (fun e e' => e.1 = e'.1 ∧ f e.1 e.2 = .ok e'.2) m m' := by
  rw [mapValues, mapM_eq_ok_iff]
  refine iff_of_eq (congrArg (List.Forall₂ · m m') (funext₂ fun e e' => propext ?_))
  rw [map_eq_ok]
  constructor
  · rintro ⟨b, hb, rfl⟩
    exact ⟨rfl, hb⟩
  · rintro ⟨hkey, hb⟩
    exact ⟨e'.2, hb, Prod.ext hkey rfl⟩

theorem fromKeyed_eq_ok {c : Codec ε ν α} {t : List (String × ν)} {m : List (String × α)} :
    fromKeyed faults c t = .ok m ↔
      List.Forall₂ (fun e e' => e.1 = e'.1 ∧ c.deserialize e.2 = .ok e'.2) t m := by
  rw [fromKeyed, mapValues_eq_ok]
  simp only [mapError_eq_ok]

theorem toKeyed_eq_ok {c : Codec ε ν α} {m : List (String × α)} {t : List (String × ν)} :
    toKeyed c m = .ok t ↔
      List.Forall₂ (fun e e' => e.1 = e'.1 ∧ c.serialize e.2 = .ok e'.2) m t :=
  mapValues_eq_ok

theorem keys_mapValues {β : Type} {f : String → α → Except ε β} {m : List (String × α)}
    {m' : List (String × β)} (h : mapValues f m = .ok m') :
    m.map Prod.fst = m'.map Prod.fst := by
  induction mapValues_eq_ok.mp h with
  | nil => rfl
  | @cons e e' m m' he hm ih =>
    rw [List.map_cons, List.map_cons, he.1, ih (mapValues_eq_ok.mpr hm)]

/-- What becomes of the value under a key. -/
theorem get_mapValues {β : Type} {f : String → α → Except ε β} {m : List (String × α)}
    {m' : List (String × β)} (h : mapValues f m = .ok m') (key : String) :
    (∀ a, AssocMap.get key m = some a → ∃ b, f key a = .ok b ∧ AssocMap.get key m' = some b) ∧
      (AssocMap.get key m = none → AssocMap.get key m' = none) := by
  induction mapValues_eq_ok.mp h with
  | nil => exact ⟨fun _ ha => (by cases ha), fun _ => rfl⟩
  | @cons e e' m m' he hm ih =>
    obtain ⟨k, a⟩ := e
    obtain ⟨k', b⟩ := e'
    obtain ⟨rfl, hb⟩ := he
    rw [AssocMap.get, AssocMap.get]
    split
    · rename_i heq
      subst heq
      exact ⟨fun a' ha' => ⟨b, by rw [← Option.some.inj ha']; exact hb, rfl⟩, fun hn => by cases hn⟩
    · exact ih (mapValues_eq_ok.mpr hm)

variable (faults) in
theorem keyed_roundTrips {c : Codec ε ν α} {m : List (String × α)}
    (h : ∀ e ∈ m, c.RoundTrips e.2) :
    ∃ t, toKeyed c m = .ok t ∧ fromKeyed faults c t = .ok m ∧ m.map Prod.fst = t.map Prod.fst := by
  have hentry : ∀ e ∈ m, ∃ e' : String × ν, (e.1 = e'.1 ∧ c.serialize e.2 = .ok e'.2) ∧
      e'.1 = e.1 ∧ c.deserialize e'.2 = .ok e.2 := fun e he => by
    obtain ⟨v, hv, ha⟩ := h e he
    exact ⟨(e.1, v), ⟨rfl, hv⟩, rfl, ha⟩
  obtain ⟨t, ht⟩ := exists_forall₂ hentry
  have hwrite := toKeyed_eq_ok.mpr (ht.imp fun _ _ he => he.1)
  exact ⟨t, hwrite, fromKeyed_eq_ok.mpr (ht.imp fun _ _ he => he.2).flip, keys_mapValues hwrite⟩

end Keyed

end Record
