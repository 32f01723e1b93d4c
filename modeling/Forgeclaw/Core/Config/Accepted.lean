/-
  What a tree that is read as a configuration holds, and what of it the configuration keeps.

  * `Follows`: a reader's paths are those of a section of the schema, a scalar in the place of a
    setting is kept, and what is missing in a section is written with its default;
  * `follows_forgeclawConfig`: the whole configuration follows the schema.
-/
import Forgeclaw.Core.Config.Serde
import Forgeclaw.Core.Config.EnvNames

namespace Forgeclaw.Core.Config

open Record

/-! ## The schema -/

namespace Section

/-- Where a key leads: a struct's field, or a key of a map. -/
def under (sec : Section) (key : String) : Option Section := (sec.fields.lookup key).or sec.keys

/-- Where a path leads. -/
def at? (sec : Section) : List String → Option Section
  | [] => some sec
  | key :: rest => (sec.under key).bind (·.at? rest)

/-- The path is one of the schema. -/
def allows (sec : Section) (path : List String) : Bool := (sec.at? path).isSome

/-- The path goes on below a plain setting. -/
def Beyond (sec : Section) (path : List String) : Prop :=
  ∃ q rest, path = q ++ rest ∧ rest ≠ [] ∧ sec.at? q = some .leaf

/-- The path stays in the schema as far as that goes. -/
def reaches : Section → List String → Bool
  | leaf, _ => true
  | _, [] => true
  | sec, key :: rest => (sec.under key).any (·.reaches rest)

/-- The values of the fields that may be left out (and are not `Option`s). -/
def defaults : Section → List (String × Value)
  | forgeclawConfig => [("budget_pools", .table [])]
  | runtimeConfig =>
    [("log_level", .string defaultLogLevel),
      ("event_bus_capacity", .integer defaultEventBusCapacity)]
  | budgetPoolConfig => [("alert_thresholds", .array [])]
  | groupConfig =>
    [("fallback", .array []), ("is_main", .boolean false), ("allowed_compose_services", .array [])]
  | channelConfig => [("settings", .table [])]
  | _ => []

/-- A struct, or a map whose keys lead to one. -/
def isInner : Section → Bool
  | settings | leaf => false
  | _ => true

theorem reaches_nil (sec : Section) : sec.reaches [] = true := by
  cases sec <;> rfl

theorem reaches_leaf (path : List String) : leaf.reaches path = true := by
  cases path <;> rfl

theorem reaches_cons {sec : Section} (h : sec ≠ leaf) (key : String) (rest : List String) :
    sec.reaches (key :: rest) = (sec.under key).any (·.reaches rest) := by
  cases sec <;> first | rfl | exact absurd rfl h

/-- What stays in the schema as far as that goes is in it, or goes on below a plain setting. -/
theorem allows_or_beyond {sec : Section} {path : List String} (h : sec.reaches path = true) :
    sec.allows path = true ∨ sec.Beyond path := by
  induction path generalizing sec with
  | nil => exact .inl rfl
  | cons key path ih =>
    by_cases hleaf : sec = leaf
    · exact .inr ⟨[], key :: path, rfl, by simp, congrArg some hleaf⟩
    · rw [reaches_cons hleaf] at h
      obtain ⟨s, hs, h⟩ := (Option.any_eq_true _ _).mp h
      have hat : sec.at? (key :: path) = s.at? path := by rw [at?, hs, Option.bind_some]
      rcases ih h with h | ⟨q, rest, rfl, hrest, hq⟩
      · exact .inl (by rwa [allows, hat])
      · refine .inr ⟨key :: q, rest, rfl, hrest, ?_⟩
        rw [at?, hs, Option.bind_some, hq]

theorem under_settings (key : String) : settings.under key = some settings := rfl

theorem reaches_settings (path : List String) : settings.reaches path = true := by
  induction path with
  | nil => rfl
  | cons key rest ih =>
    rw [reaches_cons (by decide), under_settings]
    exact ih

theorem at?_settings (path : List String) : settings.at? path = some settings := by
  induction path with
  | nil => rfl
  | cons key rest ih =>
    rw [at?, under_settings]
    exact ih

/-- What goes beyond the schema leaves it at a struct or a map. -/
theorem inner_of_reaches {sec : Section} {path rest : List String} (h : sec.reaches path = true)
    (hrest : sec.reaches (path ++ rest) = false) :
    ∃ sec', sec.at? path = some sec' ∧ sec'.isInner = true := by
  induction path generalizing sec with
  | nil =>
    refine ⟨sec, rfl, ?_⟩
    cases sec with
    | leaf => simp [reaches_leaf] at hrest
    | settings => simp [reaches_settings] at hrest
    | _ => rfl
  | cons key path ih =>
    have hleaf : sec ≠ leaf := by
      rintro rfl
      rw [reaches_leaf] at hrest
      cases hrest
    rw [reaches_cons hleaf] at h
    rw [List.cons_append, reaches_cons hleaf] at hrest
    cases hunder : sec.under key with
    | none =>
      rw [hunder] at h
      cases h
    | some s =>
      rw [hunder] at h hrest
      obtain ⟨sec', hat, hinner⟩ := ih h hrest
      exact ⟨sec', by rw [at?, hunder]; exact hat, hinner⟩

/-- What leads to a setting leads through structs and maps. -/
theorem inner_of_at? {sec : Section} {path rest : List String} (hrest : rest ≠ [])
    (h : sec.at? (path ++ rest) = some leaf) :
    ∃ sec', sec.at? path = some sec' ∧ sec'.isInner = true := by
  induction path generalizing sec with
  | nil =>
    refine ⟨sec, rfl, ?_⟩
    obtain ⟨key, rest, rfl⟩ := List.exists_cons_of_ne_nil hrest
    cases sec with
    | leaf => cases h
    | settings =>
      rw [List.nil_append, at?_settings] at h
      cases h
    | _ => rfl
  | cons key path ih =>
    rw [List.cons_append, at?] at h
    obtain ⟨s, hs, h⟩ := Option.bind_eq_some_iff.mp h
    obtain ⟨sec', hat, hinner⟩ := ih h
    exact ⟨sec', by rw [at?, hs]; exact hat, hinner⟩

end Section

/-! ## Readers -/

variable {ε α γ ρ : Type}

/-- A tree in order is read as the value. -/
def Reads (c : Codec ε Value α) (v : Value) (a : α) : Prop :=
  v.wellFormed = true ∧ c.deserialize v = .ok a

/-- The reader and writer go by the section. -/
structure Follows (c : Codec ε Value α) (sec : Section) : Prop where
  reaches {v : Value} {a : α} (hv : Reads c v a) {path : List String} {x : Value}
    (hx : v.lookup path = some x) : sec.reaches path = true
  /-- A struct is read from a table or an array, a map from a table. -/
  shape {v : Value} {a : α} (hv : Reads c v a) {path : List String} {x : Value}
    (hx : v.lookup path = some x) {sec' : Section} (hsec : sec.at? path = some sec')
    (hinner : sec'.isInner = true) : x.isTable = true ∨ ∃ items, x = .array items
  keeps {v w : Value} {a : α} (hv : Reads c v a) (hw : c.serialize a = .ok w)
    {path : List String} (hpath : sec.at? path = some .leaf) {x : Value}
    (hx : v.lookup path = some x) (hscalar : x.isScalar = true) : w.lookup path = some x
  defaults {v w : Value} {a : α} (hv : Reads c v a) (hw : c.serialize a = .ok w)
    {path : List String} {sec' : Section} (hsec : sec.at? path = some sec')
    (hinner : sec'.isInner = true) {t : Table} (ht : v.lookup path = some (.table t))
    {key : String} (hkey : AssocMap.get key t = none) :
    w.lookup (path ++ [key]) = sec'.defaults.lookup key

/-- A plain value: a scalar that is read is written as it was. -/
theorem follows_leaf {c : Codec ε Value α}
    (h : ∀ v w a, v.isScalar = true → c.deserialize v = .ok a → c.serialize a = .ok w → w = v) :
    Follows c .leaf where
  reaches _ _ _ _ := Section.reaches_leaf _
  shape {_ _} _ {path _} _ {sec'} hsec hinner := by
    cases path with
    | nil =>
      obtain rfl : Section.leaf = sec' := Option.some.inj hsec
      cases hinner
    | cons key rest => cases hsec
  keeps {v w a} hv hw {path} hpath {x} hx hscalar := by
    cases path with
    | nil =>
      obtain rfl : v = x := by simpa using hx
      rw [Value.lookup_nil, h v w a hscalar hv.2 hw]
    | cons key rest => cases hpath
  defaults {_ _ _} _ _ {path sec'} hsec hinner _ _ _ _ := by
    cases path with
    | nil =>
      obtain rfl : Section.leaf = sec' := Option.some.inj hsec
      cases hinner
    | cons key rest => cases hsec

theorem follows_settings (c : Codec ε Value α) : Follows c .settings where
  reaches _ _ _ _ := Section.reaches_settings _
  shape {_ _} _ {path _} _ {sec'} hsec hinner := by
    rw [Section.at?_settings] at hsec
    obtain rfl : Section.settings = sec' := Option.some.inj hsec
    cases hinner
  keeps {_ _ _} _ _ {path} hpath _ _ _ := by
    rw [Section.at?_settings] at hpath
    cases hpath
  defaults {_ _ _} _ _ {path sec'} hsec hinner _ _ _ _ := by
    rw [Section.at?_settings] at hsec
    obtain rfl : Section.settings = sec' := Option.some.inj hsec
    cases hinner

/-- What is below a key is read by a reader that follows the key's section, and is written below
    the key. -/
structure Steps (c : Codec ε Value α) (sec : Section) : Prop where
  child {t : Table} {a : α} (hv : Reads c (.table t) a) {key : String} {x : Value}
    (hx : AssocMap.get key t = some x) :
    ∃ (β : Type) (c' : Codec ε Value β) (s : Section) (b : β), sec.under key = some s ∧
      Follows c' s ∧ c'.deserialize x = .ok b ∧
      ∀ w, c.serialize a = .ok w → ∃ y, c'.serialize b = .ok y ∧ w.lookup [key] = some y
  shape {v : Value} {a : α} (hv : c.deserialize v = .ok a) :
    v.isTable = true ∨ ∃ items, v = .array items
  missing {t : Table} {a : α} (hv : Reads c (.table t) a) {w : Value}
    (hw : c.serialize a = .ok w) {key : String} (hkey : AssocMap.get key t = none) :
    w.lookup [key] = sec.defaults.lookup key

/-- The first step of a path. -/
theorem lookup_cons_eq_some {v x : Value} {key : String} {rest : List String} :
    v.lookup (key :: rest) = some x ↔ ∃ y, v.lookup [key] = some y ∧ y.lookup rest = some x := by
  rw [← Option.bind_eq_some_iff, ← Value.lookup_append]
  rfl

/-- The reader at the first step of a path. -/
theorem Steps.first {c : Codec ε Value α} {sec : Section} (h : Steps c sec) {v x : Value} {a : α}
    (hv : Reads c v a) {key : String} {rest : List String}
    (hx : v.lookup (key :: rest) = some x) :
    ∃ (β : Type) (c' : Codec ε Value β) (s : Section) (y : Value) (b : β),
      sec.under key = some s ∧ Follows c' s ∧ Reads c' y b ∧ y.lookup rest = some x ∧
      ∀ w, c.serialize a = .ok w → ∃ z, c'.serialize b = .ok z ∧ w.lookup [key] = some z := by
  obtain ⟨t, rfl⟩ := Value.eq_table_of_isTable (Value.isTable_of_lookup hx)
  obtain ⟨y, hy, hx⟩ := lookup_cons_eq_some.mp hx
  rw [Value.lookup_table_key] at hy
  obtain ⟨β, c', s, b, hunder, hfollows, hread, hwrite⟩ := h.child hv hy
  have hwf := (Value.wellFormed_table.mp hv.1).2 _ (AssocMap.mem_of_get hy)
  exact ⟨β, c', s, y, b, hunder, hfollows, ⟨hwf, hread⟩, hx, hwrite⟩

theorem Steps.follows {c : Codec ε Value α} {sec : Section} (h : Steps c sec)
    (hsec : sec.isInner = true) : Follows c sec where
  reaches {v a} hv {path x} hx := by
    cases path with
    | nil => exact Section.reaches_nil sec
    | cons key rest =>
      obtain ⟨_, _, s, y, _, hunder, hfollows, hread, hx, -⟩ := h.first hv hx
      have hleaf : sec ≠ .leaf := by
        rintro rfl
        cases hsec
      rw [Section.reaches_cons hleaf, hunder]
      exact hfollows.reaches hread hx
  shape {v a} hv {path x} hx {sec'} hat hinner := by
    cases path with
    | nil =>
      obtain rfl : v = x := by simpa using hx
      exact h.shape hv.2
    | cons key rest =>
      obtain ⟨_, _, s, y, _, hunder, hfollows, hread, hx, -⟩ := h.first hv hx
      rw [Section.at?, hunder] at hat
      exact hfollows.shape hread hx hat hinner
  keeps {v w a} hv hw {path} hpath {x} hx hscalar := by
    cases path with
    | nil =>
      obtain rfl : sec = .leaf := Option.some.inj hpath
      cases hsec
    | cons key rest =>
      obtain ⟨_, _, s, y, _, hunder, hfollows, hread, hx, hwrite⟩ := h.first hv hx
      obtain ⟨z, hz, hkey⟩ := hwrite w hw
      rw [Section.at?, hunder] at hpath
      exact lookup_cons_eq_some.mpr ⟨z, hkey, hfollows.keeps hread hz hpath hx hscalar⟩
  defaults {v w a} hv hw {path sec'} hat hinner {t} ht {key} hkey := by
    cases path with
    | nil =>
      obtain rfl : v = .table t := by simpa using ht
      obtain rfl : sec = sec' := Option.some.inj hat
      exact h.missing hv hw hkey
    | cons k rest =>
      obtain ⟨_, _, s, y, _, hunder, hfollows, hread, ht, hwrite⟩ := h.first hv ht
      obtain ⟨z, hz, hk⟩ := hwrite w hw
      rw [Section.at?, hunder] at hat
      have hbelow := hfollows.defaults hread hz hat hinner ht hkey
      rw [← hbelow, List.cons_append, ← List.singleton_append, Value.lookup_append, hk]
      rfl

/-! ### Structs -/

/-- The field is read and written by a codec, with nothing else under its name. -/
def Through {β : Type} (x : Field ε Value α) (c : Codec ε Value β) : Prop :=
  ∀ v a, x.deserialize v = .ok a →
    ∃ b, c.deserialize v = .ok b ∧
      ∀ o, x.serialize a = .ok o → ∃ w, c.serialize b = .ok w ∧ o = some w

/-- The field is one of the section's, and what it is read as where it is missing is written as
    the section's default. -/
def FieldFollows (sec : Section) (x : Field ε Value α) : Prop :=
  (∃ (β : Type) (c : Codec ε Value β) (s : Section),
    sec.under x.name = some s ∧ Follows c s ∧ Through x c) ∧
  ∀ a o, x.default = some a → x.serialize a = .ok o → o = sec.defaults.lookup x.name

variable {sec s : Section} {name : String}

theorem follows_required {c : Codec ε Value α} (h : Follows c s) (hname : sec.under name = some s) :
    FieldFollows sec (Field.required name c) := by
  refine ⟨⟨α, c, s, hname, h, fun v a hv => ⟨a, hv, fun o ho => ?_⟩⟩, fun a o ha _ => by cases ha⟩
  obtain ⟨w, hw, rfl⟩ := map_eq_ok.mp ho
  exact ⟨w, hw, rfl⟩

theorem follows_defaulted {c : Codec ε Value α} {d : α} {w : Value} (h : Follows c s)
    (hname : sec.under name = some s) (hd : c.serialize d = .ok w)
    (hdefault : sec.defaults.lookup name = some w) :
    FieldFollows sec (Field.defaulted name c d) := by
  refine ⟨⟨α, c, s, hname, h, fun v a hv => ⟨a, hv, fun o ho => ?_⟩⟩, fun a o ha ho => ?_⟩
  · obtain ⟨w, hw, rfl⟩ := map_eq_ok.mp ho
    exact ⟨w, hw, rfl⟩
  · obtain rfl : d = a := Option.some.inj ha
    obtain ⟨w', hw', rfl⟩ := map_eq_ok.mp ho
    obtain rfl : w = w' := Except.ok.inj (hd.symm.trans hw')
    exact hdefault.symm

theorem follows_optional {c : Codec ε Value α} (h : Follows c s) (hname : sec.under name = some s)
    (hdefault : sec.defaults.lookup name = none) :
    FieldFollows sec (Field.optional name c) := by
  refine ⟨⟨α, c, s, hname, h, fun v a hv => ?_⟩, fun a o ha ho => ?_⟩
  · obtain ⟨b, hb, rfl⟩ := map_eq_ok.mp hv
    refine ⟨b, hb, fun o ho => ?_⟩
    obtain ⟨w, hw, rfl⟩ := map_eq_ok.mp ho
    exact ⟨w, hw, rfl⟩
  · obtain rfl : none = a := Option.some.inj ha
    obtain rfl : none = o := Except.ok.inj ho
    exact hdefault.symm

theorem follows_struct (toml : Toml ε) {F : Fields ε Value γ} {parts : ρ → γ} {make : γ → ρ}
    (hparts : ∀ g, parts (make g) = g) (hnodup : F.names.Nodup)
    (hF : F.Forall (FieldFollows sec)) (hsec : sec.isInner = true)
    (hdefaults : ∀ e ∈ sec.defaults, e.1 ∈ F.names) :
    Follows (toml.structCodec name F parts make) sec := by
  refine Steps.follows ⟨fun {t r} hv {key x} hx => ?_, fun {v r} hv => ?_,
    fun {t r} hv {w} hw {key} hkey => ?_⟩ hsec
  · obtain ⟨g, hg, rfl⟩ := map_eq_ok.mp hv.2
    obtain ⟨hkeys, hresolve⟩ := Fields.of_fromEntries hg
    obtain ⟨_, field, a, ⟨⟨β, c, s, hunder, hfollows, hthrough⟩, -⟩, rfl, ha, hwrite⟩ :=
      Fields.exists_field hnodup hF hresolve (hkeys _ (AssocMap.mem_of_get hx))
    rw [hx] at ha
    obtain ⟨b, hb, hserialize⟩ := hthrough x a (Field.resolve_some.mp ha)
    refine ⟨β, c, s, b, hunder, hfollows, hb, fun w hw => ?_⟩
    obtain ⟨t', ht', rfl⟩ := map_eq_ok.mp hw
    rw [hparts] at ht'
    obtain ⟨es, hes, -, hget⟩ := Fields.toMap_eq_ok hnodup ht'
    obtain ⟨y, hy, ho⟩ := hserialize _ (hwrite es hes)
    exact ⟨y, hy, by rw [Value.lookup_table_key, hget, ho]⟩
  · cases v with
    | table t => exact .inl rfl
    | array items => exact .inr ⟨items, rfl⟩
    | _ => cases hv
  · obtain ⟨g, hg, rfl⟩ := map_eq_ok.mp hv.2
    obtain ⟨t', ht', rfl⟩ := map_eq_ok.mp hw
    rw [hparts] at ht'
    rw [Value.lookup_table_key]
    by_cases hmem : key ∈ F.names
    · obtain ⟨_, field, a, ⟨-, habsent⟩, rfl, ha, hwrite⟩ :=
        Fields.exists_field hnodup hF (Fields.of_fromEntries hg).2 hmem
      obtain ⟨es, hes, -, hget⟩ := Fields.toMap_eq_ok hnodup ht'
      rw [hkey] at ha
      rw [hget]
      exact habsent a _ (Field.resolve_none.mp ha) (hwrite es hes)
    · rw [Fields.get_toMap_of_not_mem hnodup ht' hmem, eq_comm, List.lookup_eq_none_iff]
      intro e he
      refine bne_iff_ne.mpr fun heq => hmem ?_
      rw [heq]
      exact hdefaults e he

/-! ### Maps -/

/-- The value under a key, in a table that is read as a map. -/
theorem get_of_reads_map {toml : Toml ε} {c : Codec ε Value α} {t : Table} {m : BTreeMap α}
    (h : Reads (toml.mapCodec c) (.table t) m) (key : String) :
    (∀ x, AssocMap.get key t = some x →
      ∃ b, c.deserialize x = .ok b ∧ AssocMap.get key m.entries = some b) ∧
      (AssocMap.get key t = none → AssocMap.get key m.entries = none) := by
  obtain ⟨entries, hentries, rfl⟩ := map_eq_ok.mp h.2
  have hordered := (Value.wellFormed_table.mp h.1).1.of_keys (keys_mapValues hentries)
  rw [BTreeMap.entries_ofList hordered]
  obtain ⟨hsome, hnone⟩ := get_mapValues hentries key
  refine ⟨fun x hx => ?_, hnone⟩
  obtain ⟨b, hb, hget⟩ := hsome x hx
  exact ⟨b, mapError_eq_ok.mp hb, hget⟩

theorem lookup_of_write_map {toml : Toml ε} {c : Codec ε Value α} {m : BTreeMap α} {w : Value}
    (h : (toml.mapCodec c).serialize m = .ok w) (key : String) :
    (∀ b, AssocMap.get key m.entries = some b →
      ∃ y, c.serialize b = .ok y ∧ w.lookup [key] = some y) ∧
      (AssocMap.get key m.entries = none → w.lookup [key] = none) := by
  obtain ⟨t, ht, rfl⟩ := map_eq_ok.mp h
  have hordered := m.ordered.of_keys (keys_mapValues ht)
  rw [Value.lookup_table_key, hordered.ofList_eq]
  exact get_mapValues ht key

theorem follows_map (toml : Toml ε) {c : Codec ε Value α} (h : Follows c s)
    (hkeys : ∀ key, sec.under key = some s) (hsec : sec.isInner = true)
    (hdefaults : sec.defaults = []) : Follows (toml.mapCodec c) sec := by
  refine Steps.follows ⟨fun {t m} hv {key x} hx => ?_, fun {v m} hv => ?_,
    fun {t m} hv {w} hw {key} hkey => ?_⟩ hsec
  · obtain ⟨b, hb, hget⟩ := (get_of_reads_map hv key).1 x hx
    exact ⟨α, c, s, b, hkeys key, h, hb, fun w hw => (lookup_of_write_map hw key).1 b hget⟩
  · cases v with
    | table t => exact .inl rfl
    | _ => cases hv
  · rw [hdefaults]
    exact (lookup_of_write_map hw key).2 ((get_of_reads_map hv key).2 hkey)

/-! ## The configuration -/

section Types

variable {toml : Toml ε} (htoml : toml.Faithful)

section Leaves

include htoml

theorem follows_string : Follows toml.stringCodec .leaf :=
  follows_leaf fun v w a hv hread hwrite => by
    rw [(htoml.string hv).mp hread]
    exact (Except.ok.inj hwrite).symm

theorem follows_boolean : Follows toml.booleanCodec .leaf :=
  follows_leaf fun v w a hv hread hwrite => by
    rw [(htoml.boolean hv).mp hread]
    exact (Except.ok.inj hwrite).symm

theorem follows_unsigned (max : Nat) : Follows (toml.unsignedCodec max) .leaf :=
  follows_leaf fun v w n hv hread hwrite => by
    rw [((htoml.unsigned hv).mp hread).1]
    unfold Toml.unsignedCodec at hwrite
    dsimp only at hwrite
    split at hwrite
    · exact (Except.ok.inj hwrite).symm
    · cases hwrite

theorem follows_enum (name : α → String) (variants : List α) :
    Follows (toml.enumCodec name variants) .leaf :=
  follows_leaf fun v w a hv hread hwrite => by
    obtain ⟨s, rfl, hs⟩ := (htoml.unitVariant hv).mp hread
    obtain ⟨before, after, heq, -⟩ := List.lookup_eq_some_iff.mp hs
    have hmem : (s, a) ∈ variants.map fun a => (name a, a) := by simp [heq]
    obtain ⟨a', -, ha⟩ := List.mem_map.mp hmem
    cases ha
    exact (Except.ok.inj hwrite).symm

end Leaves

theorem follows_vec (c : Codec ε Value α) : Follows (toml.vecCodec c) .leaf :=
  follows_leaf fun v w a hv hread _ => by
    cases v with
    | array items => cases hv
    | _ => cases hread

include htoml

theorem follows_runtimeConfig : Follows (RuntimeConfig.codec toml) .runtimeConfig :=
  follows_struct toml (fun _ => rfl) (by simp)
    ⟨follows_required (follows_string htoml) rfl,
     follows_defaulted (follows_string htoml) rfl rfl rfl,
     follows_required (follows_unsigned htoml _) rfl,
     follows_required (follows_unsigned htoml _) rfl,
     follows_defaulted (follows_unsigned htoml _) rfl rfl rfl, trivial⟩
    rfl (by simp [Section.defaults])

theorem follows_storeConfig : Follows (StoreConfig.codec toml) .storeConfig :=
  follows_struct toml (fun _ => rfl) (by simp)
    ⟨follows_required (follows_enum htoml _ _) rfl,
     follows_required (follows_string htoml) rfl, trivial⟩
    rfl (by simp [Section.defaults])

theorem follows_providerConfig : Follows (ProviderConfig.codec toml) .providerConfig :=
  follows_struct toml (fun _ => rfl) (by simp)
    ⟨follows_required (follows_enum htoml _ _) rfl,
     follows_optional (follows_string htoml) rfl rfl, trivial⟩
    rfl (by simp [Section.defaults])

theorem follows_budgetPoolConfig : Follows (BudgetPoolConfig.codec toml) .budgetPoolConfig :=
  follows_struct toml (fun _ => rfl) (by simp)
    ⟨follows_required (follows_unsigned htoml _) rfl,
     follows_required (follows_unsigned htoml _) rfl,
     follows_required (follows_enum htoml _ _) rfl,
     follows_defaulted (follows_vec _) rfl rfl rfl, trivial⟩
    rfl (by simp [Section.defaults])

theorem follows_tokenBudget : Follows (TokenBudget.codec toml) .tokenBudget :=
  follows_struct toml (fun _ => rfl) (by simp)
    ⟨follows_required (follows_unsigned htoml _) rfl,
     follows_required (follows_unsigned htoml _) rfl, trivial⟩
    rfl (by simp [Section.defaults])

theorem follows_groupConfig : Follows (GroupConfig.codec toml) .groupConfig :=
  follows_struct toml (fun _ => rfl) (by simp)
    ⟨follows_required (follows_string htoml) rfl,
     follows_required (follows_string htoml) rfl,
     follows_defaulted (follows_vec _) rfl rfl rfl,
     follows_required (follows_string htoml) rfl,
     follows_defaulted (follows_boolean htoml) rfl rfl rfl,
     follows_optional (follows_tokenBudget htoml) rfl rfl,
     follows_optional (follows_string htoml) rfl rfl,
     follows_defaulted (follows_vec _) rfl rfl rfl, trivial⟩
    rfl (by simp [Section.defaults])

theorem follows_containerDefaults : Follows (ContainerDefaults.codec toml) .containerDefaults :=
  follows_struct toml (fun _ => rfl) (by simp)
    ⟨follows_required (follows_string htoml) rfl,
     follows_required (follows_string htoml) rfl,
     follows_required (follows_string htoml) rfl,
     follows_required (follows_string htoml) rfl,
     follows_required (follows_unsigned htoml _) rfl, trivial⟩
    rfl (by simp [Section.defaults])

theorem follows_tanrenConfig : Follows (TanrenConfig.codec toml) .tanrenConfig :=
  follows_struct toml (fun _ => rfl) (by simp)
    ⟨follows_required (follows_string htoml) rfl,
     follows_optional (follows_string htoml) rfl rfl,
     follows_optional (follows_unsigned htoml _) rfl rfl, trivial⟩
    rfl (by simp [Section.defaults])

theorem follows_channelConfig : Follows (ChannelConfig.codec toml) .channelConfig :=
  follows_struct toml (fun _ => rfl) (by simp)
    ⟨follows_required (follows_enum htoml _ _) rfl,
     follows_optional (follows_string htoml) rfl rfl,
     follows_defaulted (follows_settings _) rfl rfl rfl, trivial⟩
    rfl (by simp [Section.defaults])

/-- **The configuration follows the schema.** -/
theorem follows_forgeclawConfig : Follows (ForgeclawConfig.codec toml) .forgeclawConfig :=
  follows_struct toml (fun _ => rfl) (by simp)
    ⟨follows_required (follows_runtimeConfig htoml) rfl,
     follows_required (follows_storeConfig htoml) rfl,
     follows_required (follows_map toml (follows_providerConfig htoml) (fun _ => rfl) rfl rfl) rfl,
     follows_defaulted
      (follows_map toml (follows_budgetPoolConfig htoml) (fun _ => rfl) rfl rfl) rfl rfl rfl,
     follows_required (follows_map toml (follows_groupConfig htoml) (fun _ => rfl) rfl rfl) rfl,
     follows_required (follows_map toml (follows_channelConfig htoml) (fun _ => rfl) rfl rfl) rfl,
     follows_required (follows_containerDefaults htoml) rfl,
     follows_optional (follows_tanrenConfig htoml) rfl rfl, trivial⟩
    rfl (by simp [Section.defaults])

end Types

end Forgeclaw.Core.Config
