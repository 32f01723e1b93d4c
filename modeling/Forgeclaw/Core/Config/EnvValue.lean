/-
  `parse_env_value`: is an environment value used whole?

  The raw text is put after `v = ` and the result read as a document. So what the text may
  do is what a document may do after a value: end there, or go on with more lines.

  * `fromStr_probe_iff`: the documents that `v = ` begins, by the value and what follows it;
  * `parseEnvValue_of_continued`: a value with more lines after it is cut down to the value;
  * `env_value_whole_iff`: nothing else is cut down.
-/
import Forgeclaw.Core.Config.TomlLines

namespace Forgeclaw.Core.Config

/-- What `toml::from_str` does with the texts that it is given here: it accepts the documents
    whose lines define a table (`define`), and a key defined once stays as it was defined. -/
structure FromStr (R : Rules) (define : List Expression → Option Table)
    (fromStr : String → Option Value) : Prop where
  accepts : ∀ raw w, fromStr ("v = " ++ raw) = some w ↔
    ∃ es t, R.lines.Document ("v = " ++ raw).toList es ∧ define es = some t ∧ w = .table t
  first : ∀ {k v es t}, define (.keyVal [k] v :: es) = some t → AssocMap.get k t = some v

section

variable (R : Rules) (define : List Expression → Option Table)
  (fromStr : String → Option Value) (raw : String)

/-- The text is one value, with blanks around it and a comment after it at most. -/
def WholeValue (v : Value) : Prop :=
  ∃ rest, R.value (skipWs raw.toList) = some (v, rest) ∧ lineTail rest = []

/-- The text is taken as it is or as the one value that it is. -/
def UsedWhole : Prop :=
  parseEnvValue fromStr raw = .string raw ∨ WholeValue R raw (parseEnvValue fromStr raw)

/-- The text begins with a value, goes on after a line break, and with `v` for the value's
    key it is a document. -/
def Continued : Prop :=
  ∃ v rest more es, R.value (skipWs raw.toList) = some (v, rest) ∧
    lineBreak (lineTail rest) = some more ∧ R.lines.Document more es ∧
    (define (.keyVal ["v"] v :: es)).isSome

end

variable {R : Rules} {define : List Expression → Option Table}
  {fromStr : String → Option Value} {raw : String}

/-! ## The probe -/

/-- The first line of `v = …`: the raw text's value under the key `v`. -/
theorem entry_probe (s : List Char) :
    R.lines.entry ('v' :: ' ' :: '=' :: ' ' :: s)
      = (R.value (skipWs s)).map fun (v, rest) => (.keyVal ["v"] v, lineTail rest) := by
  have hkey : R.key ('v' :: ' ' :: '=' :: ' ' :: s) = some (["v"], ' ' :: '=' :: ' ' :: s) := by
    rfl
  have htext : R.text ('v' :: ' ' :: '=' :: ' ' :: s)
      = (R.value (skipWs s)).map fun (v, rest) => (.keyVal ["v"] v, rest) := by
    show R.keyVal _ = _
    rw [Rules.keyVal, hkey]
    rfl
  show (R.text ('v' :: ' ' :: '=' :: ' ' :: s)).map _ = _
  rw [htext, Option.map_map]
  rfl

theorem toList_probe (raw : String) :
    ("v = " ++ raw).toList = 'v' :: ' ' :: '=' :: ' ' :: raw.toList := by
  simp [String.toList_append]

/-- **The documents that the probe can be.** -/
theorem fromStr_probe_iff (h : FromStr R define fromStr) (w : Value) :
    fromStr ("v = " ++ raw) = some w ↔
      ∃ v rest es t, R.value (skipWs raw.toList) = some (v, rest) ∧
        define (.keyVal ["v"] v :: es) = some t ∧ w = .table t ∧
        ((lineTail rest = [] ∧ es = []) ∨
          ∃ more, lineBreak (lineTail rest) = some more ∧ R.lines.Document more es) := by
  rw [h.accepts, toList_probe]
  cases hv : R.value (skipWs raw.toList) with
  | none =>
    have hentry : R.lines.entry ('v' :: ' ' :: '=' :: ' ' :: raw.toList) = none := by
      rw [entry_probe, hv]
      rfl
    simp [LineFormat.not_document hentry]
  | some p =>
    obtain ⟨v, rest⟩ := p
    have hentry : R.lines.entry ('v' :: ' ' :: '=' :: ' ' :: raw.toList)
        = some (.keyVal ["v"] v, lineTail rest) := by
      rw [entry_probe, hv]
      rfl
    simp only [LineFormat.document_iff hentry]
    constructor
    · rintro ⟨es, t, ⟨hend, rfl⟩ | ⟨more, es', hbreak, hdoc, rfl⟩, hdefine, rfl⟩
      · exact ⟨v, rest, [], t, rfl, hdefine, rfl, .inl ⟨hend, rfl⟩⟩
      · exact ⟨v, rest, es', t, rfl, hdefine, rfl, .inr ⟨more, hbreak, hdoc⟩⟩
    · rintro ⟨v', rest', es, t, hv', hdefine, rfl, hafter⟩
      obtain ⟨rfl, rfl⟩ := Prod.mk.inj (Option.some.inj hv')
      refine ⟨_, t, ?_, hdefine, rfl⟩
      rcases hafter with ⟨hend, rfl⟩ | ⟨more, hbreak, hdoc⟩
      · exact .inl ⟨hend, rfl⟩
      · exact .inr ⟨more, es, hbreak, hdoc, rfl⟩

theorem parseEnvValue_of_none (h : fromStr ("v = " ++ raw) = none) :
    parseEnvValue fromStr raw = .string raw := by
  simp [parseEnvValue, h]

theorem parseEnvValue_of_get {t : Table} {v : Value}
    (h : fromStr ("v = " ++ raw) = some (.table t)) (hv : AssocMap.get "v" t = some v) :
    parseEnvValue fromStr raw = v := by
  simp [parseEnvValue, h, hv]

/-! ## What comes of it -/

/-- **Of a value with more lines after it, the value is used and the rest is lost.** -/
theorem parseEnvValue_of_continued (h : FromStr R define fromStr)
    (hraw : Continued R define raw) :
    ∃ rest more, R.value (skipWs raw.toList) = some (parseEnvValue fromStr raw, rest) ∧
      lineBreak (lineTail rest) = some more := by
  obtain ⟨v, rest, more, es, hv, hbreak, hdoc, hdefine⟩ := hraw
  obtain ⟨t, ht⟩ := Option.isSome_iff_exists.mp hdefine
  have hfrom : fromStr ("v = " ++ raw) = some (.table t) :=
    (fromStr_probe_iff h _).mpr ⟨v, rest, es, t, hv, ht, rfl, .inr ⟨more, hbreak, hdoc⟩⟩
  rw [parseEnvValue_of_get hfrom (h.first ht)]
  exact ⟨rest, more, hv, hbreak⟩

theorem usedWhole_of_not_continued (h : FromStr R define fromStr)
    (hraw : ¬ Continued R define raw) : UsedWhole R fromStr raw := by
  cases hfrom : fromStr ("v = " ++ raw) with
  | none => exact .inl (parseEnvValue_of_none hfrom)
  | some w =>
    obtain ⟨v, rest, es, t, hv, ht, rfl, hafter⟩ := (fromStr_probe_iff h w).mp hfrom
    rcases hafter with ⟨hend, -⟩ | ⟨more, hbreak, hdoc⟩
    · right
      rw [parseEnvValue_of_get hfrom (h.first ht)]
      exact ⟨rest, hv, hend⟩
    · exact absurd ⟨v, rest, more, es, hv, hbreak, hdoc, by simp [ht]⟩ hraw

/-- A value that was read is shorter than the text, so it is not the text as a string. -/
theorem value_ne_string {v : Value} {rest : List Char}
    (h : R.value (skipWs raw.toList) = some (v, rest)) : v ≠ .string raw := by
  rintro rfl
  have hlt := R.string_lt h
  have hle := (skipWs_suffix raw.toList).length_le
  rw [String.length_toList] at hle
  omega

/-! ## A small TOML to try it with

Whole numbers and strings on one line, under single keys. -/

def isPlain (c : Char) : Bool := isNonEol c && c != '"' && c != '\\'

def simpleValue : List Char → Option (Value × List Char)
  | '"' :: s =>
    match s.dropWhile isPlain with
    | '"' :: rest => some (.string (String.ofList (s.takeWhile isPlain)), rest)
    | _ => none
  | s =>
    if s.takeWhile Char.isDigit = [] then none
    else
      let value : Nat := (s.takeWhile Char.isDigit).foldl (fun n c => 10 * n + (c.toNat - 48)) 0
      some (.integer value, s.dropWhile Char.isDigit)

theorem simpleValue_suffix {s rest : List Char} {v : Value}
    (h : simpleValue s = some (v, rest)) : rest <:+ s := by
  unfold simpleValue at h
  split at h
  · rename_i s'
    split at h
    · rename_i more hmore
      cases h
      have hquote := List.dropWhile_suffix isPlain (l := s')
      rw [hmore] at hquote
      exact ((List.suffix_cons '"' rest).trans hquote).trans (List.suffix_cons _ _)
    · cases h
  · split at h
    · cases h
    · cases h
      exact List.dropWhile_suffix _

theorem simpleValue_string_lt {s rest : List Char} {t : String}
    (h : simpleValue s = some (.string t, rest)) : t.length < s.length := by
  unfold simpleValue at h
  split at h
  · rename_i s'
    split at h
    · cases h
      have hle := (List.takeWhile_prefix isPlain (l := s')).length_le
      rw [String.length_ofList, List.length_cons]
      omega
    · cases h
  · split at h <;> cases h

def simpleRules : Rules where
  quotedKey _ := none
  value := simpleValue
  quotedKey_suffix h := by cases h
  value_suffix := simpleValue_suffix
  string_lt := simpleValue_string_lt

/-- A line's key joins the table, unless it is there. -/
def simpleDefine (t : Table) : Expression → Option Table
  | .blank => some t
  | .keyVal [k] v => if AssocMap.get k t = none then some (AssocMap.insert k v t) else none
  | _ => none

def simpleFromStr (s : String) : Option Value :=
  ((simpleRules.lines.read s.toList).bind (List.foldlM simpleDefine [])).map .table

theorem get_simpleDefine {e : Expression} {t t' : Table} {k : String} {v : Value}
    (h : simpleDefine t e = some t') (hk : AssocMap.get k t = some v) :
    AssocMap.get k t' = some v := by
  unfold simpleDefine at h
  split at h
  · cases h
    exact hk
  · rename_i k' v'
    split at h
    · rename_i hnew
      cases h
      have hne : k ≠ k' := by
        rintro rfl
        rw [hk] at hnew
        cases hnew
      rw [AssocMap.get_insert_of_ne hne, hk]
    · cases h
  · cases h

theorem get_foldlM_simpleDefine {es : List Expression} {t t' : Table} {k : String} {v : Value}
    (h : es.foldlM simpleDefine t = some t') (hk : AssocMap.get k t = some v) :
    AssocMap.get k t' = some v := by
  induction es generalizing t with
  | nil =>
    cases h
    exact hk
  | cons e es ih =>
    simp only [List.foldlM_cons, Option.bind_eq_bind, Option.bind_eq_some_iff] at h
    obtain ⟨t₁, he, h⟩ := h
    exact ih h (get_simpleDefine he hk)

theorem simple_fromStr : FromStr simpleRules (List.foldlM simpleDefine []) simpleFromStr where
  accepts raw w := by
    simp only [simpleFromStr, Option.map_eq_some_iff, Option.bind_eq_some_iff,
      LineFormat.read_eq_some_iff Rules.lines_consumes]
    constructor
    · rintro ⟨t, ⟨es, hdoc, ht⟩, rfl⟩
      exact ⟨es, t, hdoc, ht, rfl⟩
    · rintro ⟨es, t, hdoc, ht, rfl⟩
      exact ⟨t, ⟨es, hdoc, ht⟩, rfl⟩
  first h := by
    simp only [List.foldlM_cons, Option.bind_eq_bind, Option.bind_eq_some_iff] at h
    obtain ⟨t, ht, h⟩ := h
    cases ht
    exact get_foldlM_simpleDefine h (AssocMap.get_insert_self _ _ _)

/-! ## Used whole -/

/-- **An environment value is used whole unless it is a value with more lines after it that
    make a document with it.** -/
theorem env_value_whole_iff (h : FromStr R define fromStr) (raw : String) :
    UsedWhole R fromStr raw ↔ ¬ Continued R define raw := by
  refine ⟨fun hused hraw => ?_, usedWhole_of_not_continued h⟩
  obtain ⟨rest, more, hv, hbreak⟩ := parseEnvValue_of_continued h hraw
  rcases hused with hstring | ⟨rest', hv', hend⟩
  · exact value_ne_string hv hstring
  · obtain rfl : rest = rest' := congrArg Prod.snd (Option.some.inj (hv.symm.trans hv'))
    rw [hend] at hbreak
    cases hbreak

theorem env_value_whole_iff_comment :
    FromStr simpleRules (List.foldlM simpleDefine []) simpleFromStr ∧
      parseEnvValue simpleFromStr "10 # at most" = .integer 10 ∧
      ¬ Continued simpleRules (List.foldlM simpleDefine []) "10 # at most" := by
  have hparse : parseEnvValue simpleFromStr "10 # at most" = .integer 10 := rfl
  have hvalue : simpleRules.value (skipWs "10 # at most".toList)
      = some (.integer 10, " # at most".toList) := rfl
  refine ⟨simple_fromStr, hparse, (env_value_whole_iff simple_fromStr _).mp (.inr ?_)⟩
  rw [hparse]
  exact ⟨_, hvalue, rfl⟩

/-- A second line after the value is lost. -/
theorem env_value_whole_fails :
    FromStr simpleRules (List.foldlM simpleDefine []) simpleFromStr ∧
      parseEnvValue simpleFromStr "10\nw = 2" = .integer 10 ∧
      ¬ UsedWhole simpleRules simpleFromStr "10\nw = 2" := by
  have hparse : parseEnvValue simpleFromStr "10\nw = 2" = .integer 10 := rfl
  have hvalue : simpleRules.value (skipWs "10\nw = 2".toList)
      = some (.integer 10, "\nw = 2".toList) := rfl
  refine ⟨simple_fromStr, hparse, ?_⟩
  rintro (hstring | ⟨rest, hv, hend⟩)
  · rw [hparse] at hstring
    cases hstring
  · obtain rfl : _ = rest := congrArg Prod.snd (Option.some.inj (hvalue.symm.trans hv))
    cases hend

end Forgeclaw.Core.Config
