/-
  In-memory SQLite URLs: what `is_sqlite_memory` goes by, and what the URL says.

  The code tests prefixes and substrings of the whole URL; sqlx takes the URL apart, into the
  database behind the scheme and the parameters behind the first `?`, and decodes each.

  * `isSqliteMemory_iff`: what the tests come to on the parts of the URL;
  * `memory_detection_iff`: the accepted URLs for which the two agree, and the pool has one
    connection exactly for the databases in memory.
-/
import Forgeclaw.Store.Connect

namespace Forgeclaw.Store

open Search

/-! ## What the URL says -/

namespace SqliteUrl

/-- The URL's text behind its scheme, if the scheme is sqlite. -/
def behindScheme (url : String) : Option (List Char) :=
  if startsWith url "sqlite://" then
    some (url.toList.drop "sqlite://".toList.length)
  else if startsWith url "sqlite:" then
    some (url.toList.drop "sqlite:".toList.length)
  else
    none

/-- The text before the first `?`. -/
def database (rest : List Char) : List Char := rest.takeWhile (· != '?')

/-- The pieces of the text behind the first `?`. -/
def parameters (rest : List Char) : List (List Char) :=
  match rest.dropWhile (· != '?') with
  | [] => []
  | _ :: query => query.splitOn '&'

def utf8 (text : List Char) : List UInt8 := text.flatMap String.utf8EncodeChar

def hexDigit (c : Char) : Option Nat :=
  if c.isDigit then some (c.toNat - '0'.toNat)
  else if 'a' ≤ c ∧ c ≤ 'f' then some (c.toNat - 'a'.toNat + 10)
  else if 'A' ≤ c ∧ c ≤ 'F' then some (c.toNat - 'A'.toNat + 10)
  else none

/-- A `%` with two hexadecimal digits is a byte, all else is itself. -/
def percentDecode : List Char → List UInt8
  | '%' :: hi :: lo :: text =>
    match hexDigit hi, hexDigit lo with
    | some hi, some lo => UInt8.ofNat (16 * hi + lo) :: percentDecode text
    | _, _ => utf8 ['%'] ++ percentDecode (hi :: lo :: text)
  | c :: text => utf8 [c] ++ percentDecode text
  | [] => []

/-- The parameter is `mode=memory`, once its name and its value are decoded. -/
def setsMemory (parameter : List Char) : Bool :=
  percentDecode (parameter.takeWhile (· != '=')) == utf8 "mode".toList &&
    percentDecode ((parameter.dropWhile (· != '=')).drop 1) == utf8 "memory".toList

end SqliteUrl

open SqliteUrl

/-- The URL denotes an in-memory SQLite database. -/
def denotesMemory (url : String) : Bool :=
  (behindScheme url).any fun rest =>
    database rest == ":memory:".toList || (parameters rest).any setsMemory

example : denotesMemory "sqlite://foo?cache=private&mode=%6Demory" = true := by decide +kernel

/-! ## The tests of the code, on the parts -/

namespace SqliteUrl

theorem question_not_mem_database (rest : List Char) : '?' ∉ database rest := by
  intro h
  simpa using List.mem_takeWhile_imp h

/-- Without a `?` all is database; else the parameters are behind the first one. -/
theorem database_or_query (rest : List Char) :
    (database rest = rest ∧ parameters rest = []) ∨
      ∃ query, rest = database rest ++ '?' :: query ∧ parameters rest = query.splitOn '&' := by
  have hsplit : database rest ++ rest.dropWhile (· != '?') = rest := List.takeWhile_append_dropWhile
  unfold parameters
  cases hq : rest.dropWhile (· != '?') with
  | nil =>
    rw [hq, List.append_nil] at hsplit
    exact .inl ⟨hsplit, rfl⟩
  | cons c query =>
    have hc : c = '?' := by
      have := List.head?_dropWhile_not (· != '?') rest
      simpa [hq] using this
    rw [hq, hc] at hsplit
    exact .inr ⟨query, hsplit.symm, rfl⟩

theorem memory_prefix_iff (rest : List Char) :
    ":memory:".toList <+: rest ↔ ":memory:".toList <+: database rest := by
  rcases database_or_query rest with ⟨hall, -⟩ | ⟨query, hquery, -⟩
  · rw [hall]
  · have hno : '?' ∉ ":memory:".toList := by decide
    conv_lhs => rw [hquery]
    exact prefix_append_sep hno

/-- Where a word stands in the URL behind one of the two characters that start a parameter. -/
theorem mark_infix_iff {w : List Char} (hquestion : '?' ∉ w) (hampersand : '&' ∉ w)
    (rest : List Char) :
    '?' :: w <:+: rest ∨ '&' :: w <:+: rest ↔
      '&' :: w <:+: database rest ∨ ∃ p ∈ parameters rest, w <+: p ∨ '?' :: w <:+: p := by
  rcases database_or_query rest with ⟨hall, hnone⟩ | ⟨query, hquery, hparams⟩
  · have hno : ¬ '?' :: w <:+: rest := fun h =>
      question_not_mem_database rest (hall.symm ▸ h.subset List.mem_cons_self)
    simp [hall, hnone, hno]
  · have hfirst : '?' :: w <:+: rest ↔ w <+: query ∨ '?' :: w <:+: query := by
      conv_lhs => rw [hquery]
      rw [infix_append_left (y := '?') rfl (question_not_mem_database rest), List.infix_cons_iff,
        List.prefix_cons_inj]
    have hlater : '&' :: w <:+: rest ↔ '&' :: w <:+: database rest ∨ '&' :: w <:+: query := by
      conv_lhs => rw [hquery]
      exact infix_append_sep (List.cons_ne_nil _ _) (by simpa using hquestion)
    have hinside := infix_splitOn_iff (w := '?' :: w) (List.cons_ne_nil _ _)
      (x := '&') (by simpa using hampersand) query
    rw [hfirst, hlater, hparams, hinside]
    simp only [and_or_left, exists_or, ← prefix_splitOn_iff hampersand query, or_assoc,
      or_left_comm (b := '&' :: w <:+: database rest)]
    exact or_congr_right (or_congr_right or_comm)

end SqliteUrl

/-- The scheme is `sqlite://`, or else `sqlite:` with `:memory:` behind it. -/
theorem toList_of_behindScheme {url : String} (hurl : isSupportedScheme url = true)
    {rest : List Char} (hrest : behindScheme url = some rest) :
    url.toList = "sqlite://".toList ++ rest ∨
      url.toList = "sqlite:".toList ++ rest ∧ ":memory:".toList <+: rest := by
  unfold behindScheme at hrest
  split at hrest
  · rename_i hlong
    obtain ⟨t, ht⟩ := startsWith_iff.mp hlong
    rw [← ht, List.drop_left] at hrest
    exact .inl (Option.some.inj hrest ▸ ht.symm)
  · split at hrest
    · rename_i hlong hshort
      obtain ⟨t, ht⟩ := startsWith_iff.mp hshort
      rw [← ht, List.drop_left] at hrest
      obtain rfl : t = rest := Option.some.inj hrest
      refine .inr ⟨ht.symm, ?_⟩
      have hother : ∀ {scheme : List Char}, scheme.head? = some 'p' →
          ¬ scheme <+: "sqlite:".toList ++ t := by
        intro scheme hp hpre
        obtain ⟨tail, rfl⟩ := List.head?_eq_some_iff.mp hp
        exact absurd (List.cons_prefix_cons.mp hpre).1 (by decide)
      simp only [isSupportedScheme, Bool.or_eq_true, startsWith_iff, ← ht] at hurl
      rcases hurl with ((h | h) | h) | h
      · exact absurd (startsWith_iff.mpr (ht ▸ h)) hlong
      · exact (List.prefix_append_right_inj "sqlite:".toList).mp h
      · exact absurd h (hother rfl)
      · exact absurd h (hother rfl)
    · cases hrest

/-- The tests of the code on a sqlite URL. -/
theorem isSqliteMemory_iff {url : String} (hurl : isSupportedScheme url = true)
    {rest : List Char} (hrest : behindScheme url = some rest) :
    isSqliteMemory url = true ↔
      ":memory:".toList <+: database rest ∨ "&mode=memory".toList <:+: database rest ∨
        ∃ p ∈ parameters rest, "mode=memory".toList <+: p ∨ "?mode=memory".toList <:+: p := by
  have hmark := mark_infix_iff (w := "mode=memory".toList) (by decide) (by decide) rest
  simp only [isSqliteMemory, Bool.or_eq_true, startsWith_iff, contains_iff]
  rw [← memory_prefix_iff]
  rcases toList_of_behindScheme hurl hrest with htext | ⟨htext, hmemory⟩
  · have hshort : ¬ "sqlite::memory:".toList <+: "sqlite://".toList ++ rest := by
      intro h
      have htail : ":memory:".toList <+: "//".toList ++ rest :=
        (List.prefix_append_right_inj "sqlite:".toList).mp h
      exact absurd (List.cons_prefix_cons.mp htail).1 (by decide)
    have hlong : "sqlite://:memory:".toList <+: "sqlite://".toList ++ rest ↔
        ":memory:".toList <+: rest := List.prefix_append_right_inj "sqlite://".toList
    have hquestion : "?mode=memory".toList <:+: "sqlite://".toList ++ rest ↔
        "?mode=memory".toList <:+: rest := infix_append_left (y := '?') rfl (by decide)
    have hampersand : "&mode=memory".toList <:+: "sqlite://".toList ++ rest ↔
        "&mode=memory".toList <:+: rest := infix_append_left (y := '&') rfl (by decide)
    rw [htext, hlong, hquestion, hampersand, or_assoc, or_iff_right hshort]
    exact or_congr_right hmark
  · have hshort : "sqlite::memory:".toList <+: "sqlite:".toList ++ rest :=
      (List.prefix_append_right_inj "sqlite:".toList).mpr hmemory
    rw [htext]
    exact iff_of_true (.inl (.inl (.inl hshort))) (.inl hmemory)

/-! ## The pool -/

/-- Whatever the driver, `connect` asks it for a pool of one connection. -/
def Clamped (url : String) : Prop :=
  ∀ (Db : Type) (databaseConnect : ConnectOptions → Except DbErr Db),
    connect databaseConnect url =
      (databaseConnect ⟨url, false, some 1, some 1⟩).mapError .fromDbErr

theorem clamped_iff {url : String} (hurl : isSupportedScheme url = true) :
    Clamped url ↔ isSqliteMemory url = true := by
  constructor
  · intro h
    have hopts := h ConnectOptions .ok
    unfold connect at hopts
    by_contra hmem
    simp [hurl, hmem, Except.mapError] at hopts
  · intro h Db databaseConnect
    unfold connect
    simp only [hurl, h, Bool.not_true, Bool.false_eq_true, if_false, if_true]
    cases databaseConnect _ <;> rfl

/-! ## Where the two agree -/

namespace SqliteUrl

/-- The URL says in so many words that the database is in memory. -/
def Plain (rest : List Char) : Prop :=
  database rest = ":memory:".toList ∨ "mode=memory".toList ∈ parameters rest

/-- A parameter says so only when it is decoded. -/
def Encoded (rest : List Char) : Prop :=
  ∃ p ∈ parameters rest, p ≠ "mode=memory".toList ∧ setsMemory p = true

/-- Something else looks like it: a database that goes on behind `:memory:` or has
    `&mode=memory` in its name, a parameter that goes on behind `mode=memory` or has
    `?mode=memory` inside. -/
def Lookalike (rest : List Char) : Prop :=
  (":memory:".toList <+: database rest ∧ database rest ≠ ":memory:".toList) ∨
    "&mode=memory".toList <:+: database rest ∨
    ∃ p ∈ parameters rest,
      ("mode=memory".toList <+: p ∧ p ≠ "mode=memory".toList) ∨ "?mode=memory".toList <:+: p

theorem plain_or_lookalike (rest : List Char) :
    Plain rest ∨ Lookalike rest ↔
      ":memory:".toList <+: database rest ∨ "&mode=memory".toList <:+: database rest ∨
        ∃ p ∈ parameters rest, "mode=memory".toList <+: p ∨ "?mode=memory".toList <:+: p := by
  unfold Plain Lookalike
  generalize ":memory:".toList = memory, "mode=memory".toList = mode
  constructor
  · rintro ((hdb | hp) | ⟨hdb, -⟩ | hdb | ⟨p, hp, ⟨hmode, -⟩ | hmode⟩)
    · exact .inl (hdb ▸ List.prefix_rfl)
    · exact .inr (.inr ⟨mode, hp, .inl List.prefix_rfl⟩)
    · exact .inl hdb
    · exact .inr (.inl hdb)
    · exact .inr (.inr ⟨p, hp, .inl hmode⟩)
    · exact .inr (.inr ⟨p, hp, .inr hmode⟩)
  · rintro (hdb | hdb | ⟨p, hp, hmode | hmode⟩)
    · by_cases he : database rest = memory
      · exact .inl (.inl he)
      · exact .inr (.inl ⟨hdb, he⟩)
    · exact .inr (.inr (.inl hdb))
    · by_cases he : p = mode
      · exact .inl (.inr (he ▸ hp))
      · exact .inr (.inr (.inr ⟨p, hp, .inl ⟨hmode, he⟩⟩))
    · exact .inr (.inr (.inr ⟨p, hp, .inr hmode⟩))

theorem plain_or_encoded (rest : List Char) :
    Plain rest ∨ Encoded rest ↔
      database rest = ":memory:".toList ∨ ∃ p ∈ parameters rest, setsMemory p = true := by
  have hplain : setsMemory "mode=memory".toList = true := by decide +kernel
  constructor
  · rintro ((hdb | hp) | ⟨p, hp, -, hmode⟩)
    · exact .inl hdb
    · exact .inr ⟨_, hp, hplain⟩
    · exact .inr ⟨p, hp, hmode⟩
  · rintro (hdb | ⟨p, hp, hmode⟩)
    · exact .inl (.inl hdb)
    · by_cases he : p = "mode=memory".toList
      · exact .inl (.inr (he ▸ hp))
      · exact .inr ⟨p, hp, he, hmode⟩

end SqliteUrl

/-- The URLs that the code and sqlx read alike: sqlite URLs that say plainly that they are in
    memory, or have a lookalike only together with an encoded parameter; and PostgreSQL URLs
    with neither of the texts that the code looks for. -/
def ReadAlike (url : String) : Prop :=
  match behindScheme url with
  | some rest => Plain rest ∨ (Lookalike rest ↔ Encoded rest)
  | none => ¬ "?mode=memory".toList <:+: url.toList ∧ ¬ "&mode=memory".toList <:+: url.toList

theorem denotesMemory_iff {url : String} {rest : List Char}
    (hrest : behindScheme url = some rest) :
    denotesMemory url = true ↔ Plain rest ∨ Encoded rest := by
  rw [plain_or_encoded, denotesMemory, hrest]
  simp

/-- On other URLs only the two texts are left to go by. -/
theorem isSqliteMemory_iff_of_none {url : String} (hurl : behindScheme url = none) :
    isSqliteMemory url = true ↔
      "?mode=memory".toList <:+: url.toList ∨ "&mode=memory".toList <:+: url.toList := by
  have hshort : ¬ "sqlite:".toList <+: url.toList := by
    intro h
    unfold behindScheme at hurl
    rw [if_pos (startsWith_iff.mpr h)] at hurl
    split at hurl <;> cases hurl
  have hbehind : ∀ {pat : List Char}, "sqlite:".toList <+: pat → ¬ pat <+: url.toList :=
    fun hpat h => hshort (hpat.trans h)
  simp only [isSqliteMemory, Bool.or_eq_true, startsWith_iff, contains_iff]
  rw [or_iff_right (hbehind (by decide)), or_iff_right (hbehind (by decide))]

/-- **In-memory detection against the URL.** For an accepted URL the code's test says what the
    URL says, and the pool is clamped to one connection exactly for the in-memory databases,
    iff the URL is one that both read alike. -/
theorem memory_detection_iff (url : String) (hurl : isSupportedScheme url = true) :
    ((isSqliteMemory url = true ↔ denotesMemory url = true) ∧
      (Clamped url ↔ denotesMemory url = true)) ↔ ReadAlike url := by
  rw [clamped_iff hurl, and_self]
  unfold ReadAlike
  cases hrest : behindScheme url with
  | some rest =>
    rw [denotesMemory_iff hrest, isSqliteMemory_iff hurl hrest, ← plain_or_lookalike]
    by_cases hplain : Plain rest
    · simp [hplain]
    · simp [hplain]
  | none =>
    have hnot : denotesMemory url = false := by
      rw [denotesMemory, hrest]
      rfl
    rw [isSqliteMemory_iff_of_none hrest, hnot]
    simp [not_or]

theorem memory_detection_iff_private :
    (isSqliteMemory "sqlite://foo?mode=memory&cache=private" = true ↔
      denotesMemory "sqlite://foo?mode=memory&cache=private" = true) ∧
    (Clamped "sqlite://foo?mode=memory&cache=private" ↔
      denotesMemory "sqlite://foo?mode=memory&cache=private" = true) := by
  refine (memory_detection_iff _ (by decide +kernel)).mpr ?_
  have hrest : behindScheme "sqlite://foo?mode=memory&cache=private" =
      some "foo?mode=memory&cache=private".toList := by decide +kernel
  have hparams : "mode=memory".toList ∈ parameters "foo?mode=memory&cache=private".toList := by
    decide +kernel
  rw [ReadAlike, hrest]
  exact .inl (.inr hparams)

/-- A PostgreSQL URL whose parameter the code takes for SQLite's, so that it asks for a pool of
    one, and a SQLite URL whose encoded parameter it does not see, so that it leaves the pool to
    the driver. -/
theorem memory_detection_fails :
    isSupportedScheme "postgres://u:p@h/db?mode=memory" = true ∧
    isSqliteMemory "postgres://u:p@h/db?mode=memory" = true ∧
    denotesMemory "postgres://u:p@h/db?mode=memory" = false ∧
    connect .ok "postgres://u:p@h/db?mode=memory" =
      .ok ⟨"postgres://u:p@h/db?mode=memory", false, some 1, some 1⟩ ∧
    isSupportedScheme "sqlite://foo?mode=%6Demory" = true ∧
    isSqliteMemory "sqlite://foo?mode=%6Demory" = false ∧
    denotesMemory "sqlite://foo?mode=%6Demory" = true ∧
    connect .ok "sqlite://foo?mode=%6Demory" =
      .ok ⟨"sqlite://foo?mode=%6Demory", false, none, none⟩ := by
  decide +kernel

end Forgeclaw.Store
