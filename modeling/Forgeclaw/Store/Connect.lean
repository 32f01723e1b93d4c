/-
  `crates/store/src/store.rs`: `Store::connect`, which takes a store URL apart far enough to
  reject unknown schemes and to size the pool, and hands it to the driver.

  `rejected_alike_iff`: what the error for a rejected URL tells of the text behind the scheme.
  The hint ends at the first `://` or after 16 characters, so it stops at a scheme's end only if
  the `:` behind it is followed by `//`, or if the scheme alone fills the hint.
-/
import Forgeclaw.Store.Error

namespace Forgeclaw.Store

open Search
open Forgeclaw.Core (ErrorClass)

/-! ## Connecting -/

/-- `str::starts_with` -/
def startsWith (s pat : String) : Bool := pat.toList.isPrefixOf s.toList

theorem startsWith_iff {s pat : String} : startsWith s pat = true ↔ pat.toList <+: s.toList := by
  rw [startsWith, List.isPrefixOf_iff_prefix]

/-- `str::split(pat).next()`: the text before the first `pat`, or all of it. A split has at
    least one piece. -/
def splitNext (s pat : String) : Option String :=
  some (String.ofList (s.toList.take ((findSub pat.toList s.toList).getD s.toList.length)))

def isSupportedScheme (url : String) : Bool :=
  startsWith url "sqlite://" ||
  startsWith url "sqlite::memory:" ||
  startsWith url "postgres://" ||
  startsWith url "postgresql://"

def isSqliteMemory (url : String) : Bool :=
  startsWith url "sqlite::memory:" ||
  startsWith url "sqlite://:memory:" ||
  contains url "?mode=memory" ||
  contains url "&mode=memory"

def schemeHint (url : String) : String :=
  String.ofList (((splitNext url "://").getD "<empty>").toList.take 16)

/-- `sea_orm::ConnectOptions`, as far as `connect` sets it. -/
structure ConnectOptions where
  url : String
  sqlxLogging : Bool := true
  maxConnections : Option Nat := none
  minConnections : Option Nat := none
  deriving DecidableEq, Repr

/-- `Store::connect`, over the driver's own `Database::connect`. A `Store` is its connection
    `db`, of the type `Db` here. -/
def connect {Db : Type} (databaseConnect : ConnectOptions → Except DbErr Db) (url : String) :
    Except StoreError Db :=
  if !isSupportedScheme url then
    .error (.invalidUrl ("unsupported URL scheme: " ++ schemeHint url))
  else
    let opts : ConnectOptions := { url, sqlxLogging := false }
    let opts := if isSqliteMemory url then
        { opts with maxConnections := some 1, minConnections := some 1 }
      else opts
    match databaseConnect opts with
    | .error err => .error (.fromDbErr err)
    | .ok db => .ok db

/-- A URL is rejected as unsupported for its scheme alone, whatever the driver does. -/
theorem connect_invalidUrl_iff {Db : Type} (databaseConnect : ConnectOptions → Except DbErr Db)
    (url reason : String) :
    connect databaseConnect url = .error (.invalidUrl reason) ↔
      isSupportedScheme url = false ∧ "unsupported URL scheme: " ++ schemeHint url = reason := by
  unfold connect
  cases h : isSupportedScheme url with
  | false => simp
  | true =>
    simp only [Bool.not_true, Bool.false_eq_true, if_false, false_and, iff_false,
      reduceCtorEq]
    split <;> simp [StoreError.fromDbErr]

/-! ## The hint of a rejected URL -/

/-- `scheme` of RFC 3986: a letter, then letters, digits, `+`, `-` and `.`. -/
def isScheme (s : String) : Bool :=
  s.toList.head?.any Char.isAlpha &&
    s.toList.all fun c => c.isAlphanum || c == '+' || c == '-' || c == '.'

theorem not_mem_scheme {s : String} (hs : isScheme s = true) {c : Char}
    (hc : (c.isAlphanum || c == '+' || c == '-' || c == '.') = false) : c ∉ s.toList := by
  intro hmem
  have hall := (Bool.and_eq_true_iff.mp hs).2
  rw [List.all_eq_true] at hall
  simp [hall c hmem] at hc

theorem toList_schemeHint (url : String) :
    (schemeHint url).toList =
      (url.toList.take ((findSub "://".toList url.toList).getD url.toList.length)).take 16 := by
  simp [schemeHint, splitNext]

/-- The text before the first `://` of a remainder. -/
def beforeSeparator (r : String) : List Char := ((splitNext r "://").getD "").toList

theorem beforeSeparator_eq (r : String) :
    beforeSeparator r = r.toList.take ((findSub "://".toList r.toList).getD r.toList.length) := by
  simp [beforeSeparator, splitNext]

/-- Where the hint of `s:r` comes from. -/
theorem toList_schemeHint_of_scheme {s : String} (hs : isScheme s = true) (r : String) :
    (schemeHint (s ++ ":" ++ r)).toList =
      (if startsWith r "//" then s.toList else s.toList ++ ':' :: beforeSeparator r).take 16 := by
  have hcolon : ':' ∉ s.toList := not_mem_scheme hs (by decide)
  have htext : (s ++ ":" ++ r).toList = s.toList ++ ':' :: r.toList := by simp
  have hfind : findSub "://".toList (s.toList ++ ':' :: r.toList) =
      if startsWith r "//" then some s.toList.length
      else (findSub "://".toList r.toList).map (· + (s.toList.length + 1)) := by
    have hhead : "://".toList.head? = some ':' := by decide
    have hpre : "://".toList <+: ':' :: r.toList ↔ startsWith r "//" = true := by
      rw [startsWith_iff]
      exact List.prefix_cons_inj ':'
    rw [findSub_append_left hhead hcolon, findSub]
    by_cases h : startsWith r "//" = true
    · rw [if_pos (hpre.mpr h), if_pos h]
      simp
    · rw [if_neg (mt hpre.mp h), if_neg h, Option.map_map]
      congr 1
      funext k
      simp only [Function.comp_apply]
      omega
  rw [toList_schemeHint, htext, hfind, beforeSeparator_eq]
  congr 1
  by_cases h : startsWith r "//" = true
  · simp [h]
  · simp only [if_neg h]
    have hcut : ∀ k, (s.toList ++ ':' :: r.toList).take (k + (s.toList.length + 1)) =
        s.toList ++ ':' :: r.toList.take k := fun k => by
      rw [List.take_append, List.take_of_length_le (by omega),
        show k + (s.toList.length + 1) - s.toList.length = k + 1 by omega, List.take_succ_cons]
    cases findSub "://".toList r.toList with
    | none => simp
    | some k => simp only [Option.map_some, Option.getD_some, hcut]

/-! ## Two rejected URLs of one scheme -/

/-- The remainders that the hint does not tell apart: the scheme alone fills it, or it ends at
    the scheme in both, or it goes on in both and shows the same characters. -/
def HiddenBehind (s r1 r2 : String) : Prop :=
  16 ≤ s.toList.length ∨
    (startsWith r1 "//" = true ∧ startsWith r2 "//" = true) ∨
    (startsWith r1 "//" = false ∧ startsWith r2 "//" = false ∧
      (beforeSeparator r1).take (15 - s.toList.length) =
        (beforeSeparator r2).take (15 - s.toList.length))

instance (s r1 r2 : String) : Decidable (HiddenBehind s r1 r2) :=
  inferInstanceAs (Decidable (_ ∨ _))

/-- A hint that goes on behind the scheme shows more than one that ends there. -/
theorem take_scheme_ne {s : List Char} (hlen : s.length < 16) (rest : List Char) :
    s.take 16 ≠ (s ++ ':' :: rest).take 16 := by
  intro h
  have := congrArg List.length h
  simp only [List.length_take, List.length_append, List.length_cons] at this
  omega

theorem schemeHint_eq_iff {s : String} (hs : isScheme s = true) (r1 r2 : String) :
    schemeHint (s ++ ":" ++ r1) = schemeHint (s ++ ":" ++ r2) ↔ HiddenBehind s r1 r2 := by
  rw [← String.toList_inj, toList_schemeHint_of_scheme hs, toList_schemeHint_of_scheme hs]
  unfold HiddenBehind
  rcases Nat.lt_or_ge s.toList.length 16 with hlen | hlen
  · have hpast : ∀ rest, (s.toList ++ ':' :: rest).take 16 =
        s.toList ++ ':' :: rest.take (15 - s.toList.length) := fun rest => by
      rw [List.take_append, List.take_of_length_le hlen.le,
        show 16 - s.toList.length = (15 - s.toList.length) + 1 by omega, List.take_succ_cons]
    cases h1 : startsWith r1 "//" <;> cases h2 : startsWith r2 "//"
    · simp only [Bool.false_eq_true, if_false, hpast]
      simp [Nat.not_le.mpr hlen]
    · simp only [Bool.false_eq_true, if_false, if_true]
      simp [Nat.not_le.mpr hlen, (take_scheme_ne hlen _).symm]
    · simp only [Bool.false_eq_true, if_false, if_true]
      simp [Nat.not_le.mpr hlen, take_scheme_ne hlen _]
    · simp
  · have hshort : ∀ rest, (s.toList ++ rest).take 16 = s.toList.take 16 := fun rest =>
      List.take_append_of_le_length hlen
    cases startsWith r1 "//" <;> cases startsWith r2 "//" <;> simp [hshort, hlen]

/-- **What the error for a rejected URL tells of the text behind the scheme.** For two URLs with
    one scheme, both rejected as unsupported, the errors have the same text and the same
    classification exactly when the hint does not reach behind the scheme, or shows the same
    characters there. -/
theorem rejected_alike_iff {Db : Type} (databaseConnect : ConnectOptions → Except DbErr Db)
    (s r1 r2 reason1 reason2 : String) (hs : isScheme s = true)
    (h1 : connect databaseConnect (s ++ ":" ++ r1) = .error (.invalidUrl reason1))
    (h2 : connect databaseConnect (s ++ ":" ++ r2) = .error (.invalidUrl reason2)) :
    ((StoreError.invalidUrl reason1).display = (StoreError.invalidUrl reason2).display ∧
      (StoreError.invalidUrl reason1).classify = (StoreError.invalidUrl reason2).classify) ↔
      HiddenBehind s r1 r2 := by
  obtain ⟨-, rfl⟩ := (connect_invalidUrl_iff databaseConnect _ _).mp h1
  obtain ⟨-, rfl⟩ := (connect_invalidUrl_iff databaseConnect _ _).mp h2
  rw [← schemeHint_eq_iff hs]
  unfold StoreError.display StoreError.classify
  constructor
  · intro h
    have htext := congrArg String.toList h.1
    rw [← String.toList_inj]
    simpa using htext
  · intro h
    rw [h]
    exact ⟨rfl, rfl⟩

/-- A driver that accepts every URL. -/
def acceptAll : ConnectOptions → Except DbErr Unit := fun _ => .ok ()

theorem rejected_alike_iff_slashes :
    (StoreError.invalidUrl "unsupported URL scheme: mysql").display =
      (StoreError.invalidUrl "unsupported URL scheme: mysql").display ∧
    (StoreError.invalidUrl "unsupported URL scheme: mysql").classify =
      (StoreError.invalidUrl "unsupported URL scheme: mysql").classify := by
  have h := rejected_alike_iff acceptAll "mysql" "//root:hunter2@db/x" "//admin:secret@db/y"
    "unsupported URL scheme: mysql" "unsupported URL scheme: mysql"
    (by decide) (by decide +kernel) (by decide +kernel)
  exact h.mpr (by decide)

/-- A URL whose `//` was left out: the error shows the user name and most of the password. -/
theorem rejected_without_slashes_leaks :
    isScheme "mysql" = true ∧
    connect acceptAll ("mysql" ++ ":" ++ "root:hunter2@db/x") =
      .error (.invalidUrl "unsupported URL scheme: mysql:root:hunte") ∧
    connect acceptAll ("mysql" ++ ":" ++ "root:secret@db/x") =
      .error (.invalidUrl "unsupported URL scheme: mysql:root:secre") ∧
    (StoreError.invalidUrl "unsupported URL scheme: mysql:root:hunte").display ≠
      (StoreError.invalidUrl "unsupported URL scheme: mysql:root:secre").display := by
  decide +kernel

end Forgeclaw.Store
