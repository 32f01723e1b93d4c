/-
  Which database errors are retried: `classify` on what the conversion of a `DbErr` with its
  whole source chain leaves.

  `fromDbErr_transient_iff`: a connection failure is, and a runtime failure exactly when a
  single layer's own text has one of the markers outside the URLs. Redacting the layers and
  joining them makes no marker and breaks none.
-/
import Forgeclaw.Store.Error
import Forgeclaw.Foundation.SpanSearch

namespace Forgeclaw.Store

open SpanRedact Search
open Forgeclaw.Core (ErrorClass)

/-! ## Markers -/

/-- What `classifyRuntime` looks for: SQLSTATE codes and SQLite's busy messages. -/
def markers : List String :=
  ["40001", "40P01", "database is locked", "database is busy", "deadlock"]

/-- The marker stands in the text, in upper or lower case, and outside every URL span. -/
def MarkedOutside (text marker : String) : Prop :=
  storeUrls.OccursOutside Char.toLower (toAsciiLowercase marker).toList text.toList

theorem toList_toAsciiLowercase (s : String) :
    (toAsciiLowercase s).toList = s.toList.map Char.toLower := String.toList_ofList

theorem classifyRuntime_transient_iff (sanitized : String) :
    (∃ retryAfter, classifyRuntime sanitized = .transient retryAfter) ↔
      ∃ marker ∈ markers,
        (toAsciiLowercase marker).toList <:+: (toAsciiLowercase sanitized).toList := by
  have hlower : markers.map toAsciiLowercase =
      ["40001", "40p01", "database is locked", "database is busy", "deadlock"] := by decide
  have hmarkers : (∃ marker ∈ markers,
        (toAsciiLowercase marker).toList <:+: (toAsciiLowercase sanitized).toList) ↔
      ∃ lower ∈ markers.map toAsciiLowercase,
        contains (toAsciiLowercase sanitized) lower = true := by
    simp [contains_iff]
  rw [hmarkers, hlower]
  unfold classifyRuntime
  simp only [List.exists_mem_cons_iff, List.not_mem_nil, false_and, exists_false, or_false,
    ← Bool.or_eq_true, Bool.or_assoc]
  split <;> simp_all

theorem classify_transient_iff (message : String) (category : DatabaseCategory) :
    (∃ retryAfter, (StoreError.database message category).classify = .transient retryAfter) ↔
      category = .connection ∨ category = .runtime ∧
        ∃ retryAfter, classifyRuntime message = .transient retryAfter := by
  cases category <;> simp [StoreError.classify, classifyDatabase]

/-! ## Through redaction and joints -/

/-- A marker shares neither end with the mark `<url-redacted>` and is not part of it. -/
theorem plain_marker {marker : String} (h : marker ∈ markers) :
    storeUrls.Plain Char.toLower (toAsciiLowercase marker).toList := by
  have hne : ∀ m ∈ markers, m.toList ≠ [] := by decide
  have hhead : ∀ m ∈ markers, '<' ∉ m.toList.map Char.toLower := by decide
  have hclose : ∀ m ∈ markers, '>' ∉ m.toList.map Char.toLower := by decide
  have hstem : ∀ m ∈ markers,
      ¬ m.toList.map Char.toLower <:+: "<url-redacted".toList := by decide +kernel
  have hlower : storeUrls.stem.map Char.toLower = "<url-redacted".toList := by decide
  rw [toList_toAsciiLowercase]
  refine ⟨by simpa using hne marker h, fun c hc => ?_, hclose marker h, ?_⟩
  · obtain rfl : '<' = c := by simpa [storeUrls] using hc
    exact hhead marker h
  · rw [hlower]
    exact hstem marker h

/-- A marker has no `|` and neither starts nor ends with a blank. -/
theorem marker_infix_join {marker : String} (h : marker ∈ markers) (parts : List (List Char)) :
    (toAsciiLowercase marker).toList <:+: " | ".toList.intercalate parts ↔
      ∃ part ∈ parts, (toAsciiLowercase marker).toList <:+: part := by
  have hbar : ∀ m ∈ markers, '|' ∉ m.toList.map Char.toLower := by decide
  have hfirst : ∀ m ∈ markers, (m.toList.map Char.toLower).head?.any (· ≠ ' ') := by decide
  have hlast : ∀ m ∈ markers, (m.toList.map Char.toLower).getLast?.any (· ≠ ' ') := by decide
  obtain ⟨y, hy, hyb⟩ := (Option.any_eq_true _ _).mp (hfirst marker h)
  obtain ⟨z, hz, hzb⟩ := (Option.any_eq_true _ _).mp (hlast marker h)
  rw [toList_toAsciiLowercase]
  exact infix_intercalate_iff (u := [' ']) (v := [' ']) hy hz
    (hbar marker h) (by simpa using hzb) (by simpa using hyb) parts

theorem map_intercalate {α β : Type} (f : α → β) (sep : List α) (parts : List (List α)) :
    (sep.intercalate parts).map f = (sep.map f).intercalate (parts.map (List.map f)) := by
  induction parts with
  | nil => rfl
  | cons part parts ih =>
    cases parts with
    | nil => simp
    | cons next parts =>
      rw [List.map_cons] at ih
      simp [List.intercalate_cons_cons, ih]

/-- The message of the whole chain in lower case, layer by layer. -/
theorem lowercase_message (err : DbErr) :
    (toAsciiLowercase (sanitizeFullChain err)).toList =
      " | ".toList.intercalate
        (err.layers.map fun layer => (storeUrls.redact layer.toList).map Char.toLower) := by
  have hbar : " | ".toList.map Char.toLower = " | ".toList := by decide
  rw [toList_toAsciiLowercase, sanitizeFullChain_eq, String.toList_intercalate, map_intercalate,
    hbar, List.map_map, List.map_map]
  congr 2
  funext layer
  simp only [Function.comp_apply, toList_sanitizeMessage]

theorem marker_infix_message_iff {marker : String} (h : marker ∈ markers) (err : DbErr) :
    (toAsciiLowercase marker).toList <:+: (toAsciiLowercase (sanitizeFullChain err)).toList ↔
      ∃ layer ∈ err.layers, MarkedOutside layer marker := by
  rw [lowercase_message, marker_infix_join h]
  simp [Redactor.infix_redact_iff (plain_marker h), MarkedOutside]

theorem isOpen_of_any {url : String} (h : url.toList.any isUrlEnd = false) :
    storeUrls.IsOpen url.toList := fun c hc =>
  Bool.eq_false_iff.mpr (List.any_eq_false.mp h c hc)

/-- What stands behind a scheme, up to the next character that ends a URL, has no part in
    where the markers are. -/
theorem markedOutside_url_iff {scheme : String} (hs : scheme ∈ schemes) {marker : String}
    (h : marker ∈ markers) (pre suffix : String) {url1 url2 : String}
    (h1 : url1.toList.any isUrlEnd = false) (h2 : url2.toList.any isUrlEnd = false) :
    MarkedOutside (pre ++ scheme ++ url1 ++ suffix) marker ↔
      MarkedOutside (pre ++ scheme ++ url2 ++ suffix) marker := by
  have hspan := Redactor.occursOutside_span_iff (f := Char.toLower) (plain_marker h).ne_nil
    (scheme_mem_pats hs) pre.toList suffix.toList (isOpen_of_any h1) (isOpen_of_any h2)
  unfold MarkedOutside
  simpa only [String.toList_append, List.append_assoc] using hspan

/-- The condition under which a runtime failure is retried. -/
def Marked (err : DbErr) : Prop :=
  ∃ layer ∈ err.layers, ∃ marker ∈ markers, MarkedOutside layer marker

theorem marked_iff (err : DbErr) :
    (∃ marker ∈ markers, (toAsciiLowercase marker).toList <:+:
      (toAsciiLowercase (sanitizeFullChain err)).toList) ↔ Marked err := by
  unfold Marked
  constructor
  · rintro ⟨marker, hmarker, hin⟩
    obtain ⟨layer, hlayer, hout⟩ := (marker_infix_message_iff hmarker err).mp hin
    exact ⟨layer, hlayer, marker, hmarker, hout⟩
  · rintro ⟨layer, hlayer, marker, hmarker, hout⟩
    exact ⟨marker, hmarker, (marker_infix_message_iff hmarker err).mpr ⟨layer, hlayer, hout⟩⟩

theorem fromDbErr_transient (err : DbErr) :
    (∃ retryAfter, (StoreError.fromDbErr err).classify = .transient retryAfter) ↔
      categorize err = .connection ∨ categorize err = .runtime ∧ Marked err := by
  unfold StoreError.fromDbErr
  rw [classify_transient_iff, classifyRuntime_transient_iff, marked_iff]

theorem categorize_connection_iff (err : DbErr) :
    categorize err = .connection ↔ err.kind = .conn ∨ err.kind = .connectionAcquire := by
  cases hkind : err.kind <;> simp [categorize, hkind]

theorem categorize_runtime_iff (err : DbErr) :
    categorize err = .runtime ↔ err.kind = .exec ∨ err.kind = .query := by
  cases hkind : err.kind <;> simp [categorize, hkind]

/-- The retry decision by the variant of the `DbErr`. -/
theorem transient_iff_kind (err : DbErr) :
    (∃ retryAfter, (StoreError.fromDbErr err).classify = .transient retryAfter) ↔
      (err.kind = .conn ∨ err.kind = .connectionAcquire) ∨
        (err.kind = .exec ∨ err.kind = .query) ∧ Marked err := by
  rw [fromDbErr_transient, categorize_connection_iff, categorize_runtime_iff]

/-- Errors that differ in one layer, and there only behind a scheme in a URL. -/
theorem marked_congr {e1 e2 : DbErr} {before after : List String}
    {pre scheme url1 url2 suffix : String} (hs : scheme ∈ schemes)
    (h1 : url1.toList.any isUrlEnd = false) (h2 : url2.toList.any isUrlEnd = false)
    (hl1 : e1.layers = before ++ (pre ++ scheme ++ url1 ++ suffix) :: after)
    (hl2 : e2.layers = before ++ (pre ++ scheme ++ url2 ++ suffix) :: after) :
    Marked e1 ↔ Marked e2 := by
  have hlayer : (∃ marker ∈ markers, MarkedOutside (pre ++ scheme ++ url1 ++ suffix) marker) ↔
      ∃ marker ∈ markers, MarkedOutside (pre ++ scheme ++ url2 ++ suffix) marker :=
    exists_congr fun _ => and_congr_right fun h => markedOutside_url_iff hs h pre suffix h1 h2
  unfold Marked
  rw [hl1, hl2]
  simp only [List.mem_append, List.mem_cons, or_and_right, exists_or, exists_eq_left, hlayer]

/-- **Retry decision over whole error chains.** What a `DbErr` becomes is transient exactly when
    its category is `Connection`, or it is `Runtime` and one layer's text has a marker outside
    the URLs that redaction removes. Nothing inside a URL has a part in it. -/
theorem fromDbErr_transient_iff (err : DbErr) :
    ((∃ retryAfter, (StoreError.fromDbErr err).classify = .transient retryAfter) ↔
      categorize err = .connection ∨ categorize err = .runtime ∧
        ∃ layer ∈ err.layers, ∃ marker ∈ markers, MarkedOutside layer marker) ∧
    ∀ (err' : DbErr) (before after : List String) (pre scheme url url' suffix : String),
      err'.kind = err.kind → scheme ∈ schemes →
      url.toList.any isUrlEnd = false → url'.toList.any isUrlEnd = false →
      err.layers = before ++ (pre ++ scheme ++ url ++ suffix) :: after →
      err'.layers = before ++ (pre ++ scheme ++ url' ++ suffix) :: after →
      ((∃ retryAfter, (StoreError.fromDbErr err).classify = .transient retryAfter) ↔
        ∃ retryAfter, (StoreError.fromDbErr err').classify = .transient retryAfter) := by
  refine ⟨fromDbErr_transient err, ?_⟩
  intro err' before after pre scheme url url' suffix hkind hs hu hu' hl hl'
  have hcat : categorize err' = categorize err := by simp [categorize, hkind]
  rw [fromDbErr_transient, fromDbErr_transient, hcat, marked_congr hs hu hu' hl hl']

/-- A marker behind a URL is seen. -/
theorem markedOutside_locked :
    MarkedOutside "sqlite://forgeclaw.db database is locked" "database is locked" := by
  have hmarker : "database is locked" ∈ markers := by decide
  have hlayer : "sqlite://forgeclaw.db database is locked".toList =
      "sqlite://forgeclaw.db".toList ++ ' ' :: "database is locked".toList := by decide
  have hplain : storeUrls.redact "database is locked".toList = "database is locked".toList := by
    have hslash : ∀ p ∈ storeUrls.pats, '/' ∈ p := by decide
    exact Redactor.redact_of_no_pat fun p hp hin =>
      absurd (hin.subset (hslash p hp)) (by decide)
  unfold MarkedOutside
  rw [← Redactor.infix_redact_iff (plain_marker hmarker), hlayer,
    storeUrls.redact_append_end (by decide), hplain, List.map_append]
  exact ⟨_, [], by rw [List.append_nil]; exact List.append_assoc _ [' '] _⟩

/-- A locked database is tried again; that a host name contains a marker makes no difference. -/
theorem fromDbErr_transient_iff_host :
    (∃ retryAfter, (StoreError.fromDbErr ⟨.exec, "Execution Error",
        ["sqlite://forgeclaw.db database is locked"]⟩).classify = .transient retryAfter) ∧
    ((∃ retryAfter, (StoreError.fromDbErr ⟨.query, "Query Error",
        ["open " ++ "postgres://" ++ "db-40001/x" ++ ""]⟩).classify = .transient retryAfter) ↔
      ∃ retryAfter, (StoreError.fromDbErr ⟨.query, "Query Error",
        ["open " ++ "postgres://" ++ "db-7/x" ++ ""]⟩).classify = .transient retryAfter) := by
  constructor
  · refine (fromDbErr_transient_iff _).1.mpr (.inr ⟨rfl, _, ?_, _, ?_, markedOutside_locked⟩)
    · decide
    · decide
  · obtain ⟨-, h⟩ := fromDbErr_transient_iff ⟨.query, "Query Error",
      ["open " ++ "postgres://" ++ "db-40001/x" ++ ""]⟩
    refine h _ ["Query Error"] [] "open " "postgres://" "db-40001/x" "db-7/x" "" ?_ ?_ ?_ ?_ ?_ ?_
    · rfl
    · decide
    · decide
    · decide
    · simp only [DbErr.layers, List.cons_append, List.nil_append]
    · simp only [DbErr.layers, List.cons_append, List.nil_append]

end Forgeclaw.Store
