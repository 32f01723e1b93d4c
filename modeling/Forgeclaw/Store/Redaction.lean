/-
  The credential redaction contract of `crates/store/src/error.rs`.

  `fromDbErr_url_free`: what a database error becomes contains no store URL, in its message,
  its text and its classification, for chains of any length and layers of any text; the loops
  end, sanitizing again changes nothing, and what is outside the URLs is kept.

  `userinfo_hidden_iff`: what the sanitized text still tells about the user name and password
  of a connection URL. RFC 3986 allows `'` and `)` there, and `isUrlEnd` takes both for the end
  of the URL, so everything from the first of them on stays in the text.
-/
import Forgeclaw.Store.Error
import Forgeclaw.Foundation.SpanSecrecy

namespace Forgeclaw.Store

open SpanRedact
open Forgeclaw.Core (ErrorClass)

/-! ## No store URL survives -/

/-- One of the three schemes occurs in the text. -/
def HasStoreUrl (s : String) : Prop := ∃ scheme ∈ schemes, scheme.toList <:+: s.toList

/-- The characters of a text outside all URL spans, in order. -/
def outsideUrls (raw : String) : List Char := storeUrls.outside raw.toList

theorem not_hasStoreUrl_iff {s : String} :
    ¬ HasStoreUrl s ↔ ∀ p ∈ storeUrls.pats, ¬ p <:+: s.toList := by
  simp [HasStoreUrl, storeUrls]

theorem not_hasStoreUrl_sanitize (raw : String) : ¬ HasStoreUrl (sanitizeMessage raw) := by
  rw [not_hasStoreUrl_iff, toList_sanitizeMessage]
  exact fun p hp => Redactor.no_pat_infix_redact hp raw.toList

theorem sanitize_of_not_hasStoreUrl {raw : String} (h : ¬ HasStoreUrl raw) :
    sanitizeMessage raw = raw := by
  unfold sanitizeMessage
  rw [Redactor.redact_of_no_pat (not_hasStoreUrl_iff.mp h), String.ofList_toList]

/-- Every scheme has a `/`. -/
theorem not_hasStoreUrl_of_slash {s : String} (h : '/' ∉ s.toList) : ¬ HasStoreUrl s := by
  have hslash : ∀ p ∈ storeUrls.pats, '/' ∈ p := by decide
  rw [not_hasStoreUrl_iff]
  exact fun p hp hin => h (hin.subset (hslash p hp))

/-- A blank at the joint keeps two texts from forming a URL together. -/
theorem not_hasStoreUrl_append_blank {s a b : String} (hs : s = a ++ " " ++ b)
    (ha : ¬ HasStoreUrl a) (hb : ¬ HasStoreUrl b) : ¬ HasStoreUrl s := by
  rw [not_hasStoreUrl_iff] at ha hb ⊢
  intro p hp
  have hlist : s.toList = a.toList ++ ' ' :: b.toList := by simp [hs]
  rw [hlist]
  exact Redactor.not_infix_append_end hp (by decide) (ha p hp) (hb p hp)

/-- Every scheme ends in `/`. -/
theorem getLast?_scheme {p : List Char} (hp : p ∈ storeUrls.pats) : p.getLast? = some '/' := by
  have hlast : ∀ p ∈ storeUrls.pats, p.getLast? = some '/' := by decide
  exact hlast p hp

theorem not_hasStoreUrl_join {parts : List String} (h : ∀ part ∈ parts, ¬ HasStoreUrl part) :
    ¬ HasStoreUrl (" | ".intercalate parts) := by
  have hbar : " | ".toList = [] ++ ' ' :: ['|', ' '] := rfl
  have hhead : ∀ p ∈ storeUrls.pats, p.head?.any (· ∉ ['|', ' ']) := by decide
  rw [not_hasStoreUrl_iff]
  intro p hp hin
  obtain ⟨y, hy, hjoint⟩ := (Option.any_eq_true _ _).mp (hhead p hp)
  have hblank : ' ' ∉ p := Redactor.not_mem_pat_of_isEnd hp (by decide)
  rw [String.toList_intercalate, hbar, Search.infix_intercalate_iff hy (getLast?_scheme hp)
    hblank (by simp) (of_decide_eq_true hjoint)] at hin
  obtain ⟨text, htext, hin⟩ := hin
  obtain ⟨part, hpart, rfl⟩ := List.mem_map.mp htext
  exact not_hasStoreUrl_iff.mp (h part hpart) p hp hin

theorem not_hasStoreUrl_message (err : DbErr) : ¬ HasStoreUrl (sanitizeFullChain err) := by
  rw [sanitizeFullChain_eq]
  refine not_hasStoreUrl_join fun part hpart => ?_
  obtain ⟨layer, _, rfl⟩ := List.mem_map.mp hpart
  exact not_hasStoreUrl_sanitize layer

theorem not_hasStoreUrl_debug (category : DatabaseCategory) :
    ¬ HasStoreUrl ("database error [" ++ category.debug ++ "]:") := by
  have h : '/' ∉ category.debug.toList := by cases category <;> decide
  exact not_hasStoreUrl_of_slash (by simp [String.toList_append, h])

theorem append_bracket_blank (a b c : String) :
    a ++ b ++ "]: " ++ c = a ++ b ++ "]:" ++ " " ++ c := by
  rw [← String.toList_inj]
  simp only [String.toList_append]
  simp

theorem not_hasStoreUrl_display (err : DbErr) :
    ¬ HasStoreUrl (StoreError.fromDbErr err).display := by
  have hdisplay : (StoreError.fromDbErr err).display =
      "database error [" ++ (categorize err).debug ++ "]: " ++ sanitizeFullChain err := rfl
  rw [hdisplay]
  exact not_hasStoreUrl_append_blank (append_bracket_blank _ _ _) (not_hasStoreUrl_debug _)
    (not_hasStoreUrl_message err)

theorem not_hasStoreUrl_classify (err : DbErr) (reason : String)
    (h : (StoreError.fromDbErr err).classify.reason? = some reason) : ¬ HasStoreUrl reason := by
  have hmsg := not_hasStoreUrl_message err
  have hprefix : ∀ a b : String, a = b ++ " " → ¬ HasStoreUrl b →
      ¬ HasStoreUrl (a ++ sanitizeFullChain err) := fun a b hab hb =>
    not_hasStoreUrl_append_blank (by rw [hab]) hb hmsg
  unfold StoreError.fromDbErr StoreError.classify classifyDatabase at h
  cases hcat : categorize err with
  | connection => simp [hcat, ErrorClass.reason?] at h
  | runtime =>
    simp only [hcat, classifyRuntime] at h
    split at h
    · simp [ErrorClass.reason?] at h
    · obtain rfl : sanitizeFullChain err = reason := by simpa [ErrorClass.reason?] using h
      exact hmsg
  | migration =>
    simp only [hcat, ErrorClass.reason?, Option.some.injEq] at h
    exact h ▸ hprefix _ "migration failed:" (by decide)
      (not_hasStoreUrl_of_slash (by decide))
  | schema =>
    simp only [hcat, ErrorClass.reason?, Option.some.injEq] at h
    exact h ▸ hprefix _ "schema mismatch:" (by decide)
      (not_hasStoreUrl_of_slash (by decide))
  | integrity =>
    simp only [hcat, ErrorClass.reason?, Option.some.injEq] at h
    exact h ▸ hprefix _ "db integrity:" (by decide)
      (not_hasStoreUrl_of_slash (by decide))
  | other =>
    simp only [hcat, ErrorClass.reason?, Option.some.injEq] at h
    exact h ▸ hmsg

/-- **No store URL survives the conversion of a `DbErr`.** The loop for each scheme ends on
    every text. The stored message, the error's text and the reason it is classified with
    contain no scheme, across the joints between layers too. The stored message is the sanitized
    layers joined by ` | `. Each layer is sanitized once and for all; it is cut into kept
    characters and URL spans, the marks stand where the spans stood, and the kept characters are
    those outside all spans. A layer with no scheme is kept verbatim. -/
theorem fromDbErr_url_free (err : DbErr) :
    (∀ scheme (h : scheme ∈ schemes) (text : List Char),
      storeUrls.LoopExits scheme.toList text
        (storeUrls.redactLoop scheme.toList (scheme_mem_pats h) text)) ∧
    StoreError.fromDbErr err = .database (sanitizeFullChain err) (categorize err) ∧
    sanitizeFullChain err = " | ".intercalate (err.layers.map sanitizeMessage) ∧
    ¬ HasStoreUrl (sanitizeFullChain err) ∧
    ¬ HasStoreUrl (StoreError.fromDbErr err).display ∧
    (∀ reason, (StoreError.fromDbErr err).classify.reason? = some reason →
      ¬ HasStoreUrl reason) ∧
    ∀ layer ∈ err.layers,
      sanitizeMessage (sanitizeMessage layer) = sanitizeMessage layer ∧
      (∃ pieces : List (Redactor.Piece Char), (∀ x ∈ pieces, x.Wf storeUrls) ∧
        pieces.flatMap Redactor.Piece.raw = layer.toList ∧
        pieces.flatMap (Redactor.Piece.out storeUrls) = (sanitizeMessage layer).toList ∧
        pieces.filterMap Redactor.Piece.kept? = outsideUrls layer) ∧
      (¬ HasStoreUrl layer → sanitizeMessage layer = layer) := by
  refine ⟨fun scheme h text => Redactor.redactLoop_exits _ text, rfl,
    sanitizeFullChain_eq err, not_hasStoreUrl_message err, not_hasStoreUrl_display err,
    not_hasStoreUrl_classify err, fun layer _ => ⟨?_, ?_, sanitize_of_not_hasStoreUrl⟩⟩
  · exact sanitize_of_not_hasStoreUrl (not_hasStoreUrl_sanitize layer)
  · rw [toList_sanitizeMessage]
    exact storeUrls.exists_pieces layer.toList

/-! ## What remains of the userinfo of a connection URL -/

/-- A character RFC 3986 allows in userinfo as itself: unreserved, sub-delims, `:`. -/
def isUserinfoChar (c : Char) : Bool := c.isAlphanum || "-._~!$&\u0027()*+,;=:".toList.contains c

def isHexDigit (c : Char) : Bool :=
  c.isDigit || ('a' ≤ c && c ≤ 'f') || ('A' ≤ c && c ≤ 'F')

/-- The userinfo part of an RFC 3986 authority: such characters and percent escapes. -/
def isUserinfo : List Char → Bool
  | [] => true
  | '%' :: a :: b :: rest => isHexDigit a && isHexDigit b && isUserinfo rest
  | c :: rest => isUserinfoChar c && isUserinfo rest

theorem slash_not_mem_userinfo {c : List Char} (h : isUserinfo c = true) : '/' ∉ c := by
  induction c using isUserinfo.induct with
  | case1 => simp
  | case2 a b rest ih =>
    simp only [isUserinfo, Bool.and_eq_true] at h
    obtain ⟨⟨ha, hb⟩, hrest⟩ := h
    have ha' : '/' ≠ a := by rintro rfl; revert ha; decide
    have hb' : '/' ≠ b := by rintro rfl; revert hb; decide
    simp [ha', hb', ih hrest]
  | case3 c rest hne ih =>
    rw [isUserinfo] at h
    · simp only [Bool.and_eq_true] at h
      have hc : '/' ≠ c := by rintro rfl; exact absurd h.1 (by decide)
      simp [hc, ih h.2]
    · exact hne

theorem inert_of_slash_not_mem {c : List Char} (h : '/' ∉ c) : storeUrls.Inert c := by
  intro p hp z hz
  rw [getLast?_scheme hp] at hz
  exact Option.some.inj hz ▸ h

theorem delim_at : storeUrls.Delim '@' := ⟨by decide, by decide⟩

/-- What `sanitizeMessage` leaves of a userinfo text: everything from the first character on
    that it takes for the end of the URL. -/
def leaked (userinfo : String) : List Char :=
  userinfo.toList.dropWhile fun c => !isUrlEnd c

theorem sanitize_userinfo_iff {pre scheme host suffix c1 c2 : String} (hs : scheme ∈ schemes)
    (h1 : isUserinfo c1.toList = true) (h2 : isUserinfo c2.toList = true) :
    sanitizeMessage (pre ++ scheme ++ c1 ++ "@" ++ host ++ suffix) =
        sanitizeMessage (pre ++ scheme ++ c2 ++ "@" ++ host ++ suffix) ↔
      leaked c1 = leaked c2 := by
  have hkey := Redactor.redact_block_iff (a := pre.toList) (b := host.toList ++ suffix.toList)
    (scheme_mem_pats hs) delim_at (by decide)
    (inert_of_slash_not_mem (slash_not_mem_userinfo h1))
    (inert_of_slash_not_mem (slash_not_mem_userinfo h2))
  rw [← String.toList_inj, toList_sanitizeMessage, toList_sanitizeMessage]
  simpa [leaked, Redactor.skip, storeUrls] using hkey

/-- Two lists joined with one different part are equal when the parts are. -/
theorem intercalate_insert (sep : String) (before after : List String) :
    ∃ L R : String, ∀ part,
      sep.intercalate (before ++ part :: after) = L ++ part ++ R := by
  induction before with
  | nil =>
    cases after with
    | nil => exact ⟨"", "", fun part => by rw [← String.toList_inj]; simp⟩
    | cons b after =>
      exact ⟨"", sep ++ sep.intercalate (b :: after), fun part => by
        rw [← String.toList_inj]; simp [String.toList_intercalate]⟩
  | cons a before ih =>
    obtain ⟨L, R, h⟩ := ih
    refine ⟨a ++ sep ++ L, R, fun part => ?_⟩
    have hne : before ++ part :: after ≠ [] := by simp
    have hcons : sep.intercalate (a :: (before ++ part :: after)) =
        a ++ sep ++ sep.intercalate (before ++ part :: after) := by
      obtain ⟨x, xs, hx⟩ := List.exists_cons_of_ne_nil hne
      rw [hx, ← String.toList_inj]
      simp [String.toList_intercalate]
    rw [List.cons_append, hcons, h, ← String.toList_inj]
    simp

/-- Errors that differ in one layer become the same `StoreError` exactly when the layers are
    sanitized to the same text. -/
theorem fromDbErr_eq_iff {e1 e2 : DbErr} {before after : List String} {t1 t2 : String}
    (hkind : e1.kind = e2.kind) (h1 : e1.layers = before ++ t1 :: after)
    (h2 : e2.layers = before ++ t2 :: after) :
    StoreError.fromDbErr e1 = StoreError.fromDbErr e2 ↔
      sanitizeMessage t1 = sanitizeMessage t2 := by
  obtain ⟨L, R, h⟩ := intercalate_insert " | " (before.map sanitizeMessage)
    (after.map sanitizeMessage)
  have hcat : categorize e1 = categorize e2 := by simp [categorize, hkind]
  have hm1 : sanitizeFullChain e1 = L ++ sanitizeMessage t1 ++ R := by
    rw [sanitizeFullChain_eq, h1, List.map_append, List.map_cons, h]
  have hm2 : sanitizeFullChain e2 = L ++ sanitizeMessage t2 ++ R := by
    rw [sanitizeFullChain_eq, h2, List.map_append, List.map_cons, h]
  simp only [StoreError.fromDbErr, hcat, hm1, hm2, StoreError.database.injEq, and_true]
  constructor
  · intro heq
    rw [← String.toList_inj] at heq
    exact String.toList_inj.mp (by simpa using heq)
  · intro heq
    rw [heq]

/-- **What sanitizing hides of a user name and password.** Two userinfo texts in a connection
    URL give the same sanitized text, and the same `StoreError` when that text is a layer of an
    error, exactly when they agree from their first `'` or `)` on; so the redaction hides a
    userinfo text that has neither, and shows the rest of any other. -/
theorem userinfo_hidden_iff (pre scheme host suffix c1 c2 : String)
    (hs : scheme ∈ ["postgres://", "postgresql://"])
    (h1 : isUserinfo c1.toList = true) (h2 : isUserinfo c2.toList = true) :
    (sanitizeMessage (pre ++ scheme ++ c1 ++ "@" ++ host ++ suffix) =
        sanitizeMessage (pre ++ scheme ++ c2 ++ "@" ++ host ++ suffix) ↔
      leaked c1 = leaked c2) ∧
    ∀ (e1 e2 : DbErr) (before after : List String), e1.kind = e2.kind →
      e1.layers = before ++ (pre ++ scheme ++ c1 ++ "@" ++ host ++ suffix) :: after →
      e2.layers = before ++ (pre ++ scheme ++ c2 ++ "@" ++ host ++ suffix) :: after →
      (StoreError.fromDbErr e1 = StoreError.fromDbErr e2 ↔ leaked c1 = leaked c2) := by
  have hs' : scheme ∈ schemes := by
    simp only [List.mem_cons, List.not_mem_nil, or_false] at hs
    rcases hs with rfl | rfl <;> decide
  refine ⟨sanitize_userinfo_iff hs' h1 h2, fun e1 e2 before after hkind hl1 hl2 => ?_⟩
  rw [fromDbErr_eq_iff hkind hl1 hl2, sanitize_userinfo_iff hs' h1 h2]

theorem userinfo_hidden_iff_plain :
    sanitizeMessage ("dial " ++ "postgres://" ++ "admin:hunter2" ++ "@" ++ "db/x" ++ " failed") =
      sanitizeMessage ("dial " ++ "postgres://" ++ "root:secret" ++ "@" ++ "db/x" ++ " failed") ∧
    StoreError.fromDbErr ⟨.conn, "Connection Error",
        ["dial " ++ "postgres://" ++ "admin:hunter2" ++ "@" ++ "db/x" ++ " failed"]⟩ =
      StoreError.fromDbErr ⟨.conn, "Connection Error",
        ["dial " ++ "postgres://" ++ "root:secret" ++ "@" ++ "db/x" ++ " failed"]⟩ := by
  obtain ⟨h, herr⟩ := userinfo_hidden_iff "dial " "postgres://" "db/x" " failed"
    "admin:hunter2" "root:secret" (by decide) (by decide) (by decide)
  refine ⟨h.mpr (by decide), ?_⟩
  refine (herr _ _ ["Connection Error"] [] ?_ ?_ ?_).mpr (by decide)
  · rfl
  · simp only [DbErr.layers, List.cons_append, List.nil_append]
  · simp only [DbErr.layers, List.cons_append, List.nil_append]

/-- Two passwords with a quote in them: the sanitized texts differ. -/
theorem userinfo_quote_leaks :
    isUserinfo "admin:it\u0027s-hunter2".toList = true ∧
    isUserinfo "admin:it\u0027s-secret".toList = true ∧
    "db.example/forgeclaw".toList.any isWhitespace = false ∧
    sanitizeMessage ("dial " ++ "postgres://" ++ "admin:it\u0027s-hunter2" ++ "@" ++
        "db.example/forgeclaw" ++ "") ≠
      sanitizeMessage ("dial " ++ "postgres://" ++ "admin:it\u0027s-secret" ++ "@" ++
        "db.example/forgeclaw" ++ "") := by
  refine ⟨by decide, by decide, by decide, fun h => ?_⟩
  have hleak := (sanitize_userinfo_iff (by decide) (by decide) (by decide)).mp h
  exact absurd hleak (by decide)

end Forgeclaw.Store
