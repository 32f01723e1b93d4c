/-
  `crates/store/src/error.rs`: the store's error type, the conversion from the database
  layer's `DbErr`, and the classification of each error.

  A `DbErr` is kept as far as the conversion reads it: which variant it is, its own text, and
  the texts of its source chain. `sanitizeMessage` is the library redactor at the three URL
  schemes, in the order in which the code runs its loops.
-/
import Forgeclaw.Core.Error
import Forgeclaw.Foundation.SpanRedact

namespace Forgeclaw.Store

open Forgeclaw.Core (ErrorClass)

/-! ## Redaction -/

/-- `char::is_whitespace`: the code points with the Unicode property White_Space. -/
def isWhitespace (c : Char) : Bool :=
  ('\t' ≤ c && c ≤ '\r') || c == ' ' || c == '\u0085' || c == '\u00A0' || c == '\u1680' ||
    ('\u2000' ≤ c && c ≤ '\u200A') || c == '\u2028' || c == '\u2029' || c == '\u202F' ||
    c == '\u205F' || c == '\u3000'

/-- Where a URL is taken to end: whitespace, a double or single quote, `>` or `)`. -/
def isUrlEnd (c : Char) : Bool :=
  isWhitespace c || c == '\u0022' || c == '\u0027' || c == '>' || c == ')'

/-- The schemes, in the order of the loops. -/
def schemes : List String := ["postgresql://", "postgres://", "sqlite://"]

/-- The three loops of `sanitizeMessage`; the mark is `<url-redacted>`. -/
def storeUrls : SpanRedact.Redactor Char where
  pats := schemes.map String.toList
  isEnd := isUrlEnd
  stem := "<url-redacted".toList
  close := '>'
  isEnd_close := by decide
  isEnd_stem := by decide
  isEnd_pat := by decide
  stem_ne_nil := by decide
  head_stem := by decide
  pat_new := by decide
  pat_apart := by decide +kernel

/-- Strip connection-string URLs out of an error message. -/
def sanitizeMessage (raw : String) : String :=
  String.ofList (storeUrls.redact raw.toList)

/-! ## The store's errors -/

/-- Coarse classification of a database failure. -/
inductive DatabaseCategory where
  | connection
  | runtime
  | migration
  | schema
  | integrity
  | other
  deriving DecidableEq, Repr

/-- `{category:?}` -/
def DatabaseCategory.debug : DatabaseCategory → String
  | connection => "Connection"
  | runtime => "Runtime"
  | migration => "Migration"
  | schema => "Schema"
  | integrity => "Integrity"
  | other => "Other"

/-- The variants of `sea_orm::DbErr` that `categorize` tells apart. -/
inductive DbErrKind where
  | conn
  | connectionAcquire
  | exec
  | query
  | migration
  | type
  | json
  | attrNotSet
  | convertFromU64
  | recordNotInserted
  | recordNotUpdated
  | other
  deriving DecidableEq, Repr

/-- A `DbErr`: its variant, its text, and the texts along its `source()` chain. -/
structure DbErr where
  kind : DbErrKind
  text : String
  source : List String
  deriving DecidableEq, Repr

/-- The texts of all layers, outermost first. -/
def DbErr.layers (err : DbErr) : List String := err.text :: err.source

inductive StoreError where
  | database (message : String) (category : DatabaseCategory)
  | invalidLimit (reason : String)
  | schemaDrift (table column : Option String) (reason : String)
  | notFound (entity : String)
  | invalidUrl (reason : String)
  | serialization (error : String)
  deriving DecidableEq, Repr

/-- `while let Some(e) = cur { parts.push(..); cur = e.source() }` -/
def pushSources (parts : List String) : List String → List String
  | [] => parts
  | e :: rest => pushSources (parts ++ [sanitizeMessage e]) rest

def sanitizeFullChain (err : DbErr) : String :=
  " | ".intercalate (pushSources [sanitizeMessage err.text] err.source)

def categorize (err : DbErr) : DatabaseCategory :=
  match err.kind with
  | .conn | .connectionAcquire => .connection
  | .exec | .query => .runtime
  | .migration => .migration
  | .type | .json | .attrNotSet | .convertFromU64 => .schema
  | .recordNotInserted | .recordNotUpdated => .integrity
  | .other => .other

/-- `From<DbErr> for StoreError` -/
def StoreError.fromDbErr (err : DbErr) : StoreError :=
  .database (sanitizeFullChain err) (categorize err)

/-- Where a schema drift was seen, as `Display` writes it. -/
def driftDisplay (table column : Option String) : String :=
  (match table with
    | none => ""
    | some t => "table `" ++ t ++ "`") ++
  (match column with
    | none => ""
    | some c => if table.isSome then " column `" ++ c ++ "`" else "column `" ++ c ++ "`")

/-- `Display` -/
def StoreError.display : StoreError → String
  | .database message category =>
    "database error [" ++ category.debug ++ "]: " ++ message
  | .invalidLimit reason => "invalid limit: " ++ reason
  | .schemaDrift table column reason =>
    "schema drift in " ++ driftDisplay table column ++ ": " ++ reason
  | .notFound entity => entity ++ " not found"
  | .invalidUrl reason => "invalid store URL: " ++ reason
  | .serialization error => "serialization error: " ++ error

/-! ## Classification -/

/-- `str::contains` -/
def contains (s sub : String) : Bool := (Search.findSub sub.toList s.toList).isSome

theorem contains_iff {s sub : String} : contains s sub = true ↔ sub.toList <:+: s.toList := by
  unfold contains
  rw [← not_iff_not, ← Search.findSub_eq_none_iff]
  simp

/-- `str::to_ascii_lowercase` -/
def toAsciiLowercase (s : String) : String := String.ofList (s.toList.map Char.toLower)

def classifyRuntime (sanitized : String) : ErrorClass :=
  let lower := toAsciiLowercase sanitized
  -- 40001 = serialization failure, 40P01 = deadlock; the others are SQLite's
  let isTransient :=
    contains lower "40001" ||
    contains lower "40p01" ||
    contains lower "database is locked" ||
    contains lower "database is busy" ||
    contains lower "deadlock"
  if isTransient then .transient 100 else .fatal sanitized

def classifyDatabase (category : DatabaseCategory) (message : String) : ErrorClass :=
  match category with
  | .connection => .transient 500
  | .runtime => classifyRuntime message
  | .migration => .fatal ("migration failed: " ++ message)
  | .schema => .fatal ("schema mismatch: " ++ message)
  | .integrity => .fatal ("db integrity: " ++ message)
  | .other => .fatal message

/-- Where a schema drift was seen, as `classify` writes it. -/
def driftLocation : Option String → Option String → String
  | some t, some c => "table `" ++ t ++ "` column `" ++ c ++ "`"
  | some t, none => "table `" ++ t ++ "`"
  | none, some c => "column `" ++ c ++ "`"
  | none, none => "schema"

def StoreError.classify : StoreError → ErrorClass
  | .database message category => classifyDatabase category message
  | .invalidUrl reason => .config "store.url" reason
  | .invalidLimit reason => .fatal ("invalid limit: " ++ reason)
  | .schemaDrift table column reason =>
    .fatal ("schema drift in " ++ driftLocation table column ++ ": " ++ reason)
  | .notFound entity => .fatal (entity ++ " not found")
  | .serialization error => .fatal ("json serialization: " ++ error)

/-! ## Basic facts -/

theorem toList_sanitizeMessage (raw : String) :
    (sanitizeMessage raw).toList = storeUrls.redact raw.toList := String.toList_ofList

theorem pushSources_eq (parts sources : List String) :
    pushSources parts sources = parts ++ sources.map sanitizeMessage := by
  induction sources generalizing parts with
  | nil => simp [pushSources]
  | cons e rest ih => simp [pushSources, ih]

theorem sanitizeFullChain_eq (err : DbErr) :
    sanitizeFullChain err = " | ".intercalate (err.layers.map sanitizeMessage) := by
  simp [sanitizeFullChain, pushSources_eq, DbErr.layers]

theorem scheme_mem_pats {scheme : String} (h : scheme ∈ schemes) :
    scheme.toList ∈ storeUrls.pats := List.mem_map_of_mem h

example : sanitizeMessage "dial postgres://admin:hunter2@db/x failed" =
    "dial <url-redacted> failed" := by
  have h : "dial postgres://admin:hunter2@db/x failed".toList =
      "dial".toList ++ ' ' :: ("postgres://admin:hunter2@db/x".toList ++ ' ' ::
        "failed".toList) := by decide
  unfold sanitizeMessage
  rw [h, storeUrls.redact_append_end (by decide +kernel),
    storeUrls.redact_append_end (by decide +kernel), storeUrls.redact_open (by decide +kernel),
    storeUrls.redact_open (by decide +kernel), storeUrls.redact_open (by decide +kernel)]
  decide +kernel

end Forgeclaw.Store
