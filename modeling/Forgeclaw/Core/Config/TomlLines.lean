/-
  The lines of a TOML document: what the toml crate is relied on for, as far as it decides
  where one line ends and the next begins.

  Values and quoted keys are not spelled out. `Rules` has their readers, with the two facts
  about them that count: what a reader leaves is the end of what it was given, and a string
  stands in quotes. A value may go over several lines (arrays and `"""` strings do).
-/
import Forgeclaw.Foundation.LineFormat
import Forgeclaw.Core.Config.Loading

namespace Forgeclaw.Core.Config

/-- A line of a document, without blanks and comment. -/
inductive Expression where
  | blank
  | keyVal (key : List String) (value : Value)
  | table (key : List String)
  | arrayTable (key : List String)

/-- The parts of a line that are read by rules of their own. -/
structure Rules where
  quotedKey : List Char → Option (String × List Char)
  value : List Char → Option (Value × List Char)
  quotedKey_suffix : ∀ {s k rest}, quotedKey s = some (k, rest) → rest <:+ s
  value_suffix : ∀ {s v rest}, value s = some (v, rest) → rest <:+ s
  string_lt : ∀ {s t rest}, value s = some (.string t, rest) → t.length < s.length

/-! ## Between the parts -/

def isWs (c : Char) : Bool := c == ' ' || c == '\t'

def skipWs (s : List Char) : List Char := s.dropWhile isWs

/-- What a comment is made of: no control character but the tab. -/
def isNonEol (c : Char) : Bool := c == '\t' || (0x20 ≤ c.toNat && c.toNat != 0x7F)

def skipComment : List Char → List Char
  | '#' :: rest => rest.dropWhile isNonEol
  | s => s

/-- Blanks and a comment after a line's text. -/
def lineTail (s : List Char) : List Char := skipComment (skipWs s)

def lineBreak : List Char → Option (List Char)
  | '\n' :: rest => some rest
  | '\r' :: '\n' :: rest => some rest
  | _ => none

theorem skipWs_suffix (s : List Char) : skipWs s <:+ s := List.dropWhile_suffix _

theorem skipComment_suffix (s : List Char) : skipComment s <:+ s := by
  unfold skipComment
  split
  · exact (List.dropWhile_suffix _).trans (List.suffix_cons _ _)
  · exact List.suffix_rfl

theorem lineTail_suffix (s : List Char) : lineTail s <:+ s :=
  (skipComment_suffix _).trans (skipWs_suffix s)

theorem lineBreak_suffix {s s' : List Char} (h : lineBreak s = some s') :
    s' <:+ s ∧ s'.length < s.length := by
  unfold lineBreak at h
  split at h
  · cases h
    exact ⟨List.suffix_cons _ _, Nat.lt_succ_self _⟩
  · cases h
    exact ⟨(List.suffix_cons _ _).trans (List.suffix_cons _ _), by simp⟩
  · cases h

theorem stripPrefix_suffix {pre s s' : List Char} (h : stripPrefix pre s = some s') :
    s' <:+ s := by
  unfold stripPrefix at h
  split at h
  · cases h
    exact List.drop_suffix _ _
  · cases h

namespace Rules

variable (R : Rules)

/-! ## Keys -/

/-- What a key without quotes is made of. -/
def isBare (c : Char) : Bool := c.isAlphanum || c == '_' || c == '-'

def simpleKey (s : List Char) : Option (String × List Char) :=
  if s.takeWhile isBare = [] then R.quotedKey s
  else some (String.ofList (s.takeWhile isBare), s.dropWhile isBare)

/-- Simple keys with dots between them, with fuel for the dots. -/
def dottedKey : Nat → List Char → Option (List String × List Char)
  | 0, _ => none
  | fuel + 1, s =>
    (R.simpleKey s).bind fun (k, rest) =>
      match skipWs rest with
      | '.' :: more => (dottedKey fuel (skipWs more)).map fun (ks, rest) => (k :: ks, rest)
      | _ => some ([k], rest)

/-- A key has no more dots than there are characters. -/
def key (s : List Char) : Option (List String × List Char) := R.dottedKey (s.length + 1) s

/-! ## Lines -/

def keyVal (s : List Char) : Option (Expression × List Char) :=
  (R.key s).bind fun (ks, rest) =>
    match skipWs rest with
    | '=' :: more => (R.value (skipWs more)).map fun (v, rest) => (.keyVal ks v, rest)
    | _ => none

/-- A header after its opening brackets, up to the closing ones. -/
def header (build : List String → Expression) (close s : List Char) :
    Option (Expression × List Char) :=
  (R.key (skipWs s)).bind fun (ks, rest) =>
    (stripPrefix close (skipWs rest)).map fun rest => (build ks, rest)

/-- A line's text; nothing where the line ends or a comment begins. -/
def text (s : List Char) : Option (Expression × List Char) :=
  match s with
  | [] | '#' :: _ | '\n' :: _ | '\r' :: '\n' :: _ => some (.blank, s)
  | '[' :: '[' :: rest => R.header .arrayTable [']', ']'] rest
  | '[' :: rest => R.header .table [']'] rest
  | _ => R.keyVal s

def expression (s : List Char) : Option (Expression × List Char) :=
  (R.text (skipWs s)).map fun (e, rest) => (e, lineTail rest)

/-- A TOML document: expressions with line breaks between them. -/
def lines : LineFormat Char Expression where
  entry := R.expression
  lineBreak := lineBreak

/-! ## What is left is the end of what was given -/

variable {R}

theorem simpleKey_suffix {s rest : List Char} {k : String}
    (h : R.simpleKey s = some (k, rest)) : rest <:+ s := by
  unfold simpleKey at h
  split at h
  · exact R.quotedKey_suffix h
  · cases h
    exact List.dropWhile_suffix _

theorem dottedKey_suffix {fuel : Nat} {s rest : List Char} {ks : List String}
    (h : R.dottedKey fuel s = some (ks, rest)) : rest <:+ s := by
  induction fuel generalizing s ks with
  | zero => cases h
  | succ fuel ih =>
    simp only [dottedKey, Option.bind_eq_some_iff, Prod.exists] at h
    obtain ⟨k, rest', hk, h⟩ := h
    have hrest' := simpleKey_suffix hk
    split at h
    · rename_i more hmore
      simp only [Option.map_eq_some_iff, Prod.mk.injEq, Prod.exists] at h
      obtain ⟨ks', rest, hks', -, rfl⟩ := h
      have hdot : more <:+ rest' := (hmore ▸ List.suffix_cons '.' more).trans (skipWs_suffix rest')
      exact ((ih hks').trans (skipWs_suffix more)).trans (hdot.trans hrest')
    · cases h
      exact hrest'

theorem keyVal_suffix {s rest : List Char} {e : Expression}
    (h : R.keyVal s = some (e, rest)) : rest <:+ s := by
  simp only [keyVal, Option.bind_eq_some_iff, Prod.exists] at h
  obtain ⟨ks, rest', hks, h⟩ := h
  split at h
  · rename_i more hmore
    simp only [Option.map_eq_some_iff, Prod.mk.injEq, Prod.exists] at h
    obtain ⟨v, rest, hv, -, rfl⟩ := h
    have heq : more <:+ rest' := (hmore ▸ List.suffix_cons '=' more).trans (skipWs_suffix rest')
    exact ((R.value_suffix hv).trans (skipWs_suffix more)).trans
      (heq.trans (dottedKey_suffix hks))
  · cases h

theorem header_suffix {build : List String → Expression} {close s rest : List Char}
    {e : Expression} (h : R.header build close s = some (e, rest)) : rest <:+ s := by
  simp only [header, Option.bind_eq_some_iff, Option.map_eq_some_iff, Prod.mk.injEq,
    Prod.exists] at h
  obtain ⟨ks, rest', hks, rest, hclose, -, rfl⟩ := h
  exact ((stripPrefix_suffix hclose).trans (skipWs_suffix rest')).trans
    ((dottedKey_suffix hks).trans (skipWs_suffix s))

theorem text_suffix {s rest : List Char} {e : Expression}
    (h : R.text s = some (e, rest)) : rest <:+ s := by
  unfold text at h
  split at h
  iterate 4
    · cases h
      exact List.suffix_rfl
  · exact (header_suffix h).trans ((List.suffix_cons _ _).trans (List.suffix_cons _ _))
  · exact (header_suffix h).trans (List.suffix_cons _ _)
  · exact keyVal_suffix h

theorem lines_consumes : R.lines.Consumes where
  entry_le := by
    rintro s e rest h
    simp only [lines, expression, Option.map_eq_some_iff, Prod.mk.injEq, Prod.exists] at h
    obtain ⟨e, rest', htext, rfl, rfl⟩ := h
    exact ((lineTail_suffix rest').trans
      ((text_suffix htext).trans (skipWs_suffix s))).length_le
  lineBreak_lt h := (lineBreak_suffix h).2

end Rules

end Forgeclaw.Core.Config
