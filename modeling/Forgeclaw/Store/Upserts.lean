/-
  The tables that are written by upserts: `groups`, `sessions` and `state` (`ops/groups.rs`,
  `ops/sessions.rs`, `ops/state.rs`, their entities and `types/group.rs`).

  Each write is one `INSERT … ON CONFLICT DO UPDATE` with a column list of its own. A `keyed`
  lemma for each table says that its list is right: every column is in it but the key's, and
  `created_at` in `groups`. What the clock says (`Utc::now`) is a parameter.
-/
import Forgeclaw.Foundation.Upsert
import Forgeclaw.Store.Migration

open Forgeclaw.Core

namespace Forgeclaw.Store

open Upsert

/-! ## Groups -/

structure RegisteredGroup where
  id : GroupId
  displayName : String
  configJson : String
  active : Bool
  createdAt : DateTime
  updatedAt : DateTime
  deriving DecidableEq, Repr

namespace Groups

/-- A row; to be inserted, each of its columns is `Set`. -/
structure Model where
  id : String
  displayName : String
  configJson : String
  active : Bool
  createdAt : DateTime
  updatedAt : DateTime
  deriving DecidableEq, Repr

inductive Column where
  | id
  | displayName
  | configJson
  | active
  | createdAt
  | updatedAt
  deriving DecidableEq, Repr

def Column.name : Column → String
  | id => "id"
  | displayName => "display_name"
  | configJson => "config_json"
  | active => "active"
  | createdAt => "created_at"
  | updatedAt => "updated_at"

def columns : Columns Column Model where
  same
    | .id, a, b => a.id == b.id
    | .displayName, a, b => a.displayName == b.displayName
    | .configJson, a, b => a.configJson == b.configJson
    | .active, a, b => a.active == b.active
    | .createdAt, a, b => a.createdAt == b.createdAt
    | .updatedAt, a, b => a.updatedAt == b.updatedAt
  assign
    | .id, a, b => { b with id := a.id }
    | .displayName, a, b => { b with displayName := a.displayName }
    | .configJson, a, b => { b with configJson := a.configJson }
    | .active, a, b => { b with active := a.active }
    | .createdAt, a, b => { b with createdAt := a.createdAt }
    | .updatedAt, a, b => { b with updatedAt := a.updatedAt }

def conflict : OnConflict Column :=
  (OnConflict.column .id).updateColumns [.displayName, .configJson, .active, .updatedAt]

def rowToRegistered (row : Model) : RegisteredGroup where
  id := ⟨row.id⟩
  displayName := row.displayName
  configJson := row.configJson
  active := row.active
  createdAt := row.createdAt
  updatedAt := row.updatedAt

/-- The row that `upsert_group` sends. -/
def activeModel (group : RegisteredGroup) : Model where
  id := group.id.value
  displayName := group.displayName
  configJson := group.configJson
  active := group.active
  createdAt := group.createdAt
  updatedAt := group.updatedAt

theorem update_eq (excluded row : Model) :
    columns.update conflict excluded row =
      { excluded with id := row.id, createdAt := row.createdAt } := rfl

theorem keyed : columns.Keyed conflict (·.id) where
  same_iff _ _ := beq_iff_eq
  key_update _ _ := rfl
  update_self _ := rfl
  update_update _ _ _ := rfl

end Groups

def getGroup (db : List Groups.Model) (id : GroupId) : Option RegisteredGroup :=
  (db.find? (·.id = id.value)).map Groups.rowToRegistered

def upsertGroup (group : RegisteredGroup) (db : List Groups.Model) : List Groups.Model :=
  Groups.columns.insert Groups.conflict (Groups.activeModel group) db

/-! ## Sessions -/

namespace Sessions

/-- A row; to be inserted, each of its columns is `Set`. -/
structure Model where
  groupId : String
  sessionId : String
  updatedAt : DateTime
  deriving DecidableEq, Repr

inductive Column where
  | groupId
  | sessionId
  | updatedAt
  deriving DecidableEq, Repr

def Column.name : Column → String
  | groupId => "group_id"
  | sessionId => "session_id"
  | updatedAt => "updated_at"

def columns : Columns Column Model where
  same
    | .groupId, a, b => a.groupId == b.groupId
    | .sessionId, a, b => a.sessionId == b.sessionId
    | .updatedAt, a, b => a.updatedAt == b.updatedAt
  assign
    | .groupId, a, b => { b with groupId := a.groupId }
    | .sessionId, a, b => { b with sessionId := a.sessionId }
    | .updatedAt, a, b => { b with updatedAt := a.updatedAt }

def conflict : OnConflict Column :=
  (OnConflict.column .groupId).updateColumns [.sessionId, .updatedAt]

theorem keyed : columns.Keyed conflict (·.groupId) where
  same_iff _ _ := beq_iff_eq
  key_update _ _ := rfl
  update_self _ := rfl
  update_update _ _ _ := rfl

end Sessions

def getSession (db : List Sessions.Model) (group : GroupId) : Option String :=
  (db.find? (·.groupId = group.value)).map (·.sessionId)

def setSession (now : DateTime) (group : GroupId) (sessionId : String)
    (db : List Sessions.Model) : List Sessions.Model :=
  Sessions.columns.insert Sessions.conflict ⟨group.value, sessionId, now⟩ db

/-! ## State -/

namespace State

/-- A row; to be inserted, each of its columns is `Set`. -/
structure Model where
  key : String
  value : String
  updatedAt : DateTime
  deriving DecidableEq, Repr

inductive Column where
  | key
  | value
  | updatedAt
  deriving DecidableEq, Repr

def Column.name : Column → String
  | key => "key"
  | value => "value"
  | updatedAt => "updated_at"

def columns : Columns Column Model where
  same
    | .key, a, b => a.key == b.key
    | .value, a, b => a.value == b.value
    | .updatedAt, a, b => a.updatedAt == b.updatedAt
  assign
    | .key, a, b => { b with key := a.key }
    | .value, a, b => { b with value := a.value }
    | .updatedAt, a, b => { b with updatedAt := a.updatedAt }

def conflict : OnConflict Column :=
  (OnConflict.column .key).updateColumns [.value, .updatedAt]

theorem keyed : columns.Keyed conflict (·.key) where
  same_iff _ _ := beq_iff_eq
  key_update _ _ := rfl
  update_self _ := rfl
  update_update _ _ _ := rfl

end State

def getState (db : List State.Model) (key : String) : Option String :=
  (db.find? (·.key = key)).map (·.value)

def setState (now : DateTime) (key value : String) (db : List State.Model) : List State.Model :=
  State.columns.insert State.conflict ⟨key, value, now⟩ db

end Forgeclaw.Store
