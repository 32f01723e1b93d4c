/-
  The `messages` table: its types (`types/message.rs`, `entities/messages.rs`) and its
  operations (`ops/messages.rs`).

  `storeMessage` is the list of the statements that the code sends, one transaction's
  program. The hash that PostgreSQL makes of the lock's name is a parameter.
-/
import Forgeclaw.Foundation.Transactions
import Forgeclaw.Store.Basic

open Forgeclaw.Core

namespace Forgeclaw.Store

structure NewMessage where
  id : String
  groupId : GroupId
  channelId : ChannelId
  sender : String
  content : String
  createdAt : DateTime
  deriving DecidableEq, Repr

structure StoredMessage where
  seq : Int
  id : String
  groupId : GroupId
  channelId : ChannelId
  sender : String
  content : String
  createdAt : DateTime
  deriving DecidableEq, Repr

/-- An exclusive lower bound on `seq`. -/
structure Cursor where
  seq : Int
  deriving DecidableEq, Repr

def Cursor.beginning : Cursor := ⟨0⟩

def Cursor.after (seq : Int) : Cursor := ⟨seq⟩

namespace Messages

/-- A row. -/
structure Model where
  seq : Int
  id : String
  groupId : String
  channelId : String
  sender : String
  content : String
  createdAt : DateTime
  deriving DecidableEq, Repr

/-- A row to insert. Its `seq` is not set: the database draws it. -/
structure ActiveModel where
  id : String
  groupId : String
  channelId : String
  sender : String
  content : String
  createdAt : DateTime
  deriving DecidableEq, Repr

/-- The row the database makes of it. -/
def ActiveModel.model (am : ActiveModel) (seq : Int) : Model :=
  ⟨seq, am.id, am.groupId, am.channelId, am.sender, am.content, am.createdAt⟩

def rowToStored (row : Model) : StoredMessage where
  seq := row.seq
  id := row.id
  groupId := ⟨row.groupId⟩
  channelId := ⟨row.channelId⟩
  sender := row.sender
  content := row.content
  createdAt := row.createdAt

end Messages

inductive DbBackend where
  | postgres
  | sqlite
  deriving DecidableEq, Repr

section Ops

open Transactions Messages

/-- The key that `ADVISORY_LOCK_SQL` locks for a group. -/
def advisoryKey (hashtextextended : String → Int) (group : String) : Int :=
  hashtextextended ("forgeclaw_store_messages:" ++ group)

def storeMessage (hashtextextended : String → Int) (backend : DbBackend) (msg : NewMessage) :
    List (Stmt Int ActiveModel) :=
  [.begin] ++
  (if backend = .postgres then [.lock (advisoryKey hashtextextended msg.groupId.value)]
    else []) ++
  [.insert
    { id := msg.id
      groupId := msg.groupId.value
      channelId := msg.channelId.value
      sender := msg.sender
      content := msg.content
      createdAt := msg.createdAt },
    .commit]

def getMessagesSince (db : List Model) (group : GroupId) (cursor : Cursor) (limit : Int) :
    Except StoreError (List StoredMessage) := do
  let take ← clampedTake limit "get_messages_since"
  if take = 0 then
    return []
  let rows := Page.select
    (fun row => row.groupId == group.value && decide (row.seq > cursor.seq)) (·.seq) take db
  return rows.map rowToStored

/-- How a reader goes on after a page: from its last row, if there is one. -/
def Cursor.next (cursor : Cursor) (page : List StoredMessage) : Cursor :=
  match page.getLast? with
  | some m => .after m.seq
  | none => cursor

/-! ## What a call returns -/

/-- The rows of a group, in table order. -/
def groupRows (db : List Model) (group : GroupId) : List Model :=
  db.filter fun row => row.groupId == group.value

/-- The rows of a group that a cursor has not passed yet. -/
def rowsAfter (db : List Model) (group : GroupId) (cursor : Cursor) : List Model :=
  (groupRows db group).filter fun row => decide (row.seq > cursor.seq)

theorem mem_groupRows {db : List Model} {group : GroupId} {row : Model} :
    row ∈ groupRows db group ↔ row ∈ db ∧ row.groupId = group.value := by
  simp [groupRows]

theorem groupRows_append (db db' : List Model) (group : GroupId) :
    groupRows (db ++ db') group = groupRows db group ++ groupRows db' group :=
  List.filter_append ..

theorem getMessagesSince_of_neg {limit : Int} (h : limit < 0) (db : List Model)
    (group : GroupId) (cursor : Cursor) :
    getMessagesSince db group cursor limit
      = .error (.invalidLimit s!"get_messages_since: limit {limit} is negative") := by
  rw [getMessagesSince, clampedTake_of_neg h]
  rfl

theorem next_seq (cursor : Cursor) (page : List StoredMessage) :
    (cursor.next page).seq = Page.reach (·.seq) cursor.seq page := by
  unfold Cursor.next Page.reach
  cases page.getLast? <;> rfl

theorem reach_map_rowToStored (low : Int) (rows : List Model) :
    Page.reach (·.seq) low (rows.map rowToStored) = Page.reach (·.seq) low rows := by
  unfold Page.reach
  rw [List.getLast?_map]
  cases rows.getLast? <;> rfl

/-- **Where a group's rows stand in `seq` order, a page is the next part of them.** -/
theorem getMessagesSince_eq {db : List Model} {group : GroupId}
    (h : (groupRows db group).Pairwise fun a b => a.seq < b.seq) {limit : Int}
    (hlimit : 0 ≤ limit) (cursor : Cursor) :
    getMessagesSince db group cursor limit
      = .ok (((rowsAfter db group cursor).take (pageSize limit)).map rowToStored) := by
  have hsorted : (rowsAfter db group cursor).Pairwise fun a b => a.seq ≤ b.seq :=
    (h.filter _).imp fun {_ _} hlt => hlt.le
  have hfilter : db.filter (fun row =>
      row.groupId == group.value && decide (row.seq > cursor.seq))
        = rowsAfter db group cursor := by
    rw [rowsAfter, groupRows, List.filter_filter]
    congr 1
    funext row
    exact Bool.and_comm _ _
  rw [getMessagesSince, clampedTake_of_nonneg hlimit]
  by_cases h0 : pageSize limit = 0
  · rw [h0]
    rfl
  · have hselect : Page.select (fun row =>
        row.groupId == group.value && decide (row.seq > cursor.seq)) (·.seq) (pageSize limit) db
          = (rowsAfter db group cursor).take (pageSize limit) := by
      rw [← hfilter] at hsorted ⊢
      exact Page.select_of_sorted hsorted _
    simp only [bind, Except.bind, if_neg h0, hselect]
    rfl

end Ops

end Forgeclaw.Store
