/-
  Paging through one group's messages while rows are still being added.

  * `step_inv`: what the reader has received is the group's rows up to its cursor;
  * `paging_complete`: the pages make up a prefix of the group's rows, a short page means
    that it is all of them, and without further inserts an empty page comes after finitely
    many calls, whatever the limits.
-/
import Forgeclaw.Foundation.Transition
import Forgeclaw.Store.Messages

open Forgeclaw.Core

namespace Forgeclaw.Store

open Messages Page

/-- The table, and a reader's cursor with all it has received. -/
structure Paging where
  table : List Model
  cursor : Cursor
  received : List StoredMessage

namespace Paging

inductive Act where
  | insert (row : Model)
  | call (limit : Int)

/-- Rows of any group are appended with larger numbers; calls have any positive limit. -/
inductive Step (group : GroupId) : Paging → Act → Paging → Prop
  | insert (s row) : 0 < row.seq → (∀ r ∈ s.table, r.seq < row.seq) →
      Step group s (.insert row) { s with table := s.table ++ [row] }
  | call (s limit page) : 0 < limit →
      getMessagesSince s.table group s.cursor limit = .ok page →
      Step group s (.call limit)
        { s with cursor := s.cursor.next page, received := s.received ++ page }

def Increasing (table : List Model) : Prop :=
  (∀ row ∈ table, 0 < row.seq) ∧ table.Pairwise fun a b => a.seq < b.seq

def system (group : GroupId) : TransitionSystem Paging Act where
  Init s := Increasing s.table ∧ s.cursor = .beginning ∧ s.received = []
  Step := Step group

/-- Call after call on a table that stays as it is, the next limit each time. -/
inductive Calls (group : GroupId) : (Nat → Int) → Nat → Paging → Paging → Prop
  | done (limits s) : Calls group limits 0 s s
  | call (limits n s t u) : Step group s (.call (limits 0)) t →
      Calls group (fun k => limits (k + 1)) n t u → Calls group limits (n + 1) s u

structure Inv (group : GroupId) (s : Paging) : Prop where
  increasing : Increasing s.table
  cursor_nonneg : 0 ≤ s.cursor.seq
  cursor_le : ∀ row : Model, (∀ r ∈ s.table, r.seq < row.seq) → 0 < row.seq →
    s.cursor.seq < row.seq
  received : s.received =
    (between (·.seq) 0 s.cursor.seq (groupRows s.table group)).map rowToStored

variable {group : GroupId} {s t : Paging}

theorem Inv.sorted (h : Inv group s) :
    (groupRows s.table group).Pairwise fun a b => a.seq < b.seq :=
  h.increasing.2.filter _

theorem call_eq (h : Inv group s) {limit : Int} (hlimit : 0 < limit) :
    getMessagesSince s.table group s.cursor limit
      = .ok (((rowsAfter s.table group s.cursor).take (pageSize limit)).map rowToStored) :=
  getMessagesSince_eq h.sorted hlimit.le _

/-- Received and still to come make up the group's rows. -/
theorem received_append (h : Inv group s) :
    s.received ++ (rowsAfter s.table group s.cursor).map rowToStored
      = (groupRows s.table group).map rowToStored := by
  have hall : (groupRows s.table group).filter (fun row => decide (0 < row.seq))
      = groupRows s.table group :=
    List.filter_eq_self.mpr fun row hrow => by
      simpa using h.increasing.1 row (mem_groupRows.mp hrow).1
  rw [h.received, ← List.map_append, rowsAfter]
  exact congrArg (List.map rowToStored) ((between_append_above h.sorted h.cursor_nonneg).trans hall)

theorem Inv.insert (h : Inv group s) {row : Model} (hpos : 0 < row.seq)
    (hlt : ∀ r ∈ s.table, r.seq < row.seq) :
    Inv group { s with table := s.table ++ [row] } where
  increasing := by
    refine ⟨fun r hr => ?_, List.pairwise_append.mpr ⟨h.increasing.2, by simp, ?_⟩⟩
    · rcases List.mem_append.mp hr with hr | hr
      · exact h.increasing.1 r hr
      · exact List.mem_singleton.mp hr ▸ hpos
    · exact fun r hr r' hr' => List.mem_singleton.mp hr' ▸ hlt r hr
  cursor_nonneg := h.cursor_nonneg
  cursor_le row' hlt' := h.cursor_le row' fun r hr => hlt' r (by simp [hr])
  received := by
    have hnil : between (·.seq) 0 s.cursor.seq (groupRows [row] group) = [] := by
      refine List.eq_nil_iff_forall_not_mem.mpr fun r hr => ?_
      obtain ⟨hr, -, hle⟩ := mem_between.mp hr
      obtain rfl := List.mem_singleton.mp (mem_groupRows.mp hr).1
      exact absurd (h.cursor_le r hlt hpos) (not_lt_of_ge hle)
    rw [groupRows_append, between_append, hnil, List.append_nil]
    exact h.received

theorem Inv.call (h : Inv group s) {limit : Int} {page : List StoredMessage}
    (hlimit : 0 < limit) (hpage : getMessagesSince s.table group s.cursor limit = .ok page) :
    Inv group { s with cursor := s.cursor.next page, received := s.received ++ page } := by
  rw [call_eq h hlimit] at hpage
  obtain rfl := Except.ok.inj hpage
  have habove : ∀ row ∈ (rowsAfter s.table group s.cursor).take (pageSize limit),
      s.cursor.seq < row.seq ∧ row ∈ s.table := fun row hrow => by
    obtain ⟨hrow, hlt⟩ := List.mem_filter.mp (List.mem_of_mem_take hrow)
    exact ⟨by simpa using hlt, (mem_groupRows.mp hrow).1⟩
  have hnext := next_seq s.cursor
    (((rowsAfter s.table group s.cursor).take (pageSize limit)).map rowToStored)
  rw [reach_map_rowToStored] at hnext
  refine ⟨h.increasing, ?_, fun row hlt hpos => ?_, ?_⟩
  · rw [hnext]
    exact h.cursor_nonneg.trans (low_le_reach fun row hrow => (habove row hrow).1)
  · rw [hnext]
    rcases reach_mem (fun row : Model => row.seq) s.cursor.seq
      ((rowsAfter s.table group s.cursor).take (pageSize limit)) with ⟨-, he⟩ | ⟨r, hr, he⟩
    · rw [he]
      exact h.cursor_le row hlt hpos
    · rw [he]
      exact hlt r (habove r hr).2
  · rw [hnext, h.received, ← List.map_append]
    exact congrArg (List.map rowToStored)
      (between_append_take h.sorted h.cursor_nonneg (pageSize limit))

theorem step_inv {a : Act} (h : Inv group s) (hstep : Step group s a t) : Inv group t := by
  cases hstep with
  | insert row hpos hlt => exact h.insert hpos hlt
  | call limit page hlimit hpage => exact h.call hlimit hpage

theorem inv_of_reachable (h : (system group).Reachable s) : Inv group s := by
  refine h.invariant (fun {s} h0 => ?_) (fun {_ _ _} => step_inv)
  obtain ⟨hinc, hcursor, hreceived⟩ := h0
  refine ⟨hinc, by simp [hcursor, Cursor.beginning], fun row _ hpos => ?_, ?_⟩
  · simpa [hcursor, Cursor.beginning] using hpos
  · rw [hreceived, hcursor]
    refine (List.map_eq_nil_iff.mpr (List.eq_nil_iff_forall_not_mem.mpr fun row hrow => ?_)).symm
    obtain ⟨-, hlow, hhigh⟩ := mem_between.mp hrow
    exact absurd hlow (not_lt_of_ge hhigh)

theorem short_page (h : Inv group s) {limit : Int} {page : List StoredMessage}
    (hlimit : 0 < limit) (hpage : getMessagesSince s.table group s.cursor limit = .ok page)
    (hshort : (page.length : Int) < min limit maxPageSize) :
    s.received ++ page = (groupRows s.table group).map rowToStored := by
  rw [call_eq h hlimit] at hpage
  obtain rfl := Except.ok.inj hpage
  have hlen : (rowsAfter s.table group s.cursor).length ≤ pageSize limit := by
    rw [List.length_map, List.length_take] at hshort
    unfold pageSize at hshort ⊢
    omega
  rw [List.take_of_length_le hlen]
  exact received_append h

/-- The reader gets on with each call until nothing is left. -/
theorem exists_empty_page (h : Inv group s) {limits : Nat → Int} (hpos : ∀ n, 0 < limits n) :
    ∃ n t, Calls group limits n s t ∧ t.table = s.table ∧
      getMessagesSince t.table group t.cursor (limits n) = .ok [] ∧
      t.received = (groupRows s.table group).map rowToStored := by
  -- on the number of rows the reader has not received
  induction hk : (rowsAfter s.table group s.cursor).length using Nat.strong_induction_on
    generalizing s limits with
  | h k ih =>
    rcases Nat.eq_zero_or_pos k with rfl | hkpos
    · have hnil := List.eq_nil_of_length_eq_zero hk
      have hall := received_append h
      rw [hnil, List.map_nil, List.append_nil] at hall
      refine ⟨0, s, .done _ _, rfl, ?_, hall⟩
      rw [call_eq h (hpos 0), hnil, List.take_nil, List.map_nil]
    · have hstep : Step group s (.call (limits 0)) _ := .call s _ _ (hpos 0) (call_eq h (hpos 0))
      have hnext := step_inv h hstep
      have hleft := congrArg List.length (received_append hnext)
      have hall := congrArg List.length (received_append h)
      have hsize := pageSize_pos (hpos 0)
      simp only [List.length_append, List.length_map, List.length_take] at hleft hall
      have hlt : (rowsAfter s.table group (s.cursor.next (((rowsAfter s.table group s.cursor).take
          (pageSize (limits 0))).map rowToStored))).length < k := by omega
      obtain ⟨n, t, hcalls, htable, hempty, hreceived⟩ :=
        ih _ hlt hnext (fun n => hpos (n + 1)) rfl
      exact ⟨n + 1, t, .call _ _ _ _ _ hstep hcalls, htable, hempty, hreceived⟩

/-- **Paging loses and repeats nothing.** -/
theorem paging_complete (h : (system group).Reachable s) :
    s.received <+: (groupRows s.table group).map rowToStored ∧
    ((groupRows s.table group).map rowToStored).Pairwise (fun a b => a.seq < b.seq) ∧
    (∀ limit page, 0 < limit → getMessagesSince s.table group s.cursor limit = .ok page →
      (page.length : Int) < min limit maxPageSize →
      s.received ++ page = (groupRows s.table group).map rowToStored) ∧
    ∀ limits : Nat → Int, (∀ n, 0 < limits n) →
      ∃ n t, Calls group limits n s t ∧ t.table = s.table ∧
        getMessagesSince t.table group t.cursor (limits n) = .ok [] ∧
        t.received = (groupRows s.table group).map rowToStored := by
  have hinv := inv_of_reachable h
  refine ⟨⟨_, received_append hinv⟩, List.pairwise_map.mpr hinv.sorted, ?_, ?_⟩
  · exact fun limit page hlimit hpage => short_page hinv hlimit hpage
  · exact fun limits hpos => exists_empty_page hinv hpos

/-- Three rows of two groups, and a reader that has not begun. -/
def twoGroups : Paging :=
  ⟨[⟨1, "m1", "ops", "tg", "ann", "hi", 0⟩, ⟨2, "m2", "dev", "tg", "bob", "yo", 0⟩,
    ⟨5, "m3", "ops", "tg", "ann", "ok", 0⟩], .beginning, []⟩

theorem paging_complete_two :
    ∃ n t, Calls ⟨"ops"⟩ (fun _ => 1) n twoGroups t ∧
      getMessagesSince t.table ⟨"ops"⟩ t.cursor 1 = .ok [] ∧ t.received.map (·.seq) = [1, 5] := by
  have hinit : (system ⟨"ops"⟩).Init twoGroups := ⟨⟨by decide, by decide⟩, rfl, rfl⟩
  obtain ⟨n, t, hcalls, -, hempty, hreceived⟩ :=
    (paging_complete (.init hinit)).2.2.2 (fun _ => 1) (by simp)
  refine ⟨n, t, hcalls, hempty, ?_⟩
  rw [hreceived]
  decide

end Paging

end Forgeclaw.Store
