/-
  Every stored message reaches the readers of its group.

  A reader that reads on, again and again and with a positive limit, moves past one more row
  with each page that is not empty, and what becomes visible meanwhile comes after what is there.
  So it is given every row of its group beyond its start (`row_reaches_reader`), for readers of
  any ordered log. With fair turns for the writers this goes from the call of `store_message` to
  what the readers get.
-/
import Forgeclaw.Store.MessageTurns
import Forgeclaw.Store.SqliteLog

open Forgeclaw.Core Filter

namespace Forgeclaw.Store

open Messages Page TransitionSystem

/-! ## Readers that read on -/

section

variable {σ α ρ : Type} [DecidableEq ρ] {W : TransitionSystem σ α} {table : σ → List Model}

/-- What a page is to a reader that has to ask for one. -/
theorem ReaderOk.page_eq {rows : List Model} {r : Reader} (h : ReaderOk rows r)
    (hsorted : (groupRows rows r.group).Pairwise fun a b => a.seq < b.seq)
    (hpage : r.page = none) {limit : Int} {page : List StoredMessage}
    (hget : getMessagesSince rows r.group r.cursor limit = .ok page) :
    0 ≤ limit ∧ page = (((groupRows rows r.group).filter
      fun row => decide (row.seq > r.reached)).take (pageSize limit)).map rowToStored := by
  have hcursor : r.cursor.seq = r.reached := by
    have := h.cursor
    rw [hpage] at this
    exact this
  rcases lt_or_ge limit 0 with hneg | hpos
  · rw [getMessagesSince_of_neg hneg] at hget
    cases hget
  · rw [getMessagesSince_eq hsorted hpos, rowsAfter, hcursor] at hget
    exact ⟨hpos, (Except.ok.inj hget).symm⟩

theorem ReaderOk.reached_le {rows : List Model} {r : Reader} (h : ReaderOk rows r)
    (hsorted : (groupRows rows r.group).Pairwise fun a b => a.seq < b.seq)
    (hpage : r.page = none) {limit : Int} {page : List StoredMessage}
    (hget : getMessagesSince rows r.group r.cursor limit = .ok page) :
    r.reached ≤ reach (·.seq) r.reached page := by
  obtain ⟨-, rfl⟩ := h.page_eq hsorted hpage hget
  rw [reach_map_rowToStored]
  refine low_le_reach fun row hrow => ?_
  simpa using (List.mem_filter.mp (List.mem_of_mem_take hrow)).2

/-- As long as something is left, a page with a positive limit goes on. -/
theorem ReaderOk.reached_lt {rows : List Model} {r : Reader} (h : ReaderOk rows r)
    (hsorted : (groupRows rows r.group).Pairwise fun a b => a.seq < b.seq)
    (hpage : r.page = none) {limit : Int} (hlimit : 1 ≤ limit) {page : List StoredMessage}
    (hget : getMessagesSince rows r.group r.cursor limit = .ok page) {row : Model}
    (hrow : row ∈ groupRows rows r.group) (hleft : r.reached < row.seq) :
    r.reached < reach (·.seq) r.reached page := by
  obtain ⟨-, rfl⟩ := h.page_eq hsorted hpage hget
  rw [reach_map_rowToStored]
  set left := (groupRows rows r.group).filter fun row => decide (row.seq > r.reached) with hdef
  have hmem : row ∈ left := List.mem_filter.mpr ⟨hrow, by simpa using hleft⟩
  obtain ⟨first, hfirst⟩ : ∃ first, first ∈ left.take (pageSize limit) := by
    refine List.exists_mem_of_ne_nil _ fun hnil => ?_
    rcases List.take_eq_nil_iff.mp hnil with hzero | hempty
    · have hsize : 0 < pageSize limit := pageSize_pos (by omega)
      omega
    · rw [hempty] at hmem
      cases hmem
  have hseq : r.reached < first.seq := by
    simpa using (List.mem_filter.mp (List.mem_of_mem_take hfirst)).2
  refine hseq.trans_le (le_reach ?_ hfirst)
  exact (hsorted.filter _).sublist (List.take_sublist _ _)

theorem setReader_self (s : ReadState σ ρ) (k : ρ) (reader : Reader) :
    (s.setReader k reader).readers k = some reader :=
  Function.update_self ..

theorem setReader_of_ne (s : ReadState σ ρ) {k r : ρ} (reader : Reader) (h : k ≠ r) :
    (s.setReader r reader).readers k = s.readers k :=
  Function.update_of_ne h ..

/-- What a step leaves a reader. -/
theorem step_reader (hlog : OrderedLog W table) {s s' : ReadState σ ρ} {a : ReadAct α ρ}
    (hs : (withReaders ρ W table).Reachable s) (hst : ReadStep W table s a s') {k : ρ}
    {reader : Reader} (hk : s.readers k = some reader) :
    ∃ reader', s'.readers k = some reader' ∧ reader'.group = reader.group ∧
      reader'.start = reader.start ∧ reader.reached ≤ reader'.reached := by
  cases hst with
  | write a store hw => exact ⟨reader, hk, rfl, rfl, le_rfl⟩
  | join r group cursor hr =>
    have hne : k ≠ r := by
      rintro rfl
      cases hk.symm.trans hr
    refine ⟨reader, ?_, rfl, rfl, le_rfl⟩
    rwa [setReader_of_ne s _ hne]
  | read r old limit page hr hpage hget =>
    by_cases hkr : k = r
    · subst hkr
      obtain rfl := Option.some.inj (hk.symm.trans hr)
      refine ⟨_, setReader_self .., rfl, rfl, ?_⟩
      have hle := (hlog.readers_ok hs k reader hk).reached_le
        (hlog.sorted _ (reachable_store hs) _) hpage hget
      rwa [Reader.reached, Reader.reached, reach_append]
    · refine ⟨reader, ?_, rfl, rfl, le_rfl⟩
      rwa [setReader_of_ne s _ hkr]
  | advance r old page hr hpage =>
    by_cases hkr : k = r
    · subst hkr
      obtain rfl := Option.some.inj (hk.symm.trans hr)
      exact ⟨_, setReader_self .., rfl, rfl, le_rfl⟩
    · refine ⟨reader, ?_, rfl, rfl, le_rfl⟩
      rwa [setReader_of_ne s _ hkr]

theorem step_table (hlog : OrderedLog W table) {s s' : ReadState σ ρ} {a : ReadAct α ρ}
    (hs : (withReaders ρ W table).Reachable s) (hst : ReadStep W table s a s') {row : Model}
    (hrow : row ∈ table s.store) : row ∈ table s'.store := by
  cases hst with
  | write a store hw =>
    obtain ⟨new, htable, -⟩ := hlog.grows _ _ _ (reachable_store hs) hw
    show row ∈ table store
    rw [htable]
    exact List.mem_append_left new hrow
  | join | read | advance => exact hrow

/-- At this time the reader asks for a page, with a positive limit. -/
def ReadsAt (r : (withReaders ρ W table).Trace) (k : ρ) (t : Nat) : Prop :=
  ∃ reader limit page, (r.state t).readers k = some reader ∧ reader.page = none ∧ 1 ≤ limit ∧
    getMessagesSince (table (r.state t).store) reader.group reader.cursor limit = .ok page ∧
    r.state (t + 1) = (r.state t).setReader k
      { reader with page := some page, given := reader.given ++ page }

/-- The row is there, and the reader has so far to go to it at most. -/
def Before (table : σ → List Model) (k : ρ) (group : GroupId) (start : Cursor) (row : Model)
    (n : Nat) (s : ReadState σ ρ) : Prop :=
  row ∈ table s.store ∧ ∃ reader, s.readers k = some reader ∧ reader.group = group ∧
    reader.start = start ∧ row.seq ≤ reader.reached + n

variable {r : (withReaders ρ W table).Trace} {k : ρ} {group : GroupId} {start : Cursor}
  {row : Model}

theorem before_stays (hlog : OrderedLog W table) {n t : Nat}
    (h : Before table k group start row n (r.state t)) :
    ∀ u, t ≤ u → Before table k group start row n (r.state u) := by
  refine Trace.keeps h ?_
  rintro u a - ha ⟨hrow, reader, hk, rfl, rfl, hseq⟩
  have hst := r.step u a ha
  obtain ⟨reader', hk', hgroup, hstart, hle⟩ := step_reader hlog (r.reachable u) hst hk
  exact ⟨step_table hlog (r.reachable u) hst hrow, reader', hk', hgroup, hstart, by omega⟩

/-- Page by page the reader gets there. -/
theorem before_zero (hlog : OrderedLog W table) (hreads : ∃ᶠ t in atTop, ReadsAt r k t)
    (hgroup : row.groupId = group.value) {n t : Nat}
    (h : Before table k group start row n (r.state t)) :
    ∃ u, t ≤ u ∧ Before table k group start row 0 (r.state u) := by
  induction n generalizing t with
  | zero => exact ⟨t, le_rfl, h⟩
  | succ n ih =>
    obtain ⟨u, htu, reader, limit, page, hk, hpage, hlimit, hget, hnext⟩ :=
      frequently_atTop.mp hreads t
    obtain ⟨hrow, reader', hk', rfl, rfl, hseq⟩ := before_stays hlog h u htu
    obtain rfl := Option.some.inj (hk.symm.trans hk')
    suffices hcloser : Before table k reader.group reader.start row n (r.state (u + 1)) by
      obtain ⟨v, huv, hzero⟩ := ih hcloser
      exact ⟨v, by omega, hzero⟩
    rw [hnext]
    refine ⟨hrow, _, setReader_self .., rfl, rfl, ?_⟩
    have hok := hlog.readers_ok (r.reachable u) k reader hk
    have hsorted := hlog.sorted _ (reachable_store (r.reachable u)) reader.group
    have hle := hok.reached_le hsorted hpage hget
    rw [Reader.reached, reach_append]
    by_cases hleft : reader.reached < row.seq
    · have hlt := hok.reached_lt hsorted hpage hlimit hget (mem_groupRows.mpr ⟨hrow, hgroup⟩) hleft
      change row.seq ≤ reach (·.seq) reader.reached page + n
      omega
    · change row.seq ≤ reach (·.seq) reader.reached page + n
      omega

/-- **A reader that reads on is given every row** of its group beyond its start. -/
theorem row_reaches_reader (hlog : OrderedLog W table) (hreads : ∃ᶠ t in atTop, ReadsAt r k t)
    {t : Nat} {reader : Reader} (hk : (r.state t).readers k = some reader)
    (hrow : row ∈ table (r.state t).store) (hgroup : row.groupId = reader.group.value)
    (hstart : reader.start.seq < row.seq) :
    ∃ u reader', t ≤ u ∧ (r.state u).readers k = some reader' ∧
      rowToStored row ∈ reader'.given := by
  have hbefore : Before table k reader.group reader.start row
      (row.seq - reader.reached).toNat (r.state t) :=
    ⟨hrow, reader, hk, rfl, rfl, by omega⟩
  obtain ⟨u, htu, hrow', reader', hk', hgroup', hstart', hseq⟩ :=
    before_zero hlog hreads hgroup hbefore
  refine ⟨u, reader', htu, hk', ?_⟩
  rw [(hlog.readers_ok (r.reachable u) k reader' hk').given]
  refine List.mem_map_of_mem (mem_between.mpr ⟨mem_groupRows.mpr ⟨hrow', ?_⟩, ?_, ?_⟩)
  · rw [hgroup', hgroup]
  · rwa [hstart']
  · simpa using hseq

theorem row_stays (hlog : OrderedLog W table) {t : Nat} (h : row ∈ table (r.state t).store) :
    ∀ u, t ≤ u → row ∈ table (r.state u).store :=
  Trace.keeps (P := fun s => row ∈ table s.store) h fun u a _ ha hu =>
    step_table hlog (r.reachable u) (r.step u a ha) hu

theorem reader_stays (hlog : OrderedLog W table) {t : Nat} {reader : Reader}
    (h : (r.state t).readers k = some reader) :
    ∀ u, t ≤ u → ∃ reader', (r.state u).readers k = some reader' ∧
      reader'.group = reader.group ∧ reader'.start = reader.start := by
  refine Trace.keeps (P := fun s : ReadState σ ρ => ∃ reader', s.readers k = some reader' ∧
    reader'.group = reader.group ∧ reader'.start = reader.start) ⟨reader, h, rfl, rfl⟩ ?_
  rintro u a - ha ⟨reader', hk, hgroup, hstart⟩
  obtain ⟨reader'', hk', hgroup', hstart', -⟩ :=
    step_reader hlog (r.reachable u) (r.step u a ha) hk
  exact ⟨reader'', hk', hgroup'.trans hgroup, hstart'.trans hstart⟩

/-- Whenever the row and the reader come. -/
theorem delivered_of_row (hlog : OrderedLog W table) (hreads : ∃ᶠ t in atTop, ReadsAt r k t)
    (hids : ∀ t, ((table (r.state t).store).map (·.id)).Nodup) {t v : Nat}
    (hrow : row ∈ table (r.state t).store) {reader : Reader}
    (hk : (r.state v).readers k = some reader) (hgroup : row.groupId = reader.group.value)
    (hstart : reader.start.seq < row.seq) :
    ∃ w reader', v ≤ w ∧ (r.state w).readers k = some reader' ∧
      rowToStored row ∈ reader'.given ∧ (reader'.given.map (·.id)).count row.id = 1 := by
  obtain ⟨reader', hk', hgroup', hstart'⟩ := reader_stays hlog hk (max t v) (le_max_right t v)
  obtain ⟨w, reader'', hw, hk'', hgiven⟩ := row_reaches_reader hlog hreads hk'
    (row_stays hlog hrow _ (le_max_left t v)) (hgroup' ▸ hgroup) (hstart' ▸ hstart)
  refine ⟨w, reader'', by omega, hk'', hgiven, ?_⟩
  refine List.count_eq_one_of_mem ?_ (List.mem_map_of_mem (f := StoredMessage.id) hgiven)
  rw [(hlog.readers_ok (r.reachable w) k reader'' hk'').given, List.map_map]
  exact (hids w).sublist ((List.filter_sublist.trans List.filter_sublist).map _)

/-- A reader that finds nothing comes back to where it was. -/
theorem read_nothing {s : ReadState σ ρ} {reader : Reader} (hk : s.readers k = some reader)
    (hpage : reader.page = none) {limit : Int}
    (hget : getMessagesSince (table s.store) reader.group reader.cursor limit = .ok []) :
    (withReaders ρ W table).Step s (.read k) (s.setReader k { reader with page := some [] }) ∧
      (withReaders ρ W table).Step (s.setReader k { reader with page := some [] })
        (.advance k) s := by
  constructor
  · have hread := ReadStep.read (W := W) s k reader limit [] hk hpage hget
    rw [List.append_nil] at hread
    exact hread
  · have hback : (withReaders ρ W table).Step _ _ _ := ReadStep.advance _ k _ []
      (setReader_self s k { reader with page := some [] }) rfl
    have hsame : ((s.setReader k { reader with page := some [] }).setReader k
        { reader with cursor := reader.cursor.next [], page := none }) = s := by
      have hreader : some { reader with cursor := reader.cursor.next [], page := none }
          = s.readers k := by
        rw [hk, ← hpage]
        rfl
      rw [ReadState.setReader, ReadState.setReader, Function.update_idem, hreader,
        Function.update_eq_self]
    rw [hsame] at hback
    exact hback

/-- The trace up to a time, and then only a reader that finds nothing more. -/
def readingOn (r : (withReaders ρ W table).Trace) (n : Nat) (k : ρ) {reader : Reader}
    {limit : Int} (hk : (r.state n).readers k = some reader) (hpage : reader.page = none)
    (hget : getMessagesSince (table (r.state n).store) reader.group reader.cursor limit = .ok []) :
    (withReaders ρ W table).Trace :=
  r.cycle n _ _ _ (read_nothing hk hpage hget).1 (read_nothing hk hpage hget).2

section

variable {n : Nat} {reader : Reader} {limit : Int} {hk : (r.state n).readers k = some reader}
  {hpage : reader.page = none}
  {hget : getMessagesSince (table (r.state n).store) reader.group reader.cursor limit = .ok []}

theorem readingOn_before {t : Nat} (ht : t ≤ n) :
    (readingOn r n k hk hpage hget).state t = r.state t :=
  if_pos ht

theorem act_readingOn {t : Nat} {a : ReadAct α ρ}
    (h : (readingOn r n k hk hpage hget).act t = some a) :
    r.act t = some a ∨ a = .read k ∨ a = .advance k :=
  Trace.act_cycle (h := (read_nothing hk hpage hget).1)
    (g := (read_nothing hk hpage hget).2) h

theorem store_readingOn {t : Nat} (ht : n ≤ t) :
    ((readingOn r n k hk hpage hget).state t).store = (r.state n).store := by
  rcases Trace.cycle_after (h := (read_nothing hk hpage hget).1)
    (g := (read_nothing hk hpage hget).2) ht with h | h
  · exact congrArg ReadState.store h
  · exact (congrArg ReadState.store h : _ = (ReadState.setReader ..).store)

theorem reads_readingOn (hlimit : 1 ≤ limit) :
    ∃ᶠ t in atTop, ReadsAt (readingOn r n k hk hpage hget) k t := by
  refine frequently_atTop.mpr fun m => ⟨n + 2 * m, by omega, ?_⟩
  obtain ⟨hnow, hnext⟩ := Trace.cycle_again (h := (read_nothing hk hpage hget).1)
    (g := (read_nothing hk hpage hget).2) m
  have hnow : (readingOn r n k hk hpage hget).state (n + 2 * m) = r.state n := hnow
  have hnext : (readingOn r n k hk hpage hget).state (n + 2 * m + 1)
      = (r.state n).setReader k { reader with page := some [] } := hnext
  unfold ReadsAt
  rw [hnow, hnext]
  exact ⟨reader, limit, [], hk, hpage, hlimit, hget, by rw [List.append_nil]⟩

end

/-- What the writers do meanwhile. -/
def writers (r : (withReaders ρ W table).Trace) : W.Trace :=
  r.map ReadState.store
    (fun
      | .write a => some a
      | _ => none)
    (fun h => h.1)
    (fun hst hg => by
      cases hst with
      | write a store hw =>
        cases hg
        exact hw
      | join | read | advance => cases hg)
    (fun hst hg => by
      cases hst with
      | write a store hw => cases hg
      | join | read | advance => rfl)

end

/-! ## On PostgreSQL -/

section

variable {ι ρ : Type} [DecidableEq ι] [DecidableEq ρ] {hashtextextended : String → Int}

abbrev postgresWriters (ι : Type) [DecidableEq ι] (hashtextextended : String → Int) :
    TransitionSystem (Transactions.Db ι Int ActiveModel NewMessage) (ι × Transactions.Act) :=
  Transactions.system ι (·.id) (storeMessage hashtextextended .postgres)

def postgresTable (db : Transactions.Db ι Int ActiveModel NewMessage) : List Model :=
  db.rows.map fun p => p.2.model p.1

abbrev postgresLog (ι ρ : Type) [DecidableEq ι] [DecidableEq ρ] (hashtextextended : String → Int) :
    TransitionSystem (ReadState (Transactions.Db ι Int ActiveModel NewMessage) ρ)
      (ReadAct (ι × Transactions.Act) ρ) :=
  withReaders ρ (postgresWriters ι hashtextextended) postgresTable

/-- **The locks of the groups make an ordered log.** -/
theorem postgres_ordered : OrderedLog (postgresWriters ι hashtextextended) postgresTable where
  sorted db h group := by
    have hsorted :=
      (Transactions.inv_of_reachable (storeMessage_guarded hashtextextended) h).rows.sorted
    rw [groupRows, postgresTable, List.pairwise_filter, List.pairwise_map]
    refine hsorted.imp ?_
    intro a b hlt ha hb
    have ha : a.2.groupId = group.value := by simpa [ActiveModel.model] using ha
    have hb : b.2.groupId = group.value := by simpa [ActiveModel.model] using hb
    exact hlt (by rw [stream, stream, ha, hb])
  grows db a db' h hst := by
    obtain ⟨new, hrows, hlt⟩ :=
      Transactions.new_rows_larger (storeMessage_guarded hashtextextended) h (.tail .refl hst)
    refine ⟨new.map fun p => p.2.model p.1, by simp [postgresTable, hrows], ?_⟩
    simp only [postgresTable, List.mem_map]
    rintro _ ⟨p, hp, rfl⟩ _ ⟨p', hp', rfl⟩ hgroup
    exact hlt p hp p' hp' (congrArg (advisoryKey hashtextextended) hgroup)

/-- **From the call to the readers.** -/
theorem message_reaches_readers {r : (postgresLog ι ρ hashtextextended).Trace}
    (hfair : ∀ i, r.StronglyFair
      (fun s => Unfinished s.store i ∧ ∀ j, ¬ Transactions.Waits (·.id) s.store i j)
      fun a => ∃ act, a = .write (i, act))
    {t : Nat} {i : ι} {txn : Transactions.Txn Int ActiveModel NewMessage}
    (hi : (r.state t).store.txns i = some txn)
    (hcancel : ∀ v, r.act v ≠ some (.write (i, .cancel))) :
    ∃ q msg, 0 < q ∧ msg.id = txn.call.id ∧
      (∃ u j txn', (r.state u).store.txns j = some txn' ∧ txn'.call = msg ∧
        (messageRow msg).model q ∈ postgresTable (r.state u).store) ∧
      ∀ k, (∃ᶠ t in atTop, ReadsAt r k t) → ∀ v reader, (r.state v).readers k = some reader →
        reader.group = msg.groupId → reader.start.seq < q →
        ∃ w reader', v ≤ w ∧ (r.state w).readers k = some reader' ∧
          msg.stored q ∈ reader'.given ∧ (reader'.given.map (·.id)).count msg.id = 1 := by
  have hturns : ∀ i, (writers r).StronglyFair
      (fun db => Unfinished db i ∧ ∀ j, ¬ Transactions.Waits (·.id) db i j)
      fun a => a.1 = i := by
    intro i hoften
    refine (hfair i hoften).mono fun u hu => ?_
    obtain ⟨_, ha, act, rfl⟩ := hu
    exact ⟨(i, act), by simp [writers, Trace.map, ha], rfl⟩
  have hnever : ∀ v, (writers r).act v ≠ some (i, .cancel) := by
    intro v hv
    obtain ⟨a, ha, hg⟩ := Option.bind_eq_some_iff.mp hv
    cases a with
    | write a =>
      cases hg
      exact hcancel v ha
    | _ => cases hg
  obtain ⟨u, txn', -, hi', hcall, hclosed, -⟩ := closed_of_fair hturns (t := t) hi
  have hstored := hasLeft_of_trace hnever u txn' hi' (by rw [hclosed]; decide)
  obtain ⟨q, j, other, hj, hid, hmem⟩ := hstored
  have hdb := (writers r).reachable u
  have hrow : (messageRow other.call).model q ∈ postgresTable (r.state u).store :=
    List.mem_map_of_mem (f := fun p : Int × ActiveModel => p.2.model p.1) hmem
  refine ⟨q, other.call, ?_, hid.trans (congrArg _ hcall), ⟨u, j, other, hj, rfl, hrow⟩, ?_⟩
  · exact Transactions.numbers_pos hdb q (List.mem_map_of_mem (f := Prod.fst) hmem)
  · intro k hreads v reader hk hgroup hstart
    refine delivered_of_row postgres_ordered hreads (fun t => ?_) hrow hk ?_ hstart
    · rw [postgresTable, List.map_map]
      exact Transactions.ids_distinct ((writers r).reachable t)
    · rw [hgroup]
      rfl

/-! ## On SQLite -/

theorem mem_sqliteTable {db : SingleWriter.Db ι Int ActiveModel NewMessage}
    (h : (sqliteWriters ι hashtextextended).Reachable db) {i : ι}
    {txn : SingleWriter.Txn Int ActiveModel NewMessage} (hi : db.txns i = some txn)
    (hcommitted : txn.phase = .committed) :
    ∃ q, 0 < q ∧ txn.call.activeModel.model q ∈ sqliteTable db := by
  have hmem : i ∈ db.commits := (((inv_of_writers h).txns i txn hi).committed).mp hcommitted
  have hcall : txn.call ∈ db.calls :=
    List.mem_filterMap.mpr ⟨i, hmem, by rw [hi]; rfl⟩
  obtain ⟨n, hn, hget⟩ := List.mem_iff_getElem.mp hcall
  refine ⟨n + 1, by omega, ?_⟩
  rw [sqliteTable_eq h]
  refine List.mem_map.mpr ⟨(txn.call, n), ?_, rfl⟩
  rw [List.mk_mem_zipIdx_iff_getElem?, List.getElem?_eq_getElem hn, hget]

/-- **From the commit to the readers.** -/
theorem committed_reaches_readers {r : (sqliteLog ι ρ hashtextextended).Trace} {t : Nat} {i : ι}
    {txn : SingleWriter.Txn Int ActiveModel NewMessage}
    (hi : (r.state t).store.txns i = some txn) (hcommitted : txn.phase = .committed) :
    ∃ q, 0 < q ∧
      ∀ k, (∃ᶠ t in atTop, ReadsAt r k t) → ∀ v reader, (r.state v).readers k = some reader →
        reader.group = txn.call.groupId → reader.start.seq < q →
        ∃ w reader', v ≤ w ∧ (r.state w).readers k = some reader' ∧
          txn.call.stored q ∈ reader'.given ∧
          (reader'.given.map (·.id)).count txn.call.id = 1 := by
  obtain ⟨q, hq, hrow⟩ := mem_sqliteTable (reachable_store (r.reachable t)) hi hcommitted
  refine ⟨q, hq, fun k hreads v reader hk hgroup hstart => ?_⟩
  refine delivered_of_row sqlite_ordered hreads (fun t => ?_) hrow hk ?_ hstart
  · rw [sqliteTable, List.map_map]
    exact (inv_of_writers (reachable_store (r.reachable t))).distinct
  · rw [hgroup]
    rfl

end

/-! ## One call and one reader -/

abbrev samplePostgres := postgresLog Nat Nat fun name => name.length

def sampleMessage : NewMessage := ⟨"m1", ⟨"ops"⟩, ⟨"tg"⟩, "ann", "hi", 0⟩

/-- A call is through, and a reader has been given its message. -/
def readOnce : samplePostgres.Trace :=
  let r₀ : samplePostgres.Trace := .rest ⟨⟨0, [], fun _ => none⟩, fun _ => none⟩ ⟨rfl, rfl⟩
  let r₁ := r₀.stop 0 _ _ (.write _ _ _ (.start _ 0 sampleMessage rfl))
  let r₂ := r₁.stop 1 _ _ (.write _ _ _ (.begin _ 0 _ _ rfl rfl rfl))
  let r₃ := r₂.stop 2 _ _ (.write _ _ _ (.lock _ 0 _ _ _ rfl rfl rfl fun j t hj hjt => by
    simp [r₂, r₁, r₀, Trace.stop, Trace.rest, Transactions.Db.put, hj] at hjt))
  let r₄ := r₃.stop 3 _ _ (.write _ _ _ (.draw _ 0 _ _ _ 1 rfl rfl rfl rfl (by decide)))
  let r₅ := r₄.stop 4 _ _ (.write _ _ _ (.insert _ 0 _ _ _ _ rfl rfl rfl rfl
    (fun j t hj hjt => by
      simp [r₄, r₃, r₂, r₁, r₀, Trace.stop, Trace.rest, Transactions.Db.put, hj] at hjt)
    (by simp [Transactions.Taken, r₄, r₃, r₂, r₁, r₀, Trace.stop, Trace.rest,
      Transactions.Db.put])))
  let r₆ := r₅.stop 5 _ _ (.write _ _ _ (.commit _ 0 _ _ rfl rfl rfl))
  let r₇ := r₆.stop 6 _ _ (.write _ _ _ (.release _ 0 _ rfl rfl))
  let r₈ := r₇.stop 7 _ _ (.join _ 0 ⟨"ops"⟩ .beginning rfl)
  let r₉ := r₈.stop 8 _ _ (.read _ 0 _ 10 _ rfl rfl rfl)
  r₉.stop 9 _ _ (.advance _ 0 _ _ rfl rfl)

def sampleReader : Reader :=
  ⟨⟨"ops"⟩, .beginning, .after 1, none, [sampleMessage.stored 1]⟩

theorem sample_reader : (readOnce.state 10).readers 0 = some sampleReader := rfl

theorem sample_page : sampleReader.page = none := rfl

theorem nothing_more : getMessagesSince (postgresTable (readOnce.state 10).store)
    sampleReader.group sampleReader.cursor 10 = .ok [] := rfl

/-- The reader reads on. -/
def readOn : samplePostgres.Trace :=
  readingOn readOnce 10 0 sample_reader sample_page nothing_more

theorem store_readOn {t : Nat} (ht : 10 ≤ t) :
    (readOn.state t).store = (readOnce.state 10).store :=
  store_readingOn ht

theorem act_readOnce : ∀ t, readOnce.act t =
    [.write (0, .start), .write (0, .begin), .write (0, .lock), .write (0, .draw),
      .write (0, .insert), .write (0, .commit), .write (0, .release), .join 0, .read 0,
      .advance 0][t]?
  | 0 | 1 | 2 | 3 | 4 | 5 | 6 | 7 | 8 | 9 => rfl
  | t + 10 => by simp [readOnce, Trace.stop, Trace.rest]

theorem calls_readOn (u j : Nat) {txn : Transactions.Txn Int ActiveModel NewMessage}
    (h : (readOn.state u).store.txns j = some txn) : txn.call = sampleMessage := by
  have hone : ∀ u ≤ 10, (readOnce.state u).store.txns j = some txn →
      txn.call = sampleMessage := by
    intro u hu h
    cases j with
    | zero =>
      interval_cases u
      · cases h
      all_goals
        cases h
        rfl
    | succ j => interval_cases u <;> cases h
  rcases Nat.lt_or_ge u 10 with hlt | hge
  · have hbefore : readOn.state u = readOnce.state u := readingOn_before hlt.le
    exact hone u hlt.le (hbefore ▸ h)
  · rw [store_readOn hge] at h
    exact hone 10 le_rfl h

theorem message_reaches_readers_one :
    ∃ w reader, (readOn.state w).readers 0 = some reader ∧
      (reader.given.map (·.id)).count "m1" = 1 := by
  have hclosed : ∀ i, ¬ Unfinished (readOnce.state 10).store i := by
    rintro (_ | i) ⟨t, hi, hopen⟩
    · cases hi
      exact hopen rfl
    · cases hi
  have hfair : ∀ i, readOn.StronglyFair
      (fun s => Unfinished s.store i ∧ ∀ j, ¬ Transactions.Waits (·.id) s.store i j)
      fun a => ∃ act, a = .write (i, act) := fun i =>
    Trace.stronglyFair_of_rest (eventually_atTop.mpr ⟨10, fun t ht h => by
      rw [store_readOn ht] at h
      exact hclosed i h.1⟩)
  have hcancel : ∀ v, readOn.act v ≠ some (.write (0, .cancel)) := by
    intro v hv
    rcases act_readingOn hv with hv | hv | hv
    · simpa using List.mem_of_getElem? ((act_readOnce v).symm.trans hv)
    · cases hv
    · cases hv
  obtain ⟨q, msg, hq, hid, ⟨u, j, txn', hj, rfl, -⟩, hreaders⟩ :=
    message_reaches_readers hfair (t := 10) (i := 0) rfl hcancel
  rw [calls_readOn u j hj] at hreaders
  obtain ⟨w, reader, -, hk, -, hcount⟩ :=
    hreaders 0 (reads_readingOn (by decide)) 10 sampleReader sample_reader rfl hq
  exact ⟨w, reader, hk, hcount⟩

/-- The same on SQLite. -/
def committedOnce : (sqliteLog Nat Nat fun name => name.length).Trace :=
  let r₀ : (sqliteLog Nat Nat fun name => name.length).Trace :=
    .rest ⟨⟨0, [], none, fun _ => none, []⟩, fun _ => none⟩ ⟨rfl, rfl⟩
  let r₁ := r₀.stop 0 _ _ (.write _ _ _ (.start _ 0 sampleMessage rfl))
  let r₂ := r₁.stop 1 _ _ (.write _ _ _ (.begin _ 0 _ _ rfl rfl rfl))
  let r₃ := r₂.stop 2 _ _ (.write _ _ _ (.insert _ 0 _ _ _ rfl rfl rfl (.inl rfl)
    (by simp [SingleWriter.Taken, r₂, r₁, r₀, Trace.stop, Trace.rest, SingleWriter.Db.put])))
  let r₄ := r₃.stop 3 _ _ (.write _ _ _ (.commit _ 0 _ _ rfl rfl rfl))
  let r₅ := r₄.stop 4 _ _ (.join _ 0 ⟨"ops"⟩ .beginning rfl)
  let r₆ := r₅.stop 5 _ _ (.read _ 0 _ 10 _ rfl rfl rfl)
  r₆.stop 6 _ _ (.advance _ 0 _ _ rfl rfl)

theorem committed_reader : (committedOnce.state 7).readers 0 = some sampleReader := rfl

theorem nothing_more_committed : getMessagesSince (sqliteTable (committedOnce.state 7).store)
    sampleReader.group sampleReader.cursor 10 = .ok [] := rfl

theorem committed_reaches_readers_one :
    ∃ r : (sqliteLog Nat Nat fun name => name.length).Trace, ∃ w reader,
      (r.state w).readers 0 = some reader ∧ (reader.given.map (·.id)).count "m1" = 1 := by
  let r := readingOn committedOnce 7 0 committed_reader sample_page nothing_more_committed
  obtain ⟨q, hq, hreaders⟩ := committed_reaches_readers (r := r) (t := 7) (i := 0) rfl rfl
  obtain ⟨w, reader, -, hk, -, hcount⟩ :=
    hreaders 0 (reads_readingOn (by decide)) 7 sampleReader committed_reader rfl hq
  exact ⟨r, w, reader, hk, hcount⟩

end Forgeclaw.Store
