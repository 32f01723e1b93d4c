/-
  What the queries of `crates/store` share: the page cap (`lib.rs`) and the check of a caller's
  limit (`ops/mod.rs`).
-/
import Forgeclaw.Core.Id
import Forgeclaw.Foundation.Page
import Forgeclaw.Store.Error

namespace Forgeclaw.Store

/-- `DateTime<Utc>`: an instant, counted from the epoch in the smallest step that the column
    keeps (PostgreSQL rounds to microseconds, SQLite's text has the nanoseconds).

    In the queries `key` is what the database orders an instant by: PostgreSQL the instant
    itself, SQLite the text that it was written as. -/
abbrev DateTime := Int

/-- `MAX_PAGE_SIZE` -/
def maxPageSize : Int := 10000

def clampedTake (limit : Int) (op : String) : Except StoreError Nat :=
  if limit < 0 then
    .error (.invalidLimit s!"{op}: limit {limit} is negative")
  else if limit == 0 then
    .ok 0
  else
    let effective := min limit maxPageSize
    -- in `[1, MAX_PAGE_SIZE]`, so the conversion to `u64` does not fail
    .ok effective.toNat

/-- The number of rows a limit allows. -/
def pageSize (limit : Int) : Nat := (min limit maxPageSize).toNat

theorem clampedTake_of_nonneg {limit : Int} (h : 0 ≤ limit) (op : String) :
    clampedTake limit op = .ok (pageSize limit) := by
  unfold clampedTake pageSize
  rw [if_neg (not_lt_of_ge h)]
  split
  · rename_i h0
    rw [eq_of_beq h0]
    rfl
  · rfl

theorem clampedTake_of_neg {limit : Int} (h : limit < 0) (op : String) :
    clampedTake limit op = .error (.invalidLimit s!"{op}: limit {limit} is negative") := by
  rw [clampedTake, if_pos h]

theorem clampedTake_eq_ok {limit : Int} {op : String} {n : Nat}
    (h : clampedTake limit op = .ok n) : 0 ≤ limit ∧ n = pageSize limit := by
  rcases lt_or_ge limit 0 with hneg | hpos
  · rw [clampedTake_of_neg hneg] at h
    cases h
  · rw [clampedTake_of_nonneg hpos] at h
    exact ⟨hpos, (Except.ok.inj h).symm⟩

theorem pageSize_pos {limit : Int} (h : 0 < limit) : 0 < pageSize limit := by
  unfold pageSize maxPageSize
  omega

theorem pageSize_mono {limit limit' : Int} (h : limit ≤ limit') :
    pageSize limit ≤ pageSize limit' := by
  unfold pageSize
  omega

end Forgeclaw.Store
