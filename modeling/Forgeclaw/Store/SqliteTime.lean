/-
  The text that SQLite keeps of a timestamp, and compares.

  It is the RFC 3339 text of the instant. `sqliteText_strictMonoOn`: in the years from 0 to 9999,
  where the parts of the text have one width each, the order of the texts is that of the instants.
  The years from 10000 on begin with a `+`, which comes before all digits.
-/
import Forgeclaw.Foundation.Decimal
import Forgeclaw.Store.Basic

namespace Forgeclaw.Store

open Decimal

/-! ## The text -/

/-- In which part a number is, of parts of one size of which the last may be longer, and where in
    it. -/
def part (size last n : Nat) : Nat × Nat :=
  (min (n / size) last, n - min (n / size) last * size)

/-- The year and the day in it, both counted from the 1st of March, so that a leap day comes last
    in its year, and the longer parts of the 400 years of an era come last in it. The days are
    counted from 1970-01-01. -/
def marchDay (days : Int) : Int × Nat :=
  let era := (days + 719468) / 146097
  let century := part 36524 3 ((days + 719468) % 146097).toNat
  let leap := part 1461 24 century.2
  let year := part 365 3 leap.2
  (era * 400 + century.1 * 100 + leap.1 * 4 + year.1, year.2)

/-- Year, month and day of the Gregorian calendar. -/
def civil (days : Int) : Int × Nat × Nat :=
  let (year, day) := marchDay days
  let monthFromMarch := (5 * day + 2) / 153
  let dayOfMonth := day - (153 * monthFromMarch + 2) / 5 + 1
  if monthFromMarch < 10 then (year, monthFromMarch + 3, dayOfMonth)
  else (year + 1, monthFromMarch - 9, dayOfMonth)

/-- Four digits, and a sign where they are not enough. -/
def yearText (year : Int) : List Char :=
  if 0 ≤ year ∧ year ≤ 9999 then
    digits 4 year.toNat
  else
    (if year < 0 then '-' else '+') ::
      digits (if year.natAbs ≤ 9999 then 4 else if year.natAbs ≤ 99999 then 5 else 6) year.natAbs

/-- Milliseconds, microseconds or nanoseconds, as far as it takes. -/
def fractionText (nanos : Nat) : List Char :=
  if nanos = 0 then [] else '.' :: groups 3 nanos

/-- The days from 1970-01-01 to an instant in nanoseconds. -/
def daysOf (t : DateTime) : Int := t / 1000000000 / 86400

/-- The RFC 3339 text for an instant in nanoseconds. -/
def sqliteText (t : DateTime) : List Char :=
  let (year, month, day) := civil (daysOf t)
  let ofDay := (t / 1000000000 % 86400).toNat
  yearText year ++ '-' :: digits 2 month ++ '-' :: digits 2 day ++
    'T' :: digits 2 (ofDay / 3600) ++ ':' :: digits 2 (ofDay / 60 % 60) ++
    ':' :: digits 2 (ofDay % 60) ++ fractionText (t % 1000000000).toNat ++ "+00:00".toList

example : String.ofList (sqliteText 0) = "1970-01-01T00:00:00+00:00" := by decide

example : String.ofList (sqliteText 253402300800120000000) = "+10000-01-01T00:00:00.120+00:00" := by
  decide

/-! ## The order of dates -/

theorem part_lt {size last n m : Nat} (h : n < m) :
    (part size last n).1 < (part size last m).1 ∨
      (part size last n).1 = (part size last m).1 ∧ (part size last n).2 < (part size last m).2 := by
  unfold part
  have hle : min (n / size) last ≤ min (m / size) last :=
    min_le_min_right last (Nat.div_le_div_right h.le)
  rcases hle.lt_or_eq with hlt | heq
  · exact .inl hlt
  · refine .inr ⟨heq, ?_⟩
    have hstart : min (n / size) last * size ≤ n :=
      (Nat.mul_le_mul_right size (min_le_left _ _)).trans (Nat.div_mul_le_self n size)
    simp only [← heq]
    omega

theorem part_fst_le (size last n : Nat) : (part size last n).1 ≤ last := min_le_right _ _

theorem part_snd_lt {size last n bound : Nat} (hn : n < last * size + bound)
    (hsize : 0 < size) (hbound : size ≤ bound) : (part size last n).2 < bound := by
  unfold part
  rcases le_total (n / size) last with hle | hle
  · have hmod := Nat.mod_lt n hsize
    have hdiv := Nat.div_add_mod' n size
    rw [min_eq_left hle]
    omega
  · rw [min_eq_right hle]
    dsimp only
    omega

theorem marchDay_snd_lt (days : Int) : (marchDay days).2 < 366 := by
  have hcentury : (part 36524 3 ((days + 719468) % 146097).toNat).2 < 36525 :=
    part_snd_lt (by omega) (by decide) (by decide)
  have hleap : ∀ {n : Nat}, n < 36525 → (part 1461 24 n).2 < 1461 := fun hn =>
    part_snd_lt hn (by decide) (by decide)
  exact part_snd_lt (hleap hcentury) (by decide) (by decide)

theorem marchDay_lt {d e : Int} (h : d < e) :
    (marchDay d).1 < (marchDay e).1 ∨
      (marchDay d).1 = (marchDay e).1 ∧ (marchDay d).2 < (marchDay e).2 := by
  unfold marchDay
  dsimp only
  generalize hn : ((d + 719468) % 146097).toNat = n
  generalize hm : ((e + 719468) % 146097).toNat = m
  -- what the parts of two eras are, and of the parts of one era which comes first
  have hcentury := part_fst_le 36524 3
  have hleap := part_fst_le 1461 24
  have hyear := part_fst_le 365 3
  rcases lt_or_ge ((d + 719468) / 146097) ((e + 719468) / 146097) with hera | hera
  · have := hcentury n
    have := hleap (part 36524 3 n).2
    have := hyear (part 1461 24 (part 36524 3 n).2).2
    omega
  · have hlt : n < m := by omega
    rcases @part_lt 36524 3 n m hlt with hc | ⟨hc, hlt⟩
    · have := hleap (part 36524 3 n).2
      have := hyear (part 1461 24 (part 36524 3 n).2).2
      omega
    · rcases @part_lt 1461 24 _ _ hlt with hl | ⟨hl, hlt⟩
      · have := hyear (part 1461 24 (part 36524 3 n).2).2
        omega
      · rcases @part_lt 365 3 _ _ hlt with hy | ⟨hy, hlt⟩
        · omega
        · omega

theorem civil_lt {d e : Int} (h : d < e) :
    (civil d).1 < (civil e).1 ∨ (civil d).1 = (civil e).1 ∧
      ((civil d).2.1 < (civil e).2.1 ∨ (civil d).2.1 = (civil e).2.1 ∧
        (civil d).2.2 < (civil e).2.2) := by
  have hlt := marchDay_lt h
  have hd := marchDay_snd_lt d
  have he := marchDay_snd_lt e
  unfold civil
  dsimp only
  split <;> split <;> dsimp only <;> omega

theorem civil_bounds (d : Int) : (civil d).2.1 < 100 ∧ (civil d).2.2 < 100 := by
  have hd := marchDay_snd_lt d
  unfold civil
  dsimp only
  split <;> dsimp only <;> omega

/-! ## The order of texts -/

theorem fractionText_lt {n m : Nat} (h : n < m) (hm : m < 1000000000) :
    fractionText n ++ "+00:00".toList < fractionText m ++ "+00:00".toList := by
  have hm0 : m ≠ 0 := by omega
  have hplus : "+00:00".toList = '+' :: "00:00".toList := rfl
  rw [fractionText, fractionText, if_neg hm0, hplus]
  by_cases hn : n = 0
  · rw [if_pos hn]
    exact List.cons_lt_cons_iff.mpr (.inl (by decide))
  · rw [if_neg hn, List.cons_append, List.cons_append]
    exact List.cons_lt_cons_iff.mpr
      (.inr ⟨rfl, groups_append_lt (by decide) h (by omega) _⟩)

theorem cons_append_lt (c : Char) {w n m : Nat} (hm : m < 10 ^ w) {s t : List Char}
    (h : n < m ∨ n = m ∧ s < t) : c :: (digits w n ++ s) < c :: (digits w m ++ t) :=
  List.cons_lt_cons_iff.mpr (.inr ⟨rfl, digits_append_lt hm h⟩)

/-- The days, the time of the day and the rest of the second: the first that differs decides. -/
theorem instant_lt {t u : Int} (h : t < u) :
    daysOf t < daysOf u ∨ daysOf t = daysOf u ∧
      ((t / 1000000000 % 86400).toNat < (u / 1000000000 % 86400).toNat ∨
        (t / 1000000000 % 86400).toNat = (u / 1000000000 % 86400).toNat ∧
          (t % 1000000000).toNat < (u % 1000000000).toNat) := by
  unfold daysOf
  omega

/-- The days as year, month and day. -/
theorem date_lt {d e : Int} {later : Prop} (h : d < e ∨ d = e ∧ later)
    (hd : 0 ≤ (civil d).1) :
    (civil d).1.toNat < (civil e).1.toNat ∨ (civil d).1.toNat = (civil e).1.toNat ∧
      ((civil d).2.1 < (civil e).2.1 ∨ (civil d).2.1 = (civil e).2.1 ∧
        ((civil d).2.2 < (civil e).2.2 ∨ (civil d).2.2 = (civil e).2.2 ∧ later)) := by
  rcases h with h | ⟨rfl, h⟩
  · have := civil_lt h
    omega
  · exact .inr ⟨rfl, .inr ⟨rfl, .inr ⟨rfl, h⟩⟩⟩

/-- The time of the day as hours, minutes and seconds. -/
theorem ofDay_append_lt {a b n m : Nat} (hb : b < 86400) (hm : m < 1000000000)
    (h : a < b ∨ a = b ∧ n < m) :
    digits 2 (a / 3600) ++ ':' :: (digits 2 (a / 60 % 60) ++ ':' :: (digits 2 (a % 60) ++
        (fractionText n ++ "+00:00".toList))) <
      digits 2 (b / 3600) ++ ':' :: (digits 2 (b / 60 % 60) ++ ':' :: (digits 2 (b % 60) ++
        (fractionText m ++ "+00:00".toList))) := by
  have horder : a / 3600 < b / 3600 ∨ a / 3600 = b / 3600 ∧
      (a / 60 % 60 < b / 60 % 60 ∨ a / 60 % 60 = b / 60 % 60 ∧
        (a % 60 < b % 60 ∨ a % 60 = b % 60 ∧ n < m)) := by
    omega
  refine digits_append_lt (by omega) (horder.imp_right (And.imp_right fun hminute => ?_))
  refine cons_append_lt ':' (by omega) (hminute.imp_right (And.imp_right fun hsecond => ?_))
  refine cons_append_lt ':' (by omega) (hsecond.imp_right (And.imp_right fun hfraction => ?_))
  exact fractionText_lt hfraction hm

/-- The instants of the years from 0 to 9999. -/
def fourDigitYears : Set DateTime := {t | 0 ≤ (civil (daysOf t)).1 ∧ (civil (daysOf t)).1 ≤ 9999}

/-- **In the years from 0 to 9999 the texts are ordered as the instants.** -/
theorem sqliteText_strictMonoOn : StrictMonoOn sqliteText fourDigitYears := by
  rintro t ⟨ht0, ht⟩ u ⟨hu0, hu⟩ hlt
  obtain ⟨hmonth, hday⟩ := civil_bounds (daysOf u)
  unfold sqliteText yearText
  simp only [if_pos (And.intro ht0 ht), if_pos (And.intro hu0 hu), List.append_assoc,
    List.cons_append]
  have horder := date_lt (instant_lt hlt) ht0
  refine digits_append_lt (by omega) (horder.imp_right (And.imp_right fun hmonths => ?_))
  refine cons_append_lt '-' hmonth (hmonths.imp_right (And.imp_right fun hdays => ?_))
  refine cons_append_lt '-' hday (hdays.imp_right (And.imp_right fun htime => ?_))
  exact List.cons_lt_cons_iff.mpr
    (.inr ⟨rfl, ofDay_append_lt (by omega) (by omega) htime⟩)

end Forgeclaw.Store
