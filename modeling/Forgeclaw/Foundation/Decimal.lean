/-
  Decimal numbers as text of a fixed width, and the order of such texts.

  * `digits_append_lt`: where texts begin with numbers of one width, these come first in the
    order, and then what follows them;
  * `groups_append_lt`: the same for numbers behind a point, which leave out groups of zeros at
    their end.
-/
import Mathlib

namespace Decimal

def digit (n : Nat) : Char := Char.ofNat (48 + n % 10)

/-- The last `w` digits of a number. -/
def digits : Nat → Nat → List Char
  | 0, _ => []
  | w + 1, n => digits w (n / 10) ++ [digit n]

/-- The `k` last groups of three digits, up to the last one that is not zero. -/
def groups : Nat → Nat → List Char
  | 0, _ => []
  | k + 1, n => if n = 0 then [] else digits 3 (n / 1000 ^ k) ++ groups k (n % 1000 ^ k)

/-! ## The order of texts -/

theorem append_lt_append {α : Type} [LT α] {a b : List α} (hlen : a.length = b.length)
    (h : a < b) (c d : List α) : a ++ c < b ++ d := by
  induction a generalizing b with
  | nil =>
    obtain rfl : b = [] := List.eq_nil_of_length_eq_zero hlen.symm
    exact absurd h (List.not_lt_nil [])
  | cons x a ih =>
    obtain ⟨y, b, rfl⟩ := List.exists_cons_of_length_eq_add_one hlen.symm
    rw [List.cons_lt_cons_iff] at h
    rw [List.cons_append, List.cons_append, List.cons_lt_cons_iff]
    exact h.imp_right fun ⟨hxy, hab⟩ => ⟨hxy, ih (by simpa using hlen) hab⟩

theorem toNat_digit (n : Nat) : (digit n).toNat = 48 + n % 10 := by
  have hvalid : (48 + n % 10).isValidChar := .inl (by omega)
  rw [digit, Char.ofNat, dif_pos hvalid]
  rfl

theorem digit_inj {n m : Nat} (h : digit n = digit m) : n % 10 = m % 10 := by
  have hcode := congrArg Char.toNat h
  rw [toNat_digit, toNat_digit] at hcode
  omega

theorem digit_lt {n m : Nat} (h : n % 10 < m % 10) : digit n < digit m := by
  rw [Char.lt_def, UInt32.lt_iff_toNat_lt]
  change (digit n).toNat < (digit m).toNat
  rw [toNat_digit, toNat_digit]
  omega

theorem lt_digit {c : Char} (h : c < '0') (n : Nat) : c < digit n := by
  rw [Char.lt_def, UInt32.lt_iff_toNat_lt] at h ⊢
  change c.toNat < 48 at h
  change c.toNat < (digit n).toNat
  rw [toNat_digit]
  omega

@[simp] theorem length_digits (w n : Nat) : (digits w n).length = w := by
  induction w generalizing n with
  | zero => rfl
  | succ w ih => simp [digits, ih]

/-! ## Numbers in the order of texts -/

theorem digits_lt {w n m : Nat} (h : n < m) (hm : m < 10 ^ w) : digits w n < digits w m := by
  induction w generalizing n m with
  | zero => omega
  | succ w ih =>
    rw [pow_succ] at hm
    rcases (Nat.div_le_div_right (c := 10) h.le).lt_or_eq with hlt | heq
    · exact append_lt_append (by simp) (ih hlt (by omega)) _ _
    · rw [digits, digits, heq]
      refine List.append_left_lt (List.cons_lt_cons_iff.mpr (.inl (digit_lt ?_)))
      omega

/-- The numbers decide, or what follows them. -/
theorem digits_append_lt {w n m : Nat} (hm : m < 10 ^ w) {c d : List Char}
    (h : n < m ∨ n = m ∧ c < d) : digits w n ++ c < digits w m ++ d := by
  rcases h with h | ⟨rfl, h⟩
  · exact append_lt_append (by simp) (digits_lt h hm) c d
  · exact List.append_left_lt h

theorem lt_digits_append {c : Char} (hc : c < '0') (w n : Nat) (s d : List Char) :
    c :: s < digits (w + 1) n ++ d := by
  induction w generalizing n d with
  | zero => exact List.cons_lt_cons_iff.mpr (.inl (lt_digit hc n))
  | succ w ih =>
    rw [digits, List.append_assoc]
    exact ih (n / 10) _

theorem groups_append_lt {c : Char} (hc : c < '0') {k n m : Nat} (h : n < m)
    (hm : m < 1000 ^ k) (s : List Char) : groups k n ++ c :: s < groups k m ++ c :: s := by
  induction k generalizing n m with
  | zero => omega
  | succ k ih =>
    have hpos : 0 < 1000 ^ k := by positivity
    have hm0 : m ≠ 0 := by omega
    rw [groups, groups, if_neg hm0, List.append_assoc]
    by_cases hn : n = 0
    · rw [if_pos hn]
      exact lt_digits_append hc 2 _ s _
    · rw [if_neg hn, List.append_assoc]
      have hupper : m / 1000 ^ k < 10 ^ 3 := by
        rw [Nat.div_lt_iff_lt_mul hpos]
        rwa [pow_succ, mul_comm] at hm
      refine digits_append_lt hupper ?_
      rcases (Nat.div_le_div_right (c := 1000 ^ k) h.le).lt_or_eq with hlt | heq
      · exact .inl hlt
      · refine .inr ⟨heq, ih ?_ (Nat.mod_lt m hpos)⟩
        have hn' := Nat.div_add_mod n (1000 ^ k)
        have hm' := Nat.div_add_mod m (1000 ^ k)
        rw [heq] at hn'
        omega

end Decimal
