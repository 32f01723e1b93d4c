/-
  One page of a query: the rows that pass a filter, in the order of a key, up to a limit.

  * `select_of_sorted`: where the filtered rows stand in key order already, a page is a prefix
    of them;
  * `mem_select_iff`: a row is on the page iff fewer than `n` rows that pass the filter come
    before it;
  * `between_append_take`: a page read from where the last one ended continues it.
-/
import Mathlib

namespace Page

variable {α K : Type} [LinearOrder K]

/-- `ORDER BY key` -/
def orderBy (key : α → K) (rows : List α) : List α :=
  rows.insertionSort fun a b => key a ≤ key b

/-- `WHERE p ORDER BY key LIMIT n` -/
def select (p : α → Bool) (key : α → K) (n : Nat) (rows : List α) : List α :=
  (orderBy key (rows.filter p)).take n

/-! ## `ORDER BY` -/

theorem perm_orderBy (key : α → K) (rows : List α) : (orderBy key rows).Perm rows :=
  List.perm_insertionSort _ rows

@[simp] theorem mem_orderBy {key : α → K} {rows : List α} {e : α} :
    e ∈ orderBy key rows ↔ e ∈ rows := (perm_orderBy key rows).mem_iff

theorem orderBy_le (key : α → K) (rows : List α) :
    (orderBy key rows).Pairwise fun a b => key a ≤ key b := by
  have : Std.Total fun a b : α => key a ≤ key b := ⟨fun a b => le_total (key a) (key b)⟩
  have : IsTrans α fun a b => key a ≤ key b := ⟨fun _ _ _ => le_trans⟩
  exact List.pairwise_insertionSort _ rows

theorem orderBy_of_sorted {key : α → K} {rows : List α}
    (h : rows.Pairwise fun a b => key a ≤ key b) : orderBy key rows = rows :=
  h.insertionSort_eq

theorem orderBy_lt {key : α → K} {rows : List α}
    (h : rows.Pairwise fun a b => key a ≠ key b) :
    (orderBy key rows).Pairwise fun a b => key a < key b := by
  have hne : (orderBy key rows).Pairwise fun a b => key a ≠ key b :=
    ((perm_orderBy key rows).pairwise_iff fun {_ _} hab => hab.symm).mpr h
  exact (orderBy_le key rows).imp₂ (fun _ _ hle hne => lt_of_le_of_ne hle hne) hne

/-- Rows that are left out leave the order of the others alone. -/
theorem orderBy_filter {key : α → K} {rows : List α}
    (h : rows.Pairwise fun a b => key a ≠ key b) (p : α → Bool) :
    orderBy key (rows.filter p) = (orderBy key rows).filter p := by
  have hperm : (orderBy key (rows.filter p)).Perm ((orderBy key rows).filter p) :=
    (perm_orderBy key _).trans ((perm_orderBy key rows).filter p).symm
  exact hperm.eq_of_pairwise (fun a b _ _ hab hba => absurd hba (not_lt_of_gt hab))
    (orderBy_lt (h.filter p)) ((orderBy_lt h).filter p)

/-- Two orders in which one list is sorted are the same on it. -/
theorem lt_of_lt_of_sorted {L : Type} [LinearOrder L] {f : α → K} {g : α → L}
    {l : List α} (hf : l.Pairwise fun a b => f a < f b) (hg : l.Pairwise fun a b => g a < g b)
    {a b : α} (ha : a ∈ l) (hb : b ∈ l) (hlt : f a < f b) : g a < g b := by
  have hboth : l.Pairwise fun a b => (f a < f b → g a < g b) ∧ (f b < f a → g b < g a) :=
    hf.imp₂ (fun a b hfab hgab => ⟨fun _ => hgab, fun hba => absurd hba hfab.asymm⟩) hg
  have hne : a ≠ b := by
    rintro rfl
    exact lt_irrefl _ hlt
  have hsymm : Std.Symm fun a b => (f a < f b → g a < g b) ∧ (f b < f a → g b < g a) :=
    ⟨fun _ _ h => ⟨h.2, h.1⟩⟩
  exact (hboth.forall ha hb hne).1 hlt

/-! ## Pages -/

theorem select_of_sorted {key : α → K} {rows : List α} {p : α → Bool}
    (h : (rows.filter p).Pairwise fun a b => key a ≤ key b) (n : Nat) :
    select p key n rows = (rows.filter p).take n := by
  rw [select, orderBy_of_sorted h]

/-- How many of the elements are before `e`. -/
def before (key : α → K) (e : α) (l : List α) : Nat := l.countP fun a => key a < key e

theorem before_perm {key : α → K} {e : α} {l l' : List α} (h : l.Perm l') :
    before key e l = before key e l' := h.countP_eq _

/-- In a strictly sorted list an element stands where its predecessors put it. -/
theorem mem_take_of_sorted {key : α → K} {l : List α}
    (h : l.Pairwise fun a b => key a < key b) {e : α} (he : e ∈ l) (n : Nat) :
    e ∈ l.take n ↔ before key e l < n := by
  induction l generalizing n with
  | nil => simp at he
  | cons a l ih =>
    obtain ⟨ha, hl⟩ := List.pairwise_cons.mp h
    cases n with
    | zero => simp
    | succ n =>
      rw [List.take_succ_cons, List.mem_cons, before, List.countP_cons]
      rcases List.mem_cons.mp he with rfl | he
      · have hzero : l.countP (fun a => key a < key e) = 0 :=
          List.countP_eq_zero.mpr fun b hb => by simpa using (ha b hb).le
        simp [hzero]
      · have hlt := ha e he
        have hne : e ≠ a := by
          rintro rfl
          exact lt_irrefl _ hlt
        have := ih hl he n
        rw [before] at this
        simp [hne, hlt, this]

/-- **Which rows a page shows.** -/
theorem mem_select_iff {key : α → K} {rows : List α}
    (h : rows.Pairwise fun a b => key a ≠ key b) (p : α → Bool) (n : Nat) (e : α) :
    e ∈ select p key n rows ↔
      e ∈ rows ∧ p e = true ∧ before key e (rows.filter p) < n := by
  have hsorted := orderBy_lt (h.filter p)
  rw [select, ← and_assoc, ← List.mem_filter]
  constructor
  · intro he
    have hmem : e ∈ orderBy key (rows.filter p) := List.mem_of_mem_take he
    refine ⟨mem_orderBy.mp hmem, ?_⟩
    rw [← before_perm (perm_orderBy key (rows.filter p))]
    exact (mem_take_of_sorted hsorted hmem n).mp he
  · rintro ⟨hmem, hlt⟩
    rw [← before_perm (perm_orderBy key (rows.filter p))] at hlt
    exact (mem_take_of_sorted hsorted (mem_orderBy.mpr hmem) n).mpr hlt

omit [LinearOrder K] in
/-- Without the rows of its first page, a list is what comes after that page. -/
theorem filter_not_mem_take [DecidableEq K] {key : α → K} {l : List α}
    (h : (l.map key).Nodup) (n : Nat) :
    (l.filter fun a => key a ∉ (l.take n).map key) = l.drop n := by
  have hsplit := List.take_append_drop n l
  rw [← hsplit, List.map_append, List.nodup_append] at h
  conv_lhs => arg 2; rw [← hsplit]
  have htake : ((l.take n).filter fun a => key a ∉ (l.take n).map key) = [] :=
    List.filter_eq_nil_iff.mpr fun a ha hout =>
      of_decide_eq_true hout (List.mem_map_of_mem ha)
  have hdrop : ((l.drop n).filter fun a => key a ∉ (l.take n).map key) = l.drop n :=
    List.filter_eq_self.mpr fun a ha => decide_eq_true fun hin =>
      h.2.2 _ hin _ (List.mem_map_of_mem ha) rfl
  rw [List.filter_append, htake, hdrop, List.nil_append]

/-! ## Decoding a page -/

theorem mapM_eq_ok_iff {β ε : Type} {f : α → Except ε β} {l : List α} {l' : List β} :
    l.mapM f = .ok l' ↔ List.Forall₂ (fun a b => f a = .ok b) l l' := by
  induction l generalizing l' with
  | nil => cases l' <;> simp [pure, Except.pure]
  | cons a l ih =>
    rw [List.mapM_cons]
    cases hf : f a with
    | error e => cases l' <;> simp [bind, Except.bind, hf]
    | ok b =>
      cases hm : l.mapM f with
      | error e => cases l' <;> simp [bind, Except.bind, ← ih, hm, hf]
      | ok bs => cases l' <;> simp [bind, Except.bind, pure, Except.pure, ← ih, hm, hf]

theorem exists_forall₂ {β : Type} {R : α → β → Prop} {l : List α} (h : ∀ a ∈ l, ∃ b, R a b) :
    ∃ l', List.Forall₂ R l l' := by
  induction l with
  | nil => exact ⟨[], .nil⟩
  | cons a l ih =>
    obtain ⟨b, hb⟩ := h a (by simp)
    obtain ⟨l', hl'⟩ := ih fun a ha => h a (by simp [ha])
    exact ⟨b :: l', .cons hb hl'⟩

theorem getElem?_of_forall₂ {β : Type} {R : α → β → Prop} {l : List α} {l' : List β}
    (h : List.Forall₂ R l l') {n : Nat} {b : β} (hb : l'[n]? = some b) :
    ∃ a, l[n]? = some a ∧ R a b := by
  induction h generalizing n with
  | nil => simp at hb
  | cons hab _ ih =>
    cases n with
    | zero =>
      obtain rfl := Option.some.inj hb
      exact ⟨_, rfl, hab⟩
    | succ n => exact ih hb

theorem map_eq_map_of_forall₂ {β γ : Type} {f : α → γ} {g : β → γ} {l : List α} {l' : List β}
    (h : List.Forall₂ (fun a b => f a = g b) l l') : l.map f = l'.map g := by
  have := List.forall₂_map_left_iff.mpr (List.forall₂_map_right_iff.mpr h)
  rwa [List.forall₂_eq_eq_eq] at this

/-! ## Reading on -/

/-- Where a page ends: at its last row's key, or where it began. -/
def reach (key : α → K) (low : K) (page : List α) : K :=
  match page.getLast? with
  | some a => key a
  | none => low

/-- The rows above `low`, up to `high`. -/
def between (key : α → K) (low high : K) (l : List α) : List α :=
  l.filter fun a => decide (low < key a) && decide (key a ≤ high)

theorem mem_between {key : α → K} {low high : K} {l : List α} {a : α} :
    a ∈ between key low high l ↔ a ∈ l ∧ low < key a ∧ key a ≤ high := by
  simp [between]

theorem between_append (key : α → K) (low high : K) (l l' : List α) :
    between key low high (l ++ l') = between key low high l ++ between key low high l' :=
  List.filter_append ..

omit [LinearOrder K] in
theorem reach_mem (key : α → K) (low : K) (page : List α) :
    (page = [] ∧ reach key low page = low) ∨ ∃ a ∈ page, reach key low page = key a := by
  rcases List.eq_nil_or_concat page with rfl | ⟨l, a, rfl⟩
  · exact .inl ⟨rfl, rfl⟩
  · exact .inr ⟨a, by simp, by simp [reach]⟩

omit [LinearOrder K] in
theorem reach_append (key : α → K) (low : K) (page page' : List α) :
    reach key low (page ++ page') = reach key (reach key low page) page' := by
  rcases List.eq_nil_or_concat page' with rfl | ⟨l, a, rfl⟩
  · simp [reach]
  · simp [reach, ← List.append_assoc]

/-- In a sorted list nothing is above the last row. -/
theorem le_reach {key : α → K} {low : K} {page : List α}
    (h : page.Pairwise fun a b => key a < key b) {a : α} (ha : a ∈ page) :
    key a ≤ reach key low page := by
  rcases List.eq_nil_or_concat page with rfl | ⟨l, b, rfl⟩
  · simp at ha
  · have hreach : reach key low (l ++ [b]) = key b := by simp [reach]
    rw [List.concat_eq_append] at h ha
    rw [List.concat_eq_append, hreach]
    rcases List.mem_append.mp ha with ha | ha
    · exact ((List.pairwise_append.mp h).2.2 a ha b (by simp)).le
    · rw [List.mem_singleton.mp ha]

theorem low_le_reach {key : α → K} {low : K} {page : List α} (h : ∀ a ∈ page, low < key a) :
    low ≤ reach key low page := by
  rcases reach_mem key low page with ⟨-, he⟩ | ⟨a, ha, he⟩
  · exact he.ge
  · exact he ▸ (h a ha).le

/-- The first rows above `low` are those up to where they end. -/
theorem take_eq_between {key : α → K} {low : K} {l : List α}
    (h : l.Pairwise fun a b => key a < key b) (hlow : ∀ a ∈ l, low < key a) (n : Nat) :
    l.take n = between key low (reach key low (l.take n)) l := by
  have htake : (l.take n).Pairwise fun a b => key a < key b := h.sublist (List.take_sublist n l)
  have hsplit : ∀ a ∈ l.drop n, ¬ key a ≤ reach key low (l.take n) := by
    intro a ha
    rw [← List.take_append_drop n l] at h
    rcases reach_mem key low (l.take n) with ⟨-, he⟩ | ⟨b, hb, he⟩
    · rw [he]
      exact not_le_of_gt (hlow a (List.mem_of_mem_drop ha))
    · rw [he]
      exact not_le_of_gt ((List.pairwise_append.mp h).2.2 b hb a ha)
  have hself : between key low (reach key low (l.take n)) (l.take n) = l.take n := by
    refine List.filter_eq_self.mpr fun a ha => ?_
    simp [hlow a (List.mem_of_mem_take ha), le_reach htake ha]
  have hnil : between key low (reach key low (l.take n)) (l.drop n) = [] := by
    refine List.filter_eq_nil_iff.mpr fun a ha => ?_
    simp [hsplit a ha]
  calc l.take n
      = between key low (reach key low (l.take n)) (l.take n ++ l.drop n) := by
        rw [between_append, hself, hnil, List.append_nil]
    _ = between key low (reach key low (l.take n)) l := by rw [List.take_append_drop]

omit [LinearOrder K] in
/-- In an ordered list, what stands first and what stands after it add up. -/
theorem filter_append_filter {r : α → α → Prop} {p q s : α → Bool} {l : List α}
    (h : l.Pairwise r) (hlater : ∀ a b, r a b → q a = true → p b = false)
    (hdisjoint : ∀ a, q a = true → p a = false) (hs : ∀ a, s a = (p a || q a)) :
    l.filter p ++ l.filter q = l.filter s := by
  induction l with
  | nil => rfl
  | cons a l ih =>
    obtain ⟨ha, hl⟩ := List.pairwise_cons.mp h
    have ih := ih hl
    cases hq : q a with
    | true =>
      have hnil : l.filter p = [] :=
        List.filter_eq_nil_iff.mpr fun b hb => by simp [hlater a b (ha b hb) hq]
      rw [hnil, List.nil_append] at ih
      simp [hdisjoint a hq, hq, hs a, hnil, ih]
    | false =>
      cases hp : p a with
      | true => simp [hp, hq, hs a, ih]
      | false => simp [hp, hq, hs a, ih]

theorem between_append_between {key : α → K} {low mid high : K} {l : List α}
    (h : l.Pairwise fun a b => key a < key b) (h₁ : low ≤ mid) (h₂ : mid ≤ high) :
    between key low mid l ++ between key mid high l = between key low high l := by
  apply filter_append_filter h
  · intro a b hab hq
    simp only [Bool.and_eq_true, decide_eq_true_eq] at hq
    simp [not_le_of_gt (hq.1.trans hab)]
  · intro a hq
    simp only [Bool.and_eq_true, decide_eq_true_eq] at hq
    simp [not_le_of_gt hq.1]
  · intro a
    rcases le_or_gt (key a) mid with hle | hgt
    · simp [hle, hle.trans h₂, not_lt_of_ge hle]
    · simp [not_le_of_gt hgt, hgt, h₁.trans_lt hgt]

/-- What was read and what is left make up everything above `low`. -/
theorem between_append_above {key : α → K} {low mid : K} {l : List α}
    (h : l.Pairwise fun a b => key a < key b) (hmid : low ≤ mid) :
    between key low mid l ++ (l.filter fun a => decide (mid < key a))
      = l.filter fun a => decide (low < key a) := by
  apply filter_append_filter h
  · intro a b hab hq
    simp [not_le_of_gt ((of_decide_eq_true hq).trans hab)]
  · intro a hq
    simp [not_le_of_gt (of_decide_eq_true hq)]
  · intro a
    rcases le_or_gt (key a) mid with hle | hgt
    · simp [hle, not_lt_of_ge hle]
    · simp [hgt, hmid.trans_lt hgt]

/-- **A page continues what was read before it.** -/
theorem between_append_take {key : α → K} {low mid : K} {l : List α}
    (h : l.Pairwise fun a b => key a < key b) (hmid : low ≤ mid) (n : Nat) :
    between key low mid l ++ (l.filter fun a => decide (mid < key a)).take n
      = between key low
          (reach key mid ((l.filter fun a => decide (mid < key a)).take n)) l := by
  have habove : ∀ a ∈ l.filter fun a => decide (mid < key a), mid < key a := by simp
  have hreach : mid ≤ reach key mid ((l.filter fun a => decide (mid < key a)).take n) :=
    low_le_reach fun a ha => habove a (List.mem_of_mem_take ha)
  rw [← between_append_between h hmid hreach]
  refine congrArg _ ((take_eq_between (h.filter _) habove n).trans ?_)
  unfold between
  rw [List.filter_filter]
  refine List.filter_congr fun a _ => ?_
  cases decide (mid < key a) <;> simp

end Page
