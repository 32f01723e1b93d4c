/-
  What a redaction makes of a block that stands directly behind a pattern.

  `a ++ p ++ X ++ x :: b` is a text in which the block `X` follows the pattern `p` and ends at
  the delimiter `x`. The block's elements are such that no pattern can end in it (`Inert`).
  * `redact_middle`: without an end element the block has no influence on the result.
  * `redact_leak`: with an end element, the block is kept from its first one on.
  * `count_redact_middle_le`: the delimiter of a block that is hidden is hidden too, so the
    two kinds of results differ (`redact_leak_ne`).
  * `redact_block_iff`: two blocks give the same result exactly when they agree from their
    first end elements on.
-/
import Forgeclaw.Foundation.SpanRedact

namespace SpanRedact.Redactor

open Search

variable {α : Type} [DecidableEq α] {R : Redactor α}

/-- No pattern ends in the block. -/
def Inert (R : Redactor α) (X : List α) : Prop :=
  ∀ p ∈ R.pats, ∀ z, p.getLast? = some z → z ∉ X

theorem Inert.findSub_append {X : List α} (hX : R.Inert X) {p : List α} (hp : p ∈ R.pats)
    (A : List α) : findSub p (A ++ X) = findSub p A :=
  findSub_append_right (List.getLast?_eq_some_getLast (pat_ne_nil hp))
    (hX p hp _ (List.getLast?_eq_some_getLast (pat_ne_nil hp)))

theorem Inert.findSub_eq_none {X : List α} (hX : R.Inert X) {p : List α} (hp : p ∈ R.pats) :
    findSub p X = none := by
  have h := hX.findSub_append hp []
  rw [List.nil_append] at h
  rw [h, findSub_eq_none_iff, List.infix_nil]
  exact pat_ne_nil hp

/-- The delimiter of a block: an element of no pattern, not an end element. -/
structure Delim (R : Redactor α) (x : α) : Prop where
  isEnd : R.isEnd x = false
  not_mem : ∀ p ∈ R.pats, x ∉ p

/-! ## Text in front that no pattern reads -/

theorem redactLoop_append_left {p : List α} (hp : p ∈ R.pats) {x : α} (hx : R.Delim x)
    {Y : List α} (hY : R.Inert Y) (b : List α) :
    R.redactLoop p hp (Y ++ x :: b) = Y ++ x :: R.redactLoop p hp b := by
  induction hn : R.weight b using Nat.strong_induction_on generalizing b with
  | _ n ih =>
    have hfind : findSub p (Y ++ x :: b) = (findSub p b).map (· + (Y.length + 1)) := by
      rw [findSub_append_sep (pat_ne_nil hp) (hx.not_mem p hp), hY.findSub_eq_none hp]
      rfl
    cases hb : findSub p b with
    | none =>
      rw [redactLoop_of_findSub_none hp hb,
        redactLoop_of_findSub_none hp (by rw [hfind, hb]; rfl)]
    | some j =>
      have htake : (Y ++ x :: b).take (j + (Y.length + 1)) = Y ++ x :: b.take j := by
        rw [List.take_append, List.take_of_length_le (by omega)]
        simp [show j + (Y.length + 1) - Y.length = j + 1 by omega]
      have hdrop : (Y ++ x :: b).drop (j + (Y.length + 1)) = b.drop j := by
        rw [List.drop_append, List.drop_of_length_le (by omega)]
        simp [show j + (Y.length + 1) - Y.length = j + 1 by omega]
      have hturn : R.redactOnce p b = some (b.take j ++ R.mark ++ R.skip (b.drop j)) := by
        rw [redactOnce_eq, hb]
        rfl
      have hturn' : R.redactOnce p (Y ++ x :: b) =
          some (Y ++ x :: (b.take j ++ R.mark ++ R.skip (b.drop j))) := by
        rw [redactOnce_eq, hfind, hb]
        simp [htake, hdrop]
      rw [redactLoop_some hp hturn, redactLoop_some hp hturn']
      exact ih _ (hn ▸ weight_lt_of_redactOnce hp hturn) _ rfl

theorem redact_append_left {x : α} (hx : R.Delim x) {Y : List α} (hY : R.Inert Y)
    (b : List α) : R.redact (Y ++ x :: b) = Y ++ x :: R.redact b := by
  unfold redact
  induction R.pats.attach generalizing b with
  | nil => rfl
  | cons p ps ih => rw [List.foldl_cons, List.foldl_cons, redactLoop_append_left p.2 hx hY, ih]

/-! ## Two runs of the cuts -/

/-- Two runs of the cuts stay related when each cut keeps the relation. -/
theorem cutAll_rel {S : List α × Nat → List α × Nat → Prop} {u v : List α}
    (h0 : S (u, 0) (v, 0))
    (hstep : ∀ p ∈ R.pats, ∀ k m, S k m → S (cut p k) (cut p m)) :
    S (R.cutAll u) (R.cutAll v) := by
  have key : ∀ (ps : List (List α)), (∀ p ∈ ps, p ∈ R.pats) → ∀ k m, S k m →
      S (ps.foldl (fun kn p => cut p kn) k) (ps.foldl (fun kn p => cut p kn) m) := by
    intro ps
    induction ps with
    | nil => exact fun _ _ _ h => h
    | cons p ps ih =>
      intro hps k m h
      exact ih (fun q hq => hps q (by simp [hq])) _ _ (hstep p (hps p (by simp)) k m h)
  exact key R.pats (fun _ h => h) _ _ h0

/-- What is left after all cuts does not contain a text in which a pattern occurs. -/
theorem cutAll_not_isPrefix {p w v : List α} (hp : p ∈ R.pats) (hw : p <:+: w) :
    ¬ w <+: (R.cutAll v).1 := fun h =>
  findSub_eq_none_iff.mp ((cutAll_spec v).2.1 p hp) (hw.trans h.isInfix)

theorem cut_append_inert {p : List α} (hp : p ∈ R.pats) {X : List α} (hX : R.Inert X)
    (w : List α) (n : Nat) :
    cut p (w ++ X, n) = cut p (w, n) ∨ cut p (w ++ X, n) = (w ++ X, n) ∧ cut p (w, n) = (w, n) := by
  unfold cut
  simp only [hX.findSub_append hp]
  cases h : findSub p w with
  | none => exact Or.inr ⟨rfl, rfl⟩
  | some i =>
    left
    simp [List.take_append_of_le_length (findSub_some h).1]

/-- A block behind a pattern, up to the end of the text. -/
theorem cutAll_append_inert {p w X : List α} (hp : p ∈ R.pats) (hw : p <:+: w)
    (hX : R.Inert X) : R.cutAll (w ++ X) = R.cutAll w := by
  have h := cutAll_rel (R := R)
    (S := fun k m => k = m ∨ ∃ n, k = (w ++ X, n) ∧ m = (w, n)) (Or.inr ⟨0, rfl, rfl⟩) ?_
  · rcases h with h | ⟨n, _, h⟩
    · exact h
    · exact absurd (by rw [h]) (cutAll_not_isPrefix (v := w) hp hw)
  · rintro q hq k m (rfl | ⟨n, rfl, rfl⟩)
    · exact Or.inl rfl
    · rcases cut_append_inert hq hX w n with h | ⟨h1, h2⟩
      · exact Or.inl h
      · exact Or.inr ⟨n, h1, h2⟩

/-- What a cut does behind the block: nothing, or the same on both sides of the delimiter. -/
theorem cut_append_delim {p : List α} (hp : p ∈ R.pats) {x : α} (hx : R.Delim x)
    {X : List α} (hX : R.Inert X) (w B : List α) (n : Nat) :
    (∃ i, findSub p w = some i ∧ cut p (w ++ X ++ x :: B, n) = (w.take i, n + 1)) ∨
      findSub p w = none ∧ cut p (w ++ X ++ x :: B, n) =
        (w ++ X ++ x :: (cut p (B, n)).1, (cut p (B, n)).2) := by
  have hfind : findSub p (w ++ X ++ x :: B) =
      (findSub p w).or ((findSub p B).map (· + ((w ++ X).length + 1))) := by
    rw [findSub_append_sep (pat_ne_nil hp) (hx.not_mem p hp), hX.findSub_append hp]
  unfold cut
  rw [hfind]
  cases hw : findSub p w with
  | some i =>
    left
    refine ⟨i, rfl, ?_⟩
    simp only [Option.some_or]
    rw [List.append_assoc, List.take_append_of_le_length (findSub_some hw).1]
  | none =>
    right
    refine ⟨rfl, ?_⟩
    cases hB : findSub p B with
    | none => simp
    | some j =>
      simp only [Option.none_or, Option.map_some]
      rw [List.take_append, List.take_of_length_le (by omega)]
      rw [show j + ((w ++ X).length + 1) - (w ++ X).length = j + 1 by omega,
        List.take_succ_cons]

/-- A block behind a pattern, up to a delimiter: the cuts do not depend on it. -/
theorem cutAll_middle {p w X Y : List α} {x : α} (hp : p ∈ R.pats) (hw : p <:+: w)
    (hx : R.Delim x) (hX : R.Inert X) (hY : R.Inert Y) (B : List α) :
    R.cutAll (w ++ X ++ x :: B) = R.cutAll (w ++ Y ++ x :: B) := by
  have h := cutAll_rel (R := R)
    (S := fun k m => k = m ∨
      ∃ B n, k = (w ++ X ++ x :: B, n) ∧ m = (w ++ Y ++ x :: B, n)) (Or.inr ⟨B, 0, rfl, rfl⟩) ?_
  · rcases h with h | ⟨B', n, h, _⟩
    · exact h
    · refine absurd ?_ (cutAll_not_isPrefix (v := w ++ X ++ x :: B) hp hw)
      rw [h, List.append_assoc]
      exact List.prefix_append _ _
  · rintro q hq k m (rfl | ⟨B', n, rfl, rfl⟩)
    · exact Or.inl rfl
    · rcases cut_append_delim hq hx hX w B' n with ⟨i, hi, h1⟩ | ⟨hn, h1⟩ <;>
        rcases cut_append_delim hq hx hY w B' n with ⟨j, hj, h2⟩ | ⟨hn', h2⟩
      · rw [hi] at hj
        obtain rfl := Option.some.inj hj
        exact Or.inl (h1.trans h2.symm)
      · simp [hi] at hn'
      · simp [hj] at hn
      · exact Or.inr ⟨_, _, h1, h2⟩

/-- What is kept in front of a pattern does not depend on what follows a delimiter. -/
theorem cutAll_append_delim_fst {p w : List α} {x : α} (hp : p ∈ R.pats) (hw : p <:+: w)
    (hx : R.Delim x) (B : List α) : (R.cutAll (w ++ x :: B)).1 = (R.cutAll w).1 := by
  have hnil : R.Inert [] := fun _ _ _ _ h => by simp at h
  have h := cutAll_rel (R := R)
    (S := fun k m => k.1 = m.1 ∨ ∃ B n n', k = (w ++ x :: B, n) ∧ m = (w, n'))
    (Or.inr ⟨B, 0, 0, rfl, rfl⟩) ?_
  · rcases h with h | ⟨B', n, n', _, h⟩
    · exact h
    · exact absurd (by rw [h]) (cutAll_not_isPrefix (v := w) hp hw)
  · rintro q hq k m (h | ⟨B', n, n', rfl, rfl⟩)
    · left
      unfold cut
      rw [h]
      cases findSub q m.1 with
      | none => exact h
      | some i => rfl
    · have hcut := cut_append_delim hq hx hnil w B' n
      rw [List.append_nil] at hcut
      rcases hcut with ⟨i, hi, h1⟩ | ⟨hn, h1⟩
      · left
        rw [h1]
        unfold cut
        rw [hi]
      · right
        refine ⟨_, _, n', h1, ?_⟩
        unfold cut
        rw [hn]

/-! ## Two runs of the redaction -/

theorem redact_append_inert {a p X : List α} (hp : p ∈ R.pats) (hX : R.Inert X)
    (hXo : R.IsOpen X) : R.redact (a ++ p ++ X) = R.redact (a ++ p) := by
  refine span_induction (R := R) (P := fun a => R.redact (a ++ p ++ X) = R.redact (a ++ p))
    ?_ ?_ a
  · intro w hw
    have hwp : R.IsOpen (w ++ p) := isOpen_append.mpr ⟨hw, isOpen_pat hp⟩
    rw [redact_open (isOpen_append.mpr ⟨hwp, hXo⟩), redact_open hwp,
      cutAll_append_inert hp (List.suffix_append w p).isInfix hX]
  · intro w t rest _ ht ih
    simp only [List.append_assoc, List.cons_append] at ih ⊢
    rw [redact_append_end ht, redact_append_end ht, ih]

/-- A block behind a pattern has no influence on the result, when it has no end element. -/
theorem redact_middle {a p X Y b : List α} {x : α} (hp : p ∈ R.pats) (hx : R.Delim x)
    (hX : R.Inert X) (hXo : R.IsOpen X) (hY : R.Inert Y) (hYo : R.IsOpen Y) :
    R.redact (a ++ p ++ X ++ x :: b) = R.redact (a ++ p ++ Y ++ x :: b) := by
  refine span_induction (R := R)
    (P := fun a => R.redact (a ++ p ++ X ++ x :: b) = R.redact (a ++ p ++ Y ++ x :: b)) ?_ ?_ a
  · intro w hw
    have hwp : R.IsOpen (w ++ p) := isOpen_append.mpr ⟨hw, isOpen_pat hp⟩
    have hopen : ∀ Z v, R.IsOpen Z → R.IsOpen v → R.IsOpen (w ++ p ++ Z ++ x :: v) :=
      fun Z v hZ hv => isOpen_append.mpr
        ⟨isOpen_append.mpr ⟨hwp, hZ⟩, by simpa [IsOpen, hx.isEnd] using hv⟩
    have hbase : ∀ v, R.IsOpen v →
        R.redact (w ++ p ++ X ++ x :: v) = R.redact (w ++ p ++ Y ++ x :: v) := by
      intro v hv
      rw [redact_open (hopen X v hXo hv), redact_open (hopen Y v hYo hv),
        cutAll_middle hp (List.suffix_append w p).isInfix hx hX hY]
    refine span_induction (R := R) (P := fun b => R.redact (w ++ p ++ X ++ x :: b) =
      R.redact (w ++ p ++ Y ++ x :: b)) hbase ?_ b
    intro v t rest hv ht _
    rw [← List.cons_append, ← List.append_assoc, ← List.append_assoc, redact_append_end ht,
      redact_append_end ht, hbase v hv]
  · intro w t rest _ ht ih
    simp only [List.append_assoc, List.cons_append] at ih ⊢
    rw [redact_append_end ht, redact_append_end ht, ih]

/-- From its first end element on, a block behind a pattern is kept. -/
theorem redact_leak {a p X Y b : List α} {t x : α} (hp : p ∈ R.pats) (hx : R.Delim x)
    (ht : R.isEnd t = true) (hXo : R.IsOpen X) (hXY : R.Inert (X ++ t :: Y)) :
    R.redact (a ++ p ++ (X ++ t :: Y) ++ x :: b) =
      R.redact (a ++ p) ++ t :: Y ++ x :: R.redact b := by
  have hX : R.Inert X := fun q hq z hz h => hXY q hq z hz (by simp [h])
  have hY : R.Inert Y := fun q hq z hz h => hXY q hq z hz (by simp [h])
  have happ : a ++ p ++ (X ++ t :: Y) ++ x :: b = (a ++ p ++ X) ++ t :: (Y ++ x :: b) := by simp
  rw [happ, redact_append_end ht, redact_append_inert hp hX hXo, redact_append_left hx hY]
  simp

theorem count_tailMarks {x : α} (hx : R.Delim x) (hmark : x ∉ R.stem) (n : Nat) :
    (R.tailMarks n).count x = 0 := by
  have hclose : x ≠ R.close := by
    rintro rfl
    exact absurd hx.isEnd (by simp [R.isEnd_close])
  cases n with
  | zero => rfl
  | succ n =>
    simp [tailMarks, List.count_eq_zero_of_not_mem hmark, List.count_replicate, hclose.symm]

/-- The delimiter behind a pattern is hidden with the block before it. -/
theorem count_redact_middle_le {a p b : List α} {x : α} (hp : p ∈ R.pats) (hx : R.Delim x)
    (hmark : x ∉ R.stem) :
    (R.redact (a ++ p ++ x :: b)).count x ≤
      (R.redact (a ++ p)).count x + (R.redact b).count x := by
  refine span_induction (R := R) (P := fun a => (R.redact (a ++ p ++ x :: b)).count x ≤
    (R.redact (a ++ p)).count x + (R.redact b).count x) ?_ ?_ a
  · intro w hw
    have hwp : R.IsOpen (w ++ p) := isOpen_append.mpr ⟨hw, isOpen_pat hp⟩
    have hbase : ∀ v, R.IsOpen v →
        (R.redact (w ++ p ++ x :: v)).count x ≤ (R.redact (w ++ p)).count x := by
      intro v hv
      rw [redact_open (isOpen_append.mpr ⟨hwp, by simpa [IsOpen, hx.isEnd] using hv⟩),
        redact_open hwp, List.count_append, List.count_append, count_tailMarks hx hmark,
        count_tailMarks hx hmark, cutAll_append_delim_fst hp (List.suffix_append w p).isInfix hx]
    refine span_induction (R := R) (P := fun b => (R.redact (w ++ p ++ x :: b)).count x ≤
      (R.redact (w ++ p)).count x + (R.redact b).count x) ?_ ?_ b
    · intro v hv
      have := hbase v hv
      omega
    · intro v t rest hv ht _
      have := hbase v hv
      rw [← List.cons_append, ← List.append_assoc, redact_append_end ht, redact_append_end ht]
      simp only [List.count_append]
      omega
  · intro w t rest _ ht ih
    simp only [List.append_assoc, List.cons_append] at ih ⊢
    rw [redact_append_end ht, redact_append_end ht]
    simp only [List.count_append, List.count_cons] at ih ⊢
    omega

/-- A block that leaks and a block that does not give different results. -/
theorem redact_leak_ne {a p X Y Z b : List α} {t x : α} (hp : p ∈ R.pats) (hx : R.Delim x)
    (hmark : x ∉ R.stem) (ht : R.isEnd t = true) (hXo : R.IsOpen X)
    (hXY : R.Inert (X ++ t :: Y)) (hZ : R.Inert Z) (hZo : R.IsOpen Z) :
    R.redact (a ++ p ++ (X ++ t :: Y) ++ x :: b) ≠ R.redact (a ++ p ++ Z ++ x :: b) := by
  intro h
  have hnil : R.Inert [] := fun _ _ _ _ h => by simp at h
  have hZ0 := redact_middle (a := a) (b := b) hp hx hZ hZo hnil (fun c hc => by simp at hc)
  rw [redact_leak hp hx ht hXo hXY, hZ0, List.append_nil] at h
  have hle := count_redact_middle_le (a := a) (b := b) hp hx hmark
  rw [← h] at hle
  simp only [List.count_append, List.count_cons_self] at hle
  omega

theorem exists_block_split (c : List α) :
    ∃ X, R.IsOpen X ∧ c = X ++ R.skip c ∧ ∀ t Y, R.skip c = t :: Y → R.isEnd t = true := by
  refine ⟨c.takeWhile fun c => !R.isEnd c, fun z hz => ?_, ?_, fun t Y h => ?_⟩
  · simpa using List.mem_takeWhile_imp hz
  · exact (List.takeWhile_append_dropWhile).symm
  · have := List.head_dropWhile_not (fun c => !R.isEnd c) (l := c) (by
      unfold skip at h
      simp [h])
    unfold skip at h
    simpa [h] using this

/-- The result depends on a block behind a pattern exactly through what the block holds from
    its first end element on. -/
theorem redact_block_iff {a p b c d : List α} {x : α} (hp : p ∈ R.pats) (hx : R.Delim x)
    (hmark : x ∉ R.stem) (hc : R.Inert c) (hd : R.Inert d) :
    R.redact (a ++ p ++ c ++ x :: b) = R.redact (a ++ p ++ d ++ x :: b) ↔
      R.skip c = R.skip d := by
  obtain ⟨X, hXo, hcX, hcEnd⟩ := exists_block_split (R := R) c
  obtain ⟨Z, hZo, hdZ, hdEnd⟩ := exists_block_split (R := R) d
  cases hsc : R.skip c with
  | nil =>
    have hcX' : c = X := by rw [hcX, hsc, List.append_nil]
    subst hcX'
    cases hsd : R.skip d with
    | nil =>
      have hdZ' : d = Z := by rw [hdZ, hsd, List.append_nil]
      subst hdZ'
      simpa using redact_middle hp hx hc hXo hd hZo
    | cons t Y =>
      rw [hsd] at hdZ
      subst hdZ
      simpa using (redact_leak_ne hp hx hmark (hdEnd t Y hsd) hZo hd hc hXo).symm
  | cons t Y =>
    rw [hsc] at hcX
    subst hcX
    cases hsd : R.skip d with
    | nil =>
      have hdZ' : d = Z := by rw [hdZ, hsd, List.append_nil]
      subst hdZ'
      simpa using redact_leak_ne hp hx hmark (hcEnd t Y hsc) hXo hc hd hZo
    | cons u W =>
      rw [hsd] at hdZ
      subst hdZ
      rw [redact_leak hp hx (hcEnd t Y hsc) hXo hc, redact_leak hp hx (hdEnd u W hsd) hZo hd]
      simp only [List.append_assoc, List.append_cancel_left_eq, List.append_cancel_right_eq]

end SpanRedact.Redactor
