/-
  Find-and-replace redaction of delimited spans, over an arbitrary alphabet.

  A `Redactor` has patterns that open a span, a predicate for the elements that end one, and a
  mark that takes a span's place. `redactLoop` is the loop that looks for one pattern from the
  start of the text again after each replacement, `redact` runs the loops one after another.

  The loops are defined on text that earlier replacements have rewritten; the rules below say
  what they compute on the text as it was given:
  * `redact_append_end`: redaction distributes over every end element.
  * `redact_open`: text without an end element keeps what stands before its first pattern
    (`cutAll`), then come the mark and one closing element for each further loop that cut.
  * `no_pat_infix_redact`: no pattern occurs in the result.
  * `exists_pieces`: the result is the text with marks in the place of spans, and everything
    outside the spans (`outside`, defined by positions alone) kept in order.
-/
import Forgeclaw.Foundation.Search

namespace SpanRedact

open Search

/-- Patterns, end elements and mark (`stem` followed by `close`) of a redaction. The fields
    after these say that a replacement cannot create a pattern: the mark starts and ends with
    elements of no pattern, every pattern has an element the mark lacks, and two occurrences
    of patterns never overlap. -/
structure Redactor (α : Type) [DecidableEq α] where
  pats : List (List α)
  isEnd : α → Bool
  stem : List α
  close : α
  isEnd_close : isEnd close = true
  isEnd_stem : stem.any isEnd = false
  isEnd_pat : ∀ p ∈ pats, p.any isEnd = false
  stem_ne_nil : stem ≠ []
  head_stem : ∀ p ∈ pats, stem.head?.any (· ∈ p) = false
  pat_new : ∀ p ∈ pats, p.any (· ∉ stem) = true
  pat_apart : ∀ p ∈ pats, ∀ q ∈ pats, ∀ k < p.length, 0 < k →
    ¬ p.drop k <+: q ∧ ¬ q <+: p.drop k

namespace Redactor

variable {α : Type} [DecidableEq α] (R : Redactor α)

/-- What stands in a span's place. -/
def mark : List α := R.stem ++ [R.close]

/-- One turn of the loop for `p`: replace the span of the first occurrence, if there is one. -/
def redactOnce (p s : List α) : Option (List α) :=
  (findSub p s).map fun start =>
    let tail := s.drop start
    let endOffset := (tail.findIdx? R.isEnd).getD tail.length
    s.take start ++ R.mark ++ s.drop (start + endOffset)

/-- The text from its first end element on. -/
def skip (s : List α) : List α := s.dropWhile fun c => !R.isEnd c

omit [DecidableEq α] in
theorem drop_findIdx (e : α → Bool) (s : List α) :
    s.drop ((s.findIdx? e).getD s.length) = s.dropWhile fun c => !e c := by
  induction s with
  | nil => rfl
  | cons c s ih =>
    by_cases h : e c = true
    · simp [List.findIdx?_cons, h]
    · rw [List.findIdx?_cons, if_neg h, List.dropWhile_cons_of_pos (by simpa using h), ← ih]
      cases s.findIdx? e <;> simp

theorem redactOnce_eq (p s : List α) :
    R.redactOnce p s =
      (findSub p s).map fun i => s.take i ++ R.mark ++ R.skip (s.drop i) := by
  unfold redactOnce skip
  congr 1
  funext i
  simp only [← drop_findIdx, List.drop_drop]

theorem skip_suffix (s : List α) : R.skip s <:+ s := List.dropWhile_suffix _

theorem skip_append_end {t : α} (ht : R.isEnd t = true) (a b : List α) :
    R.skip (a ++ t :: b) = R.skip a ++ t :: b := by
  unfold skip
  rw [List.dropWhile_append]
  split
  · rename_i h
    rw [List.isEmpty_iff.mp h, List.dropWhile_cons_of_neg (by simp [ht]), List.nil_append]
  · rfl

/-- Text without an end element. -/
def IsOpen (w : List α) : Prop := ∀ c ∈ w, R.isEnd c = false

instance : DecidablePred R.IsOpen := fun w => List.decidableBAll (R.isEnd · = false) w

theorem skip_of_isOpen {w : List α} (hw : R.IsOpen w) : R.skip w = [] := by
  unfold skip
  rw [List.dropWhile_eq_nil_iff]
  intro c hc
  simp [hw c hc]

variable {R}

theorem isOpen_append {a b : List α} : R.IsOpen (a ++ b) ↔ R.IsOpen a ∧ R.IsOpen b := by
  simp only [IsOpen, List.mem_append, or_imp, forall_and]

theorem IsOpen.of_isPrefix {v w : List α} (hw : R.IsOpen w) (h : v <+: w) : R.IsOpen v :=
  fun c hc => hw c (h.subset hc)

theorem isOpen_stem : R.IsOpen R.stem := by simpa [IsOpen] using R.isEnd_stem

theorem isOpen_pat {p : List α} (hp : p ∈ R.pats) : R.IsOpen p :=
  by simpa [IsOpen] using R.isEnd_pat p hp

theorem exists_new {p : List α} (hp : p ∈ R.pats) : ∃ c ∈ p, c ∉ R.stem := by
  simpa using R.pat_new p hp

theorem exists_stem_eq {p : List α} (hp : p ∈ R.pats) : ∃ h st, R.stem = h :: st ∧ h ∉ p := by
  obtain ⟨h, st, hst⟩ := List.exists_cons_of_ne_nil R.stem_ne_nil
  exact ⟨h, st, hst, by simpa [hst] using R.head_stem p hp⟩

theorem pat_ne_nil {p : List α} (hp : p ∈ R.pats) : p ≠ [] := by
  obtain ⟨c, hc, _⟩ := exists_new hp
  exact List.ne_nil_of_mem hc

theorem not_mem_pat_of_isEnd {p : List α} (hp : p ∈ R.pats) {t : α} (ht : R.isEnd t = true) :
    t ∉ p := by
  intro h
  have := isOpen_pat hp t h
  simp [ht] at this

/-! ## The loop for one pattern ends -/

/-- Elements the mark does not have: each replacement takes at least one away. -/
def weight (R : Redactor α) (s : List α) : Nat := s.countP fun c => c ∉ R.mark

theorem weight_append (a b : List α) : R.weight (a ++ b) = R.weight a + R.weight b :=
  List.countP_append

theorem weight_mark : R.weight R.mark = 0 := by
  unfold weight
  rw [List.countP_eq_zero]
  intro c hc
  simpa using hc

theorem weight_pat_pos {p : List α} (hp : p ∈ R.pats) : 0 < R.weight p := by
  obtain ⟨c, hc, hnew⟩ := exists_new hp
  refine List.countP_pos_iff.mpr ⟨c, hc, ?_⟩
  have hclose : c ≠ R.close := by
    rintro rfl
    exact not_mem_pat_of_isEnd hp R.isEnd_close hc
  simpa [mark] using ⟨hnew, hclose⟩

theorem weight_skip_pat_append {p : List α} (hp : p ∈ R.pats) (rest : List α) :
    R.weight (R.skip (p ++ rest)) ≤ R.weight rest := by
  have h : R.skip (p ++ rest) = R.skip rest := by
    unfold skip
    rw [List.dropWhile_append_of_pos]
    intro c hc
    simp [isOpen_pat hp c hc]
  rw [h]
  exact (R.skip_suffix rest).sublist.countP_le

theorem weight_lt_of_redactOnce {p s s' : List α} (hp : p ∈ R.pats)
    (h : R.redactOnce p s = some s') : R.weight s' < R.weight s := by
  rw [redactOnce_eq] at h
  obtain ⟨i, hi, rfl⟩ := Option.map_eq_some_iff.mp h
  obtain ⟨_, ⟨rest, hrest⟩, _⟩ := findSub_some hi
  have hs : R.weight s = R.weight (s.take i) + (R.weight p + R.weight rest) := by
    conv_lhs => rw [← List.take_append_drop i s]
    rw [weight_append, ← hrest, weight_append]
  have hskip := weight_skip_pat_append hp rest
  have hpos := weight_pat_pos hp
  rw [weight_append, weight_append, weight_mark, ← hrest, hs]
  omega

/-- `while let Some(start) = find(p)`: replace until the pattern does not occur. -/
def redactLoop (R : Redactor α) (p : List α) (hp : p ∈ R.pats) (s : List α) : List α :=
  match _h : R.redactOnce p s with
  | none => s
  | some s' => redactLoop R p hp s'
termination_by R.weight s
decreasing_by exact weight_lt_of_redactOnce hp _h

theorem redactLoop_none {p s : List α} (hp : p ∈ R.pats) (h : R.redactOnce p s = none) :
    R.redactLoop p hp s = s := by
  rw [redactLoop]
  split
  · rfl
  · rename_i h'
    simp [h] at h'

theorem redactLoop_some {p s s' : List α} (hp : p ∈ R.pats)
    (h : R.redactOnce p s = some s') : R.redactLoop p hp s = R.redactLoop p hp s' := by
  rw [redactLoop]
  split
  · rename_i h'
    simp [h] at h'
  · rename_i h'
    rw [h] at h'
    rw [Option.some.inj h']

/-- The loop for `p`, started on `s`, leaves with `out`: finitely many turns lead there and no
    further turn is possible. -/
def LoopExits (R : Redactor α) (p s out : List α) : Prop :=
  Relation.ReflTransGen (fun a b => R.redactOnce p a = some b) s out ∧
    R.redactOnce p out = none

theorem redactLoop_exits {p : List α} (hp : p ∈ R.pats) (s : List α) :
    R.LoopExits p s (R.redactLoop p hp s) := by
  induction hn : R.weight s using Nat.strong_induction_on generalizing s with
  | _ n ih =>
    cases h : R.redactOnce p s with
    | none =>
      rw [redactLoop_none hp h]
      exact ⟨.refl, h⟩
    | some s' =>
      rw [redactLoop_some hp h]
      obtain ⟨hrun, hend⟩ := ih _ (hn ▸ weight_lt_of_redactOnce hp h) s' rfl
      exact ⟨.head h hrun, hend⟩

/-! ## One loop, on the text as given -/

theorem redactOnce_append_end {p : List α} (hp : p ∈ R.pats) {t : α} (ht : R.isEnd t = true)
    (a b : List α) :
    R.redactOnce p (a ++ t :: b) =
      ((R.redactOnce p a).map (· ++ t :: b)).or
        ((R.redactOnce p b).map fun b' => a ++ t :: b') := by
  simp only [redactOnce_eq]
  rw [findSub_append_sep (pat_ne_nil hp) (not_mem_pat_of_isEnd hp ht)]
  cases ha : findSub p a with
  | some i =>
    have hi : i ≤ a.length := (findSub_some ha).1
    simp [List.take_append_of_le_length hi, List.drop_append_of_le_length hi,
      R.skip_append_end ht]
  | none =>
    cases hb : findSub p b with
    | none => simp
    | some j =>
      have h1 : (a ++ t :: b).take (j + (a.length + 1)) = a ++ t :: b.take j := by
        rw [List.take_append, List.take_of_length_le (by omega)]
        simp [show j + (a.length + 1) - a.length = j + 1 by omega]
      have h2 : (a ++ t :: b).drop (j + (a.length + 1)) = b.drop j := by
        rw [List.drop_append, List.drop_of_length_le (by omega)]
        simp [show j + (a.length + 1) - a.length = j + 1 by omega]
      simp [h1, h2]

theorem redactLoop_append_end {p : List α} (hp : p ∈ R.pats) {t : α} (ht : R.isEnd t = true)
    (a b : List α) :
    R.redactLoop p hp (a ++ t :: b) = R.redactLoop p hp a ++ t :: R.redactLoop p hp b := by
  -- on the weight of both sides: each turn works on the left side while it can, then on the right
  induction hn : R.weight a + R.weight b using Nat.strong_induction_on generalizing a b with
  | _ n ih =>
    have hstep := redactOnce_append_end hp ht a b
    cases ha : R.redactOnce p a with
    | some a' =>
      have hturn : R.redactOnce p (a ++ t :: b) = some (a' ++ t :: b) := by simp [hstep, ha]
      rw [redactLoop_some hp hturn, redactLoop_some hp ha]
      exact ih _ (by have := weight_lt_of_redactOnce hp ha; omega) a' b rfl
    | none =>
      cases hb : R.redactOnce p b with
      | some b' =>
        have hturn : R.redactOnce p (a ++ t :: b) = some (a ++ t :: b') := by
          simp [hstep, ha, hb]
        rw [redactLoop_some hp hturn, redactLoop_some hp hb]
        exact ih _ (by have := weight_lt_of_redactOnce hp hb; omega) a b' rfl
      | none =>
        rw [redactLoop_none hp (hstep.trans (by simp [ha, hb])), redactLoop_none hp ha,
          redactLoop_none hp hb]

theorem redactLoop_of_findSub_none {p s : List α} (hp : p ∈ R.pats) (h : findSub p s = none) :
    R.redactLoop p hp s = s :=
  redactLoop_none hp (by rw [redactOnce_eq, h, Option.map_none])

theorem redactLoop_of_all_end {p s : List α} (hp : p ∈ R.pats)
    (hs : ∀ c ∈ s, R.isEnd c = true) : R.redactLoop p hp s = s := by
  obtain ⟨c, hc, _⟩ := exists_new hp
  refine redactLoop_of_findSub_none hp (findSub_eq_none_of_not_mem hc fun hcs => ?_)
  exact not_mem_pat_of_isEnd hp (hs c hcs) hc

/-- The stem is invisible to every pattern. -/
theorem findSub_append_stem {p : List α} (hp : p ∈ R.pats) (w : List α) :
    findSub p (w ++ R.stem) = findSub p w := by
  obtain ⟨h, st, hst, hh⟩ := exists_stem_eq hp
  obtain ⟨c, hc, hnew⟩ := exists_new hp
  have hnone : findSub p st = none :=
    findSub_eq_none_of_not_mem hc fun hcs => hnew (by simp [hst, hcs])
  rw [hst, findSub_append_sep (pat_ne_nil hp) hh, hnone]
  cases findSub p w <;> rfl

theorem redactLoop_open_some {p w : List α} (hp : p ∈ R.pats) (hw : R.IsOpen w) {i : Nat}
    (h : findSub p w = some i) : R.redactLoop p hp w = w.take i ++ R.mark := by
  have hskip : R.skip (w.drop i) = [] :=
    R.skip_of_isOpen fun c hc => hw c (List.mem_of_mem_drop hc)
  have honce : R.redactOnce p w = some (w.take i ++ R.stem ++ R.close :: []) := by
    rw [redactOnce_eq, h]
    simp [hskip, mark]
  have hkept : findSub p (w.take i ++ R.stem) = none := by
    rw [findSub_append_stem hp]
    exact findSub_take (pat_ne_nil hp) h
  rw [redactLoop_some hp honce, redactLoop_append_end hp R.isEnd_close,
    redactLoop_of_findSub_none hp hkept, redactLoop_of_all_end hp (by simp)]
  simp [mark]

/-! ## All loops -/

/-- `for p in pats`: the loops one after another, each on what the one before left. -/
def redact (R : Redactor α) (s : List α) : List α :=
  R.pats.attach.foldl (fun out p => R.redactLoop p.1 p.2 out) s

theorem redact_append_end {t : α} (ht : R.isEnd t = true) (a b : List α) :
    R.redact (a ++ t :: b) = R.redact a ++ t :: R.redact b := by
  unfold redact
  induction R.pats.attach generalizing a b with
  | nil => rfl
  | cons p ps ih =>
    simp only [List.foldl_cons]
    rw [redactLoop_append_end p.2 ht, ih]

/-- Without a pattern in it, text is kept verbatim. -/
theorem redact_of_no_pat {s : List α} (h : ∀ p ∈ R.pats, ¬ p <:+: s) : R.redact s = s := by
  unfold redact
  induction R.pats.attach with
  | nil => rfl
  | cons p ps ih =>
    rw [List.foldl_cons,
      redactLoop_of_findSub_none p.2 (findSub_eq_none_iff.mpr (h p.1 p.2)), ih]

/-! ### Text without an end element -/

/-- What one loop does to the kept text and to the number of loops that have cut. -/
def cut (p : List α) (kn : List α × Nat) : List α × Nat :=
  match findSub p kn.1 with
  | none => kn
  | some i => (kn.1.take i, kn.2 + 1)

/-- What all loops leave of a text without an end element, and how many of them cut. -/
def cutAll (R : Redactor α) (w : List α) : List α × Nat :=
  R.pats.foldl (fun kn p => cut p kn) (w, 0)

/-- What stands behind the kept text after `n` cuts. -/
def tailMarks (R : Redactor α) : Nat → List α
  | 0 => []
  | n + 1 => R.stem ++ List.replicate (n + 1) R.close

theorem redactLoop_cut {p : List α} (hp : p ∈ R.pats) (kn : List α × Nat)
    (hw : R.IsOpen kn.1) :
    R.redactLoop p hp (kn.1 ++ R.tailMarks kn.2) =
      (cut p kn).1 ++ R.tailMarks (cut p kn).2 := by
  obtain ⟨w, n⟩ := kn
  unfold cut
  cases n with
  | zero =>
    cases h : findSub p w with
    | none => simp [tailMarks, redactLoop_of_findSub_none hp h]
    | some i => simp [tailMarks, redactLoop_open_some hp hw h, mark]
  | succ n =>
    have htext : w ++ R.tailMarks (n + 1) =
        (w ++ R.stem) ++ R.close :: List.replicate n R.close := by
      simp [tailMarks, List.replicate_succ]
    have hends : R.redactLoop p hp (List.replicate n R.close) = List.replicate n R.close :=
      redactLoop_of_all_end hp fun c hc => by rw [List.eq_of_mem_replicate hc, R.isEnd_close]
    have hopen : R.IsOpen (w ++ R.stem) := isOpen_append.mpr ⟨hw, isOpen_stem⟩
    simp only
    rw [htext, redactLoop_append_end hp R.isEnd_close, hends]
    cases h : findSub p w with
    | none =>
      rw [redactLoop_of_findSub_none hp (by rw [findSub_append_stem hp, h])]
      simp [tailMarks, List.replicate_succ]
    | some i =>
      rw [redactLoop_open_some hp hopen (by rw [findSub_append_stem hp, h]),
        List.take_append_of_le_length (findSub_some h).1]
      simp [tailMarks, mark, List.replicate_succ]

theorem cut_isPrefix (p : List α) (kn : List α × Nat) : (cut p kn).1 <+: kn.1 := by
  unfold cut
  split
  · exact List.prefix_rfl
  · exact List.take_prefix _ _

/-- Text without an end element: what is kept, then the marks. -/
theorem redact_open {w : List α} (hw : R.IsOpen w) :
    R.redact w = (R.cutAll w).1 ++ R.tailMarks (R.cutAll w).2 := by
  have key : ∀ (ps : List {p // p ∈ R.pats}) (kn : List α × Nat), R.IsOpen kn.1 →
      ps.foldl (fun out p => R.redactLoop p.1 p.2 out) (kn.1 ++ R.tailMarks kn.2) =
        ((ps.map Subtype.val).foldl (fun kn p => cut p kn) kn).1 ++
          R.tailMarks ((ps.map Subtype.val).foldl (fun kn p => cut p kn) kn).2 := by
    intro ps
    induction ps with
    | nil => intro kn _; rfl
    | cons p ps ih =>
      intro kn hkn
      rw [List.foldl_cons, redactLoop_cut p.2 kn hkn, ih _ (hkn.of_isPrefix (cut_isPrefix _ _))]
      rfl
  have := key R.pats.attach (w, 0) hw
  rw [List.attach_map_subtype_val] at this
  simpa [redact, cutAll, tailMarks] using this

/-- What holds between the loops: `kn` is what they leave of `w` so far, and `todo` are the
    patterns whose loops are still to run. -/
structure Cutting (R : Redactor α) (w : List α) (todo : List (List α)) (kn : List α × Nat) :
    Prop where
  kept : kn.1 <+: w
  clean : ∀ q ∈ R.pats, q ∈ todo ∨ findSub q kn.1 = none
  count : kn.2 = 0 ∧ kn.1 = w ∨ 0 < kn.2 ∧ ∃ p ∈ R.pats, p <+: w.drop kn.1.length

theorem Cutting.step {w p : List α} {ps : List (List α)} {kn : List α × Nat}
    (h : R.Cutting w (p :: ps) kn) (hp : p ∈ R.pats) : R.Cutting w ps (cut p kn) where
  kept := (cut_isPrefix p kn).trans h.kept
  clean q hq := by
    by_cases hqp : q = p
    · -- this loop leaves no occurrence of its own pattern
      right
      subst hqp
      unfold cut
      cases hfind : findSub q kn.1 with
      | none => exact hfind
      | some i => exact findSub_take (pat_ne_nil hq) hfind
    · rcases h.clean q hq with hmem | hno
      · exact Or.inl ((List.mem_cons.mp hmem).resolve_left hqp)
      · right
        rw [findSub_eq_none_iff] at hno ⊢
        exact fun hin => hno (hin.trans (cut_isPrefix p kn).isInfix)
  count := by
    unfold cut
    cases hfind : findSub p kn.1 with
    | none => exact h.count
    | some i =>
      obtain ⟨hi, hocc, _⟩ := findSub_some hfind
      refine Or.inr ⟨Nat.succ_pos _, p, hp, ?_⟩
      obtain ⟨r, hr⟩ := h.kept
      simp only [List.length_take, Nat.min_eq_left hi]
      rw [← hr, List.drop_append_of_le_length hi]
      exact hocc.trans (List.prefix_append _ _)

theorem Cutting.run {w : List α} {ps : List (List α)} {kn : List α × Nat}
    (h : R.Cutting w ps kn) (hps : ps ⊆ R.pats) :
    R.Cutting w [] (ps.foldl (fun kn p => cut p kn) kn) := by
  induction ps generalizing kn with
  | nil => exact h
  | cons p ps ih =>
    obtain ⟨hp, hps⟩ := List.cons_subset.mp hps
    exact ih (h.step hp) hps

/-- What `cutAll` computes: the longest part of the text before the first pattern. -/
theorem cutAll_spec (w : List α) :
    (R.cutAll w).1 <+: w ∧ (∀ p ∈ R.pats, findSub p (R.cutAll w).1 = none) ∧
      ((R.cutAll w).2 = 0 ∧ (R.cutAll w).1 = w ∨
        0 < (R.cutAll w).2 ∧ ∃ p ∈ R.pats, p <+: w.drop (R.cutAll w).1.length) := by
  have hstart : R.Cutting w R.pats (w, 0) :=
    ⟨List.prefix_rfl, fun q hq => Or.inl hq, Or.inl ⟨rfl, rfl⟩⟩
  obtain ⟨hkept, hclean, hcount⟩ := hstart.run (List.Subset.refl _)
  exact ⟨hkept, fun p hp => (hclean p hp).resolve_left List.not_mem_nil, hcount⟩

/-! ## No pattern survives -/

/-- Induction over a text one end element at a time. -/
theorem span_induction {P : List α → Prop} (hopen : ∀ w, R.IsOpen w → P w)
    (hend : ∀ w t rest, R.IsOpen w → R.isEnd t = true → P rest → P (w ++ t :: rest)) :
    ∀ s, P s := by
  intro s
  induction hn : s.length using Nat.strong_induction_on generalizing s with
  | _ n ih =>
    have hsplit := List.takeWhile_append_dropWhile (p := fun c => !R.isEnd c) (l := s)
    have hw : R.IsOpen (s.takeWhile fun c => !R.isEnd c) := fun c hc => by
      simpa using List.mem_takeWhile_imp hc
    cases hd : s.dropWhile (fun c => !R.isEnd c) with
    | nil =>
      rw [hd, List.append_nil] at hsplit
      exact hopen s (hsplit ▸ hw)
    | cons t rest =>
      have ht : R.isEnd t = true := by
        have := List.head_dropWhile_not (fun c => !R.isEnd c) (l := s) (by simp [hd])
        simpa [hd] using this
      rw [hd] at hsplit
      rw [← hsplit]
      refine hend _ t rest hw ht (ih rest.length ?_ rest rfl)
      have := congrArg List.length hsplit
      simp only [List.length_append, List.length_cons] at this
      omega

theorem not_infix_append_end {p : List α} (hp : p ∈ R.pats) {t : α} (ht : R.isEnd t = true)
    {a b : List α} (ha : ¬ p <:+: a) (hb : ¬ p <:+: b) : ¬ p <:+: a ++ t :: b := by
  rw [infix_append_sep (pat_ne_nil hp) (not_mem_pat_of_isEnd hp ht), not_or]
  exact ⟨ha, hb⟩

theorem not_infix_tailMarks {p w : List α} (hp : p ∈ R.pats) (hw : ¬ p <:+: w) (n : Nat) :
    ¬ p <:+: w ++ R.tailMarks n := by
  cases n with
  | zero => simpa [tailMarks] using hw
  | succ n =>
    have hstem : ¬ p <:+: w ++ R.stem := by
      rw [← findSub_eq_none_iff] at hw ⊢
      rw [findSub_append_stem hp, hw]
    have hends : ¬ p <:+: List.replicate n R.close := by
      obtain ⟨c, hc, _⟩ := exists_new hp
      intro h
      have := List.eq_of_mem_replicate (h.subset hc)
      exact not_mem_pat_of_isEnd hp R.isEnd_close (this ▸ hc)
    have := not_infix_append_end hp R.isEnd_close hstem hends
    simpa [tailMarks, List.replicate_succ] using this

theorem no_pat_infix_redact {p : List α} (hp : p ∈ R.pats) (s : List α) :
    ¬ p <:+: R.redact s := by
  refine span_induction (R := R) (P := fun s => ¬ p <:+: R.redact s) ?_ ?_ s
  · intro w hw
    rw [redact_open hw]
    exact not_infix_tailMarks hp (findSub_eq_none_iff.mp ((cutAll_spec w).2.1 p hp)) _
  · intro w t rest hw ht ih
    rw [redact_append_end ht, redact_open hw]
    exact not_infix_append_end hp ht
      (not_infix_tailMarks hp (findSub_eq_none_iff.mp ((cutAll_spec w).2.1 p hp)) _) ih

/-! ## What is kept -/

/-- Position `j` is inside a span: a pattern starts at or before it, and no end element stands
    from there up to `j`. -/
def InSpan (R : Redactor α) (s : List α) (j : Nat) : Prop :=
  ∃ i ∈ List.range (j + 1), (∃ p ∈ R.pats, p <+: s.drop i) ∧
    ∀ c ∈ (s.take (j + 1)).drop i, R.isEnd c = false

instance (s : List α) : DecidablePred (R.InSpan s) := fun j =>
  let _ (i : Nat) : Decidable (∀ c ∈ (s.take (j + 1)).drop i, R.isEnd c = false) :=
    List.decidableBAll _ _
  List.decidableBEx _ _

/-- The elements outside all spans, in order. -/
def outside (R : Redactor α) (s : List α) : List α :=
  (s.zipIdx.filter fun cj => ¬ R.InSpan s cj.2).map Prod.fst

theorem inSpan_left {w : List α} {t : α} {rest : List α} (ht : R.isEnd t = true) {j : Nat}
    (hj : j < w.length) : R.InSpan (w ++ t :: rest) j ↔ R.InSpan w j := by
  unfold InSpan
  refine exists_congr fun i => and_congr_right fun hi => ?_
  have hi' : i ≤ j := Nat.lt_succ_iff.mp (List.mem_range.mp hi)
  refine and_congr (exists_congr fun p => and_congr_right fun hp => ?_) ?_
  · rw [List.drop_append_of_le_length (by omega),
      prefix_append_sep (not_mem_pat_of_isEnd hp ht)]
  · rw [List.take_append_of_le_length (by omega)]

theorem not_inSpan_end (w : List α) {t : α} (rest : List α) (ht : R.isEnd t = true) :
    ¬ R.InSpan (w ++ t :: rest) w.length := by
  rintro ⟨i, hi, _, hall⟩
  have hi' : i ≤ w.length := Nat.lt_succ_iff.mp (List.mem_range.mp hi)
  have htake : (w ++ t :: rest).take (w.length + 1) = w ++ [t] := by
    rw [List.take_append, List.take_of_length_le (by omega)]
    simp
  have hmem : t ∈ ((w ++ t :: rest).take (w.length + 1)).drop i := by
    rw [htake, List.drop_append_of_le_length hi']
    simp
  have := hall t hmem
  simp [ht] at this

theorem inSpan_right (w : List α) {t : α} (rest : List α) (ht : R.isEnd t = true) (j : Nat) :
    R.InSpan (w ++ t :: rest) (w.length + 1 + j) ↔ R.InSpan rest j := by
  have hdrop : ∀ k, (w ++ t :: rest).drop (w.length + 1 + k) = rest.drop k := fun k => by
    rw [List.drop_append, List.drop_of_length_le (by omega)]
    simp [show w.length + 1 + k - w.length = k + 1 by omega]
  have htake : (w ++ t :: rest).take (w.length + 1 + j + 1) = w ++ t :: rest.take (j + 1) := by
    rw [List.take_append, List.take_of_length_le (by omega)]
    simp [show w.length + 1 + j + 1 - w.length = (j + 1) + 1 by omega]
  have hdrop' : ∀ k, (w ++ t :: rest.take (j + 1)).drop (w.length + 1 + k) =
      (rest.take (j + 1)).drop k := fun k => by
    rw [List.drop_append, List.drop_of_length_le (by omega)]
    simp [show w.length + 1 + k - w.length = k + 1 by omega]
  unfold InSpan
  rw [htake]
  constructor
  · rintro ⟨i, hi, hocc, hall⟩
    -- the span cannot reach across the end element
    have hlt : w.length < i := by
      by_contra hle
      have hmem : t ∈ (w ++ t :: rest.take (j + 1)).drop i := by
        rw [List.drop_append_of_le_length (by omega)]
        simp
      have := hall t hmem
      simp [ht] at this
    obtain ⟨k, rfl⟩ : ∃ k, i = w.length + 1 + k := ⟨i - (w.length + 1), by omega⟩
    rw [hdrop] at hocc
    rw [hdrop'] at hall
    exact ⟨k, List.mem_range.mpr (by have := List.mem_range.mp hi; omega), hocc, hall⟩
  · rintro ⟨k, hk, hocc, hall⟩
    refine ⟨w.length + 1 + k, List.mem_range.mpr ?_, ?_, ?_⟩
    · have := List.mem_range.mp hk
      omega
    · rwa [hdrop]
    · rwa [hdrop']

theorem outside_append_end {w : List α} {t : α} {rest : List α} (ht : R.isEnd t = true) :
    R.outside (w ++ t :: rest) = R.outside w ++ t :: R.outside rest := by
  unfold outside
  rw [List.zipIdx_append, List.zipIdx_cons, List.filter_append, List.map_append]
  congr 1
  · refine congrArg _ (List.filter_congr fun cj hcj => ?_)
    have hlt : cj.2 < w.length := by
      have := List.snd_lt_of_mem_zipIdx hcj
      simpa using this
    simp [inSpan_left ht hlt]
  · have hnot : ¬ R.InSpan (w ++ t :: rest) (0 + w.length) := by
      simpa using not_inSpan_end w rest ht
    rw [List.filter_cons_of_pos (by simpa using hnot), List.map_cons]
    congr 1
    rw [show 0 + w.length + 1 = 0 + (w.length + 1) by omega, List.zipIdx_eq_map_add,
      List.filter_map, List.map_map]
    refine congrArg₂ _ rfl (List.filter_congr fun cj _ => ?_)
    have := inSpan_right w rest ht cj.2
    simp only [Function.comp_apply]
    rw [show 0 + (w.length + 1) + cj.2 = w.length + 1 + cj.2 by omega]
    simp [this]

theorem inSpan_open_iff {w : List α} (hw : R.IsOpen w) (j : Nat) (hj : j < w.length) :
    R.InSpan w j ↔ (R.cutAll w).1.length ≤ j := by
  obtain ⟨hpre, hnone, hcut⟩ := cutAll_spec (R := R) w
  constructor
  · rintro ⟨i, hi, ⟨p, hp, hocc⟩, _⟩
    by_contra hlt
    have hij : i ≤ j := Nat.lt_succ_iff.mp (List.mem_range.mp hi)
    rcases hcut with ⟨_, hall⟩ | ⟨_, q, hq, hqocc⟩
    · rw [hall] at hnone
      exact findSub_eq_none_iff.mp (hnone p hp)
        (hocc.isInfix.trans (List.drop_suffix i w).isInfix)
    · -- the pattern either fits into the kept text or overlaps the one that cut it
      obtain ⟨r, hr⟩ := hpre
      generalize hkept : (R.cutAll w).1 = kept at *
      have hdrop : w.drop i = kept.drop i ++ r := by
        rw [← hr, List.drop_append_of_le_length (by omega)]
      rcases Nat.lt_or_ge (kept.drop i).length p.length with hlong | hfit
      · have hk : kept.length - i < p.length := by simpa using hlong
        have hpd : p.drop (kept.length - i) <+: w.drop kept.length := by
          obtain ⟨x, hx⟩ := hocc
          have : w.drop kept.length = (p ++ x).drop (kept.length - i) := by
            rw [hx, List.drop_drop]
            congr 1
            omega
          rw [this, List.drop_append_of_le_length (by omega)]
          exact List.prefix_append _ _
        have hapart := R.pat_apart p hp q hq (kept.length - i) hk (by omega)
        rcases List.prefix_or_prefix_of_prefix hpd hqocc with h | h
        · exact hapart.1 h
        · exact hapart.2 h
      · rw [hdrop] at hocc
        have hin : p <+: kept.drop i :=
          List.prefix_of_prefix_length_le hocc (List.prefix_append _ _) hfit
        exact findSub_eq_none_iff.mp (hnone p hp)
          (hin.isInfix.trans (List.drop_suffix i kept).isInfix)
  · intro hle
    rcases hcut with ⟨_, hall⟩ | ⟨_, p, hp, hocc⟩
    · rw [hall] at hle
      omega
    · refine ⟨_, List.mem_range.mpr (Nat.lt_succ_of_le hle), ⟨p, hp, hocc⟩, fun c hc => ?_⟩
      exact hw c (List.mem_of_mem_take (List.mem_of_mem_drop hc))

omit [DecidableEq α] in
theorem filter_zipIdx_lt (w : List α) (m k : Nat) :
    ((w.zipIdx k).filter fun cj => decide (cj.2 < k + m)).map Prod.fst = w.take m := by
  induction w generalizing m k with
  | nil => simp
  | cons c w ih =>
    cases m with
    | zero =>
      rw [List.take_zero, List.map_eq_nil_iff, List.filter_eq_nil_iff]
      intro cj hcj
      have := List.le_snd_of_mem_zipIdx hcj
      simpa using this
    | succ m =>
      rw [List.zipIdx_cons, List.filter_cons_of_pos (by simp), List.map_cons,
        List.take_succ_cons]
      have := ih m (k + 1)
      rw [show k + (m + 1) = k + 1 + m by omega, this]

theorem outside_open {w : List α} (hw : R.IsOpen w) : R.outside w = (R.cutAll w).1 := by
  have hpre := (cutAll_spec (R := R) w).1
  rw [List.prefix_iff_eq_take.mp hpre, ← filter_zipIdx_lt w (R.cutAll w).1.length 0]
  unfold outside
  refine congrArg _ (List.filter_congr fun cj hcj => ?_)
  have hlt : cj.2 < w.length := by
    have := List.snd_lt_of_mem_zipIdx hcj
    simpa using this
  simp [inSpan_open_iff hw cj.2 hlt]

/-- A text cut into kept elements and spans; a span stands for `n + 1` closing elements. -/
inductive Piece (α : Type) where
  | kept (c : α)
  | span (text : List α) (n : Nat)

def Piece.raw : Piece α → List α
  | .kept c => [c]
  | .span text _ => text

def Piece.out (R : Redactor α) : Piece α → List α
  | .kept c => [c]
  | .span _ n => R.tailMarks (n + 1)

def Piece.kept? : Piece α → Option α
  | .kept c => some c
  | .span _ _ => none

/-- A span piece starts with a pattern and has no end element. -/
def Piece.Wf (R : Redactor α) : Piece α → Prop
  | .kept _ => True
  | .span text _ => R.IsOpen text ∧ ∃ p ∈ R.pats, p <+: text

omit [DecidableEq α] in
theorem flatMap_kept (f : Piece α → List α) (hf : ∀ c, f (.kept c) = [c]) (w : List α) :
    (w.map Piece.kept).flatMap f = w := by
  induction w with
  | nil => rfl
  | cons c w ih => simp [List.flatMap_cons, hf, ih]

omit [DecidableEq α] in
theorem filterMap_kept (w : List α) : (w.map Piece.kept).filterMap Piece.kept? = w := by
  induction w with
  | nil => rfl
  | cons c w ih => simp [Piece.kept?, ih]

theorem exists_pieces_open {w : List α} (hw : R.IsOpen w) :
    ∃ ps : List (Piece α), (∀ x ∈ ps, x.Wf R) ∧ ps.flatMap Piece.raw = w ∧
      ps.flatMap (Piece.out R) = R.redact w ∧ ps.filterMap Piece.kept? = R.outside w := by
  obtain ⟨⟨r, hr⟩, _, hcut⟩ := cutAll_spec (R := R) w
  rw [redact_open hw, outside_open hw]
  generalize R.cutAll w = kn at *
  obtain ⟨kept, n⟩ := kn
  rcases hcut with ⟨hn, hall⟩ | ⟨hn, p, hp, hocc⟩
  · refine ⟨kept.map .kept, by simp [Piece.Wf], ?_, ?_, filterMap_kept kept⟩
    · rw [flatMap_kept _ fun _ => rfl]
      exact hall
    · simp only at hn
      rw [flatMap_kept _ fun _ => rfl, hn, tailMarks, List.append_nil]
  · obtain ⟨m, rfl⟩ : ∃ m, n = m + 1 := ⟨n - 1, by simp only at hn; omega⟩
    simp only at hr hocc
    refine ⟨kept.map .kept ++ [.span r m], ?_, ?_, ?_, ?_⟩
    · intro x hx
      rcases List.mem_append.mp hx with hx | hx
      · obtain ⟨c, _, rfl⟩ := List.mem_map.mp hx
        trivial
      · obtain rfl := List.mem_singleton.mp hx
        refine ⟨fun c hc => hw c (by rw [← hr]; simp [hc]), p, hp, ?_⟩
        rwa [← hr, List.drop_left] at hocc
    · rw [List.flatMap_append, flatMap_kept _ fun _ => rfl]
      simpa [Piece.raw] using hr
    · rw [List.flatMap_append, flatMap_kept _ fun _ => rfl]
      simp [Piece.out]
    · rw [List.filterMap_append, filterMap_kept]
      simp [Piece.kept?]

/-- The result is the text with a mark in the place of each span, and what is outside the
    spans kept in order. -/
theorem exists_pieces (R : Redactor α) (s : List α) :
    ∃ ps : List (Piece α), (∀ x ∈ ps, x.Wf R) ∧ ps.flatMap Piece.raw = s ∧
      ps.flatMap (Piece.out R) = R.redact s ∧ ps.filterMap Piece.kept? = R.outside s := by
  refine span_induction (R := R) (fun w hw => exists_pieces_open hw) ?_ s
  intro w t rest hw ht ⟨ps', hwf', hraw', hout', hkept'⟩
  obtain ⟨ps, hwf, hraw, hout, hkept⟩ := exists_pieces_open hw
  refine ⟨ps ++ .kept t :: ps', ?_, ?_, ?_, ?_⟩
  · intro x hx
    rcases List.mem_append.mp hx with hx | hx
    · exact hwf x hx
    · rcases List.mem_cons.mp hx with rfl | hx
      · trivial
      · exact hwf' x hx
  · simp [List.flatMap_append, List.flatMap_cons, hraw, hraw', Piece.raw]
  · simp [List.flatMap_append, List.flatMap_cons, hout, hout', Piece.out,
      redact_append_end ht]
  · simp [List.filterMap_append, hkept, hkept', Piece.kept?, outside_append_end ht]

end Redactor

end SpanRedact
