/-
  Searching a text after its spans have been redacted.

  `mask` is the text with a hole (`none`) at every position inside a span, so that a word
  occurs in it exactly where it occurs outside the spans (`map_some_infix_mask_iff`). `Aligned`
  relates a text with holes to a redacted one, element by element and run of holes by mark.

  * `aligned_redact`: the masked text is aligned with the redacted one.
  * `infix_redact_iff`: a word that no mark can be part of (`Plain`) occurs in the redacted text
    exactly when it occurs in the text as given and outside the spans. Both texts may be seen
    through a function on elements first, such as a change of case.
  * `occursOutside_span_iff`: what stands behind a pattern, up to the next end element, has no
    part in that.
-/
import Forgeclaw.Foundation.SpanRedact

namespace SpanRedact

open Search

namespace Redactor

variable {α β : Type} [DecidableEq α] {R : Redactor α}

/-! ## The text with holes -/

/-- The elements outside the spans in their places, and holes in the places of the others. -/
def mask (R : Redactor α) (s : List α) : List (Option α) :=
  s.mapIdx fun j c => if R.InSpan s j then none else some c

theorem length_mask (s : List α) : (R.mask s).length = s.length := by simp [mask]

theorem getElem?_mask (s : List α) (j : Nat) :
    (R.mask s)[j]? = s[j]?.map fun c => if R.InSpan s j then none else some c := by
  simp [mask]

theorem mask_append_end {w : List α} {t : α} {rest : List α} (ht : R.isEnd t = true) :
    R.mask (w ++ t :: rest) = R.mask w ++ some t :: R.mask rest := by
  refine List.ext_getElem? fun j => ?_
  rw [getElem?_mask]
  rcases Nat.lt_trichotomy j w.length with hj | rfl | hj
  · rw [List.getElem?_append_left hj,
      List.getElem?_append_left (by rwa [length_mask]), getElem?_mask]
    simp only [inSpan_left ht hj]
  · rw [List.getElem?_append_right (Nat.le_refl _),
      List.getElem?_append_right (by rw [length_mask]), length_mask]
    simp [not_inSpan_end w rest ht]
  · obtain ⟨k, rfl⟩ : ∃ k, j = w.length + 1 + k := ⟨j - (w.length + 1), by omega⟩
    rw [List.getElem?_append_right (by omega),
      List.getElem?_append_right (by rw [length_mask]; omega), length_mask,
      show w.length + 1 + k - w.length = k + 1 by omega]
    simp only [List.getElem?_cons_succ, getElem?_mask, inSpan_right w rest ht]

theorem mask_open {w : List α} (hw : R.IsOpen w) :
    R.mask w = (R.cutAll w).1.map some ++
      List.replicate (w.length - (R.cutAll w).1.length) none := by
  obtain ⟨hpre, -, -⟩ := cutAll_spec (R := R) w
  have hlen := hpre.length_le
  refine List.ext_getElem? fun j => ?_
  rw [getElem?_mask]
  rcases Nat.lt_or_ge j w.length with hj | hj
  · simp only [inSpan_open_iff hw j hj]
    rcases Nat.lt_or_ge j (R.cutAll w).1.length with hkept | hcut
    · rw [List.getElem?_append_left (by simpa using hkept), List.getElem?_map,
        List.prefix_iff_getElem?.mp hpre j hkept, List.getElem?_eq_getElem hkept]
      simp [Nat.not_le.mpr hkept]
    · have hin : j - (R.cutAll w).1.length < w.length - (R.cutAll w).1.length := by omega
      rw [List.getElem?_append_right (by simpa using hcut), List.length_map,
        List.getElem?_replicate, if_pos hin, List.getElem?_eq_getElem hj]
      simp [hcut]
  · rw [List.getElem?_eq_none hj, List.getElem?_eq_none (by simp; omega)]
    rfl

/-! ## Texts with holes and redacted texts -/

/-- Elements stand for themselves; a run of holes stands for a mark, with the closing elements
    that further loops added to it. -/
inductive Aligned (R : Redactor α) : List (Option α) → List α → Prop
  | nil : Aligned R [] []
  | kept (c : α) {L : List (Option α)} {out : List α} (h : Aligned R L out) :
      Aligned R (some c :: L) (c :: out)
  | span (k n : Nat) {L : List (Option α)} {out : List α} (h : Aligned R L out) :
      Aligned R (List.replicate (k + 1) none ++ L) (R.tailMarks (n + 1) ++ out)

theorem Aligned.map_some_append (w : List α) {L : List (Option α)} {out : List α}
    (h : Aligned R L out) : Aligned R (w.map some ++ L) (w ++ out) := by
  induction w with
  | nil => exact h
  | cons c w ih => exact ih.kept c

theorem Aligned.append {L L' : List (Option α)} {out out' : List α} (h : Aligned R L out)
    (h' : Aligned R L' out') : Aligned R (L ++ L') (out ++ out') := by
  induction h with
  | nil => exact h'
  | kept c _ ih => exact ih.kept c
  | span k n _ ih =>
    rw [List.append_assoc, List.append_assoc]
    exact ih.span k n

theorem aligned_open {w : List α} (hw : R.IsOpen w) : Aligned R (R.mask w) (R.redact w) := by
  obtain ⟨-, -, hcut⟩ := cutAll_spec (R := R) w
  rw [mask_open hw, redact_open hw]
  apply Aligned.map_some_append
  rcases hcut with ⟨hn, hall⟩ | ⟨hn, p, hp, hocc⟩
  · rw [hall, hn, Nat.sub_self]
    exact .nil
  · -- the pattern that cut the text lies in what was cut off
    have hlen := hocc.length_le
    have hpos := List.length_pos_of_ne_nil (pat_ne_nil hp)
    rw [List.length_drop] at hlen
    obtain ⟨k, hk⟩ : ∃ k, w.length - (R.cutAll w).1.length = k + 1 :=
      ⟨w.length - (R.cutAll w).1.length - 1, by omega⟩
    obtain ⟨n, hn'⟩ : ∃ n, (R.cutAll w).2 = n + 1 := ⟨(R.cutAll w).2 - 1, by omega⟩
    rw [hk, hn']
    simpa using Aligned.nil.span (R := R) k n

/-- What redaction makes of a text has the form of the text with holes. -/
theorem aligned_redact (R : Redactor α) (s : List α) : Aligned R (R.mask s) (R.redact s) := by
  refine span_induction (R := R) (P := fun s => Aligned R (R.mask s) (R.redact s))
    (fun w hw => aligned_open hw) (fun w t rest hw ht ih => ?_) s
  rw [mask_append_end ht, redact_append_end ht]
  exact (aligned_open hw).append (ih.kept t)

/-! ## Words that no mark can be part of -/

/-- Seen through `f`, the mark's first and last elements are not in the word, and the word
    does not occur in the mark. -/
structure Plain (R : Redactor α) (f : α → β) (m : List β) : Prop where
  ne_nil : m ≠ []
  head_not_mem : ∀ h ∈ R.stem.head?, f h ∉ m
  close_not_mem : f R.close ∉ m
  not_infix_stem : ¬ m <:+: R.stem.map f

section Plain

variable {f : α → β} {m : List β}

omit [DecidableEq α] in
theorem not_isPrefix_cons {b : β} {s : List β} (hne : m ≠ []) (hb : b ∉ m) : ¬ m <+: b :: s := by
  intro h
  obtain ⟨a, m, rfl⟩ := List.exists_cons_of_ne_nil hne
  obtain ⟨rfl, -⟩ := List.cons_prefix_cons.mp h
  exact hb (by simp)

theorem Plain.prefix_iff (hm : R.Plain f m) {L : List (Option α)} {out : List α}
    (h : Aligned R L out) : ∀ {k : List β}, k ⊆ m →
      (k <+: out.map f ↔ k.map some <+: L.map (Option.map f)) := by
  induction h with
  | nil => intro k _; simp
  | kept c _ ih =>
    intro k hk
    cases k with
    | nil => simp
    | cons a k =>
      have hk' : k ⊆ m := fun b hb => hk (by simp [hb])
      simp only [List.map_cons, List.cons_prefix_cons, ih hk', Option.map_some,
        Option.some.injEq]
  | span j n _ _ =>
    intro k hk
    cases k with
    | nil => simp
    | cons a k =>
      obtain ⟨h, st, hst⟩ := List.exists_cons_of_ne_nil R.stem_ne_nil
      have hah : a ≠ f h := by
        rintro rfl
        exact hm.head_not_mem h (by simp [hst]) (hk (by simp))
      simp [tailMarks, hst, List.replicate_succ, List.cons_prefix_cons, hah]

theorem Plain.infix_tailMarks_append (hm : R.Plain f m) (n : Nat) (out : List α) :
    m <:+: (R.tailMarks (n + 1) ++ out).map f ↔ m <:+: out.map f := by
  have hcloses : ∀ n, m <:+: (List.replicate n R.close ++ out).map f ↔ m <:+: out.map f := by
    intro n
    induction n with
    | zero => simp
    | succ n ih =>
      rw [List.replicate_succ, List.cons_append, List.map_cons, List.infix_cons_iff, ih]
      simp [not_isPrefix_cons hm.ne_nil hm.close_not_mem]
  have hmarks : (R.tailMarks (n + 1) ++ out).map f =
      R.stem.map f ++ f R.close :: (List.replicate n R.close ++ out).map f := by
    simp [tailMarks, List.replicate_succ]
  rw [hmarks, infix_append_sep hm.ne_nil hm.close_not_mem, hcloses]
  simp [hm.not_infix_stem]

omit [DecidableEq α] in
theorem map_some_infix_holes (hne : m ≠ []) (k : Nat) (L : List (Option β)) :
    m.map some <:+: List.replicate k none ++ L ↔ m.map some <:+: L := by
  induction k with
  | zero => simp
  | succ k ih =>
    have hpre : ¬ m.map some <+: none :: (List.replicate k none ++ L) :=
      not_isPrefix_cons (by simpa using hne) (by simp)
    rw [List.replicate_succ, List.cons_append, List.infix_cons_iff, ih]
    simp [hpre]

theorem Plain.infix_iff (hm : R.Plain f m) {L : List (Option α)} {out : List α}
    (h : Aligned R L out) : m <:+: out.map f ↔ m.map some <:+: L.map (Option.map f) := by
  induction h with
  | nil => simp
  | kept c h ih =>
    have hpre := hm.prefix_iff (h.kept c) (List.Subset.refl m)
    simp only [List.map_cons] at hpre ⊢
    rw [List.infix_cons_iff, hpre, ih, List.infix_cons_iff]
  | span k n _ ih =>
    rw [hm.infix_tailMarks_append, ih, List.map_append, List.map_replicate, Option.map_none,
      map_some_infix_holes hm.ne_nil]

end Plain

/-! ## Occurrences outside the spans -/

/-- The word occurs in the text at positions that are all outside the spans. -/
def OccursOutside (R : Redactor α) (f : α → β) (m : List β) (s : List α) : Prop :=
  ∃ i, m <+: (s.drop i).map f ∧ ∀ j, i ≤ j → j < i + m.length → ¬ R.InSpan s j

theorem getElem?_map_mask (f : α → β) (s : List α) (j : Nat) (x : β) :
    ((R.mask s).map (Option.map f))[j]? = some (some x) ↔
      (s.map f)[j]? = some x ∧ ¬ R.InSpan s j := by
  rw [List.getElem?_map, List.getElem?_map, getElem?_mask]
  cases s[j]? with
  | none => simp
  | some c => by_cases hin : R.InSpan s j <;> simp [hin]

theorem map_some_infix_mask_iff {f : α → β} {m : List β} (s : List α) :
    m.map some <:+: (R.mask s).map (Option.map f) ↔ R.OccursOutside f m s := by
  -- an occurrence of the word is a list of positions that hold its elements
  have hpos : ∀ i, m.map some <+: ((R.mask s).map (Option.map f)).drop i ↔
      m <+: (s.drop i).map f ∧ ∀ j, i ≤ j → j < i + m.length → ¬ R.InSpan s j := by
    intro i
    simp only [List.map_drop, List.prefix_iff_getElem?, List.length_map, List.getElem_map,
      List.getElem?_drop, getElem?_map_mask, forall_and]
    refine and_congr_right fun _ => ⟨fun h j hij hj => ?_, fun h k hk => ?_⟩
    · have := h (j - i) (by omega)
      rwa [Nat.add_sub_cancel' hij] at this
    · exact h (i + k) (by omega) (by omega)
  rw [List.infix_iff_prefix_suffix]
  constructor
  · rintro ⟨t, hpre, ⟨u, hu⟩⟩
    refine ⟨u.length, (hpos u.length).mp ?_⟩
    rwa [← hu, List.drop_left]
  · rintro ⟨i, hi⟩
    exact ⟨_, (hpos i).mpr hi, List.drop_suffix i _⟩

/-- **Redaction neither makes nor breaks an occurrence outside the spans.** -/
theorem infix_redact_iff {f : α → β} {m : List β} (hm : R.Plain f m) (s : List α) :
    m <:+: (R.redact s).map f ↔ R.OccursOutside f m s := by
  rw [hm.infix_iff (aligned_redact R s), map_some_infix_mask_iff]

/-! ## Inside a span -/

theorem cutAll_length_le {w p u : List α} (hp : p ∈ R.pats) (hopen : R.IsOpen (w ++ (p ++ u))) :
    (R.cutAll (w ++ (p ++ u))).1.length ≤ w.length := by
  have hpos := List.length_pos_of_ne_nil (pat_ne_nil hp)
  have hlt : w.length < (w ++ (p ++ u)).length := by simp; omega
  rw [← inSpan_open_iff hopen w.length hlt]
  refine ⟨w.length, by simp, ⟨p, hp, ?_⟩, fun c hc => ?_⟩
  · rw [List.drop_left]
    exact List.prefix_append p u
  · exact hopen c (List.mem_of_mem_take (List.mem_of_mem_drop hc))

/-- The first pattern is at or before a known one, so what follows that does not move it. -/
theorem cutAll_length_mono {w p u v : List α} (hp : p ∈ R.pats)
    (hu : R.IsOpen (w ++ (p ++ u))) (hv : R.IsOpen (w ++ (p ++ v))) :
    (R.cutAll (w ++ (p ++ v))).1.length ≤ (R.cutAll (w ++ (p ++ u))).1.length := by
  have hle := cutAll_length_le hp hu
  have hpos := List.length_pos_of_ne_nil (pat_ne_nil hp)
  generalize hi : (R.cutAll (w ++ (p ++ u))).1.length = i at *
  -- the pattern found first with `u` behind is found with `v` behind as well
  obtain ⟨q, hq, hqu⟩ : ∃ q ∈ R.pats, q <+: (w ++ (p ++ u)).drop i := by
    rcases (cutAll_spec (R := R) (w ++ (p ++ u))).2.2 with ⟨-, hall⟩ | ⟨-, hcut⟩
    · rw [hall] at hi
      simp only [List.length_append] at hi
      omega
    · rwa [hi] at hcut
  have hfound : ∃ q ∈ R.pats, q <+: (w ++ (p ++ v)).drop i := by
    rw [List.drop_append_of_le_length hle] at hqu ⊢
    have hlen : (w.drop i).length = w.length - i := by simp
    rcases Nat.lt_or_ge (w.drop i).length q.length with hlong | hfit
    · obtain ⟨q', rfl⟩ : w.drop i <+: q :=
        List.prefix_of_prefix_length_le (List.prefix_append _ _) hqu hlong.le
      rcases Nat.eq_or_lt_of_le hle with rfl | hlt
      · exact ⟨p, hp, by simp⟩
      · -- two patterns would overlap
        exfalso
        have hrest : q' <+: p ++ u := (List.prefix_append_right_inj _).mp hqu
        have hapart := R.pat_apart _ hq p hp (w.length - i) (by rwa [← hlen]) (by omega)
        rw [← hlen, List.drop_left] at hapart
        rcases List.prefix_or_prefix_of_prefix hrest (List.prefix_append p u) with h | h
        · exact hapart.1 h
        · exact hapart.2 h
    · refine ⟨q, hq, List.IsPrefix.trans ?_ (List.prefix_append _ _)⟩
      exact List.prefix_of_prefix_length_le hqu (List.prefix_append _ _) hfit
  have hin : i < (w ++ (p ++ v)).length := by simp; omega
  rw [← inSpan_open_iff hv i hin]
  exact ⟨i, by simp, hfound, fun c hc => hv c (List.mem_of_mem_take (List.mem_of_mem_drop hc))⟩

theorem cutAll_fst_eq {w p u v : List α} (hp : p ∈ R.pats) (hu : R.IsOpen (w ++ (p ++ u)))
    (hv : R.IsOpen (w ++ (p ++ v))) :
    (R.cutAll (w ++ (p ++ u))).1 = (R.cutAll (w ++ (p ++ v))).1 := by
  have hkept : ∀ x, R.IsOpen (w ++ (p ++ x)) → (R.cutAll (w ++ (p ++ x))).1 =
      w.take (R.cutAll (w ++ (p ++ x))).1.length := fun x hx => by
    have hpre := (cutAll_spec (R := R) (w ++ (p ++ x))).1
    conv_lhs => rw [List.prefix_iff_eq_take.mp hpre]
    rw [List.take_append_of_le_length (cutAll_length_le hp hx)]
  have hlen := Nat.le_antisymm (cutAll_length_mono hp hv hu) (cutAll_length_mono hp hu hv)
  rw [hkept u hu, hkept v hv, hlen]

/-- Whatever stands behind a pattern, the text with holes is the same up to the number of
    holes. -/
theorem mask_span (R : Redactor α) {p : List α} (hp : p ∈ R.pats) (rest : List α) :
    ∀ a : List α, ∃ K X : List (Option α), ∀ u, R.IsOpen u →
      ∃ n, R.mask (a ++ (p ++ (u ++ rest))) = K ++ none :: (List.replicate n none ++ X) := by
  have hopen : ∀ w x, R.IsOpen w → R.IsOpen x → ∃ K, ∀ u, R.IsOpen u →
      ∃ n, R.mask (w ++ (p ++ (u ++ x))) = K ++ none :: List.replicate n none := by
    intro w x hw hx
    have hall : ∀ u, R.IsOpen u → R.IsOpen (w ++ (p ++ (u ++ x))) := fun u hu =>
      isOpen_append.mpr ⟨hw, isOpen_append.mpr ⟨isOpen_pat hp, isOpen_append.mpr ⟨hu, hx⟩⟩⟩
    refine ⟨(R.cutAll (w ++ (p ++ ([] ++ x)))).1.map some, fun u hu => ?_⟩
    have hle := cutAll_length_le hp (hall u hu)
    have hpos := List.length_pos_of_ne_nil (pat_ne_nil hp)
    obtain ⟨n, hn⟩ : ∃ n, (w ++ (p ++ (u ++ x))).length -
        (R.cutAll (w ++ (p ++ (u ++ x)))).1.length = n + 1 := by
      refine ⟨_, (Nat.succ_pred_eq_of_pos ?_).symm⟩
      simp only [List.length_append]
      omega
    refine ⟨n, ?_⟩
    rw [mask_open (hall u hu), hn, cutAll_fst_eq hp (hall u hu) (hall [] (by simp [IsOpen])),
      List.replicate_succ]
  refine span_induction (R := R) ?_ ?_
  · intro w hw
    refine span_induction (R := R) (P := fun rest => ∃ K X : List (Option α), ∀ u,
      R.IsOpen u → ∃ n, R.mask (w ++ (p ++ (u ++ rest))) =
        K ++ none :: (List.replicate n none ++ X)) ?_ ?_ rest
    · intro x hx
      obtain ⟨K, hK⟩ := hopen w x hw hx
      exact ⟨K, [], by simpa using hK⟩
    · intro x t tail hx ht _
      obtain ⟨K, hK⟩ := hopen w x hw hx
      refine ⟨K, some t :: R.mask tail, fun u hu => ?_⟩
      obtain ⟨n, hn⟩ := hK u hu
      have htext : w ++ (p ++ (u ++ (x ++ t :: tail))) =
          (w ++ (p ++ (u ++ x))) ++ t :: tail := by simp
      exact ⟨n, by rw [htext, mask_append_end ht, hn]; simp⟩
  · intro w t a _ ht ih
    obtain ⟨K, X, hKX⟩ := ih
    refine ⟨R.mask w ++ some t :: K, X, fun u hu => ?_⟩
    obtain ⟨n, hn⟩ := hKX u hu
    exact ⟨n, by rw [List.append_assoc, List.cons_append, mask_append_end ht, hn]; simp⟩

/-- **The text of a span has no part in what occurs outside the spans.** -/
theorem occursOutside_span_iff {f : α → β} {m : List β} {p : List α} (hne : m ≠ [])
    (hp : p ∈ R.pats) (a rest : List α) {u v : List α} (hu : R.IsOpen u) (hv : R.IsOpen v) :
    R.OccursOutside f m (a ++ (p ++ (u ++ rest))) ↔
      R.OccursOutside f m (a ++ (p ++ (v ++ rest))) := by
  obtain ⟨K, X, hKX⟩ := mask_span R hp rest a
  have hsides : ∀ x, R.IsOpen x → (R.OccursOutside f m (a ++ (p ++ (x ++ rest))) ↔
      m.map some <:+: K.map (Option.map f) ∨ m.map some <:+: X.map (Option.map f)) := by
    intro x hx
    obtain ⟨n, hn⟩ := hKX x hx
    rw [← map_some_infix_mask_iff, hn, List.map_append, List.map_cons, List.map_append,
      List.map_replicate, Option.map_none, infix_append_sep (by simpa using hne) (by simp),
      map_some_infix_holes hne]
  rw [hsides u hu, hsides v hv]

end Redactor

end SpanRedact
