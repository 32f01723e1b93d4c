/-
  Does the order of the environment matter?

  * `setNested_comm`, `setNested_absorb`, `setNested_setNested_append`: two settings at
    incomparable paths, at a path and below it, below a path and at it;
  * `setAll_perm`: overrides that are `Settled` give one tree in every order;
  * `env_order_irrelevant_iff`: and only those do.
-/
import Forgeclaw.Core.Config.EnvFrame

namespace Forgeclaw.Core.Config

open Value

/-! ## Two settings -/

/-- A later setting at or above the path of an earlier one undoes it. -/
theorem setNested_absorb {p q : List String} (hp : p ≠ []) (hq : p <+: q) (root v w : Value) :
    setNested (setNested root q w) p v = setNested root p v := by
  induction p generalizing q root with
  | nil => exact absurd rfl hp
  | cons k p ih =>
    cases hr : root.isTable with
    | false => rw [setNested_of_not_isTable hr]
    | true =>
      obtain ⟨t, rfl⟩ := eq_table_of_isTable hr
      obtain ⟨k', q, rfl⟩ := List.exists_cons_of_ne_nil (l := q) (by rintro rfl; simp at hq)
      obtain ⟨rfl, hpq⟩ := List.cons_prefix_cons.mp hq
      rw [setNested_table_cons, setNested_table_cons, setNested_table_cons,
        AssocMap.insert_insert]
      by_cases hpn : p = []
      · simp [setChild, hpn]
      · have hqn : q ≠ [] := by
          rintro rfl
          exact hpn (List.prefix_nil.mp hpq)
        rw [setChild, setChild, setChild, if_neg hpn, if_neg hpn, if_neg hqn,
          AssocMap.get_insert_self, Option.getD_some, ih hpn hpq]

/-- A later setting below the path of an earlier one changes the value that was set. -/
theorem setNested_setNested_append {p : List String} (hp : p ≠ []) {rest : List String}
    (hrest : rest ≠ []) (root v w : Value) :
    setNested (setNested root p v) (p ++ rest) w = setNested root p (setNested v rest w) := by
  induction p generalizing root with
  | nil => exact absurd rfl hp
  | cons k p ih =>
    cases hr : root.isTable with
    | false => simp only [setNested_of_not_isTable hr]
    | true =>
      obtain ⟨t, rfl⟩ := eq_table_of_isTable hr
      rw [List.cons_append, setNested_table_cons, setNested_table_cons, setNested_table_cons,
        AssocMap.insert_insert, setChild, if_neg (by simp [hrest]), AssocMap.get_insert_self,
        Option.getD_some, setChild, setChild]
      by_cases hpn : p = []
      · simp [hpn]
      · rw [if_neg hpn, if_neg hpn, ih hpn]

theorem setNested_comm {p q : List String} (h : Incomparable p q) (root v w : Value) :
    setNested (setNested root p v) q w = setNested (setNested root q w) p v := by
  induction p generalizing q root with
  | nil => exact absurd rfl h.symm.ne_nil
  | cons k p ih =>
    cases hr : root.isTable with
    | false => simp only [setNested_of_not_isTable hr]
    | true =>
      obtain ⟨t, rfl⟩ := eq_table_of_isTable hr
      obtain ⟨k', q, rfl⟩ := List.exists_cons_of_ne_nil h.ne_nil
      simp only [setNested_table_cons, setChild]
      by_cases heq : k' = k
      · subst heq
        have hpq := incomparable_cons.mp h
        simp only [AssocMap.get_insert_self, Option.getD_some, if_neg hpq.ne_nil,
          if_neg hpq.symm.ne_nil, AssocMap.insert_insert, ih hpq]
      · rw [AssocMap.get_insert_of_ne heq, AssocMap.get_insert_of_ne (Ne.symm heq),
          AssocMap.insert_comm heq]

/-! ## Settings that change nothing -/

theorem wellFormed_setNested {root value : Value} (hr : root.wellFormed = true)
    (hv : value.wellFormed = true) (path : List String) :
    (setNested root path value).wellFormed = true := by
  induction path generalizing root with
  | nil => exact hr
  | cons k rest ih =>
    cases ht : root.isTable with
    | false => rwa [setNested_of_not_isTable ht]
    | true =>
      obtain ⟨t, rfl⟩ := eq_table_of_isTable ht
      obtain ⟨hord, hentries⟩ := wellFormed_table.mp hr
      rw [setNested_table_cons, wellFormed_table]
      refine ⟨hord.insert _ _, fun e he => ?_⟩
      rcases AssocMap.mem_insert he with rfl | he
      · unfold setChild
        split
        · exact hv
        · cases hget : AssocMap.get k t with
          | none => exact ih rfl
          | some c => exact ih (hentries _ (AssocMap.mem_of_get hget))
      · exact hentries e he

theorem wellFormed_setAll {root : Value} (hr : root.wellFormed = true)
    {sets : List (List String × Value)} (h : ∀ s ∈ sets, s.2.wellFormed = true) :
    (setAll root sets).wellFormed = true := by
  induction sets generalizing root with
  | nil => exact hr
  | cons s sets ih =>
    rw [setAll_cons]
    exact ih (wellFormed_setNested hr (h s (by simp)) s.1) fun s' hs' => h s' (by simp [hs'])

/-- A setting changes nothing if something is in its way, or if the value is there already. -/
theorem setNested_eq_self {root value : Value} (hr : root.wellFormed = true) {path : List String}
    (hpath : path ≠ []) (h : root.Unblocked path → root.lookup path = some value) :
    setNested root path value = root := by
  induction path generalizing root with
  | nil => exact absurd rfl hpath
  | cons k rest ih =>
    cases ht : root.isTable with
    | false => exact setNested_of_not_isTable ht _ _
    | true =>
      obtain ⟨t, rfl⟩ := eq_table_of_isTable ht
      obtain ⟨hord, hentries⟩ := wellFormed_table.mp hr
      rw [unblocked_table_cons, lookup_table_cons] at h
      rw [setNested_table_cons, setChild]
      refine congrArg _ (AssocMap.insert_eq_self hord ?_)
      cases hget : AssocMap.get k t with
      | none => simp [hget] at h
      | some c =>
        simp only [hget, Option.some.injEq, forall_eq', Option.bind_some] at h
        by_cases hrest : rest = []
        · subst hrest
          simpa using h (by simp)
        · rw [if_neg hrest, Option.getD_some,
            ih (hentries _ (AssocMap.mem_of_get hget)) hrest h]

theorem unblocked_setNested_append {p rest : List String} (hrest : rest ≠ []) (root value : Value) :
    (setNested root (p ++ rest) value).Unblocked p ↔ root.Unblocked p := by
  induction p generalizing root with
  | nil => simp
  | cons k p ih =>
    cases hr : root.isTable with
    | false => rw [setNested_of_not_isTable hr]
    | true =>
      obtain ⟨t, rfl⟩ := eq_table_of_isTable hr
      rw [List.cons_append, setNested_table_cons, unblocked_table_cons, unblocked_table_cons,
        AssocMap.get_insert_self, setChild, if_neg (by simp [hrest])]
      simp only [Option.some.injEq, forall_eq', ih]
      cases hget : AssocMap.get k t with
      | none => simp [unblocked_empty]
      | some c => simp

/-- A setting that is not at or above a path neither clears nor blocks the way to it. -/
theorem unblocked_setAll_iff {p : List String} {sets : List (List String × Value)}
    (h : ∀ s ∈ sets, ¬ s.1 <+: p) (root : Value) :
    (setAll root sets).Unblocked p ↔ root.Unblocked p := by
  induction sets generalizing root with
  | nil => exact Iff.rfl
  | cons s sets ih =>
    rw [setAll_cons, ih fun s' hs' => h s' (by simp [hs'])]
    have hs := h s (by simp)
    by_cases hp : p <+: s.1
    · obtain ⟨rest, hrest⟩ := hp
      rw [← hrest]
      refine unblocked_setNested_append ?_ root s.2
      rintro rfl
      simp [← hrest] at hs
    · exact (setNested_of_incomparable ⟨hs, hp⟩ root s.2).2

/-! ## Dropping the overrides below another one -/

/-- `q` is a longer path that goes through `p`. -/
def Below (p q : List String) : Prop := p <+: q ∧ p ≠ q

instance (p q : List String) : Decidable (Below p q) := inferInstanceAs (Decidable (_ ∧ _))

theorem Below.trans {p q r : List String} (h : Below p q) (h' : Below q r) : Below p r := by
  refine ⟨h.1.trans h'.1, ?_⟩
  rintro rfl
  exact h.2 (h.1.eq_of_length_le h'.1.length_le)

theorem Below.length_lt {p q : List String} (h : Below p q) : p.length < q.length :=
  h.1.length_le.lt_of_ne fun heq => h.2 (h.1.eq_of_length heq)

theorem Below.exists_rest {p q : List String} (h : Below p q) : ∃ rest, rest ≠ [] ∧ q = p ++ rest := by
  obtain ⟨⟨rest, rfl⟩, hne⟩ := h
  exact ⟨rest, by rintro rfl; simp at hne, rfl⟩

theorem Incomparable.of_isPrefix {p q r : List String} (h : Incomparable p q) (hr : p <+: r) :
    Incomparable r q := by
  refine ⟨fun hrq => h.1 (hr.trans hrq), fun hqr => ?_⟩
  rcases List.prefix_or_prefix_of_prefix hr hqr with hpq | hqp
  · exact h.1 hpq
  · exact h.2 hqp

/-- The overrides that are not below `p`. -/
def dropBelow (p : List String) (sets : List (List String × Value)) : List (List String × Value) :=
  sets.filter fun s => ¬ Below p s.1

theorem dropBelow_cons_of_below {p : List String} {s : List String × Value} (h : Below p s.1)
    (sets : List (List String × Value)) : dropBelow p (s :: sets) = dropBelow p sets := by
  simp [dropBelow, h]

theorem dropBelow_cons_of_not_below {p : List String} {s : List String × Value}
    (h : ¬ Below p s.1) (sets : List (List String × Value)) :
    dropBelow p (s :: sets) = s :: dropBelow p sets := by
  simp [dropBelow, h]

/-- Before `p` is set, what is set below it does not matter. -/
theorem setAll_dropBelow_before {p : List String} (hp : p ≠ []) {sets : List (List String × Value)}
    (h : ∀ s ∈ sets, ¬ s.1 <+: p) {t t' : Value} (htt' : ∀ v, setNested t p v = setNested t' p v)
    (v : Value) :
    setNested (setAll t sets) p v = setNested (setAll t' (dropBelow p sets)) p v := by
  induction sets generalizing t t' with
  | nil => exact htt' v
  | cons s sets ih =>
    have hs := h s (by simp)
    have hsets : ∀ s' ∈ sets, ¬ s'.1 <+: p := fun s' hs' => h s' (by simp [hs'])
    by_cases hps : p <+: s.1
    · have hne : p ≠ s.1 := by
        rintro rfl
        simp at hs
      rw [dropBelow_cons_of_below ⟨hps, hne⟩, setAll_cons]
      exact ih hsets fun w => by rw [setNested_absorb hp hps, htt']
    · rw [dropBelow_cons_of_not_below (fun hb => hps hb.1), setAll_cons, setAll_cons]
      refine ih hsets fun w => ?_
      rw [setNested_comm ⟨hs, hps⟩, setNested_comm ⟨hs, hps⟩, htt']

/-- Where each override below `p` would change nothing, they can be dropped. -/
theorem setAll_dropBelow_after (all : List (List String × Value)) {p : List String}
    {sets : List (List String × Value)} (hsub : ∀ s ∈ sets, s ∈ all)
    (h : ∀ s ∈ sets, ¬ s.1 <+: p) {t : Value}
    (ht : ∀ s ∈ all, Below p s.1 → setNested t s.1 s.2 = t) :
    setAll t sets = setAll t (dropBelow p sets) := by
  induction sets generalizing t with
  | nil => rfl
  | cons s sets ih =>
    have hs := h s (by simp)
    have hsub' : ∀ s' ∈ sets, s' ∈ all := fun s' hs' => hsub s' (by simp [hs'])
    have hsets : ∀ s' ∈ sets, ¬ s'.1 <+: p := fun s' hs' => h s' (by simp [hs'])
    by_cases hb : Below p s.1
    · rw [dropBelow_cons_of_below hb, setAll_cons, ht s (hsub s (by simp)) hb]
      exact ih hsub' hsets ht
    · rw [dropBelow_cons_of_not_below hb, setAll_cons, setAll_cons]
      refine ih hsub' hsets fun s' hs' hb' => ?_
      have hinc : Incomparable p s.1 := by
        refine ⟨fun hps => hb ⟨hps, ?_⟩, hs⟩
        intro heq
        simp [heq] at hs
      rw [setNested_comm (hinc.of_isPrefix hb'.1).symm, ht s' hs' hb']

/-! ## Overrides in any order -/

/-- What makes the order of overrides irrelevant. Take an override that no other is above, and
    whose path is free in the tree: each override below it finds something in its way in the
    value set there, or its own value already. -/
def Settled (root : Value) (sets : List (List String × Value)) : Prop :=
  ∀ s ∈ sets, (∀ s' ∈ sets, ¬ Below s'.1 s.1) → root.Unblocked s.1 →
    ∀ s' ∈ sets, ∀ rest, rest ≠ [] → s'.1 = s.1 ++ rest →
      s.2.Unblocked rest → s.2.lookup rest = some s'.2

variable {root : Value} {sets : List (List String × Value)}

theorem Settled.perm (h : Settled root sets) {sets' : List (List String × Value)}
    (hp : sets.Perm sets') : Settled root sets' := by
  intro s hs hlow hfree s' hs'
  exact h s (hp.mem_iff.mpr hs) (fun s'' hs'' => hlow s'' (hp.mem_iff.mp hs'')) hfree s'
    (hp.mem_iff.mpr hs')

theorem Settled.dropBelow (h : Settled root sets) (p : List String) :
    Settled root (dropBelow p sets) := by
  intro s hs hlow hfree s' hs'
  obtain ⟨hs, hps⟩ := List.mem_filter.mp hs
  refine h s hs (fun s'' hs'' hb => ?_) hfree s' (List.mem_of_mem_filter hs')
  by_cases hps'' : Below p s''.1
  · simp [hps''.trans hb] at hps
  · exact hlow s'' (List.mem_filter.mpr ⟨hs'', by simpa using hps''⟩) hb

/-- The lowest override can lose what is below it. -/
theorem setAll_dropBelow (hroot : root.wellFormed = true)
    (hwf : ∀ s ∈ sets, s.2.wellFormed = true) (hne : ∀ s ∈ sets, s.1 ≠ [])
    (hnodup : (sets.map Prod.fst).Nodup) (h : Settled root sets)
    {s : List String × Value} (hs : s ∈ sets) (hlow : ∀ s' ∈ sets, ¬ Below s'.1 s.1) :
    setAll root sets = setAll root (dropBelow s.1 sets) := by
  obtain ⟨before, after, rfl⟩ := List.append_of_mem hs
  have hother : ∀ s' ∈ before ++ after, ¬ s'.1 <+: s.1 := by
    intro s' hs' hpre
    refine hlow s' (by grind) ⟨hpre, fun heq => ?_⟩
    rw [List.map_append, List.map_cons] at hnodup
    have hmem : s.1 ∈ before.map Prod.fst ++ after.map Prod.fst := by
      rw [← List.map_append, ← heq]
      exact List.mem_map_of_mem hs'
    exact (List.nodup_middle.mp hnodup).notMem hmem
  have hbefore : ∀ s' ∈ before, ¬ s'.1 <+: s.1 := fun s' hs' => hother s' (by simp [hs'])
  have hafter : ∀ s' ∈ after, ¬ s'.1 <+: s.1 := fun s' hs' => hother s' (by simp [hs'])
  have hsne := hne s hs
  have hsplit : dropBelow s.1 (before ++ s :: after)
      = dropBelow s.1 before ++ s :: dropBelow s.1 after := by
    rw [dropBelow, List.filter_append]
    exact congrArg _ (dropBelow_cons_of_not_below (fun hb => hb.2 rfl) after)
  rw [hsplit, setAll_append, setAll_append, setAll_cons, setAll_cons,
    ← setAll_dropBelow_before hsne hbefore (fun _ => rfl)]
  refine setAll_dropBelow_after (before ++ s :: after) (by grind) hafter fun s' hs' hb => ?_
  obtain ⟨rest, hrest, heq⟩ := hb.exists_rest
  have hwf₀ : (setAll root before).wellFormed = true :=
    wellFormed_setAll hroot fun s' hs' => hwf s' (by simp [hs'])
  by_cases hfree : root.Unblocked s.1
  · rw [heq, setNested_setNested_append hsne hrest]
    exact congrArg _ (setNested_eq_self (hwf s hs) hrest
      fun hrestfree => h s hs hlow hfree s' hs' rest hrest heq hrestfree)
  · -- something above keeps both overrides out
    have hblocked : ¬ (setAll root before).Unblocked s.1 := by
      rwa [unblocked_setAll_iff hbefore]
    rw [setNested_eq_self hwf₀ hsne (absurd · hblocked)]
    exact setNested_eq_self hwf₀ (hne s' hs') fun hf => absurd (hf.of_isPrefix hb.1) hblocked

theorem exists_lowest {s : List String × Value} (hs : s ∈ sets) :
    ∃ s' ∈ sets, s'.1 <+: s.1 ∧ ∀ s'' ∈ sets, ¬ Below s''.1 s'.1 := by
  induction hn : s.1.length using Nat.strong_induction_on generalizing s with
  | _ n ih =>
    by_cases hlow : ∀ s'' ∈ sets, ¬ Below s''.1 s.1
    · exact ⟨s, hs, List.prefix_refl _, hlow⟩
    · push Not at hlow
      obtain ⟨s'', hs'', hb⟩ := hlow
      obtain ⟨s', hs', hpre, hlow'⟩ := ih _ (hn ▸ hb.length_lt) hs'' rfl
      exact ⟨s', hs', hpre.trans hb.1, hlow'⟩

theorem incomparable_of_not_below {p q : List String} (hne : p ≠ q) (hpq : ¬ Below p q)
    (hqp : ¬ Below q p) : Incomparable p q :=
  ⟨fun h => hpq ⟨h, hne⟩, fun h => hqp ⟨h, hne.symm⟩⟩

/-- **Settled overrides give one tree in every order.** -/
theorem setAll_perm (hroot : root.wellFormed = true) (hwf : ∀ s ∈ sets, s.2.wellFormed = true)
    (hne : ∀ s ∈ sets, s.1 ≠ []) (hnodup : (sets.map Prod.fst).Nodup) (h : Settled root sets)
    {sets' : List (List String × Value)} (hp : sets.Perm sets') :
    setAll root sets = setAll root sets' := by
  induction hn : sets.length using Nat.strong_induction_on generalizing sets sets' with
  | _ n ih =>
    by_cases hbelow : ∃ s ∈ sets, ∃ s' ∈ sets, Below s'.1 s.1
    · -- drop what is below a lowest override, in both orders
      obtain ⟨s, hs, s', hs', hb⟩ := hbelow
      obtain ⟨s₀, hs₀, hpre, hlow⟩ := exists_lowest hs'
      have hb₀ : Below s₀.1 s.1 := by
        refine ⟨hpre.trans hb.1, fun heq => ?_⟩
        exact hlow s' hs' ⟨heq ▸ hb.1, fun heq' => hb.2 (heq' ▸ heq)⟩
      have hshort : (dropBelow s₀.1 sets).length < n :=
        hn ▸ List.length_filter_lt_length_iff_exists.mpr ⟨s, hs, by simpa using hb₀⟩
      have hmem : ∀ s ∈ dropBelow s₀.1 sets, s ∈ sets := fun s hs => List.mem_of_mem_filter hs
      rw [setAll_dropBelow hroot hwf hne hnodup h hs₀ hlow,
        ih _ hshort (fun s hs => hwf s (hmem s hs)) (fun s hs => hne s (hmem s hs))
          (hnodup.sublist (List.filter_sublist.map _)) (h.dropBelow s₀.1) (hp.filter _) rfl]
      refine (setAll_dropBelow hroot (fun s hs => hwf s (hp.mem_iff.mpr hs))
        (fun s hs => hne s (hp.mem_iff.mpr hs)) ((hp.map _).nodup_iff.mp hnodup) (h.perm hp)
        (hp.mem_iff.mp hs₀) fun s hs => hlow s (hp.mem_iff.mpr hs)).symm
    · -- no override is below another: any two commute
      push Not at hbelow
      refine hp.foldl_eq' (fun s hs s' hs' t => ?_) root
      by_cases heq : s = s'
      · rw [heq]
      · have hpath : s.1 ≠ s'.1 := fun hpath => heq (List.inj_on_of_nodup_map hnodup hs hs' hpath)
        exact setNested_comm
          (incomparable_of_not_below hpath (hbelow s' hs' s hs) (hbelow s hs s' hs')) t _ _

/-- Overrides that are not settled give two trees. -/
theorem settled_of_setAll_eq {before : List (List String × Value)} {s s' : List String × Value}
    (hne : s.1 ≠ []) (hbefore : ∀ s'' ∈ before, ¬ s''.1 <+: s.1) (hfree : root.Unblocked s.1)
    {rest : List String} (hrest : rest ≠ []) (heq : s'.1 = s.1 ++ rest)
    (h : setAll root (before ++ [s, s']) = setAll root (before ++ [s', s]))
    (hrestfree : s.2.Unblocked rest) : s.2.lookup rest = some s'.2 := by
  have hfree' : (setAll root before).Unblocked s.1 := (unblocked_setAll_iff hbefore root).mpr hfree
  simp only [setAll_append, setAll_cons] at h
  have hleft : ∀ t : Value, setAll t [] = t := fun _ => rfl
  rw [hleft, hleft, heq, setNested_setNested_append hne hrest,
    setNested_absorb hne (List.prefix_append _ _)] at h
  have hval := (lookup_setNested_iff hne _ (setNested s.2 rest s'.2)).mpr hfree'
  rw [h, (lookup_setNested_iff hne _ s.2).mpr hfree', Option.some.injEq] at hval
  rw [hval]
  exact (lookup_setNested_iff hrest _ _).mpr hrestfree

section Env

variable (toLowercase : String → String) {fromStr : String → Option Value}

theorem wellFormed_parseEnvValue (hfromStr : ∀ s v, fromStr s = some v → v.wellFormed = true)
    (raw : String) : (parseEnvValue fromStr raw).wellFormed = true := by
  simp only [parseEnvValue]
  split
  · rename_i t ht
    split
    · rename_i v hv
      exact (wellFormed_table.mp (hfromStr _ _ ht)).2 _ (AssocMap.mem_of_get hv)
    · rfl
  · rfl

theorem overrides_append (envVars envVars' : List (String × String)) :
    overrides toLowercase fromStr (envVars ++ envVars')
      = overrides toLowercase fromStr envVars ++ overrides toLowercase fromStr envVars' :=
  List.filterMap_append

theorem path_ne_nil_of_mem {envVars : List (String × String)} {s : List String × Value}
    (h : s ∈ overrides toLowercase fromStr envVars) : s.1 ≠ [] := by
  obtain ⟨kv, -, hkvs⟩ := List.mem_filterMap.mp h
  obtain ⟨p, hp, rfl⟩ := Option.map_eq_some_iff.mp hkvs
  exact overridePath_ne_nil hp

/-- Two members of a list, put in front of its others. -/
theorem exists_perm_pair {α : Type} [DecidableEq α] {a b : α} {l : List α} (ha : a ∈ l)
    (hb : b ∈ l) (hne : b ≠ a) : ∃ others, l.Perm (a :: b :: others) := by
  have hmem : b ∈ l.erase a := (List.mem_erase_of_ne hne).mpr hb
  exact ⟨(l.erase a).erase b,
    (List.perm_cons_erase ha).trans ((List.perm_cons_erase hmem).cons a)⟩

/-- Where no order matters, two of the overrides can come last in either order. -/
theorem exists_two_orders {base : Value} {envVars : List (String × String)}
    (h : ∀ envVars', envVars'.Perm envVars →
      applyEnvOverrides toLowercase fromStr base envVars'
        = applyEnvOverrides toLowercase fromStr base envVars)
    {s s' : List String × Value} (hs : s ∈ overrides toLowercase fromStr envVars)
    (hs' : s' ∈ overrides toLowercase fromStr envVars) (hne : s' ≠ s) :
    ∃ others, (overrides toLowercase fromStr envVars).Perm (s :: s' :: others) ∧
      setAll base (others ++ [s, s']) = setAll base (others ++ [s', s]) := by
  obtain ⟨kv, hkv, hkvs⟩ := List.mem_filterMap.mp hs
  obtain ⟨kv', hkv', hkvs'⟩ := List.mem_filterMap.mp hs'
  have hkvne : kv' ≠ kv := by
    rintro rfl
    exact hne (Option.some.inj (hkvs'.symm.trans hkvs))
  obtain ⟨others, hperm⟩ := exists_perm_pair hkv hkv' hkvne
  have hone := h (others ++ [kv, kv']) (List.perm_append_comm.trans hperm.symm)
  have htwo := h (others ++ [kv', kv])
    (((List.Perm.swap kv kv' []).append_left others).trans (List.perm_append_comm.trans hperm.symm))
  have hone' : overrides toLowercase fromStr [kv, kv'] = [s, s'] := by
    simp [overrides, hkvs, hkvs']
  have htwo' : overrides toLowercase fromStr [kv', kv] = [s', s] := by
    simp [overrides, hkvs, hkvs']
  have hcons : overrides toLowercase fromStr (kv :: kv' :: others)
      = s :: s' :: overrides toLowercase fromStr others := by
    simp [overrides, hkvs, hkvs']
  rw [← htwo, applyEnvOverrides_eq, applyEnvOverrides_eq, overrides_append, overrides_append,
    hone', htwo'] at hone
  exact ⟨_, hcons ▸ hperm.filterMap _, hone⟩

/-- **When the order of the environment does not matter.** Let the overriding variables have
    distinct paths. All orders of the environment give the same tree iff the following holds:
    take a variable whose path has no other override above it and is free in the base (each
    proper prefix holds a table or nothing there); the value it sets has, at each longer
    override path, something in the way or the very value that the other variable sets. -/
theorem env_order_irrelevant_iff
    (hfromStr : ∀ s v, fromStr s = some v → v.wellFormed = true)
    (base : Document) {envVars : List (String × String)}
    (hdistinct : (overridePaths toLowercase envVars).Nodup) :
    (∀ envVars', envVars'.Perm envVars →
      applyEnvOverrides toLowercase fromStr base.value envVars'
        = applyEnvOverrides toLowercase fromStr base.value envVars) ↔
      Settled base.value (overrides toLowercase fromStr envVars) := by
  have hnodup : ((overrides toLowercase fromStr envVars).map Prod.fst).Nodup := by
    rwa [overrides_map_fst]
  constructor
  · intro h s hs hlow hfree s' hs' rest hrest heq hrestfree
    have hne : s' ≠ s := by
      rintro rfl
      simp [hrest] at heq
    obtain ⟨others, hsets, horders⟩ := exists_two_orders toLowercase h hs hs' hne
    refine settled_of_setAll_eq (path_ne_nil_of_mem toLowercase hs) (fun s'' hs'' hpre => ?_) hfree
      hrest heq horders hrestfree
    refine hlow s'' (hsets.mem_iff.mpr (by simp [hs''])) ⟨hpre, fun hpath => ?_⟩
    have hnd := (hsets.map Prod.fst).nodup_iff.mp hnodup
    refine (List.nodup_cons.mp hnd).1 (List.mem_cons_of_mem _ ?_)
    exact hpath ▸ List.mem_map_of_mem hs''
  · intro h envVars' hp
    rw [applyEnvOverrides_eq, applyEnvOverrides_eq]
    refine (setAll_perm base.ordered ?_ ?_ hnodup h (hp.symm.filterMap _)).symm
    · intro s hs
      obtain ⟨kv, -, hkvs⟩ := List.mem_filterMap.mp hs
      obtain ⟨p, -, rfl⟩ := Option.map_eq_some_iff.mp hkvs
      exact wellFormed_parseEnvValue hfromStr kv.2
    · exact fun s hs => path_ne_nil_of_mem toLowercase hs

end Env

/-- The parser, on the documents that the runs below need. -/
def parsedSettings (s : String) : Option Value :=
  if s = "v = \x7b retry = 1 \x7d" then
    some (.table [("v", .table [("retry", .integer 1)])])
  else parsed s

theorem wellFormed_parsedSettings (s : String) (v : Value) (h : parsedSettings s = some v) :
    v.wellFormed = true := by
  unfold parsedSettings parsed at h
  split at h
  · cases h
    decide
  · split at h
    · cases h
      decide
    · cases h

/-- A plain value with an override below it: refused before and after. -/
theorem env_order_irrelevant_iff_plain :
    applyEnvOverrides lower parsedSettings retryOff.value
        [("FORGECLAW_CHANNELS__web__NAME__FIRST", "3"), ("FORGECLAW_CHANNELS__web__NAME", "3")]
      = applyEnvOverrides lower parsedSettings retryOff.value
        [("FORGECLAW_CHANNELS__web__NAME", "3"), ("FORGECLAW_CHANNELS__web__NAME__FIRST", "3")] := by
  refine (env_order_irrelevant_iff lower wellFormed_parsedSettings retryOff
    (by decide +kernel)).mpr ?_ _ (List.Perm.swap _ _ _)
  have hsets : overrides lower parsedSettings
      [("FORGECLAW_CHANNELS__web__NAME", "3"), ("FORGECLAW_CHANNELS__web__NAME__FIRST", "3")]
      = [(["channels", "web", "name"], .integer 3),
        (["channels", "web", "name", "first"], .integer 3)] := rfl
  rw [hsets]
  intro s hs hlow hfree s' hs' rest hrest heq hrestfree
  obtain ⟨k, rest, rfl⟩ := List.exists_cons_of_ne_nil hrest
  rcases List.mem_cons.mp hs with rfl | hs
  · exact absurd hrestfree (not_unblocked_of_not_isTable rfl k rest)
  · obtain rfl := List.mem_singleton.mp hs
    exact absurd hrestfree (not_unblocked_of_not_isTable rfl k rest)

def settingsTable : String × String :=
  ("FORGECLAW_CHANNELS__web__SETTINGS", "\x7b retry = 1 \x7d")

def settingsAttempts : String × String := ("FORGECLAW_CHANNELS__web__SETTINGS__ATTEMPTS", "3")

/-- A table for the settings and a value for one of them: the value survives in one order and
    is lost in the other. -/
theorem env_order_matters :
    (overridePaths lower [settingsTable, settingsAttempts]).Nodup ∧
      [settingsAttempts, settingsTable].Perm [settingsTable, settingsAttempts] ∧
      applyEnvOverrides lower parsedSettings retryOff.value [settingsAttempts, settingsTable]
        ≠ applyEnvOverrides lower parsedSettings retryOff.value
          [settingsTable, settingsAttempts] := by
  refine ⟨by decide +kernel, List.Perm.swap _ _ _, fun h => ?_⟩
  have hlast : (applyEnvOverrides lower parsedSettings retryOff.value
      [settingsTable, settingsAttempts]).lookup ["channels", "web", "settings", "attempts"]
      = some (.integer 3) := rfl
  have hfirst : (applyEnvOverrides lower parsedSettings retryOff.value
      [settingsAttempts, settingsTable]).lookup ["channels", "web", "settings", "attempts"]
      = none := rfl
  rw [← h, hfirst] at hlast
  cases hlast

end Forgeclaw.Core.Config
