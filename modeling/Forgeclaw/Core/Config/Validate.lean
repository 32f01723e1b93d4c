/-
  `ForgeclawConfig::validate` (`config/mod.rs`): cross-references between the sections.

  * `validate_eq`: the loops collect one text for each broken reference;
  * `refs_pairwise`, `mem_refs_iff`: the references of the groups, each once and in order;
  * `validate_reports`: `validate` accepts what has no broken reference, and else reports all
    of them.
-/
import Forgeclaw.Core.Error
import Forgeclaw.Core.Config.Types

namespace Forgeclaw.Core.Config

namespace ForgeclawConfig

/-! ## The checks -/

/-- `errors.push` under a check. -/
def pushUnless (ok : Bool) (message : String) (errors : List String) : List String :=
  if ok then errors else errors ++ [message]

def checkBudgetPool (c : ForgeclawConfig) (groupName : String) (budgetPool : Option String)
    (errors : List String) : List String :=
  match budgetPool with
  | some pool =>
    pushUnless (c.budgetPools.containsKey pool)
      s!"group \u0027{groupName}\u0027 references unknown budget_pool \u0027{pool}\u0027" errors
  | none => errors

/-- The loop over a group's fallback chain. -/
def checkFallbacks (c : ForgeclawConfig) (groupName : String) (fallback : List FallbackEntry)
    (errors : List String) : List String :=
  fallback.zipIdx.foldl (fun errors fb =>
    pushUnless (c.providers.containsKey fb.1.provider)
      s!"group \u0027{groupName}\u0027 fallback[{fb.2}] references unknown provider \u0027{fb.1.provider}\u0027"
      errors) errors

/-- One turn of the loop over the groups. -/
def checkGroup (c : ForgeclawConfig) (errors : List String) (entry : String × GroupConfig) :
    List String :=
  let groupName := entry.1
  let group := entry.2
  let errors := pushUnless (c.providers.containsKey group.provider)
    s!"group \u0027{groupName}\u0027 references unknown provider \u0027{group.provider}\u0027" errors
  let errors := pushUnless (c.channels.containsKey group.channel)
    s!"group \u0027{groupName}\u0027 references unknown channel \u0027{group.channel}\u0027" errors
  let errors := c.checkBudgetPool groupName group.budgetPool errors
  c.checkFallbacks groupName group.fallback errors

def missingChannels : String := "at least one channel must be defined when groups are present"

def validate (c : ForgeclawConfig) : Except ConfigError Unit :=
  let errors := if c.channels.isEmpty && !c.groups.isEmpty then [missingChannels] else []
  let errors := c.groups.entries.foldl c.checkGroup errors
  if errors.isEmpty then .ok () else .error (.validation errors)

end ForgeclawConfig

/-! ## References -/

/-- The places in a group that name an entry of another section. -/
inductive Slot where
  | provider
  | channel
  | budgetPool
  | fallback (i : ℕ)
  deriving DecidableEq, Repr

/-- The order in which a group's places are reported. -/
def Slot.rank : Slot → ℕ
  | provider => 0
  | channel => 1
  | budgetPool => 2
  | fallback i => 3 + i

/-- A group, a place in it, and the name that stands there. -/
structure Reference where
  group : String
  slot : Slot
  target : String
  deriving DecidableEq, Repr

namespace Reference

/-- By group, and within a group by place. -/
def Lt (r r' : Reference) : Prop :=
  r.group < r'.group ∨ r.group = r'.group ∧ r.slot.rank < r'.slot.rank

/-- The text that reports a broken reference. -/
def message (r : Reference) : String :=
  match r.slot with
  | .provider => s!"group \u0027{r.group}\u0027 references unknown provider \u0027{r.target}\u0027"
  | .channel => s!"group \u0027{r.group}\u0027 references unknown channel \u0027{r.target}\u0027"
  | .budgetPool => s!"group \u0027{r.group}\u0027 references unknown budget_pool \u0027{r.target}\u0027"
  | .fallback i =>
    s!"group \u0027{r.group}\u0027 fallback[{i}] references unknown provider \u0027{r.target}\u0027"

end Reference

/-- The group has the name at the place. -/
def GroupConfig.Names (g : GroupConfig) : Slot → String → Prop
  | .provider, t => g.provider = t
  | .channel, t => g.channel = t
  | .budgetPool, t => g.budgetPool = some t
  | .fallback i, t => ∃ fb, g.fallback[i]? = some fb ∧ fb.provider = t

namespace ForgeclawConfig

/-- The reference occurs in the configuration. -/
def Refers (c : ForgeclawConfig) (r : Reference) : Prop :=
  ∃ g, (r.group, g) ∈ c.groups.entries ∧ g.Names r.slot r.target

/-- The reference's name is a key of the section that its place refers to. -/
def resolves (c : ForgeclawConfig) (r : Reference) : Bool :=
  match r.slot with
  | .provider | .fallback _ => c.providers.containsKey r.target
  | .channel => c.channels.containsKey r.target
  | .budgetPool => c.budgetPools.containsKey r.target

end ForgeclawConfig

/-- A group's references, in the order of the checks. -/
def groupRefs (entry : String × GroupConfig) : List Reference :=
  ⟨entry.1, .provider, entry.2.provider⟩ :: ⟨entry.1, .channel, entry.2.channel⟩ ::
    (entry.2.budgetPool.toList.map fun pool => ⟨entry.1, .budgetPool, pool⟩) ++
    entry.2.fallback.zipIdx.map fun fb => ⟨entry.1, .fallback fb.2, fb.1.provider⟩

namespace ForgeclawConfig

def refs (c : ForgeclawConfig) : List Reference := c.groups.entries.flatMap groupRefs

/-- The broken ones, in order. -/
def broken (c : ForgeclawConfig) (rs : List Reference) : List Reference :=
  rs.filter fun r => !c.resolves r

variable (c : ForgeclawConfig)

/-! ## What the loops collect -/

theorem broken_append (rs rs' : List Reference) :
    c.broken (rs ++ rs') = c.broken rs ++ c.broken rs' := List.filter_append ..

theorem broken_cons (r : Reference) (rs : List Reference) :
    c.broken (r :: rs) = c.broken [r] ++ c.broken rs := c.broken_append [r] rs

theorem pushUnless_eq (r : Reference) (errors : List String) :
    pushUnless (c.resolves r) r.message errors
      = errors ++ (c.broken [r]).map Reference.message := by
  rw [pushUnless, broken, List.filter_singleton]
  cases c.resolves r <;> simp

theorem checkBudgetPool_eq (groupName : String) (budgetPool : Option String)
    (errors : List String) :
    c.checkBudgetPool groupName budgetPool errors
      = errors ++ (c.broken (budgetPool.toList.map fun pool =>
          ⟨groupName, .budgetPool, pool⟩)).map Reference.message := by
  cases budgetPool with
  | none => simp [checkBudgetPool, broken]
  | some pool => exact c.pushUnless_eq ⟨groupName, .budgetPool, pool⟩ errors

theorem checkFallbacks_eq (groupName : String) (fallback : List FallbackEntry)
    (errors : List String) :
    c.checkFallbacks groupName fallback errors
      = errors ++ (c.broken (fallback.zipIdx.map fun fb =>
          ⟨groupName, .fallback fb.2, fb.1.provider⟩)).map Reference.message := by
  unfold checkFallbacks
  generalize fallback.zipIdx = fbs
  induction fbs generalizing errors with
  | nil => simp [broken]
  | cons fb fbs ih =>
    have hstep := c.pushUnless_eq ⟨groupName, .fallback fb.2, fb.1.provider⟩ errors
    rw [List.foldl_cons, ih, List.map_cons, broken_cons, List.map_append, ← List.append_assoc,
      ← hstep]
    rfl

theorem checkGroup_eq (errors : List String) (entry : String × GroupConfig) :
    c.checkGroup errors entry = errors ++ (c.broken (groupRefs entry)).map Reference.message := by
  obtain ⟨groupName, group⟩ := entry
  have hchecks : c.checkGroup errors (groupName, group)
      = c.checkFallbacks groupName group.fallback
          (c.checkBudgetPool groupName group.budgetPool
            (pushUnless (c.resolves ⟨groupName, .channel, group.channel⟩)
              (Reference.message ⟨groupName, .channel, group.channel⟩)
              (pushUnless (c.resolves ⟨groupName, .provider, group.provider⟩)
                (Reference.message ⟨groupName, .provider, group.provider⟩) errors))) := rfl
  have hrefs : c.broken (groupRefs (groupName, group))
      = c.broken [⟨groupName, .provider, group.provider⟩] ++
        (c.broken [⟨groupName, .channel, group.channel⟩] ++
          (c.broken (group.budgetPool.toList.map fun pool => ⟨groupName, .budgetPool, pool⟩) ++
            c.broken (group.fallback.zipIdx.map fun fb =>
              ⟨groupName, .fallback fb.2, fb.1.provider⟩))) := by
    rw [← broken_append, ← broken_append, ← broken_append]
    rfl
  rw [hchecks, hrefs, checkFallbacks_eq, checkBudgetPool_eq, pushUnless_eq, pushUnless_eq]
  simp only [List.map_append, List.append_assoc]

theorem checkGroups_eq (entries : List (String × GroupConfig)) (errors : List String) :
    entries.foldl c.checkGroup errors
      = errors ++ (c.broken (entries.flatMap groupRefs)).map Reference.message := by
  induction entries generalizing errors with
  | nil => simp [broken]
  | cons entry entries ih =>
    rw [List.foldl_cons, ih, checkGroup_eq, List.flatMap_cons, broken_append, List.map_append,
      List.append_assoc]

/-- The entry that reports missing channels, if it is due. -/
def channelErrors : List String :=
  if c.channels.isEmpty && !c.groups.isEmpty then [missingChannels] else []

theorem validate_eq :
    c.validate =
      if (c.channelErrors ++ (c.broken c.refs).map Reference.message).isEmpty then .ok ()
      else .error (.validation (c.channelErrors ++ (c.broken c.refs).map Reference.message)) := by
  rw [refs, ← checkGroups_eq]
  rfl

/-! ## The references -/

theorem mem_groupRefs_iff {entry : String × GroupConfig} {r : Reference} :
    r ∈ groupRefs entry ↔ r.group = entry.1 ∧ entry.2.Names r.slot r.target := by
  obtain ⟨group, slot, target⟩ := r
  obtain ⟨groupName, g⟩ := entry
  simp only [groupRefs, List.mem_cons, List.mem_append, List.mem_map, Reference.mk.injEq]
  cases slot with
  | provider => simp [GroupConfig.Names, eq_comm]
  | channel => simp [GroupConfig.Names, eq_comm]
  | budgetPool => simp [GroupConfig.Names, eq_comm, and_comm]
  | fallback i =>
    simp [GroupConfig.Names, eq_comm, and_left_comm, List.mem_zipIdx_iff_getElem?]

theorem mem_refs_iff {r : Reference} : r ∈ c.refs ↔ c.Refers r := by
  simp only [refs, List.mem_flatMap, mem_groupRefs_iff, Refers]
  constructor
  · rintro ⟨⟨groupName, g⟩, hmem, heq, hnames⟩
    exact ⟨g, heq ▸ hmem, hnames⟩
  · rintro ⟨g, hmem, hnames⟩
    exact ⟨(r.group, g), hmem, rfl, hnames⟩

theorem groupRefs_ranks (entry : String × GroupConfig) :
    (groupRefs entry).map (fun r => r.slot.rank)
      = 0 :: 1 :: (entry.2.budgetPool.toList.map fun _ => 2) ++
        List.range' 3 entry.2.fallback.length := by
  have hfallback : entry.2.fallback.zipIdx.map (fun fb => 3 + fb.2)
      = List.range' 3 entry.2.fallback.length := calc
    _ = (entry.2.fallback.zipIdx.map Prod.snd).map (3 + ·) := by rw [List.map_map]; rfl
    _ = (List.range' 0 entry.2.fallback.length).map (3 + ·) := by rw [List.zipIdx_map_snd]
    _ = List.range' 3 entry.2.fallback.length := List.map_add_range' 0 _ 1
  simp only [groupRefs, List.cons_append, List.map_cons, List.map_append, List.map_map,
    Function.comp_def, Slot.rank, hfallback]

theorem groupRefs_pairwise (entry : String × GroupConfig) :
    (groupRefs entry).Pairwise Reference.Lt := by
  have hranks : ((groupRefs entry).map fun r => r.slot.rank).Pairwise (· < ·) := by
    rw [groupRefs_ranks]
    have hlarge : ∀ a ∈ List.range' 3 entry.2.fallback.length, 3 ≤ a := fun a ha =>
      (List.mem_range'_1.mp ha).1
    have hsorted := List.pairwise_lt_range' (s := 3) (n := entry.2.fallback.length)
    cases entry.2.budgetPool <;>
      simp only [Option.toList_none, Option.toList_some, List.map_nil, List.map_cons,
        List.cons_append, List.nil_append, List.pairwise_cons] <;>
      grind
  refine (List.pairwise_map.mp hranks).imp_of_mem fun hr hr' hlt => .inr ⟨?_, hlt⟩
  rw [(mem_groupRefs_iff.mp hr).1, (mem_groupRefs_iff.mp hr').1]

theorem refs_pairwise : c.refs.Pairwise Reference.Lt := by
  refine List.pairwise_flatMap.mpr ⟨fun entry _ => groupRefs_pairwise entry, ?_⟩
  refine c.groups.ordered.imp fun hlt r hr r' hr' => .inl ?_
  rw [(mem_groupRefs_iff.mp hr).1, (mem_groupRefs_iff.mp hr').1]
  exact hlt

/-- Without channels each group has a broken reference. -/
theorem channelErrors_eq_nil (h : c.broken c.refs = []) : c.channelErrors = [] := by
  unfold channelErrors
  rw [if_neg]
  intro hcond
  obtain ⟨hchannels, hgroups⟩ : c.channels.isEmpty = true ∧ c.groups.isEmpty = false := by
    simpa using hcond
  obtain ⟨⟨groupName, g⟩, entries, hentries⟩ := List.exists_cons_of_ne_nil
    (l := c.groups.entries) (by simpa [BTreeMap.isEmpty] using hgroups)
  have hrefers : c.Refers ⟨groupName, .channel, g.channel⟩ :=
    ⟨g, by simp [hentries], rfl⟩
  have hbroken : ⟨groupName, .channel, g.channel⟩ ∈ c.broken c.refs := by
    refine List.mem_filter.mpr ⟨c.mem_refs_iff.mpr hrefers, ?_⟩
    simp [resolves, BTreeMap.containsKey_of_isEmpty hchannels]
  simp [h] at hbroken

theorem validate_eq_ok_iff : c.validate = .ok () ↔ ∀ r, c.Refers r → c.resolves r = true := by
  have hok : c.validate = .ok () ↔ c.broken c.refs = [] := by
    rw [validate_eq]
    constructor
    · intro h
      by_contra hne
      simp [hne] at h
    · intro h
      rw [h, c.channelErrors_eq_nil h]
      rfl
  rw [hok, broken, List.filter_eq_nil_iff]
  simp only [mem_refs_iff]
  simp

/-- Every reference resolves, slot by slot. -/
theorem refers_resolve_iff :
    (∀ r, c.Refers r → c.resolves r = true) ↔
      ∀ name g, (name, g) ∈ c.groups.entries →
        c.providers.containsKey g.provider = true ∧
        (∀ fb ∈ g.fallback, c.providers.containsKey fb.provider = true) ∧
        c.channels.containsKey g.channel = true ∧
        ∀ pool, g.budgetPool = some pool → c.budgetPools.containsKey pool = true := by
  constructor
  · intro h name g hg
    have hslot : ∀ slot target, g.Names slot target → c.resolves ⟨name, slot, target⟩ = true :=
      fun slot target hnames => h ⟨name, slot, target⟩ ⟨g, hg, hnames⟩
    refine ⟨hslot .provider _ rfl, fun fb hfb => ?_, hslot .channel _ rfl,
      fun pool hpool => hslot .budgetPool pool hpool⟩
    obtain ⟨i, hi⟩ := List.getElem?_of_mem hfb
    exact hslot (.fallback i) _ ⟨fb, hi, rfl⟩
  · rintro h ⟨group, slot, target⟩ ⟨g, hg, hnames⟩
    obtain ⟨hprovider, hfallback, hchannel, hpool⟩ := h group g hg
    cases slot with
    | provider =>
      obtain rfl : g.provider = target := hnames
      exact hprovider
    | channel =>
      obtain rfl : g.channel = target := hnames
      exact hchannel
    | budgetPool => exact hpool target hnames
    | fallback i =>
      obtain ⟨fb, hi, rfl⟩ := hnames
      exact hfallback fb (List.mem_of_getElem? hi)

/-- **`validate` is sound, complete and reports everything.** It accepts a configuration iff
    each group's provider, channel, budget pool and fallback providers are keys of their
    sections. Otherwise its errors are the missing-channels entry, if there are groups and no
    channels, and then one entry for each broken reference, by group and within a group by
    place. -/
theorem validate_reports :
    (c.validate = .ok () ↔
      ∀ name g, (name, g) ∈ c.groups.entries →
        c.providers.containsKey g.provider = true ∧
        (∀ fb ∈ g.fallback, c.providers.containsKey fb.provider = true) ∧
        c.channels.containsKey g.channel = true ∧
        ∀ pool, g.budgetPool = some pool → c.budgetPools.containsKey pool = true) ∧
    ∀ e, c.validate = .error e →
      ∃ broken : List Reference,
        (∀ r, r ∈ broken ↔ c.Refers r ∧ c.resolves r = false) ∧
        broken.Pairwise Reference.Lt ∧
        e = .validation
          ((if c.channels.isEmpty && !c.groups.isEmpty then [missingChannels] else [])
            ++ broken.map Reference.message) := by
  constructor
  · rw [validate_eq_ok_iff]
    exact c.refers_resolve_iff
  · intro e he
    rw [validate_eq] at he
    split at he
    · cases he
    · refine ⟨c.broken c.refs, fun r => ?_, c.refs_pairwise.sublist List.filter_sublist, ?_⟩
      · rw [broken, List.mem_filter, mem_refs_iff, Bool.not_eq_true']
      · exact (Except.error.inj he).symm

end ForgeclawConfig

end Forgeclaw.Core.Config
