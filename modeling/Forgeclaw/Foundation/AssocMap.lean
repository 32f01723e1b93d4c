/-
  Ordered maps as association lists in key order (what a B-tree map iterates over).

  `get` finds a key's value, `insert` puts a value at its key's place or replaces the one
  there, `erase` takes a key out. The rules for `get` after an `insert` hold of every list;
  where a key may stand only once, the list is `Ordered`. `ofList` puts entries in one after the
  other.
-/
import Mathlib

namespace AssocMap

variable {κ β : Type} [LinearOrder κ]

/-- The value at a key. -/
def get (k : κ) : List (κ × β) → Option β
  | [] => none
  | (k', v) :: m => if k = k' then some v else get k m

/-- Put a value at a key, replacing the value there. -/
def insert (k : κ) (v : β) : List (κ × β) → List (κ × β)
  | [] => [(k, v)]
  | (k', v') :: m =>
    if k < k' then (k, v) :: (k', v') :: m
    else if k = k' then (k, v) :: m
    else (k', v') :: insert k v m

/-- Take a key out. -/
def erase (k : κ) : List (κ × β) → List (κ × β)
  | [] => []
  | (k', v) :: m => if k = k' then m else (k', v) :: erase k m

/-- The keys are strictly increasing. -/
def Ordered (m : List (κ × β)) : Prop := m.Pairwise fun a b => a.1 < b.1

instance (m : List (κ × β)) : Decidable (Ordered m) :=
  inferInstanceAs (Decidable (m.Pairwise fun a b => a.1 < b.1))

@[simp] theorem get_nil (k : κ) : get k ([] : List (κ × β)) = none := rfl

@[simp] theorem get_insert_self (k : κ) (v : β) (m : List (κ × β)) :
    get k (insert k v m) = some v := by
  induction m with
  | nil => simp [insert, get]
  | cons e m ih =>
    obtain ⟨k', v'⟩ := e
    unfold insert
    split
    · simp [get]
    · split
      · simp [get]
      · rename_i hne
        simp [get, hne, ih]

theorem get_insert_of_ne {k k' : κ} (h : k' ≠ k) (v : β) (m : List (κ × β)) :
    get k' (insert k v m) = get k' m := by
  induction m with
  | nil => simp [insert, get, h]
  | cons e m ih =>
    obtain ⟨k'', v''⟩ := e
    unfold insert
    split
    · simp [get, h]
    · split
      · rename_i heq
        subst heq
        simp [get, h]
      · simp only [get, ih]

theorem get_insert (k k' : κ) (v : β) (m : List (κ × β)) :
    get k' (insert k v m) = if k' = k then some v else get k' m := by
  by_cases h : k' = k
  · subst h
    simp
  · simp [h, get_insert_of_ne h]

theorem get_erase_of_ne {k k' : κ} (h : k' ≠ k) (m : List (κ × β)) :
    get k' (erase k m) = get k' m := by
  induction m with
  | nil => rfl
  | cons e m ih =>
    obtain ⟨k'', v''⟩ := e
    unfold erase
    split
    · rename_i heq
      subst heq
      simp [get, h]
    · simp only [get, ih]

theorem get_eq_none {k : κ} {m : List (κ × β)} (h : ∀ e ∈ m, e.1 ≠ k) : get k m = none := by
  induction m with
  | nil => rfl
  | cons e m ih =>
    obtain ⟨k', v'⟩ := e
    rw [get, if_neg (h (k', v') (by simp)).symm]
    exact ih fun e he => h e (by simp [he])

theorem mem_of_get {k : κ} {v : β} {m : List (κ × β)} (h : get k m = some v) : (k, v) ∈ m := by
  induction m with
  | nil => simp at h
  | cons e m ih =>
    obtain ⟨k', v'⟩ := e
    unfold get at h
    split at h
    · rename_i heq
      simp_all
    · exact List.mem_cons_of_mem _ (ih h)

theorem insert_eq_append {k : κ} {m : List (κ × β)} (h : ∀ e ∈ m, e.1 < k) (v : β) :
    insert k v m = m ++ [(k, v)] := by
  induction m with
  | nil => rfl
  | cons e m ih =>
    obtain ⟨k', v'⟩ := e
    have hlt : k' < k := h (k', v') (by simp)
    rw [insert, if_neg (not_lt_of_gt hlt), if_neg hlt.ne', ih fun e he => h e (by simp [he])]
    rfl

theorem erase_eq_self {k : κ} {m : List (κ × β)} (h : ∀ e ∈ m, e.1 ≠ k) : erase k m = m := by
  induction m with
  | nil => rfl
  | cons e m ih =>
    obtain ⟨k', v'⟩ := e
    rw [erase, if_neg (h (k', v') (by simp)).symm, ih fun e he => h e (by simp [he])]

theorem insert_insert (k : κ) (v v' : β) (m : List (κ × β)) :
    insert k v (insert k v' m) = insert k v m := by
  induction m with
  | nil => simp [insert]
  | cons e m ih =>
    obtain ⟨k', w⟩ := e
    rcases lt_trichotomy k k' with hlt | rfl | hgt
    · simp [insert, hlt]
    · simp [insert]
    · simp [insert, not_lt_of_gt hgt, hgt.ne', ih]

/-- Keys go in in any order. -/
theorem insert_comm {k k' : κ} (h : k ≠ k') (v v' : β) (m : List (κ × β)) :
    insert k v (insert k' v' m) = insert k' v' (insert k v m) := by
  induction m with
  | nil =>
    rcases lt_or_gt_of_ne h with hlt | hgt
    · simp [insert, hlt, not_lt_of_gt hlt, h.symm]
    · simp [insert, hgt, not_lt_of_gt hgt, h]
  | cons e m ih =>
    obtain ⟨a, w⟩ := e
    simp only [insert]
    grind [insert]

theorem insert_eq_self {k : κ} {v : β} {m : List (κ × β)} (hm : Ordered m)
    (h : get k m = some v) : insert k v m = m := by
  induction m with
  | nil => simp at h
  | cons e m ih =>
    obtain ⟨k', w⟩ := e
    obtain ⟨hhead, htail⟩ := List.pairwise_cons.mp hm
    rw [get] at h
    by_cases heq : k = k'
    · subst heq
      obtain rfl : w = v := by simpa using h
      simp [insert]
    · rw [if_neg heq] at h
      have hlt : k' < k := hhead _ (mem_of_get h)
      rw [insert, if_neg (not_lt_of_gt hlt), if_neg heq, ih htail h]

theorem Ordered.tail {e : κ × β} {m : List (κ × β)} (h : Ordered (e :: m)) : Ordered m :=
  (List.pairwise_cons.mp h).2

/-- A key at the head of an ordered list stands nowhere else. -/
theorem Ordered.get_tail {e : κ × β} {m : List (κ × β)} (h : Ordered (e :: m)) :
    get e.1 m = none :=
  get_eq_none fun e' he' => ((List.pairwise_cons.mp h).1 e' he').ne'

theorem mem_insert {k : κ} {v : β} {m : List (κ × β)} {e : κ × β} (h : e ∈ insert k v m) :
    e = (k, v) ∨ e ∈ m := by
  induction m with
  | nil => simpa [insert] using h
  | cons e' m ih =>
    obtain ⟨k', w⟩ := e'
    unfold insert at h
    grind

theorem Ordered.insert {m : List (κ × β)} (h : Ordered m) (k : κ) (v : β) :
    Ordered (insert k v m) := by
  induction m with
  | nil => simp [AssocMap.insert, Ordered]
  | cons e m ih =>
    obtain ⟨k', w⟩ := e
    obtain ⟨hhead, htail⟩ := List.pairwise_cons.mp h
    rcases lt_trichotomy k k' with hlt | rfl | hgt
    · rw [AssocMap.insert, if_pos hlt]
      refine List.pairwise_cons.mpr ⟨fun e he => ?_, h⟩
      rcases List.mem_cons.mp he with rfl | he
      · exact hlt
      · exact hlt.trans (hhead e he)
    · rw [AssocMap.insert, if_neg (lt_irrefl k), if_pos rfl]
      exact List.pairwise_cons.mpr ⟨hhead, htail⟩
    · rw [AssocMap.insert, if_neg (not_lt_of_gt hgt), if_neg hgt.ne']
      refine List.pairwise_cons.mpr ⟨fun e he => ?_, ih htail⟩
      rcases mem_insert he with rfl | he
      · exact hgt
      · exact hhead e he

theorem erase_sublist (k : κ) (m : List (κ × β)) : (erase k m).Sublist m := by
  induction m with
  | nil => exact .refl _
  | cons e m ih =>
    obtain ⟨k', w⟩ := e
    unfold erase
    split
    · exact List.sublist_cons_self _ _
    · exact ih.cons_cons _

theorem Ordered.erase {m : List (κ × β)} (h : Ordered m) (k : κ) : Ordered (erase k m) :=
  List.Pairwise.sublist (erase_sublist k m) h

theorem Ordered.get_of_mem {m : List (κ × β)} (h : Ordered m) {e : κ × β} (he : e ∈ m) :
    get e.1 m = some e.2 := by
  induction m with
  | nil => simp at he
  | cons e' m ih =>
    obtain ⟨hhead, htail⟩ := List.pairwise_cons.mp h
    rcases List.mem_cons.mp he with rfl | he
    · simp [get]
    · have hlt : e'.1 < e.1 := hhead e he
      rw [get, if_neg hlt.ne', ih htail he]

theorem isSome_get {m : List (κ × β)} {k : κ} : (get k m).isSome ↔ k ∈ m.map Prod.fst := by
  induction m with
  | nil => simp
  | cons e m ih =>
    obtain ⟨k', w⟩ := e
    rw [get]
    split
    · rename_i heq
      simp [heq]
    · rename_i hne
      simp [ih, hne]

/-- An ordered list is determined by what it holds at each key. -/
theorem Ordered.ext {m m' : List (κ × β)} (hm : Ordered m) (hm' : Ordered m')
    (h : ∀ k, get k m = get k m') : m = m' := by
  have hnodup : ∀ {m : List (κ × β)}, Ordered m → m.Nodup := fun hm =>
    hm.imp fun hlt heq => absurd (congrArg Prod.fst heq) hlt.ne
  have hmem : ∀ e, e ∈ m ↔ e ∈ m' := fun e =>
    ⟨fun he => mem_of_get (h e.1 ▸ hm.get_of_mem he),
     fun he => mem_of_get (h e.1 ▸ hm'.get_of_mem he)⟩
  exact List.Perm.eq_of_pairwise
    (fun a b _ _ (hab : a.1 < b.1) (hba : b.1 < a.1) => absurd hba (lt_asymm hab)) hm hm'
    ((List.perm_ext_iff_of_nodup (hnodup hm) (hnodup hm')).mpr hmem)

/-- Entries put in one after the other. -/
def ofList (es : List (κ × β)) : List (κ × β) := es.foldl (fun m e => insert e.1 e.2 m) []

theorem ordered_foldl_insert {m : List (κ × β)} (hm : Ordered m) (es : List (κ × β)) :
    Ordered (es.foldl (fun m e => insert e.1 e.2 m) m) := by
  induction es generalizing m with
  | nil => exact hm
  | cons e es ih => exact ih (hm.insert e.1 e.2)

theorem ordered_ofList (es : List (κ × β)) : Ordered (ofList es) :=
  ordered_foldl_insert .nil es

theorem get_foldl_insert {es : List (κ × β)} (hes : (es.map Prod.fst).Nodup)
    (m : List (κ × β)) (k : κ) :
    get k (es.foldl (fun m e => insert e.1 e.2 m) m) = (get k es).or (get k m) := by
  induction es generalizing m with
  | nil => simp
  | cons e es ih =>
    obtain ⟨hhead, htail⟩ := List.nodup_cons.mp hes
    rw [List.foldl_cons, ih htail, get_insert, get]
    split
    · rename_i heq
      subst heq
      have hnone : get e.1 es = none := get_eq_none fun e' he' heq => hhead (by
        rw [← heq]
        exact List.mem_map_of_mem he')
      rw [hnone]
      rfl
    · rfl

/-- Where each key stands once, their order does not matter. -/
theorem get_ofList {es : List (κ × β)} (hes : (es.map Prod.fst).Nodup) (k : κ) :
    get k (ofList es) = get k es := by
  rw [ofList, get_foldl_insert hes, get_nil, Option.or_none]

theorem Ordered.nodup_keys {m : List (κ × β)} (h : Ordered m) : (m.map Prod.fst).Nodup :=
  List.pairwise_map.mpr (h.imp ne_of_lt)

theorem Ordered.of_keys {γ : Type} {m : List (κ × β)} {m' : List (κ × γ)} (h : Ordered m)
    (hkeys : m.map Prod.fst = m'.map Prod.fst) : Ordered m' := by
  have hm : (m.map Prod.fst).Pairwise (· < ·) := List.pairwise_map.mpr h
  rw [hkeys] at hm
  exact List.pairwise_map.mp hm

theorem Ordered.ofList_eq {m : List (κ × β)} (h : Ordered m) : ofList m = m :=
  (ordered_ofList m).ext h (get_ofList h.nodup_keys)

end AssocMap
