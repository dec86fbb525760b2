import Mathlib

/-! # Ordered maps

A map with an ordered key type, as the list of its entries in the order of the keys. Two maps that
answer alike are the same map, so that the order in which entries came in cannot be told. -/

namespace TraceCommons

open List

theorem OrdMap.sorted_nil {κ ν : Type} [LinearOrder κ] :
    ([] : List (κ × ν)).Pairwise (fun a b => a.1 < b.1) :=
  List.Pairwise.nil

structure OrdMap (κ ν : Type) [LinearOrder κ] where
  entries : List (κ × ν) := []
  sorted : entries.Pairwise (fun a b => a.1 < b.1) := by exact OrdMap.sorted_nil

namespace OrdMap

variable {κ ν : Type} [LinearOrder κ]

variable (m : OrdMap κ ν)

def get? (k : κ) : Option ν := m.entries.lookup k

/-- The entries with `f` applied to what is under `k`. -/
def upsertEntries (k : κ) (f : Option ν → ν) : List (κ × ν) → List (κ × ν)
  | [] => [(k, f none)]
  | (k', v) :: l =>
    if k < k' then (k, f none) :: (k', v) :: l
    else if k = k' then (k', f (some v)) :: l
    else (k', v) :: upsertEntries k f l

variable {f : Option ν → ν}

theorem mem_upsertEntries_key {k : κ} {l : List (κ × ν)} {e : κ × ν}
    (he : e ∈ upsertEntries k f l) : e.1 = k ∨ ∃ a ∈ l, a.1 = e.1 := by
  induction l with
  | nil =>
    rw [upsertEntries, mem_singleton] at he
    exact .inl (by rw [he])
  | cons a l ih =>
    obtain ⟨k', v⟩ := a
    rw [upsertEntries] at he
    split at he
    · rcases mem_cons.1 he with rfl | he
      · exact .inl rfl
      · exact .inr ⟨e, he, rfl⟩
    · split at he
      next hk =>
        rcases mem_cons.1 he with rfl | he
        · exact .inl hk.symm
        · exact .inr ⟨e, .tail _ he, rfl⟩
      · rcases mem_cons.1 he with rfl | he
        · exact .inr ⟨(k', v), .head _, rfl⟩
        · exact (ih he).imp_right fun ⟨a, ha, hk⟩ => ⟨a, .tail _ ha, hk⟩

theorem upsertEntries_sorted {k : κ} {l : List (κ × ν)} (h : l.Pairwise fun a b => a.1 < b.1) :
    (upsertEntries k f l).Pairwise fun a b => a.1 < b.1 := by
  induction l with
  | nil => exact pairwise_singleton _ _
  | cons a l ih =>
    obtain ⟨hhead, htail⟩ := pairwise_cons.1 h
    rw [upsertEntries]
    split
    next hlt =>
      refine pairwise_cons.2 ⟨fun e he => ?_, h⟩
      rcases mem_cons.1 he with rfl | he
      · exact hlt
      · exact hlt.trans (hhead e he)
    next hnlt =>
      split
      · exact pairwise_cons.2 ⟨hhead, htail⟩
      rename_i hne
      refine pairwise_cons.2 ⟨fun e he => ?_, ih htail⟩
      rcases mem_upsertEntries_key he with hk | ⟨a, ha, hk⟩
      · rw [hk]
        exact lt_of_le_of_ne (le_of_not_gt hnlt) (Ne.symm hne)
      · exact hk ▸ hhead a ha

def upsert (k : κ) (f : Option ν → ν) : OrdMap κ ν :=
  ⟨upsertEntries k f m.entries, upsertEntries_sorted m.sorted⟩

theorem upsertEntries_ne_nil (k : κ) (f : Option ν → ν) (l : List (κ × ν)) :
    upsertEntries k f l ≠ [] := by
  cases l with
  | nil => exact cons_ne_nil _ _
  | cons a l =>
    rw [upsertEntries]
    split
    · exact cons_ne_nil _ _
    · split <;> exact cons_ne_nil _ _

@[simp] theorem entries_upsert_isEmpty (k : κ) (f : Option ν → ν) :
    (m.upsert k f).entries.isEmpty = false :=
  isEmpty_eq_false_iff.2 (upsertEntries_ne_nil k f _)

theorem lookup_cons_ite (k j : κ) (v : ν) (l : List (κ × ν)) :
    ((k, v) :: l).lookup j = if j = k then some v else l.lookup j := by
  by_cases h : j = k
  · subst h
    rw [lookup_cons_self, if_pos rfl]
  · have hne : (j == k) = false := beq_eq_false_iff_ne.2 h
    rw [lookup_cons, hne, if_neg h]

theorem lookup_eq_none {l : List (κ × ν)} {k : κ} (h : ∀ e ∈ l, k < e.1) : l.lookup k = none := by
  induction l with
  | nil => rfl
  | cons a l ih =>
    rw [lookup_cons_ite, if_neg (h a (.head _)).ne]
    exact ih fun e he => h e (.tail _ he)

theorem lookup_upsertEntries {k : κ} {l : List (κ × ν)} (h : l.Pairwise fun a b => a.1 < b.1)
    (j : κ) :
    (upsertEntries k f l).lookup j = if j = k then some (f (l.lookup k)) else l.lookup j := by
  induction l with
  | nil => rw [upsertEntries, lookup_cons_ite, lookup_nil, lookup_nil]
  | cons a l ih =>
    obtain ⟨k', v⟩ := a
    obtain ⟨hhead, htail⟩ := pairwise_cons.1 h
    rw [upsertEntries]
    split
    next hlt =>
      have hnone : ((k', v) :: l).lookup k = none := by
        refine lookup_eq_none fun e he => ?_
        rcases mem_cons.1 he with rfl | he
        · exact hlt
        · exact hlt.trans (hhead e he)
      rw [hnone, lookup_cons_ite]
    next hnlt =>
      split
      next heq =>
        subst heq
        simp only [lookup_cons_ite, if_true]
        by_cases hj : j = k
        · rw [if_pos hj, if_pos hj]
        · rw [if_neg hj, if_neg hj, if_neg hj]
      next hne =>
        simp only [lookup_cons_ite, ih htail, if_neg hne]
        by_cases hj : j = k
        · rw [if_pos hj, if_pos hj, if_neg (hj ▸ hne)]
        · rw [if_neg hj, if_neg hj]

@[simp] theorem get?_upsert (k : κ) (f : Option ν → ν) (j : κ) :
    (m.upsert k f).get? j = if j = k then some (f (m.get? k)) else m.get? j :=
  lookup_upsertEntries m.sorted j

theorem mem_entries {m : OrdMap κ ν} {k : κ} {v : ν} : (k, v) ∈ m.entries ↔ m.get? k = some v := by
  obtain ⟨l, h⟩ := m
  change (k, v) ∈ l ↔ l.lookup k = some v
  induction l with
  | nil => simp
  | cons a l ih =>
    obtain ⟨k', v'⟩ := a
    obtain ⟨hhead, htail⟩ := pairwise_cons.1 h
    rw [lookup_cons_ite, mem_cons, ih htail]
    by_cases hk : k = k'
    · subst hk
      have hnone := lookup_eq_none hhead
      simp [hnone, eq_comm]
    · simp [hk]

theorem nodup_entries : m.entries.Nodup :=
  m.sorted.imp fun h he => h.ne (by rw [he])

theorem ext_get? {m m' : OrdMap κ ν} (h : ∀ k, m.get? k = m'.get? k) : m = m' := by
  have hperm : m.entries.Perm m'.entries := by
    refine (perm_ext_iff_of_nodup m.nodup_entries m'.nodup_entries).2 fun e => ?_
    rw [mem_entries, mem_entries, h]
  have heq : m.entries = m'.entries :=
    hperm.eq_of_pairwise (fun a b _ _ hab hba => absurd hba hab.asymm) m.sorted m'.sorted
  obtain ⟨l', _⟩ := m'
  subst heq
  rfl

/-! ## Maps changed as a whole -/

def insert (k : κ) (v : ν) : OrdMap κ ν := m.upsert k fun _ => v

@[simp] theorem get?_insert (k : κ) (v : ν) (j : κ) :
    (m.insert k v).get? j = if j = k then some v else m.get? j :=
  get?_upsert m k _ j

/-- The entries that pass, as `retain` leaves them. -/
def filter (p : κ → ν → Bool) (m : OrdMap κ ν) : OrdMap κ ν :=
  ⟨m.entries.filter fun e => p e.1 e.2, m.sorted.filter _⟩

@[simp] theorem get?_filter (p : κ → ν → Bool) (m : OrdMap κ ν) (k : κ) :
    (m.filter p).get? k = (m.get? k).filter (p k) := by
  refine Option.ext fun v => ?_
  rw [← mem_entries, Option.filter_eq_some_iff, ← mem_entries]
  exact mem_filter

def erase (k : κ) : OrdMap κ ν := m.filter fun j _ => j ≠ k

@[simp] theorem get?_erase (k j : κ) : (m.erase k).get? j = if j = k then none else m.get? j := by
  rw [erase, get?_filter]
  by_cases h : j = k <;> cases m.get? j <;> simp [h]

def mapValues {μ : Type} (f : κ → ν → μ) (m : OrdMap κ ν) : OrdMap κ μ :=
  ⟨m.entries.map fun e => (e.1, f e.1 e.2), List.pairwise_map.2 m.sorted⟩

@[simp] theorem get?_mapValues {μ : Type} (f : κ → ν → μ) (m : OrdMap κ ν) (k : κ) :
    (m.mapValues f).get? k = (m.get? k).map (f k) := by
  refine Option.ext fun v => ?_
  rw [← mem_entries, Option.map_eq_some_iff]
  constructor
  · intro h
    obtain ⟨⟨j, w⟩, he, heq⟩ := mem_map.1 h
    cases heq
    exact ⟨w, mem_entries.1 he, rfl⟩
  · rintro ⟨w, hw, rfl⟩
    exact mem_map.2 ⟨(k, w), mem_entries.2 hw, rfl⟩

theorem filter_entries (k : κ) :
    (m.entries.filter fun e => e.1 = k) = (m.get? k).toList.map fun v => (k, v) := by
  obtain ⟨l, h⟩ := m
  change (l.filter fun e => e.1 = k) = (l.lookup k).toList.map fun v => (k, v)
  induction l with
  | nil => rfl
  | cons a l ih =>
    obtain ⟨k', v⟩ := a
    obtain ⟨hhead, htail⟩ := pairwise_cons.1 h
    rw [lookup_cons_ite]
    by_cases hk : k = k'
    · subst hk
      rw [filter_cons_of_pos (by rw [decide_eq_true_iff]), ih htail, lookup_eq_none hhead, if_pos rfl]
      rfl
    · rw [filter_cons_of_neg (by rw [decide_eq_true_iff]; exact fun h => hk h.symm),
        ih htail, if_neg hk]

/-- A map built entry by entry has under a key what the entries of that key make. -/
theorem get?_foldl_upsert {α : Type} (key : α → κ) (f : α → Option ν → ν) (l : List α)
    (m : OrdMap κ ν) (k : κ) :
    (l.foldl (fun m a => m.upsert (key a) (f a)) m).get? k =
      (l.filter fun a => key a = k).foldl (fun o a => some (f a o)) (m.get? k) := by
  induction l generalizing m with
  | nil => rfl
  | cons a l ih =>
    rw [foldl_cons, ih, get?_upsert]
    by_cases hk : key a = k
    · rw [filter_cons_of_pos (by rwa [decide_eq_true_iff]), foldl_cons, if_pos hk.symm, hk]
    · rw [filter_cons_of_neg (by rwa [decide_eq_true_iff]), if_neg fun h => hk h.symm]

/-! ## New keys -/

section Rekey

variable (rename : κ → Option κ) (place : κ → κ → ν → Option ν → ν)

/-- Every entry put under its new key, in the order of the old ones. An entry that has no new key
goes. -/
def rekey (m : OrdMap κ ν) : OrdMap κ ν :=
  (m.entries.filterMap fun e => (rename e.1).map fun fresh => (fresh, e)).foldl
    (fun m a => m.upsert a.1 (place a.1 a.2.1 a.2.2)) {}

/-- The entries a new key is made of. -/
def sources (m : OrdMap κ ν) (k : κ) : List (κ × ν) :=
  m.entries.filter fun e => rename e.1 = some k

theorem get?_rekey (m : OrdMap κ ν) (k : κ) :
    (m.rekey rename place).get? k =
      (m.sources rename k).foldl (fun o e => some (place k e.1 e.2 o)) none := by
  have hgroup : ((m.entries.filterMap fun e => (rename e.1).map fun fresh => (fresh, e)).filter
      fun a => a.1 = k) = (m.sources rename k).map fun e => (k, e) := by
    unfold sources
    induction m.entries with
    | nil => rfl
    | cons e l ih =>
      rw [filterMap_cons, filter_cons]
      cases hfresh : rename e.1 with
      | none =>
        exact ih
      | some fresh =>
        by_cases hk : fresh = k <;> simp [hk, ih]
  rw [rekey, get?_foldl_upsert, hgroup, foldl_map]
  rfl

variable {rename place m} {j k : κ} {v w : ν}

theorem mem_sources : (j, w) ∈ m.sources rename k ↔ m.get? j = some w ∧ rename j = some k := by
  rw [sources, mem_filter, mem_entries, decide_eq_true_iff]

/-- What holds of whatever is put under a key holds of what is there at the end. -/
theorem rekey_all {P : ν → Prop} (hput : ∀ j w o, rename j = some k → P (place k j w o))
    (h : (m.rekey rename place).get? k = some v) : P v := by
  rw [get?_rekey] at h
  rcases eq_nil_or_concat (m.sources _ k) with hnil | ⟨l, ⟨j, w⟩, hl⟩
  · rw [hnil] at h
    cases h
  have hmem : (j, w) ∈ m.sources rename k := by
    rw [hl, concat_eq_append]
    exact mem_concat_self
  rw [hl, concat_eq_append, foldl_append] at h
  cases h
  exact hput _ _ _ (mem_sources.1 hmem).2

/-- Every entry with a new key counts in what is there at the end, if it counts when it is put
there and later entries leave that so. -/
theorem rekey_counts {R : ν → Prop} (hput : ∀ o, R (place k j w o))
    (hkeep : ∀ j' w' v, R v → R (place k j' w' (some v)))
    (hj : m.get? j = some w) (hk : rename j = some k) :
    ∃ v, (m.rekey rename place).get? k = some v ∧ R v := by
  have hstays : ∀ (l : List (κ × ν)) v, R v →
      ∃ v', l.foldl (fun o e => some (place k e.1 e.2 o)) (some v) = some v' ∧ R v' := by
    intro l
    induction l with
    | nil => exact fun v hv => ⟨v, rfl, hv⟩
    | cons e l ih => exact fun v hv => ih _ (hkeep e.1 e.2 v hv)
  obtain ⟨l1, l2, hl⟩ := append_of_mem (mem_sources.2 ⟨hj, hk⟩)
  rw [get?_rekey, hl, foldl_append]
  exact hstays l2 _ (hput _)

/-- New keys are kept, and so is what stands under them: the second time nothing moves. -/
theorem rekey_rekey (place : κ → κ → ν → Option ν → ν)
    (hrename : ∀ j k, rename j = some k → rename k = some k)
    (hplace : ∀ j k w o, place k k (place k j w o) none = place k j w o) (m : OrdMap κ ν) :
    (m.rekey rename place).rekey rename place = m.rekey rename place := by
  refine ext_get? fun k => ?_
  have hkeys : ∀ e ∈ (m.rekey rename place).entries, rename e.1 = some e.1 := fun e he =>
    rekey_all (P := fun _ => rename e.1 = some e.1) (fun j _ _ => hrename j e.1) (mem_entries.1 he)
  have hsources : (m.rekey rename place).sources rename k =
      ((m.rekey rename place).get? k).toList.map fun v => (k, v) := by
    rw [← filter_entries]
    refine filter_congr fun e he => ?_
    simp [hkeys e he]
  rw [get?_rekey, hsources]
  cases hv : (m.rekey _ _).get? k with
  | none => rfl
  | some v =>
    refine congrArg some ?_
    exact rekey_all (P := fun v => place k k v _ = v) (fun j w o _ => hplace j k w o) hv

end Rekey

/-- A sum over the values, as one over any set of keys that has them all. -/
theorem sum_entries (g : ν → Nat) {keys : Finset κ} (h : ∀ k, (m.get? k).isSome → k ∈ keys) :
    (m.entries.map fun e => g e.2).sum = ∑ k ∈ keys, ((m.get? k).map g).getD 0 := by
  have hnodup : (m.entries.map Prod.fst).Nodup :=
    pairwise_map.2 (m.sorted.imp fun hlt => hlt.ne)
  have hsub : (m.entries.map Prod.fst).toFinset ⊆ keys := by
    intro k hk
    obtain ⟨e, he, rfl⟩ := mem_map.1 (mem_toFinset.1 hk)
    exact h _ (by rw [mem_entries.1 he]; rfl)
  have hzero : ∀ k ∈ keys, k ∉ (m.entries.map Prod.fst).toFinset →
      ((m.get? k).map g).getD 0 = 0 := by
    intro k _ hk
    cases hget : m.get? k with
    | none => rfl
    | some v =>
      refine absurd (mem_toFinset.2 ?_) hk
      exact mem_map.2 ⟨(k, v), mem_entries.2 hget, rfl⟩
  rw [← Finset.sum_subset hsub hzero, sum_toFinset _ hnodup, map_map]
  refine congrArg sum (map_congr_left fun e he => ?_)
  rw [Function.comp_apply, mem_entries.1 he]
  rfl

theorem length_upsertEntries_le (k : κ) (f : Option ν → ν) (l : List (κ × ν)) :
    (upsertEntries k f l).length ≤ l.length + 1 := by
  induction l with
  | nil => exact Nat.le_refl 1
  | cons a l ih =>
    rw [upsertEntries]
    split
    · exact Nat.le_refl _
    · split
      · exact Nat.le_succ _
      · exact Nat.succ_le_succ ih

/-! ## The least value under each key -/

section Least

variable [LinearOrder ν] {α : Type}

def insertMin (m : OrdMap κ ν) (k : κ) (v : ν) : OrdMap κ ν :=
  m.upsert k fun old => min (old.getD v) v

theorem get?_foldl_insertMin (key : α → κ) (value : α → ν) (l : List α) (k : κ) :
    (l.foldl (fun m a => m.insertMin (key a) (value a)) ({} : OrdMap κ ν)).get? k =
      ((l.filter fun a => key a = k).map value).min? := by
  -- From a map that has `v` under `k`, the fold leaves the least of `v` and the values to come.
  suffices ∀ m : OrdMap κ ν,
      (l.foldl _ m).get? k =
        ((m.get? k).toList ++ (l.filter fun a => key a = k).map value).min? from this {}
  induction l with
  | nil =>
    intro m
    cases hm : m.get? k with
    | none => simp [hm]
    | some v => simp [hm]
  | cons a l ih =>
    intro m
    rw [foldl_cons, ih, insertMin, get?_upsert]
    by_cases hk : key a = k
    · subst hk
      rw [if_pos rfl, filter_cons_of_pos (by simp)]
      cases hm : m.get? _ with
      | none => simp
      | some v => rfl
    · rw [if_neg (Ne.symm hk), filter_cons_of_neg (by simpa using hk)]

theorem length_foldl_insertMin_le (key : α → κ) (value : α → ν) (l : List α) :
    (l.foldl (fun m a => m.insertMin (key a) (value a)) ({} : OrdMap κ ν)).entries.length ≤
      l.length := by
  suffices ∀ m : OrdMap κ ν,
      (l.foldl _ m).entries.length ≤
        m.entries.length + l.length by simpa using this {}
  induction l with
  | nil => exact fun _ => Nat.le_refl _
  | cons a l ih =>
    intro m
    have hstep := length_upsertEntries_le (key a) (fun old => min (old.getD (value a)) (value a))
      m.entries
    have hrest := ih (m.insertMin (key a) (value a))
    simp only [insertMin, upsert] at hrest
    simp only [foldl_cons, length_cons, insertMin, upsert]
    omega

end Least

end OrdMap

/-! ## Least and greatest elements of lists -/

section Extrema

variable {α : Type} [LinearOrder α] {l l' : List α}

theorem min?_congr (h : ∀ a, a ∈ l ↔ a ∈ l') : l.min? = l'.min? := by
  cases hl : l.min? with
  | none =>
    obtain rfl := min?_eq_none_iff.1 hl
    have hnil : l' = [] := eq_nil_iff_forall_not_mem.2 fun a ha => nomatch (h a).2 ha
    rw [hnil, min?_nil]
  | some a =>
    obtain ⟨ha, hle⟩ := min?_eq_some_iff.1 hl
    exact (min?_eq_some_iff.2 ⟨(h a).1 ha, fun b hb => hle b ((h b).2 hb)⟩).symm

theorem max?_congr (h : ∀ a, a ∈ l ↔ a ∈ l') : l.max? = l'.max? := by
  cases hl : l.max? with
  | none =>
    obtain rfl := max?_eq_none_iff.1 hl
    have hnil : l' = [] := eq_nil_iff_forall_not_mem.2 fun a ha => nomatch (h a).2 ha
    rw [hnil, max?_nil]
  | some a =>
    obtain ⟨ha, hle⟩ := max?_eq_some_iff.1 hl
    exact (max?_eq_some_iff.2 ⟨(h a).1 ha, fun b hb => hle b ((h b).2 hb)⟩).symm

/-- Some element of the list is at least `a` if the greatest one is. -/
theorem max?_any_le {a : α} : l.max?.any (a ≤ ·) ↔ ∃ b ∈ l, a ≤ b := by
  cases hl : l.max? with
  | none =>
    obtain rfl := max?_eq_none_iff.1 hl
    simp
  | some b =>
    obtain ⟨hb, hle⟩ := max?_eq_some_iff.1 hl
    simp only [Option.any_some, decide_eq_true_eq]
    exact ⟨fun h => ⟨b, hb, h⟩, fun ⟨c, hc, h⟩ => h.trans (hle c hc)⟩

end Extrema

end TraceCommons
