import TraceCommons.Lib.OrdMap

/-! # The dedup sweep

Each row is offered the first member of every cluster formed so far and joins the largest one in
reach, or opens a cluster under the id it is stored with. The clusters are balls around their first
members, no first member is in the reach of another, and a sweep of its own output reproduces it:
what decides a row is the state before it, and the two sweeps go through the same states. -/

namespace TraceCommons.Dedup

open List

abbrev Uuid := Nat

def hammingDistance (a b : BitVec 64) : Nat := (List.range 64).countP (a ^^^ b).getLsbD

structure DedupConstants where
  tauEMicros : Int
  tauHamming : Nat

structure ClusterCandidate where
  clusterId : Uuid
  size : Nat
  simhash : BitVec 64
  embedCosineMicros : Option Int
  signalVersion : String

inductive ClusterAssignment
  | existing (id : Uuid)
  | new

/-- A candidate of the same version matches on either signal. -/
def ClusterCandidate.Matches (c : ClusterCandidate) (simhash : BitVec 64) (version : String)
    (k : DedupConstants) : Prop :=
  c.signalVersion = version ∧ (hammingDistance simhash c.simhash ≤ k.tauHamming ∨
    c.embedCosineMicros.any (· ≤ k.tauEMicros))

instance (c : ClusterCandidate) (simhash : BitVec 64) (version : String) (k : DedupConstants) :
    Decidable (c.Matches simhash version k) :=
  inferInstanceAs (Decidable (_ ∧ _))

/-- The larger cluster, and of two of one size the one with the lower id. -/
def larger (best : Option (Uuid × Nat)) (c : ClusterCandidate) : Option (Uuid × Nat) :=
  match best with
  | none => some (c.clusterId, c.size)
  | some (bid, bsize) =>
    if bsize < c.size ∨ c.size = bsize ∧ c.clusterId < bid then some (c.clusterId, c.size)
    else some (bid, bsize)

def assignCluster (simhash : BitVec 64) (version : String) (candidates : List ClusterCandidate)
    (k : DedupConstants) : ClusterAssignment :=
  match candidates.foldl
    (fun best c => if c.Matches simhash version k then larger best c else best) none with
  | some (id, _) => .existing id
  | none => .new

structure SweepRow where
  simhash : BitVec 64
  signalVersion : String
  storedClusterId : Option Uuid

structure SweepAssignment where
  clusterId : Uuid
  nearestRepresentativeHamming : Option Nat

structure SweepResult where
  assignments : List SweepAssignment
  sizes : OrdMap Uuid Nat

structure Representative where
  clusterId : Uuid
  simhash : BitVec 64
  signalVersion : String

/-- The variables of the loop, and how many ids `Uuid::new_v4` has returned. -/
structure Sweep where
  representatives : List Representative := []
  sizes : OrdMap Uuid Nat := {}
  assignments : List SweepAssignment := []
  minted : Nat := 0

namespace Sweep

variable (mint : Nat → Uuid) (k : DedupConstants) (s : Sweep) (row : SweepRow)

def candidates : List ClusterCandidate :=
  s.representatives.map fun r =>
    { clusterId := r.clusterId, size := (s.sizes.get? r.clusterId).getD 0, simhash := r.simhash
      embedCosineMicros := none, signalVersion := r.signalVersion }

def nearest : Option Nat :=
  ((s.candidates.filter (·.signalVersion = row.signalVersion)).map fun c =>
    hammingDistance row.simhash c.simhash).min?

/-- The id a row opens its cluster under: the stored one unless it is taken. -/
def claim : Uuid × Nat :=
  match row.storedClusterId.filter fun stored => (s.sizes.get? stored).isNone with
  | some stored => (stored, s.minted)
  | none => (mint s.minted, s.minted + 1)

def openCluster (id : Uuid) : Sweep :=
  { s with representatives := s.representatives ++ [⟨id, row.simhash, row.signalVersion⟩] }

def place (id : Uuid) (nearest : Option Nat) : Sweep :=
  { s with
    sizes := s.sizes.upsert id fun size => size.getD 0 + 1
    assignments := s.assignments ++ [⟨id, nearest⟩] }

def step : Sweep :=
  match assignCluster row.simhash row.signalVersion s.candidates k with
  | .existing id => s.place id (s.nearest row)
  | .new =>
    { (s.openCluster row (s.claim mint row).1).place (s.claim mint row).1 (s.nearest row) with
      minted := (s.claim mint row).2 }

end Sweep

/-- The loop of `sweep_clusters`, with the ids `Uuid::new_v4` returns. -/
def sweep (mint : Nat → Uuid) (rows : List SweepRow) (k : DedupConstants) : Sweep :=
  rows.foldl (Sweep.step mint k) {}

def sweepClusters (mint : Nat → Uuid) (rows : List SweepRow) (k : DedupConstants) : SweepResult :=
  ⟨(sweep mint rows k).assignments, (sweep mint rows k).sizes⟩

/-! ## Assignments -/

theorem hammingDistance_self (a : BitVec 64) : hammingDistance a a = 0 := by
  simp [hammingDistance]

theorem hammingDistance_comm (a b : BitVec 64) : hammingDistance a b = hammingDistance b a := by
  rw [hammingDistance, BitVec.xor_comm, hammingDistance]

theorem larger_isSome (best : Option (Uuid × Nat)) (c : ClusterCandidate) :
    ∃ b, larger best c = some b ∧ (b.1 = c.clusterId ∨ best = some b) := by
  unfold larger
  split
  · exact ⟨_, rfl, .inl rfl⟩
  · split
    · exact ⟨_, rfl, .inl rfl⟩
    · exact ⟨_, rfl, .inr rfl⟩

theorem foldl_larger (candidates : List ClusterCandidate) :
    match candidates.foldl larger none with
    | some b => ∃ c ∈ candidates, c.clusterId = b.1
    | none => candidates = [] := by
  induction candidates using reverseRecOn with
  | nil => rfl
  | append_singleton candidates c ih =>
    obtain ⟨b, hb, hor⟩ := larger_isSome _ c
    rw [foldl_append, foldl_cons, hb]
    rcases hor with hid | hold
    · exact ⟨c, by simp, hid.symm⟩
    · rw [hold] at ih
      exact ih.imp fun c' h => ⟨mem_append_left _ h.1, h.2⟩

/-- An assignment is to a candidate that matches, and there is one if any does. -/
theorem assignCluster_spec (simhash : BitVec 64) (version : String)
    (candidates : List ClusterCandidate) (k : DedupConstants) :
    match assignCluster simhash version candidates k with
    | .existing id => ∃ c ∈ candidates, c.Matches simhash version k ∧ c.clusterId = id
    | .new => ∀ c ∈ candidates, ¬ c.Matches simhash version k := by
  have hloop := foldl_larger (candidates.filter fun c => c.Matches simhash version k)
  simp only [foldl_filter, decide_eq_true_eq] at hloop
  unfold assignCluster
  split at hloop
  next b hb =>
    rw [hb]
    obtain ⟨c, hc, hid⟩ := hloop
    exact ⟨c, (mem_filter.1 hc).1, of_decide_eq_true (mem_filter.1 hc).2, hid⟩
  next hb =>
    rw [hb]
    exact fun c hc hm => filter_eq_nil_iff.1 hloop c hc (decide_eq_true hm)

/-! ## Clusters -/

/-- What a sweep of some rows has formed: every row is in the reach of a representative, which is
the first row of its cluster, the representatives are out of each other's reach, and the sizes count
the rows. -/
structure Clustering (k : DedupConstants) (rows : List SweepRow) (s : Sweep) : Prop where
  length : s.assignments.length = rows.length
  distinct : (s.representatives.map (·.clusterId)).Nodup
  apart : s.representatives.Pairwise fun a b =>
    a.signalVersion = b.signalVersion → k.tauHamming < hammingDistance a.simhash b.simhash
  first : ∀ r ∈ s.representatives, ∃ e,
    (rows.zip s.assignments).find? (·.2.clusterId = r.clusterId) = some e ∧
      e.1.simhash = r.simhash ∧ e.1.signalVersion = r.signalVersion
  near : ∀ e ∈ rows.zip s.assignments, ∃ r ∈ s.representatives, r.clusterId = e.2.clusterId ∧
    r.signalVersion = e.1.signalVersion ∧ hammingDistance e.1.simhash r.simhash ≤ k.tauHamming
  sizes : ∀ id, s.sizes.get? id = if id ∈ s.representatives.map (·.clusterId) then
    some ((rows.zip s.assignments).countP (·.2.clusterId = id)) else none

/-- The ids still to come are not in use. -/
def Fresh (mint : Nat → Uuid) (s : Sweep) : Prop :=
  ∀ i, s.minted ≤ i → s.sizes.get? (mint i) = none

section Step

variable {mint : Nat → Uuid} {k : DedupConstants} {rows : List SweepRow} {s : Sweep}
  {row : SweepRow}

theorem Clustering.mem_ids (h : Clustering k rows s) {id : Uuid} :
    id ∈ s.representatives.map (·.clusterId) ↔ (s.sizes.get? id).isSome := by
  rw [h.sizes]
  split
  next hid => simp [hid]
  next hid => simp [hid]

/-- A row joins a representative in reach, or opens a cluster if there is none. -/
theorem assign_cases (k : DedupConstants) (s : Sweep) (row : SweepRow) :
    (∃ r ∈ s.representatives, r.signalVersion = row.signalVersion ∧
      hammingDistance row.simhash r.simhash ≤ k.tauHamming ∧
      assignCluster row.simhash row.signalVersion s.candidates k = .existing r.clusterId) ∨
    (∀ r ∈ s.representatives, r.signalVersion = row.signalVersion →
      k.tauHamming < hammingDistance r.simhash row.simhash) ∧
      assignCluster row.simhash row.signalVersion s.candidates k = .new := by
  have hspec := assignCluster_spec row.simhash row.signalVersion s.candidates k
  split at hspec
  next id hassign =>
    obtain ⟨c, hc, hm, rfl⟩ := hspec
    obtain ⟨r, hr, rfl⟩ := mem_map.1 hc
    exact .inl ⟨r, hr, hm.1, hm.2.resolve_right (by simp), hassign⟩
  next hassign =>
    refine .inr ⟨fun r hr hversion => ?_, hassign⟩
    have hno := hspec _ (mem_map_of_mem hr)
    rw [hammingDistance_comm]
    exact Nat.lt_of_not_le fun hle => hno ⟨hversion, .inl hle⟩

theorem Clustering.zip_place (h : Clustering k rows s) (a : SweepAssignment) :
    (rows ++ [row]).zip (s.assignments ++ [a]) = rows.zip s.assignments ++ [(row, a)] := by
  rw [zip_append h.length.symm]
  rfl

theorem Clustering.join (h : Clustering k rows s) {r : Representative}
    (hr : r ∈ s.representatives) (hversion : r.signalVersion = row.signalVersion)
    (hnear : hammingDistance row.simhash r.simhash ≤ k.tauHamming) (nearest : Option Nat) :
    Clustering k (rows ++ [row]) (s.place r.clusterId nearest) where
  length := by simp [Sweep.place, h.length]
  distinct := h.distinct
  apart := h.apart
  first r' hr' := by
    obtain ⟨e, he, hsame⟩ := h.first r' hr'
    refine ⟨e, ?_, hsame⟩
    simp [Sweep.place, h.zip_place, he]
  near e he := by
    simp only [Sweep.place, h.zip_place, mem_append, mem_singleton] at he
    rcases he with he | rfl
    · exact h.near e he
    · exact ⟨r, hr, rfl, hversion, hnear⟩
  sizes id := by
    simp only [Sweep.place, OrdMap.get?_upsert, h.zip_place, countP_append, countP_singleton]
    by_cases hid : id = r.clusterId
    · have hmem := mem_map_of_mem (f := (·.clusterId)) hr
      simp [hid, h.sizes, hmem]
    · simp [if_neg hid, h.sizes, if_neg (Ne.symm hid)]

theorem Clustering.opens (h : Clustering k rows s) {id : Uuid} (hid : s.sizes.get? id = none)
    (hapart : ∀ r ∈ s.representatives, r.signalVersion = row.signalVersion →
      k.tauHamming < hammingDistance r.simhash row.simhash) (nearest : Option Nat) (minted : Nat) :
    Clustering k (rows ++ [row])
      { (s.openCluster row id).place id nearest with minted := minted } := by
  have hnew : id ∉ s.representatives.map (·.clusterId) := by simp [h.mem_ids, hid]
  have hunused : ∀ e ∈ rows.zip s.assignments, e.2.clusterId ≠ id := by
    intro e he heq
    obtain ⟨r, hr, hre, -⟩ := h.near e he
    exact hnew (mem_map.2 ⟨r, hr, hre.trans heq⟩)
  constructor
  case length => simp [Sweep.place, Sweep.openCluster, h.length]
  case distinct =>
    simp only [Sweep.place, Sweep.openCluster, map_append, map_cons]
    refine nodup_append.2 ⟨h.distinct, nodup_singleton _, ?_⟩
    rintro a ha _ hb rfl
    exact hnew (mem_singleton.1 hb ▸ ha)
  case apart =>
    refine pairwise_append.2 ⟨h.apart, pairwise_singleton _ _, fun r hr r' hr' => ?_⟩
    obtain rfl := mem_singleton.1 hr'
    exact hapart r hr
  case first =>
    intro r hr
    simp only [Sweep.place, Sweep.openCluster, h.zip_place, find?_append]
    rcases mem_append.1 hr with hr | hr
    · obtain ⟨e, he, hsame⟩ := h.first r hr
      exact ⟨e, by rw [he, Option.some_or], hsame⟩
    obtain rfl := mem_singleton.1 hr
    rw [find?_eq_none.2 fun e he => by simpa using hunused e he]
    simp
  case near =>
    intro e he
    simp only [Sweep.place, Sweep.openCluster, h.zip_place, mem_append, mem_singleton] at he ⊢
    rcases he with he | rfl
    · obtain ⟨r, hr, hsame⟩ := h.near e he
      exact ⟨r, .inl hr, hsame⟩
    · exact ⟨_, .inr rfl, rfl, rfl, by simp [hammingDistance_self]⟩
  case sizes =>
    intro id'
    have hcount : (rows.zip s.assignments).countP (·.2.clusterId = id) = 0 :=
      countP_eq_zero.2 fun e he => by simpa using hunused e he
    simp only [Sweep.place, Sweep.openCluster, OrdMap.get?_upsert, h.zip_place, countP_append,
      countP_singleton, map_append, map_cons, map_nil, mem_append, mem_singleton]
    by_cases hid' : id' = id
    · simp [hid', hid, hcount]
    · simp [hid', h.sizes, if_neg (Ne.symm _)]

/-- An id a row opens its cluster under is not in use, nor will it be minted. -/
theorem claim_spec (hinj : Function.Injective mint) (hfresh : Fresh mint s)
    (hstored : ∀ i, row.storedClusterId ≠ some (mint i)) :
    s.sizes.get? (s.claim mint row).1 = none ∧ s.minted ≤ (s.claim mint row).2 ∧
      ∀ i, (s.claim mint row).2 ≤ i → mint i ≠ (s.claim mint row).1 := by
  unfold Sweep.claim
  split
  next stored h =>
    obtain ⟨hrow, hnone⟩ := Option.filter_eq_some_iff.1 h
    refine ⟨Option.isNone_iff_eq_none.1 hnone, Nat.le_refl _, fun i _ heq => ?_⟩
    exact hstored i (hrow.trans (congrArg _ heq.symm))
  next =>
    refine ⟨hfresh _ (Nat.le_refl _), Nat.le_succ _, fun i hi heq => ?_⟩
    exact absurd (hinj heq) (Nat.ne_of_gt hi)

theorem claim_of_stored {id : Uuid} (hrow : row.storedClusterId = some id)
    (hnone : s.sizes.get? id = none) : s.claim mint row = (id, s.minted) := by
  simp [Sweep.claim, hrow, Option.filter_some, hnone]

theorem step_clustering (hinj : Function.Injective mint) (h : Clustering k rows s)
    (hfresh : Fresh mint s) (hstored : ∀ i, row.storedClusterId ≠ some (mint i)) :
    Clustering k (rows ++ [row]) (s.step mint k row) ∧ Fresh mint (s.step mint k row) := by
  rcases assign_cases k s row with ⟨r, hr, hversion, hnear, hassign⟩ | ⟨hapart, hassign⟩
  · simp only [Sweep.step, hassign]
    refine ⟨h.join hr hversion hnear _, fun i hi => ?_⟩
    have hused := h.mem_ids.1 (mem_map_of_mem (f := (·.clusterId)) hr)
    have hne : mint i ≠ r.clusterId := fun heq => by simp [← heq, hfresh i hi] at hused
    simp only [Sweep.place, OrdMap.get?_upsert, if_neg hne]
    exact hfresh i hi
  · obtain ⟨hnone, hle, hunused⟩ := claim_spec hinj hfresh hstored
    simp only [Sweep.step, hassign]
    refine ⟨h.opens hnone hapart _ _, fun i hi => ?_⟩
    simp only [Sweep.place, OrdMap.get?_upsert, if_neg (hunused i hi)]
    exact hfresh i (hle.trans hi)

end Step

/-! ## Sweeps -/

/-- A row as it is stored after a sweep. -/
def SweepRow.restored (row : SweepRow) (a : SweepAssignment) : SweepRow :=
  { row with storedClusterId := some a.clusterId }

/-- A row stored where it was placed is placed there again, and nothing is minted for it. -/
theorem step_restored {mint : Nat → Uuid} {k : DedupConstants} {s : Sweep} {row : SweepRow}
    (hnone : s.sizes.get? (s.claim mint row).1 = none) (mint' : Nat → Uuid) (minted : Nat) :
    ∃ a, (s.step mint k row).assignments = s.assignments ++ [a] ∧
      Sweep.step mint' k { s with minted } (row.restored a) =
        { s.step mint k row with minted } := by
  rcases assign_cases k s row with ⟨r, -, -, -, hassign⟩ | ⟨-, hassign⟩
  · have hassign' : assignCluster row.simhash row.signalVersion
        (Sweep.candidates { s with minted }) k = .existing r.clusterId := hassign
    refine ⟨⟨r.clusterId, s.nearest row⟩, ?_, ?_⟩
    · simp [Sweep.step, hassign, Sweep.place]
    · simp only [Sweep.step, SweepRow.restored, hassign, hassign']
      rfl
  · have hassign' : assignCluster row.simhash row.signalVersion
        (Sweep.candidates { s with minted }) k = .new := hassign
    refine ⟨⟨(s.claim mint row).1, s.nearest row⟩, ?_, ?_⟩
    · simp [Sweep.step, hassign, Sweep.place, Sweep.openCluster]
    have hclaim : Sweep.claim mint' { s with minted }
        (row.restored ⟨(s.claim mint row).1, s.nearest row⟩) =
          ((s.claim mint row).1, minted) := claim_of_stored rfl hnone
    simp only [Sweep.step, hclaim]
    simp only [SweepRow.restored, hassign, hassign']
    rfl

theorem sweep_append (mint : Nat → Uuid) (rows : List SweepRow) (row : SweepRow)
    (k : DedupConstants) :
    sweep mint (rows ++ [row]) k = (sweep mint rows k).step mint k row := by
  rw [sweep, foldl_append]
  rfl

/-- A sweep partitions the rows into balls around first members that are out of each other's reach,
and a sweep of what it has stored gives the same assignments and sizes and mints no id. -/
theorem sweep_clusters_stable (mint mint' : Nat → Uuid) (k : DedupConstants)
    (rows : List SweepRow) (hinj : Function.Injective mint)
    (hstored : ∀ row ∈ rows, ∀ i, row.storedClusterId ≠ some (mint i)) :
    Clustering k rows (sweep mint rows k) ∧
    sweepClusters mint' (rows.zipWith SweepRow.restored (sweepClusters mint rows k).assignments) k =
      sweepClusters mint rows k ∧
    (sweep mint' (rows.zipWith SweepRow.restored (sweepClusters mint rows k).assignments)
      k).minted = 0 := by
  -- The two sweeps go through the same states but for the count of minted ids.
  suffices (Clustering k _ _ ∧ Fresh mint (sweep mint rows k)) ∧
      sweep mint' (rows.zipWith SweepRow.restored (sweep mint rows k).assignments) k =
        { sweep mint rows k with minted := 0 } by
    obtain ⟨⟨h, -⟩, hagain⟩ := this
    simp only [sweepClusters, hagain, and_true]
    exact h
  induction rows using reverseRecOn with
  | nil =>
    refine ⟨⟨?_, fun _ _ => rfl⟩, rfl⟩
    constructor <;> simp [sweep, OrdMap.get?]
  | append_singleton rows row ih =>
    obtain ⟨⟨h, hfresh⟩, hagain⟩ := ih fun r hr => hstored r (mem_append_left _ hr)
    have hrow := hstored row (by simp)
    rw [sweep_append]
    refine ⟨step_clustering hinj h hfresh hrow, ?_⟩
    obtain ⟨a, ha, hstep⟩ := step_restored (k := k) (claim_spec hinj hfresh hrow).1 _ 0
    rw [ha, zipWith_append h.length.symm, zipWith_cons_cons, zipWith_nil_left,
      sweep_append, hagain, hstep]

/-- Three rows under one stamp, the first two within a bit of each other. -/
theorem sweep_clusters_stable_three :
    let rows : List SweepRow := [⟨0, "v", none⟩, ⟨1, "v", none⟩, ⟨0xffff, "v", some 7⟩]
    let k : DedupConstants := ⟨30000, 8⟩
    ((sweepClusters (· + 8) rows k).assignments.map (·.clusterId) = [8, 8, 7]) ∧
      (sweep (fun _ => 0) (rows.zipWith SweepRow.restored
        (sweepClusters (· + 8) rows k).assignments) k).minted = 0 := by
  refine ⟨by decide +kernel, (sweep_clusters_stable (· + 8) (fun _ => 0) _ _ ?_ ?_).2.2⟩
  · exact add_left_injective 8
  · simp only [forall_mem_cons, not_mem_nil, false_imp_iff, implies_true, and_true]
    refine ⟨nofun, nofun, fun i h => ?_⟩
    exact absurd (Option.some.inj h : 7 = i + 8) (by omega)

end TraceCommons.Dedup
