import TraceCommons.Daemon.FolderPolicy
import TraceCommons.Lib.Fold
import TraceCommons.Lib.Trail

/-! # Armed from now

A folder armed from now, and an `AutoUpload` override, send nothing that was on disk when they
began. One map of paths serves all of them: each path has the number of the first record that saw
it, and each arming the number of the record it took per source. -/

namespace TraceCommons.Daemon

open Option OrdMap

namespace ProjectPolicy

variable {p q : ProjectPolicy} {key path source : String} {slot : Option String}
  {a : ArmedFromNow} {host : Host}

/-! ## Records -/

/-- The record of a folder, or that of the override. -/
def recordOf (p : ProjectPolicy) : Option String → Option ArmedFromNow
  | some key => p.armedFromNow.get? key
  | none => p.overrideArming

def slotOf (key : String) : Option String := if key = overrideArmingKey then none else some key

theorem armingRecord_eq (p : ProjectPolicy) (key : String) :
    p.armingRecord key = p.recordOf (slotOf key) := by
  unfold armingRecord slotOf
  split <;> rfl

/-- The path was on disk when the arming took its record of the source. -/
def Covers (p : ProjectPolicy) (slot : Option String) (source path : String) : Prop :=
  ∃ a r first, p.recordOf slot = some a ∧ a.recordedSources.get? source = some r ∧
    p.sessionsOnDiskAtArming.get? path = some first ∧ first ≤ r

/-- No number is ahead of the next record, and an `AutoUpload` override has an arming. -/
structure Numbered (p : ProjectPolicy) : Prop where
  small : p.nextArmingRecord ≤ 2 ^ 64 - 1
  disk : ∀ path first, p.sessionsOnDiskAtArming.get? path = some first → first ≤ p.nextArmingRecord
  records : ∀ slot a source r, p.recordOf slot = some a →
    a.recordedSources.get? source = some r → r ≤ p.nextArmingRecord
  armed : ∀ o, p.contributionOverride = some o → o.mode = .autoUpload → o.arming.isSome

/-- Everything that records and paths are read from. -/
def ledger (p : ProjectPolicy) :
    OrdMap String ArmedFromNow × Option ContributionOverride × OrdMap String Nat × Nat :=
  (p.armedFromNow, p.contributionOverride, p.sessionsOnDiskAtArming, p.nextArmingRecord)

theorem recordOf_congr (ha : q.armedFromNow = p.armedFromNow)
    (ho : q.contributionOverride = p.contributionOverride) (slot : Option String) :
    q.recordOf slot = p.recordOf slot := by
  cases slot with
  | none => exact congrArg (bind · _) ho
  | some key => exact congrArg (get? · key) ha

/-- A change of the policy that records nothing: records go or begin empty, paths go. -/
structure Fades (p q : ProjectPolicy) : Prop where
  next : q.nextArmingRecord = p.nextArmingRecord
  disk : ∀ path first, q.sessionsOnDiskAtArming.get? path = some first →
    p.sessionsOnDiskAtArming.get? path = some first
  records : ∀ slot a source r, q.recordOf slot = some a →
    a.recordedSources.get? source = some r → p.recordOf slot = some a
  armed : ∀ o, q.contributionOverride = some o → o.mode = .autoUpload →
    o.arming.isSome ∨ p.contributionOverride = some o

theorem Fades.trans {r : ProjectPolicy} (h : Fades p q) (h' : Fades q r) : Fades p r where
  next := h'.next.trans h.next
  disk path first hr := h.disk path first (h'.disk path first hr)
  records slot a source n hr hs :=
    h.records slot a source n (h'.records slot a source n hr hs) hs
  armed o ho hm := (h'.armed o ho hm).elim .inl fun hq => h.armed o hq hm

theorem Fades.of_ledger (h : q.ledger = p.ledger) : Fades p q := by
  obtain ⟨ha, ho, hd, hn⟩ : q.armedFromNow = p.armedFromNow ∧
      q.contributionOverride = p.contributionOverride ∧
      q.sessionsOnDiskAtArming = p.sessionsOnDiskAtArming ∧
      q.nextArmingRecord = p.nextArmingRecord := by
    simpa [ledger] using h
  refine ⟨hn, fun path first hq => hd ▸ hq, fun slot a source r hq _ => ?_, fun o hq _ => ?_⟩
  · rwa [recordOf_congr ha ho] at hq
  · exact .inr (ho ▸ hq)

theorem Numbered.fades (hp : p.Numbered) (h : Fades p q) : q.Numbered where
  small := h.next ▸ hp.small
  disk path first hq := h.next ▸ hp.disk path first (h.disk path first hq)
  records slot a source r hq hs :=
    h.next ▸ hp.records slot a source r (h.records slot a source r hq hs) hs
  armed o ho hm := (h.armed o ho hm).elim id fun hp' => hp.armed o hp' hm

theorem Covers.of_ledger (hc : p.Covers slot source path) (h : q.ledger = p.ledger) :
    q.Covers slot source path := by
  obtain ⟨a, r, first, ha, hs, hd, hle⟩ := hc
  simp only [ledger, Prod.mk.injEq] at h
  refine ⟨a, r, first, ?_, hs, ?_, hle⟩
  · rwa [recordOf_congr h.1 h.2.1]
  · rwa [h.2.2.1]

/-! ## Pruning -/

theorem pruneArmingRecord_eq (p : ProjectPolicy) :
    ∃ disk, p.pruneArmingRecord = { p with sessionsOnDiskAtArming := disk } := by
  unfold pruneArmingRecord
  split
  · exact ⟨_, rfl⟩
  · split
    · exact ⟨_, rfl⟩
    · exact ⟨_, rfl⟩

theorem recordOf_prune (p : ProjectPolicy) (slot : Option String) :
    p.pruneArmingRecord.recordOf slot = p.recordOf slot := by
  obtain ⟨_, h⟩ := p.pruneArmingRecord_eq
  rw [h]
  exact recordOf_congr rfl rfl _

theorem disk_prune {first : Nat}
    (h : p.pruneArmingRecord.sessionsOnDiskAtArming.get? path = some first) :
    p.sessionsOnDiskAtArming.get? path = some first := by
  unfold pruneArmingRecord at h
  split at h
  · rw [get?_filter] at h
    exact (filter_eq_some_iff.1 h).1
  · split at h
    · cases h
    · exact h

theorem mem_recordNumbers {r : Nat} (ha : p.recordOf slot = some a)
    (hs : a.recordedSources.get? source = some r) : r ∈ p.recordNumbers := by
  refine List.mem_flatMap.2 ⟨a, List.mem_append.2 ?_,
    List.mem_map.2 ⟨(source, r), mem_entries.2 hs, rfl⟩⟩
  cases slot with
  | none => exact .inr (mem_toList.2 ha)
  | some key => exact .inl (List.mem_map.2 ⟨(key, a), mem_entries.2 ha, rfl⟩)

theorem fades_prune (p : ProjectPolicy) : Fades p p.pruneArmingRecord where
  next := by
    obtain ⟨_, h⟩ := p.pruneArmingRecord_eq
    rw [h]
  disk path first h := disk_prune h
  records slot a source r h _ := by rwa [recordOf_prune] at h
  armed o h _ := by
    obtain ⟨_, heq⟩ := p.pruneArmingRecord_eq
    rw [heq] at h
    exact .inr h

/-- Pruning keeps what an arming in force holds. -/
theorem Covers.prune (hc : p.Covers slot source path) :
    p.pruneArmingRecord.Covers slot source path := by
  obtain ⟨a, r, first, ha, hs, hd, hle⟩ := hc
  refine ⟨a, r, first, by rwa [recordOf_prune], hs, ?_, hle⟩
  have hmem := mem_recordNumbers ha hs
  unfold pruneArmingRecord
  split
  next latest hmax =>
    have hany := max?_any_le.2 ⟨r, hmem, hle⟩
    rw [hmax, any_some, decide_eq_true_iff] at hany
    rw [get?_filter, hd]
    exact filter_eq_some_iff.2 ⟨rfl, decide_eq_true hany⟩
  next hmax =>
    rw [List.max?_eq_none_iff] at hmax
    rw [hmax] at hmem
    exact absurd hmem List.not_mem_nil

/-! ## Recording -/

theorem recordOf_updateArming (p : ProjectPolicy) (key : String) (f : ArmedFromNow → ArmedFromNow)
    (slot : Option String) :
    (p.updateArming key f).recordOf slot =
      if slot = slotOf key then (p.recordOf slot).map f else p.recordOf slot := by
  by_cases hkey : key = overrideArmingKey
  · rw [updateArming, if_pos hkey, slotOf, if_pos hkey]
    cases slot with
    | none =>
      cases ho : p.contributionOverride <;> simp [recordOf, overrideArming, ho]
    | some j => rfl
  · rw [updateArming, if_neg hkey, slotOf, if_neg hkey]
    cases slot with
    | none => rfl
    | some j =>
      simp only [recordOf, get?_mapValues, some.injEq]
      by_cases hj : j = key
      · simp [if_pos hj]
      · simp [if_neg hj]

theorem updateArming_disk (p : ProjectPolicy) (key : String) (f : ArmedFromNow → ArmedFromNow) :
    (p.updateArming key f).sessionsOnDiskAtArming = p.sessionsOnDiskAtArming ∧
      (p.updateArming key f).nextArmingRecord = p.nextArmingRecord := by
  unfold updateArming
  split <;> exact ⟨rfl, rfl⟩

/-- An arming after the records of a list of armings. -/
def recordEach (source : String) (seq : Nat) (slot : Option String)
    (armings : List (String × DateTime)) (a : ArmedFromNow) : ArmedFromNow :=
  armings.foldl
    (fun a arming => if slot = slotOf arming.1 then recordArming source seq arming.2 a else a) a

theorem recordOf_foldl (source : String) (seq : Nat) (armings : List (String × DateTime))
    (p : ProjectPolicy) (slot : Option String) :
    (armings.foldl (fun q arming => q.updateArming arming.1 (recordArming source seq arming.2))
      p).recordOf slot = (p.recordOf slot).map (recordEach source seq slot armings) := by
  induction armings generalizing p with
  | nil => exact (map_id' ..).symm
  | cons arming armings ih =>
    rw [List.foldl_cons, ih, recordOf_updateArming]
    by_cases h : slot = slotOf arming.1
    · rw [if_pos h, map_map]
      refine congrArg (Option.map · _) (funext fun a => ?_)
      rw [Function.comp_apply, recordEach, recordEach, List.foldl_cons, if_pos h]
    · rw [if_neg h]
      refine congrArg (Option.map · _) (funext fun a => ?_)
      rw [recordEach, recordEach, List.foldl_cons, if_neg h]

/-- The source recorded, if it was not. -/
def stamped (source : String) (seq : Nat) (a : ArmedFromNow) : ArmedFromNow :=
  { a with recordedSources := a.recordedSources.upsert source (·.getD seq) }

theorem stamped_stamped (source : String) (seq : Nat) (a : ArmedFromNow) :
    stamped source seq (stamped source seq a) = stamped source seq a := by
  refine congrArg (ArmedFromNow.mk _) (ext_get? fun s => ?_)
  by_cases hs : s = source <;> simp [stamped, hs]

/-- Whether the list has the arming as it is. -/
def lists (armings : List (String × DateTime)) (slot : Option String) (a : ArmedFromNow) : Bool :=
  armings.any fun arming => slot = slotOf arming.1 ∧ a.armedAt = arming.2

theorem recordEach_eq (source : String) (seq : Nat) (slot : Option String)
    (armings : List (String × DateTime)) (a : ArmedFromNow) :
    recordEach source seq slot armings a =
      if lists armings slot a then stamped source seq a else a := by
  induction armings generalizing a with
  | nil => rfl
  | cons arming armings ih =>
    rw [recordEach, List.foldl_cons, lists, List.any_cons]
    by_cases hslot : slot = slotOf arming.1
    · by_cases hat : a.armedAt = arming.2
      · rw [if_pos hslot, recordArming, if_pos hat]
        have hagain := ih (stamped source seq a)
        rw [stamped_stamped, ite_self] at hagain
        rw [decide_eq_true ⟨hslot, hat⟩]
        exact hagain
      · rw [if_pos hslot, recordArming, if_neg hat, decide_eq_false fun h => hat h.2]
        exact ih a
    · rw [if_neg hslot, decide_eq_false fun h => hslot h.1]
      exact ih a

theorem foldl_updateArming_disk (source : String) (seq : Nat)
    (armings : List (String × DateTime)) (p : ProjectPolicy) :
    (armings.foldl (fun q arming => q.updateArming arming.1 (recordArming source seq arming.2))
      p).sessionsOnDiskAtArming = p.sessionsOnDiskAtArming ∧
    (armings.foldl (fun q arming => q.updateArming arming.1 (recordArming source seq arming.2))
      p).nextArmingRecord = p.nextArmingRecord :=
  ⟨Trail.foldl_frame (fun q _ => (q.updateArming_disk _ _).1) p armings,
    Trail.foldl_frame (fun q _ => (q.updateArming_disk _ _).2) p armings⟩

theorem get?_recordSessions (seq : Nat) (sessions : List String) (m : OrdMap String Nat)
    (path : String) :
    (sessions.foldl (fun m path => m.upsert path (·.getD seq)) m).get? path =
      if path ∈ sessions then some ((m.get? path).getD seq) else m.get? path := by
  induction sessions generalizing m with
  | nil => rfl
  | cons s sessions ih =>
    rw [List.foldl_cons, ih]
    by_cases hs : path = s
    · subst hs
      simp
    · simp [hs]

section Record

variable {armings : List (String × DateTime)} {sessions : List String}

section

variable (hneeds : p.needsArmingRecord armings source = true)

include hneeds

theorem recordOf_record (slot : Option String) :
    (p.recordSourceForArmings armings source sessions).recordOf slot =
      (p.recordOf slot).map fun a =>
        if lists armings slot a then stamped source p.nextArmingRecord a else a := by
  rw [recordSourceForArmings, if_pos hneeds, recordOf_foldl]
  exact congrArg (Option.map · _) (funext fun a => recordEach_eq ..)

theorem disk_record (path : String) :
    (p.recordSourceForArmings armings source sessions).sessionsOnDiskAtArming.get? path =
      if path ∈ sessions then
        some ((p.sessionsOnDiskAtArming.get? path).getD p.nextArmingRecord)
      else p.sessionsOnDiskAtArming.get? path := by
  rw [recordSourceForArmings, if_pos hneeds, (foldl_updateArming_disk ..).1]
  exact get?_recordSessions ..

theorem next_record : (p.recordSourceForArmings armings source sessions).nextArmingRecord =
      saturatingSucc64 p.nextArmingRecord := by
  rw [recordSourceForArmings, if_pos hneeds, (foldl_updateArming_disk ..).2]
  rfl

end

end Record

theorem getD_le {o : Option Nat} {n k : Nat} (ho : ∀ m, o = some m → m ≤ k) (hn : n ≤ k) :
    o.getD n ≤ k := by
  cases o with
  | none => exact hn
  | some m => exact ho m rfl

theorem le_saturatingSucc64 {m n : Nat} (hm : m ≤ n) (hn : n ≤ 2 ^ 64 - 1) :
    m ≤ saturatingSucc64 n := by
  unfold saturatingSucc64
  omega

def overrideShape (p : ProjectPolicy) : Option (ProjectMode × Bool) :=
  p.contributionOverride.map fun o => (o.mode, o.arming.isSome)

theorem overrideShape_updateArming (p : ProjectPolicy) (key : String)
    (f : ArmedFromNow → ArmedFromNow) : (p.updateArming key f).overrideShape = p.overrideShape := by
  unfold updateArming
  split
  · cases ho : p.contributionOverride <;> simp [overrideShape, ho]
  · rfl

theorem Numbered.record (hp : p.Numbered) (armings : List (String × DateTime)) (source : String)
    (sessions : List String) : (p.recordSourceForArmings armings source sessions).Numbered := by
  by_cases hneeds : p.needsArmingRecord armings source = true
  · constructor
    · rw [next_record hneeds]
      exact Nat.min_le_right ..
    · intro path first h
      rw [disk_record hneeds] at h
      rw [next_record hneeds]
      refine le_saturatingSucc64 ?_ hp.small
      split at h
      · rw [← some.inj h]
        exact getD_le (hp.disk _) le_rfl
      · exact hp.disk _ _ h
    · intro slot a s r ha hs
      rw [recordOf_record hneeds] at ha
      obtain ⟨b, hb, rfl⟩ := map_eq_some_iff.1 ha
      rw [next_record hneeds]
      refine le_saturatingSucc64 ?_ hp.small
      split at hs
      · rw [stamped, get?_upsert] at hs
        split at hs
        · rw [← some.inj hs]
          exact getD_le (fun n => hp.records _ b _ n hb) le_rfl
        · exact hp.records _ b s r hb hs
      · exact hp.records _ b s r hb hs
    · intro o ho hm
      have hshape : (p.recordSourceForArmings armings source sessions).overrideShape =
          p.overrideShape := by
        rw [recordSourceForArmings, if_pos hneeds]
        exact Trail.foldl_frame (fun q arming => overrideShape_updateArming ..) _ _
      rw [overrideShape, ho] at hshape
      obtain ⟨o', ho', heq⟩ := map_eq_some_iff.1 hshape.symm
      rw [Prod.mk.injEq] at heq
      exact heq.2 ▸ hp.armed o' ho' (heq.1.trans hm)
  · rw [recordSourceForArmings, if_neg hneeds]
    exact hp

/-- A record covers what it lists. -/
theorem covers_record {armings : List (String × DateTime)} {sessions : List String}
    (hp : p.Numbered) (ha : p.armingRecord key = some a) (hlisted : (key, a.armedAt) ∈ armings)
    (hnew : a.recordedSources.get? source = none) (hpath : path ∈ sessions) :
    (p.recordSourceForArmings armings source sessions).Covers (slotOf key) source path := by
  have hneeds : p.needsArmingRecord armings source = true :=
    List.any_eq_true.2 ⟨(key, a.armedAt), hlisted, by simp [ha, hnew]⟩
  have hlists : lists armings (slotOf key) a = true :=
    List.any_eq_true.2 ⟨(key, a.armedAt), hlisted, by simp⟩
  rw [armingRecord_eq] at ha
  refine ⟨stamped source p.nextArmingRecord a, p.nextArmingRecord,
    (p.sessionsOnDiskAtArming.get? path).getD p.nextArmingRecord, ?_, ?_, ?_, ?_⟩
  · rw [recordOf_record hneeds, ha, map_some, if_pos hlists]
  · rw [stamped, get?_upsert, if_pos rfl, hnew]
    rfl
  · rw [disk_record hneeds, if_pos hpath]
  · exact getD_le (hp.disk _) le_rfl

/-- A later record takes nothing back. -/
theorem Covers.record {armings : List (String × DateTime)} {source' : String}
    {sessions : List String} (hc : p.Covers slot source path) :
    (p.recordSourceForArmings armings source' sessions).Covers slot source path := by
  by_cases hneeds : p.needsArmingRecord armings source' = true
  · obtain ⟨a, r, first, ha, hs, hd, hle⟩ := hc
    refine ⟨_, r, first, by rw [recordOf_record hneeds, ha, map_some], ?_, ?_, hle⟩
    · split
      · rw [stamped, get?_upsert]
        split
        next heq =>
          rw [← heq, hs]
          rfl
        · exact hs
      · exact hs
    · rw [disk_record hneeds, hd]
      split <;> rfl
  · rw [recordSourceForArmings, if_neg hneeds]
    exact hc

/-! ## Holding one more path -/

theorem armingFor_recordOf (h : p.armingFor key = some a) : ∃ slot, p.recordOf slot = some a := by
  unfold armingFor at h
  split at h
  next own hown => exact ⟨some key, hown.trans h⟩
  split at h
  · cases h
  rename_i o ho
  split at h
  · cases h
  · exact ⟨none, by rw [recordOf, overrideArming, ho]; exact h⟩

/-- A path gets an earlier number, if any. -/
theorem holdForArming_cases (p : ProjectPolicy) (key path source : String) :
    p.holdForArming key path source = p ∨
    ∃ slot a seq, p.recordOf slot = some a ∧ a.recordedSources.get? source = some seq ∧
      p.holdForArming key path source =
        { p with
          sessionsOnDiskAtArming :=
            p.sessionsOnDiskAtArming.upsert path fun first => (first.map (min · seq)).getD seq } := by
  unfold holdForArming
  split
  · exact .inl rfl
  rename_i seq hseq
  obtain ⟨a, ha, hs⟩ := bind_eq_some_iff.1 hseq
  obtain ⟨slot, hslot⟩ := armingFor_recordOf ha
  exact .inr ⟨slot, a, seq, hslot, hs, rfl⟩

theorem Numbered.hold (hp : p.Numbered) (key path source : String) :
    (p.holdForArming key path source).Numbered := by
  rcases p.holdForArming_cases key _ _ with h | ⟨slot, a, seq, ha, hs, h⟩
  · rw [h]
    exact hp
  rw [h]
  refine ⟨hp.small, fun path' first hd => ?_, fun slot a s r ha hs => ?_, hp.armed⟩
  · have hseq := hp.records _ a _ seq ha hs
    rw [get?_upsert] at hd
    split at hd
    · cases hold : p.sessionsOnDiskAtArming.get? _ with
      | none =>
        rw [hold] at hd
        exact some.inj hd ▸ hseq
      | some n =>
        rw [hold] at hd
        exact some.inj hd ▸ (Nat.min_le_right n seq).trans hseq
    · exact hp.disk _ _ hd
  · exact hp.records _ a s r ((recordOf_congr (p := p) rfl rfl _).symm.trans ha) hs

theorem Covers.hold (hc : p.Covers slot source path) (key path' source' : String) :
    (p.holdForArming key path' source').Covers slot source path := by
  rcases p.holdForArming_cases key _ _ with h | ⟨_, _, seq, _, _, h⟩
  · rw [h]
    exact hc
  obtain ⟨a, r, first, ha, hs, hd, hle⟩ := hc
  rw [h]
  by_cases hpath : path = path'
  · subst hpath
    refine ⟨a, r, min _ seq, ?_, hs, ?_, (Nat.min_le_left _ seq).trans hle⟩
    · exact (recordOf_congr (p := p) rfl rfl _).trans ha
    · rw [get?_upsert, if_pos rfl, hd]
      rfl
  · refine ⟨a, r, first, ?_, hs, ?_, hle⟩
    · exact (recordOf_congr (p := p) rfl rfl _).trans ha
    · rwa [get?_upsert, if_neg hpath]

/-! ## Modes, overrides and sweeps -/

variable {mode : ProjectMode}

theorem fades_setMode {now : DateTime} (h : p.setMode host key mode now = .ok q) : Fades p q := by
  obtain ⟨_, _, h⟩ := bind_eq_ok.1 h
  cases h
  refine ⟨rfl, fun _ _ h => h, fun slot a s r ha _ => ?_, fun o ho _ => .inr ho⟩
  cases slot with
  | none => exact ha
  | some j =>
    simp only [recordOf, get?_erase] at ha
    split at ha
    · cases ha
    · exact ha

theorem fades_armFromNow (now : DateTime) : Fades p (p.armFromNow key now) := by
  refine ⟨rfl, fun _ _ h => h, fun slot a s r ha hs => ?_, fun o ho _ => .inr ho⟩
  cases slot with
  | none => exact ha
  | some j =>
    simp only [recordOf, armFromNow, get?_insert] at ha
    split at ha
    · cases ha
      cases hs
    · exact ha

theorem fades_dropOverride : Fades p p.dropOverride := by
  refine ⟨rfl, fun _ _ h => h, fun slot a s r ha _ => ?_, fun o ho _ => nomatch ho⟩
  cases slot with
  | none => cases ha
  | some j => exact ha

theorem setContributionOverride_cases {now : DateTime} {grant : Option (GrantTerms × ArmingClaim)}
    (h : p.setContributionOverride mode now grant = .ok q) :
    q = p ∨ ∃ mid : ProjectPolicy, q = mid.pruneArmingRecord ∧
      p.contributionOverride.any (·.mode = mode) = false ∧ mid.armedFromNow = p.armedFromNow ∧
      mid.sessionsOnDiskAtArming = p.sessionsOnDiskAtArming ∧
      mid.nextArmingRecord = p.nextArmingRecord ∧
      ∃ o, mid.contributionOverride = some o ∧ o.mode = mode ∧
        o.arming = if mode = .autoUpload then some { armedAt := now } else none := by
  unfold setContributionOverride at h
  split at h
  · cases h
  split at h
  · cases h
    exact .inl rfl
  next hother =>
    cases h
    exact .inr ⟨_, rfl, Bool.eq_false_iff.2 hother, rfl, rfl, rfl, _, rfl, rfl, rfl⟩

theorem fades_setContributionOverride {now : DateTime} {grant : Option (GrantTerms × ArmingClaim)}
    (h : p.setContributionOverride mode now grant = .ok q) : Fades p q := by
  rcases setContributionOverride_cases h with rfl | ⟨mid, rfl, _, ha, hd, hn, o, ho, hmode, harm⟩
  · exact .of_ledger rfl
  refine .trans ⟨hn, fun path first h => hd ▸ h, fun slot a s r hr hs => ?_, ?_⟩
    mid.fades_prune
  · cases slot with
    | none =>
      rw [recordOf, overrideArming, ho, bind_some, harm] at hr
      split at hr
      · cases hr
        cases hs
      · cases hr
    | some j => rwa [recordOf, ha] at hr
  · intro o' ho' hauto
    rw [ho] at ho'
    cases ho'
    rw [harm, if_pos (hmode.symm.trans hauto)]
    exact .inl rfl

theorem fades_clear : Fades p p.clearContributionOverride := by
  unfold clearContributionOverride
  split
  · exact fades_dropOverride.trans (fades_prune _)
  · exact .of_ledger rfl

theorem ledger_pushVoidIf (override : Bool) (reasons : List String) (now : DateTime) :
    (p.pushVoidIf override reasons now).ledger = p.ledger := by
  unfold pushVoidIf
  split <;> rfl

theorem ledger_voidProject (now : DateTime) (e : String × List String) :
    (voidProject now p e).ledger = p.ledger := rfl

/-- The notices of a sweep change no record. -/
theorem ledger_sweepGrants (p : ProjectPolicy) (current : GrantTerms) (now : DateTime) :
    (p.sweepGrants current now).1.ledger = (p.voidGrants current).ledger := by
  rw [sweepGrants, ledger_pushVoidIf, ledger_pushVoidIf]
  exact Trail.foldl_frame (fun q e => ledger_voidProject now e) _ _

theorem fades_sweepGrants (current : GrantTerms) (now : DateTime) :
    Fades p (p.sweepGrants current now).1 := by
  refine .trans ?_ (.of_ledger (ledger_sweepGrants p _ now))
  have hswept : Fades p (p.swept current) := .of_ledger rfl
  unfold voidGrants
  split
  · exact hswept
  · exact hswept.trans (fades_dropOverride.trans (fades_prune _))

end ProjectPolicy

/-! ## Runs -/

inductive PolicyOp
  | setMode (key : String) (mode : ProjectMode) (now : DateTime)
  | armFromNow (key : String) (now : DateTime)
  | setContributionOverride (mode : ProjectMode) (now : DateTime)
      (grant : Option (GrantTerms × ArmingClaim))
  | clearContributionOverride
  | recordSourceForArmings (armings : List (String × DateTime)) (source : String)
      (sessions : List String)
  | holdForArming (key path source : String)
  | pruneArmingRecord
  | sweepGrants (current : GrantTerms) (now : DateTime)
  | grantAutomatic (now : DateTime) (terms : GrantTerms)
  | withdrawAutomaticGrant

namespace PolicyOp

/-- A refused operation changes nothing. -/
def apply (host : Host) (p : ProjectPolicy) : PolicyOp → ProjectPolicy
  | setMode key mode now => (p.setMode host key mode now).toOption.getD p
  | armFromNow key now => p.armFromNow key now
  | setContributionOverride mode now grant =>
    (p.setContributionOverride mode now grant).toOption.getD p
  | clearContributionOverride => p.clearContributionOverride
  | recordSourceForArmings armings source sessions =>
    p.recordSourceForArmings armings source sessions
  | holdForArming key path source => p.holdForArming key path source
  | pruneArmingRecord => p.pruneArmingRecord
  | sweepGrants current now => (p.sweepGrants current now).1
  | grantAutomatic now terms => p.grantAutomatic now terms
  | withdrawAutomaticGrant => p.withdrawAutomaticGrant

variable {host : Host} {p q : ProjectPolicy} {op : PolicyOp} {key path source : String}

/-- The operation ends the arming of the key, or the override where the key is the override's. -/
def EndsArming (host : Host) (key : String) (p : ProjectPolicy) (op : PolicyOp) : Prop :=
  match op with
  | setMode k _ _ | armFromNow k _ => k = key
  | _ => key = overrideArmingKey ∧
      (op.apply host p).overrideShape ≠ p.overrideShape

open ProjectPolicy

/-- What holds of the policy holds after an operation that may be refused. -/
theorem getD_keeps {P : ProjectPolicy → Prop} {x : Except String ProjectPolicy} (hp : P p)
    (hok : ∀ q, x = .ok q → P q) : P (x.toOption.getD p) := by
  cases x with
  | error e => exact hp
  | ok q => exact hok q rfl

theorem apply_numbered (hp : p.Numbered) : (op.apply host p).Numbered := by
  cases op with
  | setMode key mode now => exact getD_keeps hp fun _ h => hp.fades (fades_setMode h)
  | armFromNow key now => exact hp.fades (fades_armFromNow now)
  | setContributionOverride mode now grant =>
    exact getD_keeps hp fun _ h => hp.fades (fades_setContributionOverride h)
  | clearContributionOverride => exact hp.fades fades_clear
  | recordSourceForArmings armings source sessions => exact hp.record _ _ _
  | holdForArming key path source => exact hp.hold key _ _
  | pruneArmingRecord => exact hp.fades p.fades_prune
  | sweepGrants current now => exact hp.fades (fades_sweepGrants _ now)
  | grantAutomatic | withdrawAutomaticGrant => exact hp.fades (.of_ledger rfl)

theorem overrideShape_prune (p : ProjectPolicy) :
    p.pruneArmingRecord.overrideShape = p.overrideShape := by
  obtain ⟨_, h⟩ := p.pruneArmingRecord_eq
  rw [h]
  rfl

/-- Records and paths of one arming carried over. -/
theorem covers_congr {slot : Option String} (hc : p.Covers slot source path)
    (hr : q.recordOf slot = p.recordOf slot)
    (hd : q.sessionsOnDiskAtArming = p.sessionsOnDiskAtArming) : q.Covers slot source path := by
  obtain ⟨a, r, first, ha, hs, hpath, hle⟩ := hc
  exact ⟨a, r, first, hr.trans ha, hs, hd ▸ hpath, hle⟩

/-- Dropping the override leaves the records of the folders. -/
theorem covers_dropOverride {j : String} (hc : p.Covers (some j) source path) :
    p.dropOverride.pruneArmingRecord.Covers (some j) source path :=
  (covers_congr (q := p.dropOverride) hc rfl rfl).prune

theorem slotOf_cases (key : String) :
    (key = overrideArmingKey ∧ slotOf key = none) ∨
      (key ≠ overrideArmingKey ∧ slotOf key = some key) := by
  unfold slotOf
  split
  next h => exact .inl ⟨h, rfl⟩
  next h => exact .inr ⟨h, rfl⟩

/-- What an arming holds it goes on holding. -/
theorem apply_covers (hc : p.Covers (slotOf key) source path)
    (hends : ¬ op.EndsArming host key p) : (op.apply host p).Covers (slotOf key) source path := by
  cases op with
  | setMode k mode now =>
    refine getD_keeps (P := (·.Covers _ _ _)) hc fun q h => ?_
    obtain ⟨_, _, h⟩ := bind_eq_ok.1 h
    cases h
    have hother : (p.armedFromNow.erase k).get? key = p.armedFromNow.get? key := by
      rw [get?_erase, if_neg fun h : key = k => hends h.symm]
    refine covers_congr hc ?_ rfl
    rcases slotOf_cases key with ⟨_, hslot⟩ | ⟨_, hslot⟩
    · rw [hslot]
      rfl
    · rw [hslot]
      exact hother
  | armFromNow k now =>
    refine covers_congr hc ?_ rfl
    rcases slotOf_cases key with ⟨_, hslot⟩ | ⟨_, hslot⟩
    · rw [hslot]
      rfl
    · rw [hslot]
      simp [apply, ProjectPolicy.armFromNow, recordOf, if_neg (fun h : key = k => hends h.symm)]
  | setContributionOverride mode now grant =>
    refine getD_keeps (P := (·.Covers _ _ _)) hc fun q h => ?_
    rcases setContributionOverride_cases h with rfl | ⟨mid, rfl, hother, ha, hd, _, o, ho, hmode, _⟩
    · exact hc
    rcases slotOf_cases key with ⟨hkey, _⟩ | ⟨_, hslot⟩
    · -- the override that came in has another mode
      refine absurd ⟨hkey, fun hsame => ?_⟩ hends
      replace hsame : mid.pruneArmingRecord.overrideShape = p.overrideShape := by
        rwa [apply, h] at hsame
      rw [overrideShape_prune, overrideShape, ho] at hsame
      obtain ⟨o', ho', heq⟩ := map_eq_some_iff.1 hsame.symm
      rw [Prod.mk.injEq] at heq
      rw [ho', any_some, heq.1, hmode, decide_eq_false_iff_not] at hother
      exact hother rfl
    · rw [hslot] at hc ⊢
      exact (covers_congr hc (congrArg (get? · key) ha) hd).prune
  | clearContributionOverride =>
    rw [apply, ProjectPolicy.clearContributionOverride]
    split
    next hsome =>
      rcases slotOf_cases key with ⟨hkey, _⟩ | ⟨_, hslot⟩
      · refine absurd ⟨hkey, fun hsame => ?_⟩ hends
        rw [apply, ProjectPolicy.clearContributionOverride, if_pos hsome,
          overrideShape_prune] at hsame
        obtain ⟨o, ho⟩ := isSome_iff_exists.1 hsome
        rw [overrideShape, overrideShape, ho] at hsame
        cases hsame
      · rw [hslot] at hc ⊢
        exact covers_dropOverride hc
    · exact hc
  | recordSourceForArmings armings source' sessions => exact hc.record
  | holdForArming k path' source' => exact hc.hold k _ _
  | pruneArmingRecord => exact hc.prune
  | sweepGrants current now =>
    refine Covers.of_ledger ?_ (ledger_sweepGrants p _ now)
    have hswept : (p.swept current).Covers (slotOf key) source path := hc.of_ledger rfl
    rw [voidGrants]
    split
    · exact hswept
    rename_i hreasons
    rcases slotOf_cases key with ⟨hkey, _⟩ | ⟨_, hslot⟩
    · refine absurd ⟨hkey, fun hsame => ?_⟩ hends
      have hafter : (p.sweepGrants current now).1.contributionOverride = none := by
        have hledger := congrArg (·.2.1) (ledger_sweepGrants p current now)
        obtain ⟨_, hprune⟩ := (p.swept _).dropOverride.pruneArmingRecord_eq
        rw [voidGrants, if_neg hreasons, hprune] at hledger
        exact hledger
      rw [apply, overrideShape, overrideShape, hafter] at hsame
      cases ho : p.contributionOverride with
      | none => exact hreasons (by rw [overrideVoidReasons, ho]; rfl)
      | some o =>
        rw [ho] at hsame
        cases hsame
    · rw [hslot] at hswept ⊢
      exact covers_dropOverride hswept
  | grantAutomatic | withdrawAutomaticGrant => exact hc.of_ledger rfl

end PolicyOp

def runPolicy (host : Host) (ops : List PolicyOp) : ProjectPolicy :=
  Trail.run (PolicyOp.apply host) {} ops

/-- A pass recorded the source for the arming of the key and listed the path, and the arming has
not ended since. -/
def Listed (host : Host) (ops : List PolicyOp) (key source path : String) : Prop :=
  ∃ before armings sessions after a,
    ops = before ++ .recordSourceForArmings armings source sessions :: after ∧
    (runPolicy host before).armingRecord key = some a ∧ (key, a.armedAt) ∈ armings ∧
    a.recordedSources.get? source = none ∧ path ∈ sessions ∧
    Trail.Along (PolicyOp.apply host) (fun p op => ¬ op.EndsArming host key p)
      ((runPolicy host before).recordSourceForArmings armings source sessions) after

section Runs

open ProjectPolicy

variable {host : Host} {ops : List PolicyOp} {p : ProjectPolicy} {key path source : String}

theorem numbered_new : ProjectPolicy.Numbered {} := by
  refine ⟨Nat.zero_le _, fun _ _ h => (nomatch h), fun slot a source r h _ => ?_,
    fun _ h => (nomatch h)⟩
  cases slot with
  | none => cases h
  | some key => cases h

theorem runPolicy_numbered : (runPolicy host ops).Numbered :=
  Trail.run_always (fun _ _ => PolicyOp.apply_numbered) numbered_new

theorem Listed.covers (h : Listed host ops key source path) :
    (runPolicy host ops).Covers (slotOf key) source path := by
  obtain ⟨_, _, _, _, a, rfl, ha, hlisted, hnew, hpath, halong⟩ := h
  have hfirst := covers_record runPolicy_numbered ha hlisted hnew hpath
  have hlast := Trail.run_keeps (I := fun p => p.Covers (slotOf key) source path)
    (fun _ _ hends hc => PolicyOp.apply_covers hc hends) halong hfirst
  rw [runPolicy, Trail.run, List.foldl_append]
  exact hlast

/-- What the arming that holds a folder's backlog covers waits for a person. -/
theorem waits_of_covers {slot : Option String} (hfor : p.armingFor key = p.recordOf slot)
    (hc : p.Covers slot source path) :
    p.waitsForAPerson key path source = true ∧ p.waitsForAPersonAtSend key path = true := by
  obtain ⟨a, r, _, ha, hs, hd, hle⟩ := hc
  have hdisk : p.onDiskAt path r = true := by
    rw [onDiskAt, hd]
    exact decide_eq_true hle
  rw [ha] at hfor
  constructor
  · simp [waitsForAPerson, holdsBackFromArming, hfor, hs, hdisk]
  · have hany : (a.recordedSources.entries.any fun e => p.onDiskAt path e.2) = true :=
      List.any_eq_true.2 ⟨(source, r), mem_entries.2 hs, hdisk⟩
    simp [waitsForAPersonAtSend, holdsBackFromArmingAtSend, hfor, hany]

theorem waits_of_unrecorded {a : ArmedFromNow} (hfor : p.armingFor key = some a)
    (hs : a.recordedSources.get? source = none) : p.waitsForAPerson key path source = true := by
  simp [waitsForAPerson, holdsBackFromArming, hfor, hs]

/-- The backlog of a folder armed from now waits, and that of a folder under an `AutoUpload`
override: all of a source that is not recorded, and what the record listed after it. -/
theorem backlog_waits_for_a_person (host : Host) (ops : List PolicyOp) (key : String)
    (hkey : key ≠ overrideArmingKey) :
    (∀ a, (runPolicy host ops).armedFromNow.get? key = some a →
      (∀ source path, a.recordedSources.get? source = none →
        (runPolicy host ops).waitsForAPerson key path source = true) ∧
      ∀ source path, Listed host ops key source path →
        (runPolicy host ops).waitsForAPerson key path source = true ∧
        (runPolicy host ops).waitsForAPersonAtSend key path = true) ∧
    ∀ o, (runPolicy host ops).contributionOverride = some o → o.mode = .autoUpload →
      (runPolicy host ops).folderMode key ≠ .autoUpload →
      (runPolicy host ops).armedFromNow.get? key = none →
      (∀ source path, (∀ a, o.arming = some a → a.recordedSources.get? source = none) →
        (runPolicy host ops).waitsForAPerson key path source = true) ∧
      ∀ source path, Listed host ops overrideArmingKey source path →
        (runPolicy host ops).waitsForAPerson key path source = true ∧
        (runPolicy host ops).waitsForAPersonAtSend key path = true := by
  constructor
  · intro a ha
    have hfor : (runPolicy host ops).armingFor key = some a := by rw [armingFor, ha]
    refine ⟨fun source path hs => waits_of_unrecorded hfor hs, fun source path hlisted => ?_⟩
    have hslot : slotOf key = some key := if_neg hkey
    have hrecord : some a = (runPolicy host ops).recordOf (some key) := ha.symm
    exact waits_of_covers (hfor.trans hrecord) (hslot ▸ hlisted.covers)
  · intro o ho hauto hmode hown
    have hfor : (runPolicy host ops).armingFor key = o.arming := by
      rw [armingFor, hown, ho]
      exact if_neg (by simp [hauto, hmode])
    obtain ⟨a, ha⟩ := isSome_iff_exists.1 (runPolicy_numbered.armed o ho hauto)
    refine ⟨fun source path hs => waits_of_unrecorded (hfor.trans ha) (hs a ha), ?_⟩
    intro _ _ hlisted
    have hrecord : o.arming = (runPolicy host ops).recordOf none := by
      rw [recordOf, overrideArming, ho]
      rfl
    have hslot : slotOf overrideArmingKey = none := if_pos rfl
    exact waits_of_covers (hfor.trans hrecord) (hslot ▸ hlisted.covers)

/-! ## Runs of a machine -/

def plainHost : Host where
  displayPathForKey := fun _ => none
  projectLabelFor := fun key => key

def plainTerms (ingestUrl : String) : GrantTerms where
  ingestUrl := ingestUrl
  issuerUrl := ""
  audience := ""
  allowedHosts := none
  tenantId := ""
  instanceId := ""
  userSubject := ""
  deviceKeyId := ""
  consentScopes := ∅
  piiFilter := none
  envFilterBackend := "none"
  classifierBaseUrl := none
  classifierModel := none
  classifierPresent := false
  receiptEndpoint := none
  witnessUrl := none
  witnessSigningAddress := none
  witnessMeasurements := ∅
  attestedBodies := false

/-- A folder armed from now, and one source recorded for it with one session on disk. -/
def armedOnce : List PolicyOp :=
  [.setMode "/a" .autoUpload 1, .armFromNow "/a" 1,
    .recordSourceForArmings [("/a", 1)] "claude" ["/a/old.jsonl"]]

theorem backlog_waits_for_a_person_recorded :
    (runPolicy plainHost armedOnce).waitsForAPerson "/a" "/a/old.jsonl" "claude" = true ∧
    (runPolicy plainHost armedOnce).waitsForAPersonAtSend "/a" "/a/old.jsonl" = true := by
  obtain ⟨a, ha⟩ : ∃ a, (runPolicy plainHost armedOnce).armedFromNow.get? "/a" = some a :=
    isSome_iff_exists.1 (by decide +kernel)
  refine ((backlog_waits_for_a_person plainHost armedOnce "/a" (by decide)).1 a ha).2 "claude"
    "/a/old.jsonl" ⟨armedOnce.take 2, [("/a", 1)], ["/a/old.jsonl"], [], { armedAt := 1 }, rfl,
      rfl, ?_, rfl, ?_, trivial⟩
  · exact List.mem_singleton.2 rfl
  · exact List.mem_singleton.2 rfl

/-- A folder armed from now loses its arming to a sweep, but not its record. Under an override that
comes later the old record answers: what came to disk in between is not held. -/
def voidedThenOverridden : List PolicyOp :=
  armedOnce ++ [.sweepGrants (plainTerms "https://one") 2, .sweepGrants (plainTerms "https://two") 3,
    .setContributionOverride .autoUpload 4 (some (plainTerms "https://two", .modelScrubbed))]

theorem backlog_sent_under_override :
    ∃ o, (runPolicy plainHost voidedThenOverridden).contributionOverride = some o ∧
      o.mode = .autoUpload ∧
      (runPolicy plainHost voidedThenOverridden).folderMode "/a" ≠ .autoUpload ∧
      (runPolicy plainHost voidedThenOverridden).resolve "/a" = .autoUpload ∧
      (∀ a, o.arming = some a → a.recordedSources.get? "claude" = none) ∧
      (runPolicy plainHost voidedThenOverridden).waitsForAPerson "/a" "/a/new.jsonl" "claude" =
        false ∧
      (runPolicy plainHost voidedThenOverridden).waitsForAPersonAtSend "/a" "/a/new.jsonl" =
        false := by
  obtain ⟨o, ho⟩ : ∃ o, (runPolicy plainHost voidedThenOverridden).contributionOverride = some o :=
    isSome_iff_exists.1 (by decide +kernel)
  have hall : (runPolicy plainHost voidedThenOverridden).contributionOverride.all (fun o =>
      o.mode = .autoUpload ∧ o.arming.all fun a => (a.recordedSources.get? "claude").isNone) =
      true := by decide +kernel
  rw [ho, all_some, decide_eq_true_iff] at hall
  refine ⟨o, ho, hall.1, by decide +kernel, by decide +kernel, fun a ha => ?_, by decide +kernel,
    by decide +kernel⟩
  rw [ha] at hall
  exact isNone_iff_eq_none.1 hall.2

end Runs

end TraceCommons.Daemon
