import TraceCommons.Daemon.TermsSweep

/-! # New keys for old folders

When the spelling of keys changes, every stored key is normalized again. Folders whose keys become
one become one folder, which asks at least as often as each of them did. A folder that was armed
under another spelling asks again. -/

namespace TraceCommons.Daemon

/-- What becomes of an armed folder whose key moves. -/
inductive MovedArming
  | carries | asksAgain
  deriving DecidableEq

/-- `saturating_add` on `u32`s. -/
def saturatingAdd32 (a b : Nat) : Nat := min (a + b) (2 ^ 32 - 1)

namespace ProjectPolicy

/-! ## The operation -/

/-- An entry as it leaves its old key. -/
def disarmMoved (moved : MovedArming) (fresh key : String) (entry : ProjectEntry) : ProjectEntry :=
  if moved = .asksAgain ∧ fresh ≠ key ∧ entry.mode = .autoUpload then
    { entry with mode := .notifyOnly, armedUnder := none, automaticRedaction := {} }
  else entry

def mergeTallies (a b : AutomaticRedactionTally) : AutomaticRedactionTally where
  certifiedFullPipeline := saturatingAdd32 a.certifiedFullPipeline b.certifiedFullPipeline
  notCertified := saturatingAdd32 a.notCertified b.notCertified

/-- Two folders that are now one. An exception to the grant in force stays one. -/
def mergeEntries (inForce : Option Nat) (existing entry : ProjectEntry) : ProjectEntry :=
  let mode := existing.mode.moreRestrictive entry.mode
  { existing with
    mode
    addedAt := min existing.addedAt entry.addedAt
    setUnderGrant :=
      if inForce.isSome ∧ (existing.setUnderGrant = inForce ∨ entry.setUnderGrant = inForce) then
        inForce
      else existing.setUnderGrant
    armedUnder := if mode ≠ .autoUpload then none else existing.armedUnder
    automaticRedaction :=
      if mode = .autoUpload then mergeTallies existing.automaticRedaction entry.automaticRedaction
      else {} }

/-- What stands under `fresh` once the entry of `key` came there. -/
def placeEntry (host : Host) (inForce : Option Nat) (moved : MovedArming) (fresh key : String)
    (entry : ProjectEntry) (existing : Option ProjectEntry) : ProjectEntry :=
  let entry := disarmMoved moved fresh key entry
  { existing.elim entry (mergeEntries inForce · entry) with
    label := host.projectLabelFor ((host.displayPathForKey fresh).getD fresh)
    displayPath := host.displayPathForKey fresh }

/-- The sum is a `u32`. -/
def placeCount (_fresh _key : String) (count : Nat) (existing : Option Nat) : Nat :=
  (existing.getD 0 + count) % 2 ^ 32

def placeDecline (_fresh _key : String) (at_ : DateTime) (existing : Option DateTime) : DateTime :=
  existing.elim at_ (max · at_)

def armed (projects : OrdMap String ProjectEntry) (key : String) : Bool :=
  (projects.get? key).any (·.mode = .autoUpload)

/-- Without what only an armed folder carries, under a key where no folder is armed. -/
def retainArmed (p : ProjectPolicy) : ProjectPolicy :=
  { p with
    armedFromNow := p.armedFromNow.filter fun key _ => armed p.projects key
    armingClaims := p.armingClaims.filter fun key _ => armed p.projects key
    armedByGrant := p.armedByGrant.filter fun key => armed p.projects key }

/-- Every map that is kept by folder, under the new keys. -/
def rekeyMaps (host : Host) (normalize : String → Option String) (p : ProjectPolicy)
    (moved : MovedArming) : ProjectPolicy :=
  { p with
    projects := p.projects.rekey normalize (placeEntry host p.grantGenerationInForce moved)
    contributed := p.contributed.rekey normalize placeCount
    armingDeclinedAt := p.armingDeclinedAt.rekey normalize placeDecline
    schemaVersion := "trace_commons.daemon_projects.v3" }

def rekeyWith (host : Host) (normalize : String → Option String) (p : ProjectPolicy)
    (moved : MovedArming) : ProjectPolicy :=
  if moved = .asksAgain then (p.rekeyMaps host normalize moved).retainArmed
  else p.rekeyMaps host normalize moved

def rekey (host : Host) (normalize : String → Option String) (p : ProjectPolicy) : ProjectPolicy :=
  p.rekeyWith host normalize .carries

/-- A way to spell keys: what it gives is spelled that way already, and the unknown bucket is no
path. -/
structure Normalization where
  run : String → Option String
  run_run : ∀ key fresh, run key = some fresh → run fresh = some fresh
  unknown : run unknownProjectKey = some unknownProjectKey

/-! ## One folder -/

section Folders

variable {host : Host} {inForce : Option Nat} {moved : MovedArming} {fresh key : String}
  {entry existing : ProjectEntry}

theorem disarmMoved_self (moved : MovedArming) (key : String) (entry : ProjectEntry) :
    disarmMoved moved key key entry = entry := if_neg fun h => h.2.1 rfl

theorem disarmMoved_mode (moved : MovedArming) (fresh key : String) (entry : ProjectEntry) :
    entry.mode.AsLaxAs (disarmMoved moved fresh key entry).mode := by
  unfold disarmMoved
  split
  next h =>
    rw [h.2.2]
    exact ProjectMode.autoUpload_asLaxAs _
  · exact .refl _

theorem disarmMoved_setUnderGrant :
    (disarmMoved moved fresh key entry).setUnderGrant = entry.setUnderGrant := by
  unfold disarmMoved
  split <;> rfl

theorem disarmMoved_armed (h : (disarmMoved .asksAgain fresh key entry).mode = .autoUpload) :
    fresh = key ∧ entry.mode = .autoUpload := by
  unfold disarmMoved at h
  split at h
  · cases h
  rename_i hstays
  refine ⟨?_, h⟩
  by_contra hmoved
  exact hstays ⟨rfl, hmoved, h⟩

end Folders

end ProjectPolicy

namespace ProjectMode

theorem AsLaxAs.trans {a b c : ProjectMode} (hab : a.AsLaxAs b) (hbc : b.AsLaxAs c) :
    a.AsLaxAs c := by
  revert hab hbc
  cases a <;> cases b <;> cases c <;> decide

theorem asLaxAs_moreRestrictive_left (a b : ProjectMode) : a.AsLaxAs (a.moreRestrictive b) := by
  cases a <;> cases b <;> rfl

theorem asLaxAs_moreRestrictive_right (a b : ProjectMode) : b.AsLaxAs (a.moreRestrictive b) := by
  cases a <;> cases b <;> rfl

theorem asLaxAs_autoUpload {a : ProjectMode} (h : a.AsLaxAs .autoUpload) : a = .autoUpload := by
  revert h
  cases a <;> decide

end ProjectMode

namespace ProjectPolicy

/-- What the folder `entry` asked for is asked for by `merged`: its mode, and its exception to the
grant in force. -/
structure Heeds (inForce : Option Nat) (entry merged : ProjectEntry) : Prop where
  mode : entry.mode.AsLaxAs merged.mode
  exception : inForce.isSome → entry.setUnderGrant = inForce → merged.setUnderGrant = inForce

section Merging

variable {host : Host} {inForce : Option Nat} {moved : MovedArming} {fresh key : String}
  {entry existing asked : ProjectEntry}

theorem Heeds.trans {a b c : ProjectEntry} (hab : Heeds inForce a b) (hbc : Heeds inForce b c) :
    Heeds inForce a c :=
  ⟨hab.mode.trans hbc.mode, fun hsome h => hbc.exception hsome (hab.exception hsome h)⟩

theorem mergeEntries_setUnderGrant (hsome : inForce.isSome)
    (h : existing.setUnderGrant = inForce ∨ entry.setUnderGrant = inForce) :
    (mergeEntries inForce existing entry).setUnderGrant = inForce := if_pos ⟨hsome, h⟩

theorem heeds_mergeEntries (inForce : Option Nat) (existing entry : ProjectEntry) :
    Heeds inForce existing (mergeEntries inForce existing entry) ∧
      Heeds inForce entry (mergeEntries inForce existing entry) :=
  ⟨⟨ProjectMode.asLaxAs_moreRestrictive_left _ _,
      fun hsome h => mergeEntries_setUnderGrant hsome (.inl h)⟩,
    ⟨ProjectMode.asLaxAs_moreRestrictive_right _ _,
      fun hsome h => mergeEntries_setUnderGrant hsome (.inr h)⟩⟩

/-- The folder that came is heeded, whatever was there. -/
theorem heeds_placeEntry_new (o : Option ProjectEntry) :
    Heeds inForce (disarmMoved moved fresh key entry)
      (placeEntry host inForce moved fresh key entry o) := by
  cases o with
  | none => exact ⟨.refl _, fun _ h => h⟩
  | some existing =>
    obtain ⟨hmode, hexception⟩ :=
      (heeds_mergeEntries _ _ _).2
    exact ⟨hmode, hexception⟩

/-- What was heeded before still is. -/
theorem heeds_placeEntry_old (h : Heeds inForce asked existing) :
    Heeds inForce asked (placeEntry host inForce moved fresh key entry (some existing)) := by
  obtain ⟨hmode, hexception⟩ :=
    h.trans (heeds_mergeEntries _ _ _).1
  exact ⟨hmode, hexception⟩

theorem placeEntry_placeEntry (o : Option ProjectEntry) :
    placeEntry host inForce moved fresh fresh (placeEntry host inForce moved fresh key entry o)
      none = placeEntry host inForce moved fresh key entry o := by
  conv_lhs => rw [placeEntry, disarmMoved_self]
  rfl

end Merging

/-! ## The whole policy -/

section Rekeyed

variable {host : Host} {n : Normalization} {p : ProjectPolicy} {key fresh : String}
  {entry : ProjectEntry}

/-- A stored folder is heeded by the one its key becomes. -/
theorem rekey_heeds (host : Host) (hentry : p.projects.get? key = some entry)
    (hfresh : n.run key = some fresh) :
    ∃ merged, (p.rekeyWith host n.run .asksAgain).projects.get? fresh = some merged ∧
      Heeds p.grantGenerationInForce (disarmMoved .asksAgain fresh key entry) merged :=
  OrdMap.rekey_counts heeds_placeEntry_new (fun _ _ _ => heeds_placeEntry_old) hentry hfresh

theorem folderMode_of_entry (h : p.projects.get? key = some entry) :
    p.folderMode key =
      if key = unknownProjectKey ∧ entry.mode = .autoUpload then .notifyOnly else entry.mode := by
  rw [folderMode, h]
  rfl

/-- The bucket stays where it is, and nothing that comes to it makes it armed. -/
theorem folderMode_mono {q : ProjectPolicy} {merged : ProjectEntry}
    (hunknown : key = unknownProjectKey → fresh = unknownProjectKey)
    (hp : p.projects.get? key = some entry) (hq : q.projects.get? fresh = some merged)
    (hmode : entry.mode.AsLaxAs merged.mode) : (p.folderMode key).AsLaxAs (q.folderMode fresh) := by
  rw [folderMode_of_entry hp, folderMode_of_entry hq]
  generalize merged.mode = after at hmode
  generalize entry.mode = before at hmode
  revert hmode
  by_cases hkey : key = unknownProjectKey
  · simp only [hkey, hunknown _]
    cases before <;> cases after <;> decide
  by_cases hfresh : fresh = unknownProjectKey
  · simp only [hkey, hfresh]
    cases before <;> cases after <;> decide
  · simp only [hkey, hfresh]
    exact id

/-- The override asks no less over the bucket than over a folder. -/
theorem resolveOver_asLaxAs_bucket (own : ProjectMode)
    (hunknown : key = unknownProjectKey → fresh = unknownProjectKey) :
    (p.resolveOver own key).AsLaxAs (p.resolveOver own fresh) := by
  unfold resolveOver
  split
  · exact .refl _
  split
  · by_cases hkey : key = unknownProjectKey
    · rw [if_pos hkey, if_pos (hunknown hkey)]
      exact .refl _
    · split
      · exact .refl _
      · exact ProjectMode.autoUpload_asLaxAs _
  · exact .refl _

theorem unknown_stays (hfresh : n.run key = some fresh) (hkey : key = unknownProjectKey) :
    fresh = unknownProjectKey := by
  rw [hkey, n.unknown] at hfresh
  exact (Option.some_inj.1 hfresh).symm

theorem resolve_rekey (hentry : p.projects.get? key = some entry)
    (hfresh : n.run key = some fresh) :
    (p.resolve key).AsLaxAs ((p.rekeyWith host n.run .asksAgain).resolve fresh) := by
  obtain ⟨_, hmerged, hheeds⟩ := rekey_heeds _ hentry hfresh
  have hmode := (disarmMoved_mode _ _ key _).trans hheeds.mode
  have hfolder := folderMode_mono (unknown_stays hfresh) hentry hmerged hmode
  exact (resolveOver_asLaxAs_bucket _ (unknown_stays hfresh)).trans (resolveOver_mono hfolder rfl)

/-- A folder that is still armed kept its key. -/
theorem rekey_armed (hentry : p.projects.get? key = some entry) (hfresh : n.run key = some fresh)
    (harmed : (p.rekeyWith host n.run .asksAgain).folderMode fresh = .autoUpload) :
    fresh = key ∧ p.folderMode key = .autoUpload := by
  obtain ⟨merged, hmerged, hheeds⟩ := rekey_heeds _ hentry hfresh
  obtain ⟨stored, hstored, hmode⟩ := folderMode_autoUpload harmed
  obtain rfl : stored = merged := Option.some_inj.1 (hstored.symm.trans hmerged)
  have hstays := hheeds.mode
  rw [hmode] at hstays
  obtain ⟨rfl, hauto⟩ := disarmMoved_armed (ProjectMode.asLaxAs_autoUpload hstays)
  refine ⟨rfl, ?_⟩
  rw [folderMode_of_entry hstored, hmode] at harmed
  rw [folderMode_of_entry hentry, hauto]
  exact harmed

/-- The records of a folder that is still armed are kept, so it still holds what it held. -/
theorem waits_rekey (hbefore : p.folderMode key = .autoUpload)
    (hafter : (p.rekeyWith host n.run .asksAgain).folderMode key = .autoUpload)
    (path source : String) :
    (p.rekeyWith host n.run .asksAgain).waitsForAPerson key path source =
      p.waitsForAPerson key path source := by
  obtain ⟨_, hstored, hmode⟩ := folderMode_autoUpload hafter
  have harmed : armed (p.rekeyWith host n.run .asksAgain).projects key = true := by
    rw [armed, hstored]
    exact decide_eq_true hmode
  have hgrant : key ∈ (p.rekeyWith host n.run .asksAgain).armedByGrant ↔ key ∈ p.armedByGrant := by
    refine Finset.mem_filter.trans ?_
    exact and_iff_left harmed
  have harming : (p.rekeyWith host n.run .asksAgain).armedFromNow.get? key =
      p.armedFromNow.get? key := by
    refine (OrdMap.get?_filter _ _ _).trans ?_
    refine Option.ext fun a => ?_
    rw [Option.filter_eq_some_iff]
    exact and_iff_left harmed
  have hfor : (p.rekeyWith host n.run .asksAgain).armingFor key = p.armingFor key := by
    unfold armingFor
    rw [harming, hbefore, hafter]
    rfl
  have hunattended : (p.rekeyWith host n.run .asksAgain).holdsBackUnattended key path =
      p.holdsBackUnattended key path := by
    unfold holdsBackUnattended
    rw [decide_eq_decide.2 hgrant]
    rfl
  have hheld : (p.rekeyWith host n.run .asksAgain).holdsBackFromArming key path source =
      p.holdsBackFromArming key path source := by
    unfold holdsBackFromArming
    rw [hfor]
    rfl
  rw [waitsForAPerson, hunattended, hheld]
  rfl

theorem asksDespiteGrant_iff : p.asksDespiteGrant key = true ↔
    ∃ grant entry, p.automaticGrant = some grant ∧ grant.includeExisting = true ∧
      p.projects.get? key = some entry ∧ entry.mode = .notifyOnly ∧
      entry.setUnderGrant = some grant.generation := by
  rw [asksDespiteGrant, Option.any_eq_true]
  constructor
  · rintro ⟨grant, hgrant, h⟩
    obtain ⟨hgrant, hexisting⟩ := Option.filter_eq_some_iff.1 hgrant
    obtain ⟨entry, hentry, h⟩ := (Option.any_eq_true _ _).1 h
    obtain ⟨hmode, hset⟩ := of_decide_eq_true h
    exact ⟨grant, entry, hgrant, hexisting, hentry, hmode, hset⟩
  · rintro ⟨grant, entry, hgrant, hexisting, hentry, hmode, hset⟩
    refine ⟨grant, Option.filter_eq_some_iff.2 ⟨hgrant, hexisting⟩, ?_⟩
    exact (Option.any_eq_true _ _).2 ⟨entry, hentry, decide_eq_true ⟨hmode, hset⟩⟩

theorem asksDespiteGrant_rekey (hfresh : n.run key = some fresh)
    (h : p.asksDespiteGrant key = true) :
    (p.rekeyWith host n.run .asksAgain).asksDespiteGrant fresh = true ∨
      (p.rekeyWith host n.run .asksAgain).folderMode fresh = .ignore := by
  obtain ⟨grant, entry, hgrant, hexisting, hentry, hmode, hset⟩ := asksDespiteGrant_iff.1 h
  obtain ⟨merged, hmerged, hheeds⟩ := rekey_heeds _ hentry hfresh
  have hinForce : p.grantGenerationInForce = some grant.generation := by
    rw [grantGenerationInForce, hgrant]
    rfl
  have hasked := (disarmMoved_mode _ _ key _).trans hheeds.mode
  rw [hmode] at hasked
  cases hmode' : merged.mode with
  | autoUpload =>
    rw [hmode'] at hasked
    exact absurd hasked (by decide)
  | ignore =>
    refine .inr ?_
    rw [folderMode_of_entry hmerged, hmode']
    exact if_neg fun h => nomatch h.2
  | notifyOnly =>
    refine .inl (asksDespiteGrant_iff.2 ⟨grant, merged, hgrant, hexisting, hmerged, hmode', ?_⟩)
    rw [← hinForce]
    refine hheeds.exception (by rw [hinForce]; rfl) ?_
    rw [disarmMoved_setUnderGrant, hset, hinForce]

theorem retainArmed_retainArmed (p : ProjectPolicy) : p.retainArmed.retainArmed = p.retainArmed := by
  have hmaps : ∀ {ν : Type} (m : OrdMap String ν),
      (m.filter fun key _ => armed p.projects key).filter (fun key _ => armed p.projects key) =
        m.filter fun key _ => armed p.projects key := by
    intro ν m
    refine OrdMap.ext_get? fun key => ?_
    rw [OrdMap.get?_filter, OrdMap.get?_filter]
    simp
  have hgrant : (p.armedByGrant.filter fun key => armed p.projects key).filter
      (fun key => armed p.projects key) = p.armedByGrant.filter fun key => armed p.projects key := by
    rw [Finset.filter_filter]
    simp
  unfold retainArmed
  rw [hmaps, hmaps, hgrant]

theorem rekeyMaps_rekeyMaps (host : Host) (n : Normalization) (p : ProjectPolicy) :
    (p.rekeyMaps host n.run .asksAgain).retainArmed.rekeyMaps host n.run .asksAgain =
      (p.rekeyMaps host n.run .asksAgain).retainArmed := by
  have hprojects := OrdMap.rekey_rekey (placeEntry host p.grantGenerationInForce .asksAgain) n.run_run
    (fun j k w o => placeEntry_placeEntry o) p.projects
  have hcontributed := OrdMap.rekey_rekey placeCount n.run_run
    (fun j k w o => by simp [placeCount]) p.contributed
  have hdeclined := OrdMap.rekey_rekey placeDecline n.run_run
    (fun j k w o => rfl) p.armingDeclinedAt
  generalize hq : (p.rekeyMaps _ _ _).retainArmed = q
  have hsame : q.projects.rekey n.run (placeEntry host q.grantGenerationInForce .asksAgain) =
      q.projects := by
    rw [← hq]
    exact hprojects
  have hcounts : q.contributed.rekey n.run placeCount = q.contributed := by
    rw [← hq]
    exact hcontributed
  have hdeclines : q.armingDeclinedAt.rekey n.run placeDecline = q.armingDeclinedAt := by
    rw [← hq]
    exact hdeclined
  have hschema : q.schemaVersion = "trace_commons.daemon_projects.v3" := by
    rw [← hq]
    rfl
  unfold rekeyMaps
  rw [hsame, hcounts, hdeclines, ← hschema]

theorem rekey_rekey (host : Host) (n : Normalization) (p : ProjectPolicy) :
    (p.rekeyWith host n.run .asksAgain).rekeyWith host n.run .asksAgain =
      p.rekeyWith host n.run .asksAgain := by
  have hmaps := congrArg retainArmed (rekeyMaps_rekeyMaps host n p)
  rw [retainArmed_retainArmed] at hmaps
  exact hmaps

end Rekeyed

/-! ## A re-key only asks for more -/

theorem rekey_asks_more (host : Host) (n : Normalization) (p : ProjectPolicy) :
    (∀ key entry fresh, p.projects.get? key = some entry → n.run key = some fresh →
      (p.resolve key).AsLaxAs ((p.rekeyWith host n.run .asksAgain).resolve fresh) ∧
      ((p.rekeyWith host n.run .asksAgain).folderMode fresh = .autoUpload →
        fresh = key ∧ p.folderMode key = .autoUpload ∧
        ∀ path source, p.waitsForAPerson key path source = true →
          (p.rekeyWith host n.run .asksAgain).waitsForAPerson fresh path source = true) ∧
      (p.asksDespiteGrant key = true →
        (p.rekeyWith host n.run .asksAgain).asksDespiteGrant fresh = true ∨
          (p.rekeyWith host n.run .asksAgain).folderMode fresh = .ignore)) ∧
    (p.rekeyWith host n.run .asksAgain).rekeyWith host n.run .asksAgain =
      p.rekeyWith host n.run .asksAgain := by
  refine ⟨fun key entry fresh hentry hfresh => ⟨resolve_rekey hentry hfresh, fun harmed => ?_,
    asksDespiteGrant_rekey hfresh⟩, rekey_rekey _ n p⟩
  obtain ⟨rfl, hbefore⟩ := rekey_armed hentry hfresh harmed
  refine ⟨rfl, hbefore, fun path source hwaits => ?_⟩
  rw [waits_rekey hbefore harmed]
  exact hwaits

/-- One folder that has another spelling. -/
def respelled : Normalization where
  run key := some (if key = "/A" then "/a" else key)
  run_run key fresh h := by
    cases h
    by_cases hkey : key = "/A" <;> simp [hkey]
  unknown := by decide

/-- A grant over the history, an exception to it under the old spelling of a folder that is armed
under the new one, and a folder armed from now. -/
def twoSpellings : ProjectPolicy where
  projects := ((OrdMap.insert {} "/A" ⟨.notifyOnly, 5, "A", none, none, {}, some 1⟩).insert "/a"
    ⟨.autoUpload, 3, "a", none, none, {}, none⟩).insert "/b"
      ⟨.autoUpload, 4, "b", none, none, {}, none⟩
  automaticGrant := some {
    grantedAt := 1
    grantedUnder := plainTerms "https://one"
    includeExisting := true
    generation := 1 }
  armedFromNow := OrdMap.insert {} "/b" { armedAt := 4 }

theorem rekey_asks_more_two_spellings :
    (twoSpellings.rekeyWith plainHost respelled.run .asksAgain).asksDespiteGrant "/a" = true ∧
      (twoSpellings.rekeyWith plainHost respelled.run .asksAgain).waitsForAPerson "/b" "/b/old.jsonl"
        "claude" = true := by
  obtain ⟨hfolders, -⟩ := rekey_asks_more plainHost respelled twoSpellings
  constructor
  · decide +kernel
  · exact ((hfolders "/b" ⟨.autoUpload, 4, "b", none, none, {}, none⟩ "/b" (by decide +kernel)
      (by decide)).2.1 (by decide +kernel)).2.2 "/b/old.jsonl" "claude" (by decide +kernel)

end ProjectPolicy

end TraceCommons.Daemon
