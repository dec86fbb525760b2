import TraceCommons.Daemon.ArmFromNow

/-! # The sweep of the terms

A sweep compares every arming with the terms now in force: each folder's, the Flow 1 grant's and
the override's. What it leaves is covered by its terms, nothing is allowed that was not before,
and every arming it takes has a notice. -/

namespace TraceCommons.Daemon

open List

namespace ProjectMode

theorem AsLaxAs.refl (a : ProjectMode) : a.AsLaxAs a := by cases a <;> rfl

theorem asLaxAs_ignore (a : ProjectMode) : a.AsLaxAs .ignore := by cases a <;> rfl

theorem autoUpload_asLaxAs (a : ProjectMode) : ProjectMode.autoUpload.AsLaxAs a := by
  cases a <;> rfl

theorem AsLaxAs.moreRestrictive {a b : ProjectMode} (h : a.AsLaxAs b) (c : ProjectMode) :
    (a.moreRestrictive c).AsLaxAs (b.moreRestrictive c) := by
  revert h
  cases a <;> cases b <;> cases c <;> decide

end ProjectMode

namespace ProjectPolicy

variable {p q : ProjectPolicy} {current : GrantTerms} {now : DateTime} {key : String}

/-! ## Folders -/

variable {entry : ProjectEntry}

theorem voidReasons_eq_nil (h : voidReasons current entry = []) :
    (sweepEntry current entry).mode = entry.mode ∧
      (entry.mode = .autoUpload →
        ∃ t, (sweepEntry current entry).armedUnder = some t ∧ current.wideningFrom t = []) := by
  by_cases hauto : entry.mode = .autoUpload
  · rw [voidReasons, if_pos hauto] at h
    rw [sweepEntry, if_neg (not_not.2 hauto)]
    cases hterms : entry.armedUnder with
    | none => exact ⟨rfl, fun _ => ⟨current, rfl, current.wideningFrom_self⟩⟩
    | some granted =>
      rw [hterms] at h
      have hnil : current.wideningFrom granted = [] := h
      simp only [if_pos hnil, hterms]
      exact ⟨trivial, fun _ => ⟨granted, rfl, hnil⟩⟩
  · rw [sweepEntry, if_pos hauto]
    exact ⟨rfl, fun h => absurd h hauto⟩

theorem voidReasons_ne_nil (h : voidReasons current entry ≠ []) :
    entry.mode = .autoUpload ∧ (sweepEntry current entry).mode = .notifyOnly := by
  by_cases hauto : entry.mode = .autoUpload
  · rw [voidReasons, if_pos hauto] at h
    refine ⟨hauto, ?_⟩
    rw [sweepEntry, if_neg (not_not.2 hauto)]
    cases hterms : entry.armedUnder with
    | none => exact absurd (by rw [hterms]; rfl) h
    | some granted =>
      rw [hterms] at h
      simp [if_neg (show current.wideningFrom granted ≠ [] from h)]
  · exact absurd (by rw [voidReasons, if_neg hauto]) h

theorem sweepEntry_mode (current : GrantTerms) (entry : ProjectEntry) :
    entry.mode.AsLaxAs (sweepEntry current entry).mode := by
  by_cases h : voidReasons current entry = []
  · rw [(voidReasons_eq_nil h).1]
    exact .refl _
  · rw [(voidReasons_ne_nil h).1]
    exact ProjectMode.autoUpload_asLaxAs _

/-- An armed folder after a sweep has terms that cover the ones in force. -/
theorem sweepEntry_armed (h : (sweepEntry current entry).mode = .autoUpload) :
    ∃ t, (sweepEntry current entry).armedUnder = some t ∧ current.wideningFrom t = [] := by
  by_cases hreasons : voidReasons current entry = []
  · obtain ⟨hmode, hterms⟩ := voidReasons_eq_nil hreasons
    exact hterms (hmode.symm.trans h)
  · exact absurd ((voidReasons_ne_nil hreasons).2.symm.trans h) nofun

theorem sweepEntry_covered
    (h : ∀ t, entry.mode = .autoUpload → entry.armedUnder = some t → current.wideningFrom t = [])
    (hterms : entry.mode = .autoUpload → entry.armedUnder.isSome) :
    sweepEntry current entry = entry ∧ voidReasons current entry = [] := by
  by_cases hauto : entry.mode = .autoUpload
  · obtain ⟨t, ht⟩ := Option.isSome_iff_exists.1 (hterms hauto)
    have hnil := h t hauto ht
    constructor
    · rw [sweepEntry, if_neg (not_not.2 hauto), ht]
      exact if_pos hnil
    · rw [voidReasons, if_pos hauto, ht]
      exact hnil
  · exact ⟨if_pos hauto, if_neg hauto⟩

theorem sweepEntry_sweepEntry (entry : ProjectEntry) :
    sweepEntry current (sweepEntry current entry) = sweepEntry current entry ∧
      voidReasons current (sweepEntry current entry) = [] := by
  refine sweepEntry_covered (fun t hauto ht => ?_) fun hauto => ?_
  · obtain ⟨t', ht', hnil⟩ := sweepEntry_armed hauto
    rw [ht'] at ht
    cases ht
    exact hnil
  · obtain ⟨t, ht, _⟩ := sweepEntry_armed hauto
    rw [ht]
    rfl

/-! ## The policy after a sweep -/

/-- What modes and terms are read from. -/
def rules (p : ProjectPolicy) :
    OrdMap String ProjectEntry × Option AutomaticGrant × Option ContributionOverride :=
  (p.projects, p.automaticGrant, p.contributionOverride)

theorem rules_prune : p.pruneArmingRecord.rules = p.rules := by
  obtain ⟨_, h⟩ := p.pruneArmingRecord_eq
  rw [h]
  rfl

theorem rules_pushVoidIf (override : Bool) (reasons : List String) :
    (p.pushVoidIf override reasons now).rules = p.rules := by
  unfold pushVoidIf
  split <;> rfl

theorem rules_voidProject (e : String × List String) : (voidProject now p e).rules = p.rules := rfl

theorem rules_sweepGrants : (p.sweepGrants current now).1.rules =
      (p.projects.mapValues fun _ => sweepEntry current,
        if p.grantVoidReasons current = [] then p.automaticGrant else none,
        if p.overrideVoidReasons current = [] then p.contributionOverride else none) := by
  have hfold : (p.sweepGrants current now).1.rules = (p.voidGrants current).rules := by
    rw [sweepGrants, rules_pushVoidIf, rules_pushVoidIf]
    exact Trail.foldl_frame (fun q e => rules_voidProject e) _ _
  rw [hfold, voidGrants]
  split
  · rfl
  · rw [rules_prune]
    rfl

theorem projects_sweep : (p.sweepGrants current now).1.projects =
    p.projects.mapValues fun _ => sweepEntry current :=
  congrArg (·.1) rules_sweepGrants

theorem grant_sweep : (p.sweepGrants current now).1.automaticGrant =
    if p.grantVoidReasons current = [] then p.automaticGrant else none :=
  congrArg (·.2.1) rules_sweepGrants

theorem override_sweep : (p.sweepGrants current now).1.contributionOverride =
    if p.overrideVoidReasons current = [] then p.contributionOverride else none :=
  congrArg (·.2.2) rules_sweepGrants

theorem folderMode_sweep :
    (p.folderMode key).AsLaxAs ((p.sweepGrants current now).1.folderMode key) := by
  unfold folderMode
  rw [projects_sweep, OrdMap.get?_mapValues]
  cases hentry : p.projects.get? key with
  | none => exact .refl _
  | some entry =>
    have hmode := sweepEntry_mode current entry
    simp only [Option.map_some]
    generalize (sweepEntry _ _).mode = after at hmode
    generalize entry.mode = before at hmode
    revert hmode
    by_cases hkey : key = unknownProjectKey
    · simp only [hkey]
      cases before <;> cases after <;> decide
    · simp only [hkey]
      exact id

/-- What is read over a folder's mode keeps the order of modes. -/
theorem resolveOver_mono {a b : ProjectMode} (h : a.AsLaxAs b)
    (ho : q.contributionOverride = p.contributionOverride) :
    (p.resolveOver a key).AsLaxAs (q.resolveOver b key) := by
  unfold resolveOver
  rw [ho]
  split
  · exact h
  split
  · by_cases hb : b = .ignore
    · rw [if_pos hb]
      exact ProjectMode.asLaxAs_ignore _
    · have ha : a ≠ .ignore := by
        rintro rfl
        revert h hb
        cases b <;> decide
      rw [if_neg ha, if_neg hb]
      exact .refl _
  · exact h.moreRestrictive _

theorem overrideVoidReasons_ne_nil (h : p.overrideVoidReasons current ≠ []) :
    ∃ o, p.contributionOverride = some o ∧ o.mode = .autoUpload := by
  unfold overrideVoidReasons at h
  cases ho : p.contributionOverride with
  | none => exact absurd (by rw [ho]; rfl) h
  | some o =>
    refine ⟨o, rfl, ?_⟩
    by_contra hmode
    rw [ho] at h
    exact h (if_neg hmode)

theorem resolve_sweep : (p.resolve key).AsLaxAs ((p.sweepGrants current now).1.resolve key) := by
  have hfolder := @folderMode_sweep p current now key
  by_cases hreasons : p.overrideVoidReasons current = []
  · refine resolveOver_mono hfolder ?_
    rw [override_sweep, if_pos hreasons]
  -- without its override a folder is back on its own mode
  obtain ⟨o, ho, hauto⟩ := overrideVoidReasons_ne_nil hreasons
  have hafter : (p.sweepGrants current now).1.resolve key =
      (p.sweepGrants current now).1.folderMode key := by
    rw [resolve, resolveOver, override_sweep, if_neg hreasons]
  rw [hafter, resolve, resolveOver, ho]
  simp only [hauto]
  by_cases hignore : p.folderMode key = .ignore
  · rw [if_pos hignore, ← hignore]
    exact hfolder
  rw [if_neg hignore]
  by_cases hkey : key = unknownProjectKey
  · rw [if_pos hkey]
    have hnot : p.folderMode key = .notifyOnly := by
      unfold folderMode at hignore ⊢
      revert hignore
      simp only [hkey]
      generalize (((p.projects.get? _).map _).getD _) = mode
      cases mode <;> decide
    exact hnot ▸ hfolder
  · rw [if_neg hkey]
    exact ProjectMode.autoUpload_asLaxAs _

theorem sweep_grant_covered {grant : AutomaticGrant}
    (h : (p.sweepGrants current now).1.automaticGrant = some grant) :
    current.wideningFrom grant.grantedUnder = [] := by
  rw [grant_sweep] at h
  split at h
  next hreasons =>
    rw [grantVoidReasons, h] at hreasons
    exact hreasons
  · cases h

theorem sweep_override_covered {o : ContributionOverride}
    (h : (p.sweepGrants current now).1.contributionOverride = some o) (hauto : o.mode = .autoUpload) :
    ∃ t, o.grantedUnder = some t ∧ current.wideningFrom t = [] := by
  rw [override_sweep] at h
  split at h
  next hreasons =>
    rw [overrideVoidReasons, h, Option.elim_some, if_pos hauto] at hreasons
    cases hterms : o.grantedUnder with
    | none =>
      rw [hterms] at hreasons
      cases hreasons
    | some t =>
      rw [hterms] at hreasons
      exact ⟨t, rfl, hreasons⟩
  · cases h

theorem folderMode_autoUpload (h : p.folderMode key = .autoUpload) :
    ∃ entry, p.projects.get? key = some entry ∧ entry.mode = .autoUpload := by
  unfold folderMode at h
  cases hentry : p.projects.get? key with
  | none =>
    rw [hentry] at h
    revert h
    by_cases hkey : key = unknownProjectKey <;> simp
  | some entry =>
    refine ⟨entry, rfl, ?_⟩
    rw [hentry] at h
    by_contra hmode
    simp [hmode] at h

/-- The terms a folder that may send without asking was armed under. -/
def termsFor (p : ProjectPolicy) (key : String) : Option GrantTerms :=
  if p.folderMode key = .autoUpload then (p.projects.get? key).bind (·.armedUnder)
  else p.contributionOverride.bind (·.grantedUnder)

theorem sweep_armed_covered (h : (p.sweepGrants current now).1.resolve key = .autoUpload) :
    ∃ t, (p.sweepGrants current now).1.termsFor key = some t ∧ current.wideningFrom t = [] := by
  unfold termsFor
  by_cases hown : (p.sweepGrants current now).1.folderMode key = .autoUpload
  · rw [if_pos hown]
    obtain ⟨_, hentry, hmode⟩ := folderMode_autoUpload hown
    have hswept := hentry
    rw [projects_sweep, OrdMap.get?_mapValues] at hswept
    obtain ⟨_, _, rfl⟩ := Option.map_eq_some_iff.1 hswept
    obtain ⟨t, ht, hnil⟩ := sweepEntry_armed hmode
    exact ⟨t, by rw [hentry]; exact ht, hnil⟩
  · rw [if_neg hown]
    have hover : ∃ o, (p.sweepGrants current now).1.contributionOverride = some o ∧
        o.mode = .autoUpload := by
      rw [resolve, resolveOver] at h
      cases ho : (p.sweepGrants _ now).1.contributionOverride with
      | none =>
        rw [ho] at h
        exact absurd h hown
      | some o =>
        rw [ho] at h
        revert h hown
        generalize (p.sweepGrants _ now).1.folderMode key = own
        cases hmode : o.mode <;> cases own <;> simp [ProjectMode.moreRestrictive, hmode]
    obtain ⟨o, ho, hauto⟩ := hover
    obtain ⟨t, ht, hnil⟩ := sweep_override_covered ho hauto
    exact ⟨t, by rw [ho]; exact ht, hnil⟩

/-! ## A second sweep -/

theorem mapValues_sweepEntry_sweep :
    ((p.sweepGrants current now).1.projects.mapValues fun _ => sweepEntry current) =
      (p.sweepGrants current now).1.projects := by
  refine OrdMap.ext_get? fun key => ?_
  rw [projects_sweep, OrdMap.get?_mapValues, OrdMap.get?_mapValues, Option.map_map]
  exact congrArg (Option.map · _) (funext fun entry => (sweepEntry_sweepEntry _).1)

theorem voidedKeys_sweep : (p.sweepGrants current now).1.voidedKeys current = [] := by
  rw [voidedKeys, projects_sweep]
  refine filter_eq_nil_iff.2 fun e he => ?_
  obtain ⟨⟨_, _⟩, hmem, rfl⟩ := mem_map.1 he
  obtain ⟨⟨_, entry⟩, _, heq⟩ := mem_map.1 hmem
  cases heq
  simp [(sweepEntry_sweepEntry _).2]

theorem grantVoidReasons_sweep : (p.sweepGrants current now).1.grantVoidReasons current = [] := by
  rw [grantVoidReasons]
  cases h : (p.sweepGrants _ now).1.automaticGrant with
  | none => rfl
  | some grant => exact sweep_grant_covered h

theorem overrideVoidReasons_sweep :
    (p.sweepGrants current now).1.overrideVoidReasons current = [] := by
  rw [overrideVoidReasons]
  cases h : (p.sweepGrants _ now).1.contributionOverride with
  | none => rfl
  | some o =>
    by_cases hauto : o.mode = .autoUpload
    · obtain ⟨t, ht, hnil⟩ := sweep_override_covered h hauto
      rw [Option.elim_some, if_pos hauto, ht]
      exact hnil
    · rw [Option.elim_some, if_neg hauto]

theorem sweep_sweep (later : DateTime) :
    ((p.sweepGrants current now).1.sweepGrants current later).1 = (p.sweepGrants current now).1 := by
  have hproj := @mapValues_sweepEntry_sweep p current now
  have hkeys := @voidedKeys_sweep p current now
  have hgrant := @grantVoidReasons_sweep p current now
  have hover := @overrideVoidReasons_sweep p current now
  generalize (p.sweepGrants _ now).1 = q at hproj hkeys hgrant hover
  have hswept : q.voidGrants current = q := by
    rw [voidGrants, if_pos hover, swept, hproj, if_pos hgrant]
  rw [sweepGrants, hkeys, hgrant, hover, hswept]
  rfl

/-! ## Notices -/

/-- What a notice is about: a folder, the Flow 1 grant or the override. -/
abbrev Subject := Option String × Bool

def subjectOf (n : GrantVoidNotice) : Subject := (n.projectKey, n.contributionOverride)

/-- A notice for each arming a sweep takes, in the order they are written. -/
def voids (p : ProjectPolicy) (current : GrantTerms) : List (Subject × List String) :=
  (p.voidedKeys current).map (fun e => ((some e.1, false), e.2)) ++
    ((if p.grantVoidReasons current = [] then [] else
      [((none, false), p.grantVoidReasons current)]) ++
    (if p.overrideVoidReasons current = [] then [] else
      [((none, true), p.overrideVoidReasons current)]))

/-- The notices and the next id. -/
def board (p : ProjectPolicy) : List GrantVoidNotice × Nat := (p.grantVoids, p.nextGrantVoidId)

def noticeOf (now : DateTime) (id : Nat) (v : Subject × List String) : GrantVoidNotice where
  id := id
  voidedAt := now
  projectKey := v.1.1
  reasons := v.2
  contributionOverride := v.1.2

/-- `push_void` on the board. -/
def post (now : DateTime) (b : List GrantVoidNotice × Nat) (v : Subject × List String) :
    List GrantVoidNotice × Nat :=
  (b.1.filter (subjectOf · ≠ v.1) ++ [noticeOf now b.2 v], saturatingSucc64 b.2)

theorem board_pushVoid (p : ProjectPolicy) (now : DateTime) (v : Subject × List String) :
    (p.pushVoid v.1.1 v.1.2 v.2 now).board = post now p.board v := by
  refine Prod.ext (congrArg (· ++ [noticeOf now _ v]) ?_) rfl
  refine filter_congr fun n _ => ?_
  simp [subjectOf, Prod.ext_iff]

theorem board_prune : p.pruneArmingRecord.board = p.board := by
  obtain ⟨_, h⟩ := p.pruneArmingRecord_eq
  rw [h]
  rfl

theorem board_voidGrants : (p.voidGrants current).board = p.board := by
  rw [voidGrants]
  split
  · rfl
  · rw [board_prune]
    rfl

theorem board_foldl_voidProject (now : DateTime) (l : List (String × List String))
    (p : ProjectPolicy) : (l.foldl (voidProject now) p).board =
      (l.map fun e => ((some e.1, false), e.2)).foldl (post now) p.board := by
  induction l generalizing p with
  | nil => rfl
  | cons e l ih =>
    rw [foldl_cons, ih]
    exact congrArg (foldl _ · _) (board_pushVoid _ now ((some e.1, false), e.2))

theorem board_pushVoidIf (p : ProjectPolicy) (override : Bool) (reasons : List String)
    (now : DateTime) : (p.pushVoidIf override reasons now).board =
      (if reasons = [] then [] else [((none, override), reasons)]).foldl (post now) p.board := by
  rw [pushVoidIf]
  split
  · rfl
  · exact board_pushVoid p now ((none, override), reasons)

theorem board_sweepGrants :
    (p.sweepGrants current now).1.board = (p.voids current).foldl (post now) p.board := by
  rw [sweepGrants, board_pushVoidIf, board_pushVoidIf, board_foldl_voidProject, board_voidGrants,
    voids, foldl_append, foldl_append]

/-- Notices about different things: those that were there about other things, then the new ones
with the ids that come next. -/
theorem foldl_post (now : DateTime) (vs : List (Subject × List String))
    (hvs : (vs.map (·.1)).Nodup) (b : List GrantVoidNotice × Nat) :
    (vs.foldl (post now) b).1 = b.1.filter (subjectOf · ∉ vs.map (·.1)) ++
      vs.mapIdx fun i v => noticeOf now (saturatingSucc64^[i] b.2) v := by
  induction vs generalizing b with
  | nil => simp
  | cons v vs ih =>
    rw [map_cons, nodup_cons] at hvs
    rw [foldl_cons, ih hvs.2, post, mapIdx_cons, filter_append, filter_filter, append_assoc]
    have hnew : [noticeOf now b.2 v].filter (subjectOf · ∉ vs.map (·.1)) = [noticeOf now b.2 v] :=
      filter_eq_self.2 fun n hn => by
        rw [mem_singleton.1 hn]
        exact decide_eq_true hvs.1
    have hold : (b.1.filter fun n => decide (subjectOf n ∉ vs.map (·.1)) &&
        decide (subjectOf n ≠ v.1)) = b.1.filter (subjectOf · ∉ (v :: vs).map (·.1)) := by
      refine filter_congr fun n _ => ?_
      rw [← Bool.decide_and]
      exact decide_eq_decide.2 (by simp [and_comm])
    rw [hnew, hold]
    rfl

theorem nodup_voids (p : ProjectPolicy) (current : GrantTerms) :
    ((p.voids current).map (·.1)).Nodup := by
  have hkeys : ((p.voidedKeys current).map (·.1)).Nodup := by
    have hsub : ((p.voidedKeys current).map (·.1)).Sublist (p.projects.entries.map (·.1)) := by
      have := (filter_sublist (p := fun e : String × List _ => decide (e.2 ≠ []))
        (l := p.projects.entries.map fun e => (e.1, voidReasons current e.2))).map (·.1)
      rwa [map_map] at this
    exact hsub.nodup (pairwise_map.2 (p.projects.sorted.imp fun h => h.ne))
  rw [voids, map_append, map_map, nodup_append]
  refine ⟨?_, by split <;> split <;> simp, ?_⟩
  · have hinj : Function.Injective fun key : String => (some key, false) :=
      fun a b h => Option.some.inj (congrArg Prod.fst h)
    have := hkeys.map hinj
    rwa [map_map] at this
  · refine forall_mem_map.2 fun e _ b hb => ?_
    rintro rfl
    revert hb
    split <;> split <;> simp

theorem filter_mapIdx {vs : List (Subject × List String)} (hvs : (vs.map (·.1)).Nodup)
    {f : Nat → Subject × List String → GrantVoidNotice} (hf : ∀ i v, subjectOf (f i v) = v.1)
    {i : Nat} {v : Subject × List String} (hv : vs[i]? = some v) :
    (vs.mapIdx f).filter (subjectOf · = v.1) = [f i v] := by
  induction vs generalizing i f with
  | nil => cases hv
  | cons w vs ih =>
    rw [map_cons, nodup_cons] at hvs
    rw [mapIdx_cons]
    cases i with
    | zero =>
      obtain rfl : w = v := Option.some.inj hv
      rw [filter_cons_of_pos (by rw [hf, decide_eq_true_iff]), List.cons.injEq]
      refine ⟨rfl, filter_eq_nil_iff.2 fun n hn => ?_⟩
      obtain ⟨j, hj, rfl⟩ := mem_mapIdx.1 hn
      rw [hf, decide_eq_true_iff]
      exact fun heq => hvs.1 (heq ▸ mem_map_of_mem (getElem_mem hj))
    | succ i =>
      have hmem : v ∈ vs := mem_of_getElem? hv
      have hne : w.1 ≠ v.1 := fun heq => hvs.1 (heq ▸ mem_map_of_mem hmem)
      rw [filter_cons_of_neg (by rw [hf, decide_eq_true_iff]; exact hne)]
      exact ih hvs.2 (fun i v => hf _ v) hv

theorem iterate_saturatingSucc64 {n i : Nat} (h : n + i ≤ 2 ^ 64 - 1) :
    saturatingSucc64^[i] n = n + i := by
  induction i with
  | zero => rfl
  | succ i ih =>
    rw [Function.iterate_succ_apply', saturatingSucc64]
    omega

/-- The ids of the notices are below the next one, and there is one left for each new notice. -/
structure IdsLeft (p : ProjectPolicy) (current : GrantTerms) : Prop where
  below : ∀ n ∈ p.grantVoids, n.id < p.nextGrantVoidId
  room : p.nextGrantVoidId + (p.voids current).length ≤ 2 ^ 64

theorem one_notice {v : Subject × List String} (hv : v ∈ p.voids current) :
    ∃ n, (p.sweepGrants current now).1.grantVoids.filter (subjectOf · = v.1) = [n] ∧
      (p.IdsLeft current → p.nextGrantVoidId ≤ n.id ∧
        ∀ m ∈ (p.sweepGrants current now).1.grantVoids, m.id = n.id → m = n) := by
  have hboard : (p.sweepGrants current now).1.grantVoids =
      p.grantVoids.filter (subjectOf · ∉ (p.voids current).map (·.1)) ++
        (p.voids current).mapIdx fun i v =>
          noticeOf now (saturatingSucc64^[i] p.nextGrantVoidId) v :=
    (congrArg _ board_sweepGrants).trans
      (foldl_post now _ (p.nodup_voids current) _)
  obtain ⟨i, hi⟩ := List.mem_iff_getElem?.1 hv
  have hlt := (List.getElem?_eq_some_iff.1 hi).1
  rw [hboard]
  refine ⟨noticeOf now (saturatingSucc64^[i] p.nextGrantVoidId) v, ?_, fun hids => ?_⟩
  · have hold : ((p.grantVoids.filter (subjectOf · ∉ (p.voids current).map (·.1))).filter
        (subjectOf · = v.1)) = [] := by
      refine filter_eq_nil_iff.2 fun n hn => ?_
      rw [decide_eq_true_iff]
      intro heq
      exact of_decide_eq_true (mem_filter.1 hn).2 (heq ▸ mem_map_of_mem hv)
    rw [filter_append]
    exact congrArg₂ _ hold (filter_mapIdx (p.nodup_voids _) (fun _ _ => rfl) hi)
  · have hroom := hids.room
    have hid : ∀ j, j < (p.voids current).length →
        saturatingSucc64^[j] p.nextGrantVoidId = p.nextGrantVoidId + j :=
      fun j hj => iterate_saturatingSucc64 (by omega)
    have hn : (noticeOf now (saturatingSucc64^[i] p.nextGrantVoidId) v).id =
        p.nextGrantVoidId + i := hid i hlt
    refine ⟨by omega, fun m hm heq => ?_⟩
    rcases mem_append.1 hm with hm | hm
    · have hbelow := hids.below m (mem_of_mem_filter hm)
      omega
    obtain ⟨j, hj, rfl⟩ := mem_mapIdx.1 hm
    have hj' : (noticeOf now (saturatingSucc64^[j] p.nextGrantVoidId) (p.voids current)[j]).id =
        p.nextGrantVoidId + j := hid j hj
    obtain rfl : j = i := by omega
    rw [(List.getElem?_eq_some_iff.1 hi).2]

/-! ## The sweep -/

/-- What had an arming before and has none after. -/
def LostArming (p q : ProjectPolicy) : Subject → Prop
  | (some key, false) => ∃ e e', p.projects.get? key = some e ∧ e.mode = .autoUpload ∧
      q.projects.get? key = some e' ∧ e'.mode ≠ .autoUpload
  | (none, false) => p.automaticGrant.isSome ∧ q.automaticGrant = none
  | (none, true) => p.contributionOverride.isSome ∧ q.contributionOverride = none
  | (some _, true) => False

theorem LostArming.mem_voids {subject : Subject}
    (h : LostArming p (p.sweepGrants current now).1 subject) :
    ∃ v ∈ p.voids current, v.1 = subject := by
  match subject, h with
  | (some key, false), ⟨e, e', he, hauto, he', hmode⟩ =>
    rw [projects_sweep, OrdMap.get?_mapValues, he, Option.map_some, Option.some.injEq] at he'
    have hreasons : voidReasons current e ≠ [] := by
      intro hnil
      rw [← he', (voidReasons_eq_nil hnil).1] at hmode
      exact hmode hauto
    refine ⟨((some key, false), voidReasons current e), mem_append_left _ ?_, rfl⟩
    refine mem_map.2 ⟨(key, voidReasons _ e), mem_filter.2 ⟨?_, ?_⟩, rfl⟩
    · exact mem_map.2 ⟨(key, e), OrdMap.mem_entries.2 he, rfl⟩
    · exact decide_eq_true hreasons
  | (none, false), ⟨hsome, hnone⟩ =>
    rw [grant_sweep] at hnone
    split at hnone
    · rw [hnone] at hsome
      cases hsome
    rename_i hreasons
    refine ⟨((none, false), p.grantVoidReasons current), mem_append_right _ ?_, rfl⟩
    rw [if_neg hreasons]
    exact mem_append_left _ (mem_singleton.2 rfl)
  | (none, true), ⟨hsome, hnone⟩ =>
    rw [override_sweep] at hnone
    split at hnone
    · rw [hnone] at hsome
      cases hsome
    rename_i hreasons
    refine ⟨((none, true), p.overrideVoidReasons current), mem_append_right _ ?_, rfl⟩
    rw [if_neg hreasons]
    exact mem_append_right _ (mem_singleton.2 rfl)

/-- A sweep leaves only armings that their terms cover, allows nothing new, gives each arming it
takes one notice, and has nothing left to do. -/
theorem sweep_sound (p : ProjectPolicy) (current : GrantTerms) (now later : DateTime) :
    (∀ key, (p.sweepGrants current now).1.resolve key = .autoUpload →
      ∃ t, (p.sweepGrants current now).1.termsFor key = some t ∧ current.wideningFrom t = []) ∧
    (∀ grant, (p.sweepGrants current now).1.automaticGrant = some grant →
      current.wideningFrom grant.grantedUnder = []) ∧
    (∀ key, (p.resolve key).AsLaxAs ((p.sweepGrants current now).1.resolve key)) ∧
    (∀ subject, LostArming p (p.sweepGrants current now).1 subject →
      ∃ n, (p.sweepGrants current now).1.grantVoids.filter (subjectOf · = subject) = [n] ∧
        (p.IdsLeft current → p.nextGrantVoidId ≤ n.id ∧
          ∀ m ∈ (p.sweepGrants current now).1.grantVoids, m.id = n.id → m = n)) ∧
    ((p.sweepGrants current now).1.sweepGrants current later).1 =
      (p.sweepGrants current now).1 := by
  refine ⟨fun key => sweep_armed_covered, fun grant => sweep_grant_covered,
    fun key => resolve_sweep, fun subject hlost => ?_, sweep_sweep _⟩
  obtain ⟨v, hv, rfl⟩ := hlost.mem_voids
  exact one_notice hv

/-- Two folders armed under the terms given. -/
def twoArmed (t : GrantTerms) : OrdMap String ProjectEntry :=
  (OrdMap.insert {} "/a" ⟨.autoUpload, 0, "a", none, some t, {}, none⟩).insert "/b"
    ⟨.autoUpload, 0, "b", none, some t, {}, none⟩

theorem sweep_sound_two_folders :
    ∃ n, (({ projects := twoArmed (plainTerms "https://one") : ProjectPolicy }.sweepGrants
      (plainTerms "https://two") 1).1.grantVoids.filter (subjectOf · = (some "/a", false))) = [n] ∧
      ∀ m ∈ ({ projects := twoArmed (plainTerms "https://one") : ProjectPolicy }.sweepGrants
        (plainTerms "https://two") 1).1.grantVoids, m.id = n.id → m = n := by
  have h := (sweep_sound { projects := twoArmed (plainTerms "https://one") }
    (plainTerms "https://two") 1 2).2.2.2.1 (some "/a", false) ?_
  · obtain ⟨n, hn, hfresh⟩ := h
    have hids : ({ projects := twoArmed (plainTerms "https://one") } : ProjectPolicy).IdsLeft
        (plainTerms "https://two") :=
      ⟨fun _ h => absurd h not_mem_nil, by decide +kernel⟩
    exact ⟨n, hn, (hfresh hids).2⟩
  · refine ⟨⟨.autoUpload, 0, "a", none, some (plainTerms "https://one"), {}, none⟩,
      ⟨.notifyOnly, 0, "a", none, none, {}, none⟩, ?_, rfl, ?_, nofun⟩
    · decide +kernel
    · decide +kernel

/-- At the end of the ids two notices of one sweep share the last one; and where a policy file has a
notice with the next id, the new notice takes that id too. -/
theorem sweep_reuses_id :
    (({ projects := twoArmed (plainTerms "https://one"), nextGrantVoidId := 2 ^ 64 - 1 :
      ProjectPolicy }.sweepGrants (plainTerms "https://two") 1).1.grantVoids.map (·.id) =
        [2 ^ 64 - 1, 2 ^ 64 - 1]) ∧
    ({ projects := (twoArmed (plainTerms "https://one")).erase "/b"
       grantVoids := [⟨0, 0, some "/b", [], false⟩] : ProjectPolicy }.sweepGrants
        (plainTerms "https://two") 1).1.grantVoids.map (·.id) = [0, 0] :=
  ⟨by decide +kernel, by decide +kernel⟩

end ProjectPolicy

end TraceCommons.Daemon
