import TraceCommons.Daemon.Cards

/-! # One card for one file

Entries are told apart by the hash of their content, cards by the path. An offer retires the cards
of its path; the operations that bring a resolved entry back do not all look for one. Where none of
them meets another card, a path has one card at most. -/

namespace TraceCommons.Daemon

open List

variable {D : Setup} {q q' : Queue} {id : Uuid} {e : QueueEntry} {R : QueueEntry → Prop}
  {touched left : QueueEntry → Prop}

/-- Two cards with one path are one. -/
def Queue.OneCard (q : Queue) : Prop :=
  ∀ a ∈ q.entries, a.live = true → ∀ b ∈ q.entries, b.live = true → b.path = a.path → b = a

/-- An entry of `R` is alone at its path with the cards and the rest of `R`. -/
def Queue.Alone (q : Queue) (R : QueueEntry → Prop) : Prop :=
  ∀ a ∈ q.entries, R a → ∀ b ∈ q.entries, b.live = true ∨ R b → b.path = a.path → b = a

structure Queue.Cards (D : Setup) (q : Queue) : Prop where
  keyed : q.Keyed D
  single : q.OneCard

theorem Queue.Keyed.eq_of_key (hq : q.Keyed D) {a b : QueueEntry} (ha : a ∈ q.entries)
    (hb : b ∈ q.entries) (h : b.key = a.key) : b = a :=
  inj_on_of_nodup_map hq.hashes hb ha (congrArg (·.2.1) h)

/-! ## Changes of what is there -/

/-- The cards of `q'` were cards of `q`, or entries of `R`. -/
def Issued (R : QueueEntry → Prop) (q q' : Queue) : Prop :=
  ∀ e' ∈ q'.entries, e'.live = true → ∃ e ∈ q.entries, e'.key = e.key ∧ (e.live = true ∨ R e)

theorem Moves.issued (h : Moves touched left q q')
    (hlive : ∀ e e', touched e → left e' → e'.key = e.key → e'.live = true →
      e.live = true ∨ R e) : Issued R q q' := by
  intro e' he' hl
  rcases Grown.mem h he' with ⟨e, he, rfl | ⟨hkey, ht, hleft⟩⟩ | hnew
  · exact ⟨e', he, rfl, .inl hl⟩
  · exact ⟨e, he, hkey, hlive e e' ht hleft hkey hl⟩
  · exact hnew.elim

theorem Queue.OneCard.issued (h : q.OneCard) (hkeyed : q'.Keyed D) (hissued : Issued R q q')
    (hR : q.Alone R) : q'.OneCard := by
  intro a' ha' hal b' hb' hbl hpath
  obtain ⟨a, ha, hak, halive⟩ := hissued a' ha' hal
  obtain ⟨b, hb, hbk, hblive⟩ := hissued b' hb' hbl
  have hba : b.path = a.path := by
    have hap : a'.path = a.path := congrArg (·.2.2) hak
    have hbp : b'.path = b.path := congrArg (·.2.2) hbk
    rw [← hap, ← hbp, hpath]
  have heq : b = a := by
    rcases halive with hal | har
    · rcases hblive with hbl | hbr
      · exact h a ha hal b hb hbl hba
      · exact (hR b hb hbr a ha (.inl hal) hba.symm).symm
    · exact hR a ha har b hb hblive hba
  exact hkeyed.eq_of_key ha' hb' (by rw [hak, hbk, heq])

theorem Queue.Cards.moves (hc : q.Cards D) (hR : q.Alone R) (h : Moves touched left q q')
    (hlive : ∀ e e', touched e → left e' → e'.key = e.key → e'.live = true →
      e.live = true ∨ R e) : q'.Cards D :=
  ⟨h.keyed hc.keyed, hc.single.issued (h.keyed hc.keyed) (h.issued hlive) hR⟩

theorem alone_false : q.Alone fun _ => False := fun _ _ h => h.elim

/-- Nothing that was no card becomes one. -/
theorem Queue.Cards.moves_live (hc : q.Cards D)
    (h : Moves (fun e => e.live = true) (fun _ => True) q q') : q'.Cards D :=
  hc.moves alone_false h fun _ _ ht _ _ _ => .inl ht

/-- What is touched is no card afterwards. -/
theorem Queue.Cards.moves_out (hc : q.Cards D)
    (h : Moves (fun _ => True) (fun e => e.live = false) q q') : q'.Cards D :=
  hc.moves alone_false h fun _ _ _ hl _ hlive => absurd (hl.symm.trans hlive) nofun

theorem live_of_state (h : e.state = .pending ∨ e.state = .approved) : e.live = true := by
  rcases h with h | h <;> simp [QueueEntry.live, h]

variable {f : QueueEntry → QueueEntry}

theorem moves_edit_live {allowed : QueueEntry → Bool} (hkey : ∀ e, (f e).key = e.key)
    (hall : ∀ e, allowed e = true → e.live = true) (h : q.edit id allowed f = some q') :
    Moves (fun e => e.live = true) (fun _ => True) q q' :=
  (Moves.refl q).edit hkey (fun e _ he => hall e he) (fun _ _ => trivial) h

theorem moves_update_out (hkey : ∀ e, (f e).key = e.key)
    (hout : ∀ e, q.get id = some e → (f e).live = false) :
    Moves (fun _ => True) (fun e => e.live = false) q (q.update id f) :=
  (Moves.refl q).update hkey (fun _ _ _ => trivial) hout

theorem moves_mapIf {p : QueueEntry → Bool} (hkey : ∀ e, (f e).key = e.key)
    (hl : ∀ e ∈ q.entries, p e = true → touched e ∧ left (f e)) :
    Moves touched left q (q.mapIf p f) := by
  refine Shelf.Grows.map _ fun e he => ?_
  by_cases hp : p e = true
  · rw [if_pos hp]
    exact .inr ⟨hkey e, hl e he hp⟩
  · rw [if_neg hp]
    exact .inl rfl

theorem moves_retire (ids : List Uuid) :
    Moves (fun _ => True) (fun e => e.live = false) q (q.retire ids) :=
  (Moves.refl q).foldl fun _ _ _ h => h.update (by intro; rfl) (fun _ _ _ => trivial) fun _ _ => rfl

/-! ## New cards -/

theorem Queue.Cards.push (hc : q.Cards D) (hfits : Fits D q e)
    (hfree : ∀ a ∈ q.entries, a.live = true → a.path ≠ e.path) :
    Queue.Cards D ⟨q.entries ++ [e]⟩ := by
  have hgrown : Grown (fun _ => False) (fun _ => True) (Fits D q) q ⟨q.entries ++ [e]⟩ :=
    (Moves.refl q).push hfits
  refine ⟨hgrown.keyed (fun _ h => h) hc.keyed, ?_⟩
  intro a ha hal b hb hbl hpath
  rcases mem_append.1 ha with ha | ha <;> rcases mem_append.1 hb with hb | hb
  · exact hc.single a ha hal b hb hbl hpath
  · exact absurd (mem_singleton.1 hb ▸ hpath).symm (hfree a ha hal)
  · exact absurd (mem_singleton.1 ha ▸ hpath) (hfree b hb hbl)
  · exact (mem_singleton.1 hb).trans (mem_singleton.1 ha).symm

/-- The entry of an id is what the change made of it. -/
theorem Queue.Keyed.mem_update (hq : q.Keyed D) (hkey : ∀ e, (f e).key = e.key)
    (he : e ∈ (q.update id f).entries) (hid : e.entryId = id) : ∃ a ∈ q.entries, e = f a := by
  have hmoves : Moves (fun _ => True) (fun _ => True) q (q.update id f) :=
    (Moves.refl q).update hkey (fun _ _ _ => trivial) fun _ _ => trivial
  have hget := (hmoves.keyed hq).get_of_mem he
  rw [hid, Queue.get_update fun a => congrArg Prod.fst (hkey a)] at hget
  obtain ⟨a, ha, rfl⟩ := Option.map_eq_some_iff.1 hget
  exact ⟨a, (Queue.get_eq_some ha).1, rfl⟩

theorem live_retire {ids : List Uuid} (hq : q.Keyed D) (he : e ∈ (q.retire ids).entries)
    (hl : e.live = true) : e ∈ q.entries ∧ e.entryId ∉ ids := by
  induction ids generalizing q with
  | nil => exact ⟨he, not_mem_nil⟩
  | cons id ids ih =>
    have hmoves : Moves (fun _ => True) (fun e => e.live = false) q
        (q.setState id .superseded (some reasonChanged)) :=
      moves_update_out (by intro; rfl) fun _ _ => rfl
    obtain ⟨hmem, hids⟩ := ih (hmoves.keyed hq) he
    have hne : e.entryId ≠ id := by
      intro hid
      obtain ⟨a, _, rfl⟩ := hq.mem_update (by intro; rfl) hmem hid
      exact absurd hl nofun
    refine ⟨?_, fun h => (mem_cons.1 h).elim hne hids⟩
    rcases Grown.mem hmoves hmem with ⟨a, ha, rfl | ⟨_, _, hout⟩⟩ | hnew
    · exact ha
    · exact absurd (hout.symm.trans hl) nofun
    · exact hnew.elim

theorem Fits.moves (hfits : Fits D q e) (h : Moves touched left q q') : Fits D q' e := by
  refine ⟨hfits.id, fun a' ha' => ?_⟩
  rcases Grown.mem h ha' with ⟨a, ha, hb⟩ | hnew
  · rw [hb.sessionHash]
    exact hfits.fresh a ha
  · exact hnew.elim

theorem Queue.Cards.replaceLiveAtPath {maxEntries : Option Nat} {inserted : Bool}
    (hc : q.Cards D) (he : e.entryId = D.entryIdFor e.sessionHash)
    (h : q.replaceLiveAtPath e maxEntries = .ok (q', inserted)) : q'.Cards D := by
  rcases Queue.replaceLiveAtPath_eq_ok h with ⟨_, rfl⟩ | ⟨_, hfresh, rfl⟩
  · exact hc.moves_out (moves_retire _)
  have hfits : Fits D (q.retire (q.stale e)) e := Fits.moves ⟨he, hfresh⟩ (moves_retire _)
  refine (hc.moves_out (moves_retire _)).push hfits fun a ha hal hpath => ?_
  -- a card at the path would be stale, and so retired
  obtain ⟨hmem, hids⟩ := live_retire hc.keyed ha hal
  refine hids (mem_map_of_mem (mem_filter.2 ⟨hmem, ?_⟩))
  simp [hpath, hfresh a hmem, hal]

/-! ## The operations -/

/-- The operations on cards, as the daemon uses them. -/
def QueueOp.AboutCards (D : Setup) : QueueOp → Prop
  | replaceLiveAtPath entry _ => entry.entryId = D.entryIdFor entry.sessionHash
  | setState _ state _ => state = .refused
  | upsert .. | revokeApproval .. | holdWithPin .. | releaseInFlight => False
  | _ => True

instance (op : QueueOp) : Decidable (op.AboutCards D) := by
  apply op.casesOn (motive := fun op => Decidable (op.AboutCards D)) <;> intros <;>
    unfold QueueOp.AboutCards <;> infer_instance

/-- The entries that a resolved state gives back their cards, or the card of their replacement. -/
def QueueOp.revives (q : Queue) : QueueOp → QueueEntry → Bool
  | undoKeep id _ _, e => e.entryId = id && e.isKept
  | reviveExpired id _, e => e.entryId = id && e.state = .expired
  | supersede id .., e => e.entryId = id && !e.live
  | reofferRefusedForReason reason _, e => q.fresh reason e
  | reofferPanickedRefusals currentVersion, e => e.isReofferedBy currentVersion
  | _, _ => false

theorem Queue.Cards.reofferRefusedForReason {reason : String} {now : DateTime} (hc : q.Cards D)
    (hR : q.Alone fun e => q.fresh reason e = true) :
    (q.reofferRefusedForReason reason now).Cards D := by
  -- what comes back is at a path that was not busy, what is retired at one that was
  have hids : ∀ {p : QueueEntry → Bool} {id a}, id ∈ q.idsOf p → q.get id = some a → p a = true := by
    intro p id a hid ha
    obtain ⟨b, hb, rfl⟩ := mem_map.1 hid
    obtain ⟨hmem, hp⟩ := mem_filter.1 hb
    rw [hc.keyed.get_of_mem hmem, Option.some.injEq] at ha
    exact ha ▸ hp
  have hretired : Moves (fun e => e.isRefusedFor reason = true)
      (fun e => e.live = true → q.busyAtPath e.path = false) q
      (q.retire (q.idsOf (q.outdated reason))) := by
    refine (Moves.refl q).foldl fun q' id hid h => ?_
    refine h.update (by intro; rfl) (fun a ha _ => ?_) fun _ _ hlive => absurd hlive nofun
    exact (Bool.and_eq_true_iff.1 (hids hid ha)).1
  have hmoves : Moves (fun e => e.isRefusedFor reason = true)
      (fun e => e.live = true → q.busyAtPath e.path = false) q
      (q.reofferRefusedForReason reason now) := by
    refine hretired.foldl fun q1 id hid h1 => ?_
    have htouched : ∀ a, q.get id = some a → a.isRefusedFor reason = true := fun a ha =>
      (Bool.and_eq_true_iff.1 (hids hid ha)).1
    have hidle : ∀ q2 a, Moves (fun e => e.isRefusedFor reason = true)
        (fun e => e.live = true → q.busyAtPath e.path = false) q q2 → q2.get id = some a →
        q.busyAtPath a.path = false := by
      intro q2 a h2 ha
      obtain ⟨b, hb, hbecomes⟩ := h2.get_old ha
      rw [hbecomes.path]
      simpa using (Bool.and_eq_true_iff.1 (hids hid hb)).2
    have hrevoked := h1.update (f := QueueEntry.revoked "" now) (by intro; rfl)
      (fun a ha _ => htouched a ha) fun a ha _ => hidle _ a h1 ha
    exact hrevoked.update (by intro; rfl) (fun a ha _ => htouched a ha)
      fun a ha _ => hidle _ a hrevoked ha
  refine hc.moves hR hmoves fun a a' ha hleft hkey hlive => .inr ?_
  have hpath : a'.path = a.path := congrArg (·.2.2) hkey
  rw [Queue.fresh, ha, ← hpath, hleft hlive]
  rfl

theorem Queue.Cards.supersede {newHash : String} {newSize maxEntries : Nat}
    {newModifiedAt : Option DateTime} {now : DateTime} {offer : QueueEntry} (hc : q.Cards D)
    (hR : q.Alone fun e => (e.entryId = id && !e.live) = true)
    (h : q.supersede D.entryIdFor id newHash newSize newModifiedAt now = some (q', offer)) :
    (settled q' (q'.upsert offer maxEntries)).Cards D := by
  obtain ⟨old, hget, hold⟩ := Option.map_eq_some_iff.1 h
  cases hold
  obtain ⟨hmem, hid⟩ := Queue.get_eq_some hget
  have hmoves : Moves (fun _ => True) (fun e => e.live = false) q
      (q.setState id .superseded (some reasonChanged)) :=
    moves_update_out (by intro; rfl) fun _ _ => rfl
  have hc1 := hc.moves_out hmoves
  unfold settled Queue.upsert
  split
  · exact hc1
  rename_i htracked
  split
  · exact hc1
  refine hc1.push ⟨rfl, fun a ha heq => htracked ?_⟩ fun a ha hal hpath => ?_
  · exact any_eq_true.2 ⟨a, ha, decide_eq_true heq⟩
  -- any other card at the path would have been beside the old entry already
  have hne : a.entryId ≠ id := by
    intro hid
    obtain ⟨b, _, rfl⟩ := hc.keyed.mem_update (by intro; rfl) ha hid
    exact absurd hal nofun
  have ha' : a ∈ q.entries := by
    rcases Grown.mem hmoves ha with ⟨b, hb, rfl | ⟨_, _, hout⟩⟩ | hnew
    · exact hb
    · exact absurd (hout.symm.trans hal) nofun
    · exact hnew.elim
  refine hne ((congrArg _ ?_).trans hid)
  by_cases hlive : old.live = true
  · exact hc.single old hmem hlive a ha' hal hpath
  · exact hR old hmem (by simp [hid, hlive]) a ha' (.inl hal) hpath

theorem Queue.Cards.getD {o : Option Queue} (hc : q.Cards D) (h : ∀ q', o = some q' → q'.Cards D) :
    (o.getD q).Cards D := by
  cases o with
  | none => exact hc
  | some q' => exact h q' rfl

theorem Queue.Cards.settled {o : Except String Queue} (hc : q.Cards D)
    (h : ∀ q', o = .ok q' → q'.Cards D) : (settled q o).Cards D :=
  hc.getD fun q' hq' => h q' (toOption_eq_some.1 hq')

theorem Queue.Cards.sublist {l : List QueueEntry} (hc : q.Cards D) (h : l.Sublist q.entries) :
    Queue.Cards D ⟨l⟩ :=
  ⟨⟨fun e he => hc.keyed.ids e (h.subset he), (h.map _).nodup hc.keyed.hashes⟩,
    fun a ha hal b hb => hc.single a (h.subset ha) hal b (h.subset hb)⟩

theorem QueueOp.apply_cards {op : QueueOp} (hop : op.AboutCards D)
    (hR : q.Alone fun e => op.revives q e = true) (hc : q.Cards D) : (op.apply D q).Cards D := by
  cases op with
  | upsert | revokeApproval | holdWithPin | releaseInFlight => exact hop.elim
  | replaceLiveAtPath entry maxEntries =>
    refine hc.settled fun _ h => ?_
    obtain ⟨⟨q', _⟩, hreplace, rfl⟩ := map_eq_ok.1 h
    exact hc.replaceLiveAtPath hop hreplace
  | approve id terms =>
    refine hc.getD fun _ h => hc.moves_live (moves_edit_live (by intro; rfl) (fun e he => ?_) h)
    exact live_of_state (.inl (of_decide_eq_true he))
  | approveUnattended id scopes inputs =>
    refine hc.getD fun _ h => hc.moves_live (approveUnattended_moves (fun e he => ?_) (.refl q) h)
    exact live_of_state (.inl he)
  | cancel id =>
    refine hc.settled fun _ h => ?_
    obtain ⟨e, hget, hstate, rfl⟩ := Queue.cancel_eq_ok.1 h
    refine hc.moves_live ((Moves.refl q).update (by intro; rfl) (fun a ha _ => ?_)
      fun _ _ => trivial)
    rw [hget, Option.some.injEq] at ha
    exact ha ▸ live_of_state (.inr hstate)
  | keep id =>
    refine hc.settled fun _ h => ?_
    obtain ⟨e, _, _, rfl⟩ := Queue.keep_eq_ok.1 h
    exact hc.moves_out (moves_update_out (by intro; rfl) fun _ _ => rfl)
  | undoKeep id now maxEntries =>
    refine hc.settled fun _ h => ?_
    obtain ⟨e, hget, hkept, rfl⟩ := Queue.undoKeep_eq_ok h
    have hmoves : Moves (fun e => (e.entryId = id && e.isKept) = true) (fun _ => True) q
        (q.update id (·.returned now)) := by
      refine (Moves.refl q).update (by intro; rfl) (fun a ha _ => ?_) fun _ _ => trivial
      rw [hget, Option.some.injEq] at ha
      subst ha
      simp [hkept, (Queue.get_eq_some hget).2]
    exact hc.moves hR hmoves fun _ _ ht _ _ _ => .inr ht
  | claimForUpload id now =>
    refine hc.getD fun _ h => ?_
    obtain ⟨e, _, _, rfl⟩ := Queue.edit_eq_some.1 h
    exact hc.moves_out (moves_update_out (by intro; rfl) fun _ _ => rfl)
  | setState id state reason =>
    cases hop
    exact hc.moves_out (moves_update_out (by intro; rfl) fun _ _ => rfl)
  | noteRefusalVersion id version =>
    refine hc.getD fun _ h => ?_
    obtain ⟨e, hget, hrefused, rfl⟩ := Queue.edit_eq_some.1 h
    refine hc.moves_out (moves_update_out (by intro; rfl) fun a ha => ?_)
    rw [hget, Option.some.injEq] at ha
    subst ha
    obtain ⟨_, _, hreason⟩ := any_eq_true.1 hrefused
    have hstate : e.state = .refused := (of_decide_eq_true hreason).1
    simp [QueueEntry.live, hstate]
  | supersede id newHash newSize newModifiedAt now maxEntries =>
    simp only [QueueOp.apply]
    split
    · exact hc
    next h => exact hc.supersede hR h
  | reofferRefusedForReason reason now => exact hc.reofferRefusedForReason hR
  | reofferPanickedRefusals currentVersion =>
    have hmoves : Moves (fun e => e.isReofferedBy currentVersion = true) (fun _ => True) q
        (q.reofferPanickedRefusals currentVersion) :=
      moves_mapIf (by intro; rfl) fun _ _ hp => ⟨hp, trivial⟩
    exact hc.moves hR hmoves fun _ _ ht _ _ _ => .inr ht
  | reviveExpired id now =>
    refine hc.getD fun _ h => ?_
    obtain ⟨e, hget, hexpired, rfl⟩ := Queue.edit_eq_some.1 h
    have hmoves : Moves (fun e => (e.entryId = id && e.state = .expired) = true) (fun _ => True) q
        (q.update id (·.revived now)) := by
      refine (Moves.refl q).update (by intro; rfl) (fun a ha _ => ?_) fun _ _ => trivial
      rw [hget, Option.some.injEq] at ha
      subst ha
      simpa [(Queue.get_eq_some hget).2] using hexpired
    exact hc.moves hR hmoves fun _ _ ht _ _ _ => .inr ht
  | expire now ttlDays blockedOnHealth =>
    simp only [QueueOp.apply, Queue.expire]
    split
    · exact hc
    · exact hc.moves_out (moves_mapIf (by intro; rfl) fun _ _ _ => ⟨trivial, rfl⟩)
  | clearProjectIgnored projectKey => exact hc.sublist filter_sublist

/-- A path has one card at most, where nothing came back beside another card. -/
theorem one_card_per_path (D : Setup) (ops : List QueueOp)
    (hops : AlongOps D (fun q op => op.AboutCards D ∧ q.Alone fun e => op.revives q e = true) ops)
    (path : String) : (((runOps D ops).atPath path).filter (·.live)).length ≤ 1 := by
  have hempty : Queue.Cards D ⟨[]⟩ :=
    ⟨⟨fun _ he => absurd he not_mem_nil, nodup_nil⟩, fun _ ha => absurd ha not_mem_nil⟩
  have hc : (runOps D ops).Cards D :=
    Trail.run_keeps (I := Queue.Cards D) (fun _ _ hop => QueueOp.apply_cards hop.1 hop.2) hops hempty
  have hnodup : (((runOps D ops).atPath path).filter (·.live)).Nodup :=
    (hc.keyed.hashes.of_map _).filter _ |>.filter _
  have hsame : ∀ a ∈ ((runOps D ops).atPath path).filter (·.live),
      ∀ b ∈ ((runOps D ops).atPath path).filter (·.live), b = a := by
    intro a ha b hb
    obtain ⟨ha, hal⟩ := mem_filter.1 ha
    obtain ⟨ha, hap⟩ := mem_filter.1 ha
    obtain ⟨hb, hbl⟩ := mem_filter.1 hb
    obtain ⟨hb, hbp⟩ := mem_filter.1 hb
    exact hc.single a ha hal b hb hbl
      ((of_decide_eq_true hbp).trans (of_decide_eq_true hap).symm)
  generalize ((runOps D ops).atPath _).filter _ = cards at hnodup hsame
  match cards with
  | [] => exact Nat.zero_le 1
  | [_] => exact Nat.le_refl 1
  | a :: b :: l =>
    have hba : b = a := hsame a (.head _) b (.tail a (.head _))
    exact absurd (hba ▸ (.head _)) (nodup_cons.1 hnodup).1

/-- An offer, refused, offered again by a newer build while its file has no other card. -/
theorem one_card_per_path_after_upgrade :
    (((runOps plainSetup
      [.replaceLiveAtPath (offerOf "a" "p") (some 10),
        .setState "a" .refused (some reasonRedactionPanicked), .noteRefusalVersion "a" "0.24.1",
        .reofferPanickedRefusals "0.24.2"]).atPath "p").filter (·.live)).length ≤ 1 :=
  one_card_per_path plainSetup _ (by
    simp only [AlongOps, Trail.Along, Queue.Alone, and_true]
    decide +kernel) "p"

/-- Both refusals of a file that grew come back when the gate opens; and a refusal comes back from
an upgrade beside the card of the content that came after it. -/
theorem two_cards_for_one_path :
    (∃ ops : List QueueOp, (∀ op ∈ ops, op.AboutCards plainSetup) ∧
      (((runOps plainSetup ops).atPath "p").filter (·.live)).length = 2) ∧
    ∃ ops : List QueueOp, (∀ op ∈ ops, op.AboutCards plainSetup) ∧
      (∀ op ∈ ops, ∀ reason now, op ≠ .reofferRefusedForReason reason now) ∧
      (((runOps plainSetup ops).atPath "p").filter (·.live)).length = 2 :=
  ⟨⟨[.replaceLiveAtPath (offerOf "a" "p") (some 10),
      .setState "a" .refused (some "near-ai-notice-not-acknowledged"),
      .replaceLiveAtPath (offerOf "b" "p") (some 10),
      .setState "b" .refused (some "near-ai-notice-not-acknowledged"),
      .reofferRefusedForReason "near-ai-notice-not-acknowledged" 5],
      by decide +kernel, by decide +kernel⟩,
    ⟨[.replaceLiveAtPath (offerOf "a" "p") (some 10),
      .setState "a" .refused (some reasonRedactionPanicked), .noteRefusalVersion "a" "0.24.1",
      .replaceLiveAtPath (offerOf "b" "p") (some 10), .reofferPanickedRefusals "0.24.2"],
      by decide +kernel, by simp, by decide +kernel⟩⟩

end TraceCommons.Daemon
