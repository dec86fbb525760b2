import Mathlib

/-! # Greedy allotment

An amount is handed out along a list of claimants, each up to what it may take, until nothing is
left. Cutting a claimant down to what it was handed changes nobody's share. -/

namespace TraceCommons.Allot

open List

variable {κ : Type} [DecidableEq κ]

/-- What claimant `h` is handed of `amount`; a claimant not in the list gets nothing. -/
def share (net : κ → Nat) : Nat → List κ → κ → Nat
  | _, [], _ => 0
  | amount, k :: ks, h =>
    if k = h then min (net k) amount else share net (amount - min (net k) amount) ks h

/-- The sums by key of a list add up to its sum. -/
theorem sum_by_key {α M : Type} [AddCommMonoid M] (key : α → κ) (f : α → M) {ks : List κ}
    (hks : ks.Nodup) {l : List α} (hl : ∀ x ∈ l, key x ∈ ks) :
    (ks.map fun k => ((l.filter (key · = k)).map f).sum).sum = (l.map f).sum := by
  induction l with
  | nil => simp
  | cons x l ih =>
    have hsplit : ∀ k, (((x :: l).filter (key · = k)).map f).sum =
        (if k = key x then f x else 0) + ((l.filter (key · = k)).map f).sum := by
      intro k
      by_cases hk : key x = k
      · simp [hk]
      · simp [hk, Ne.symm hk]
    have hx : (ks.map fun k => if k = key x then f x else 0).sum = f x := by
      rw [sum_map_eq_nsmul_single _ _ fun k hk _ => if_neg hk,
        count_eq_one_of_mem hks (hl x (.head _)), one_nsmul, if_pos rfl]
    simp [hsplit, hx, ih fun y hy => hl y (.tail x hy)]

/-- Where keys are unique a key has at most one entry. -/
theorem filter_key_cases {α : Type} (key : α → Option κ) {l : List α}
    (hl : (l.filterMap key).Nodup) (k : κ) :
    l.filter (key · = some k) = [] ∨
      ∃ x ∈ l, key x = some k ∧ l.filter (key · = some k) = [x] := by
  induction l with
  | nil => exact .inl rfl
  | cons y l ih =>
    by_cases hy : key y = some k
    · rw [filterMap_cons_some hy, nodup_cons] at hl
      have hnone : l.filter (key · = some k) = [] := by
        refine filter_eq_nil_iff.2 fun x hx hk => hl.1 ?_
        exact mem_filterMap.2 ⟨x, hx, of_decide_eq_true hk⟩
      exact .inr ⟨y, .head _, hy, by simp [hy, hnone]⟩
    · have hl' : (l.filterMap key).Nodup :=
        hl.sublist ((sublist_cons_self y l).filterMap key)
      rcases ih hl' with h | ⟨x, hx, hk, h⟩
      · exact .inl (by simpa [hy] using h)
      · exact .inr ⟨x, .tail y hx, hk, by simpa [hy] using h⟩

variable {net net' : κ → Nat} {amount : Nat} {k h : κ} {ks : List κ}

theorem share_self : share net amount (k :: ks) k = min (net k) amount := if_pos rfl

theorem share_cons (hne : k ≠ h) :
    share net amount (k :: ks) h = share net (amount - min (net k) amount) ks h := if_neg hne

theorem share_of_notMem (hh : h ∉ ks) : share net amount ks h = 0 := by
  induction ks generalizing amount with
  | nil => rfl
  | cons k ks ih =>
    simp only [mem_cons, not_or] at hh
    rw [share_cons (Ne.symm hh.1), ih hh.2]

theorem share_le_net : share net amount ks h ≤ net h := by
  induction ks generalizing amount with
  | nil => exact Nat.zero_le _
  | cons k ks ih =>
    by_cases hk : k = h
    · subst hk
      rw [share_self]
      exact min_le_left _ _
    · rw [share_cons hk]
      exact ih

/-- The shares depend on what the listed claimants may take, nothing else. -/
theorem share_congr (hnet : ∀ k ∈ ks, net' k = net k) :
    share net' amount ks h = share net amount ks h := by
  induction ks generalizing amount with
  | nil => rfl
  | cons k ks ih =>
    have hk := hnet k (.head _)
    simp only [share, hk]
    split
    · rfl
    · exact ih fun x hx => hnet x (.tail k hx)

/-- Everything is handed out, or everybody has all it may take. -/
theorem sum_share (hks : ks.Nodup) :
    (ks.map (share net amount ks)).sum = min amount (ks.map net).sum := by
  induction ks generalizing amount with
  | nil => simp
  | cons k ks ih =>
    obtain ⟨hk, hks⟩ := nodup_cons.1 hks
    have htail : ks.map (share net amount (k :: ks)) =
        ks.map (share net (amount - min (net k) amount) ks) :=
      map_congr_left fun h hh => share_cons fun e => hk (e ▸ hh)
    simp only [map_cons, sum_cons, share_self, htail, ih hks]
    omega

/-- If a claimant is left with less than it may take, the amount was used up. -/
theorem sum_share_of_lt (hks : ks.Nodup) (hh : h ∈ ks) (hlt : share net amount ks h < net h) :
    (ks.map (share net amount ks)).sum = amount := by
  rw [sum_share hks]
  refine min_eq_left (le_of_not_gt fun hgt => ?_)
  have hsum : (ks.map (share net amount ks)).sum = (ks.map net).sum :=
    (sum_share hks).trans (min_eq_right hgt.le)
  exact absurd hsum
    (sum_lt_sum _ net (fun _ _ => share_le_net) ⟨h, hh, hlt⟩).ne

/-- Cutting one claimant down to its own share changes nobody's share. -/
theorem share_settle (hks : ks.Nodup) (hh : net' h = share net amount ks h)
    (hne : ∀ k, k ≠ h → net' k = net k) (x : κ) :
    share net' amount ks x = share net amount ks x := by
  induction ks generalizing amount with
  | nil => rfl
  | cons k ks ih =>
    obtain ⟨hk, hks⟩ := nodup_cons.1 hks
    by_cases hkh : k = h
    · subst hkh
      have hcut : min (net' k) amount = min (net k) amount := by
        rw [hh, share_self, min_assoc, min_self]
      simp only [share, hcut]
      split
      · rfl
      · exact share_congr fun y hy => hne y fun e => hk (e ▸ hy)
    · rw [share_cons hkh] at hh
      simp only [share, hne k hkh]
      split
      · rfl
      · exact ih hks hh

end TraceCommons.Allot
