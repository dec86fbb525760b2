import Mathlib

/-! # Framed encodings

An encoding is framed when what is written after it can be told from it: of two encodings followed by
anything, equal as wholes, both the values and the rests are equal. Framed encodings put one after
the other are framed, and so is a list after its length. -/

namespace TraceCommons.Frame

variable {α β γ : Type}

def Framed (enc : α → List γ) : Prop :=
  ∀ a b r s, enc a ++ r = enc b ++ s → a = b ∧ r = s

variable {enc : α → List γ} {enc' : β → List γ}

theorem Framed.injective (h : Framed enc) : Function.Injective enc := by
  intro a b hab
  exact (h a b [] [] (by rw [hab])).1

/-- Encodings of one length. -/
theorem framed_of_length {w : Nat} (hlen : ∀ a, (enc a).length = w)
    (hinj : Function.Injective enc) : Framed enc := by
  intro a b r s h
  obtain ⟨hab, hrs⟩ := List.append_inj h ((hlen a).trans (hlen b).symm)
  exact ⟨hinj hab, hrs⟩

theorem Framed.comp {f : β → α} (h : Framed enc) (hf : Function.Injective f) :
    Framed fun b => enc (f b) := by
  intro a b r s hab
  obtain ⟨heq, hrs⟩ := h _ _ r s hab
  exact ⟨hf heq, hrs⟩

theorem Framed.pair (h : Framed enc) (h' : Framed enc') :
    Framed fun p : α × β => enc p.1 ++ enc' p.2 := by
  rintro ⟨a, b⟩ ⟨a', b'⟩ r s heq
  simp only [List.append_assoc] at heq
  obtain ⟨rfl, hrest⟩ := h _ _ _ _ heq
  obtain ⟨rfl, hrs⟩ := h' _ _ _ _ hrest
  exact ⟨rfl, hrs⟩

/-- Encodings of lists of one length. -/
theorem Framed.flatMap (h : Framed enc) {l m : List α} {r s : List γ} (hlen : l.length = m.length)
    (heq : l.flatMap enc ++ r = m.flatMap enc ++ s) : l = m ∧ r = s := by
  induction l generalizing m with
  | nil =>
    obtain rfl := List.length_eq_zero_iff.1 hlen.symm
    exact ⟨rfl, heq⟩
  | cons a l ih =>
    cases m with
    | nil => cases hlen
    | cons b m =>
      simp only [List.flatMap_cons, List.append_assoc] at heq
      obtain ⟨rfl, hrest⟩ := h _ _ _ _ heq
      obtain ⟨rfl, hrs⟩ := ih (Nat.succ.inj hlen) hrest
      exact ⟨rfl, hrs⟩

/-! ## Numbers -/

abbrev Byte := Fin 256

instance neZero_base : NeZero 256 := ⟨by decide⟩

/-- The last `w` digits of a number to the base 256, highest first. -/
def beBytes : Nat → Nat → List Byte
  | 0, _ => []
  | w + 1, n => beBytes w (n / 256) ++ [Fin.ofNat 256 n]

theorem length_beBytes (w n : Nat) : (beBytes w n).length = w := by
  induction w generalizing n with
  | zero => rfl
  | succ w ih => rw [beBytes, List.length_append, ih]; rfl

theorem beBytes_inj {w m n : Nat} (hm : m < 256 ^ w) (hn : n < 256 ^ w)
    (h : beBytes w m = beBytes w n) : m = n := by
  induction w generalizing m n with
  | zero =>
    omega
  | succ w ih =>
    rw [Nat.pow_succ] at hm hn
    obtain ⟨hhigh, hlow⟩ := List.append_inj' h rfl
    have hdiv := ih (Nat.div_lt_of_lt_mul (by rwa [Nat.mul_comm] at hm))
      (Nat.div_lt_of_lt_mul (by rwa [Nat.mul_comm] at hn)) hhigh
    have hmod : m % 256 = n % 256 := congrArg Fin.val (List.singleton_inj.1 hlow)
    omega

theorem framed_beBytes (w : Nat) {bound : Nat} (hb : bound ≤ 256 ^ w) :
    Framed fun n : Fin bound => beBytes w n.val :=
  framed_of_length (fun n => length_beBytes w n) fun m n h =>
    Fin.ext (beBytes_inj (Nat.lt_of_lt_of_le m.isLt hb) (Nat.lt_of_lt_of_le n.isLt hb) h)

/-! ## Lists after their length -/

/-- A list whose length fits in 64 bits. -/
structure Vec (α : Type) where
  list : List α
  short : list.length < 2 ^ 64

theorem Vec.ext_list {v w : Vec α} (h : v.list = w.list) : v = w := by
  cases w
  cases h
  rfl

def Vec.len (v : Vec α) : Fin (2 ^ 64) := ⟨v.list.length, v.short⟩

def encodeVec (enc : α → List Byte) (v : Vec α) : List Byte :=
  beBytes 8 v.list.length ++ v.list.flatMap enc

theorem framed_encodeVec {enc : α → List Byte} (h : Framed enc) : Framed (encodeVec enc) := by
  intro v w r s heq
  obtain ⟨hlen, hrest⟩ := framed_beBytes 8 (Nat.le_refl _) v.len w.len _ _ heq
  obtain ⟨hlist, hrs⟩ := h.flatMap (congrArg Fin.val hlen) hrest
  exact ⟨Vec.ext_list hlist, hrs⟩

end TraceCommons.Frame
