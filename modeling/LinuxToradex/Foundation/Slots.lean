import Mathlib

/-! The first entries of an array, as a function on indices, are kept in order: one is inserted, one
is removed, one is replaced. -/
namespace Slots
open Function

variable {α : Type*} {R : α → α → Prop} {f : Nat → α} {n p : Nat} {x : α}

def Ordered (R : α → α → Prop) (f : Nat → α) (n : Nat) : Prop := ∀ i j, i < j → j < n → R (f i) (f j)

def insertAt (f : Nat → α) (p : Nat) (x : α) (i : Nat) : α :=
  if i < p then f i else if i = p then x else f (i-1)

def removeAt (f : Nat → α) (p : Nat) (i : Nat) : α := if i < p then f i else f (i+1)

lemma Ordered.congr {g : Nat → α} (h : Ordered R f n) (hfg : ∀ i < n, g i = f i) : Ordered R g n := by
  intro i j hij hj
  rw [hfg i (Nat.lt_trans hij hj),hfg j hj]
  exact h i j hij hj

lemma Ordered.insertAt (h : Ordered R f n) (hp : p ≤ n) (hbefore : ∀ i < p, R (f i) x)
    (hafter : ∀ i, p ≤ i → i < n → R x (f i)) : Ordered R (insertAt f p x) (n+1) := by
  intro i j hij hj
  unfold Slots.insertAt
  split
  · rename_i hi
    split
    · rename_i hjp
      exact h i j hij (by omega)
    split
    · exact hbefore i hi
    · exact h i (j-1) (by omega) (by omega)
  rw [if_neg (by omega : ¬j < p),if_neg (by omega : ¬j = p)]
  split
  · exact hafter (j-1) (by omega) (by omega)
  · exact h (i-1) (j-1) (by omega) (by omega)

lemma Ordered.removeAt (h : Ordered R f (n+1)) (p : Nat) : Ordered R (removeAt f p) n := by
  intro i j hij hj
  unfold Slots.removeAt
  split
  · split
    · exact h i j hij (by omega)
    · exact h i (j+1) (by omega) (by omega)
  rw [if_neg (by omega : ¬j < p)]
  exact h (i+1) (j+1) (by omega) (by omega)

lemma Ordered.update (h : Ordered R f n) (hbefore : ∀ i < p, R (f i) x)
    (hafter : ∀ i, p < i → i < n → R x (f i)) : Ordered R (Function.update f p x) n := by
  intro i j hij hj
  rw [update_apply,update_apply]
  split
  · rename_i hi
    rw [if_neg (by omega : ¬j = p)]
    exact hafter j (by omega) hj
  split
  · exact hbefore i (by omega)
  · exact h i j hij hj

variable {P : α → Prop}

lemma exists_congr_lt {g : Nat → α} (hfg : ∀ i < n, g i = f i) : (∃ i < n, P (g i)) ↔ ∃ i < n, P (f i) :=
  exists_congr fun i => and_congr_right fun hi => by rw [hfg i hi]

lemma exists_insertAt (hp : p ≤ n) : (∃ i < n+1, P (insertAt f p x i)) ↔ P x ∨ ∃ i < n, P (f i) := by
  unfold insertAt
  constructor
  · rintro ⟨i,hi,hP⟩
    split at hP
    · exact .inr ⟨i,by omega,hP⟩
    split at hP
    · exact .inl hP
    · exact .inr ⟨i-1,by omega,hP⟩
  rintro (hP | ⟨i,hi,hP⟩)
  · refine ⟨p,by omega,?_⟩
    rw [if_neg (Nat.lt_irrefl p),if_pos rfl]
    exact hP
  by_cases hip : i < p
  · exact ⟨i,by omega,by rw [if_pos hip]; exact hP⟩
  refine ⟨i+1,by omega,?_⟩
  rw [if_neg (by omega),if_neg (by omega)]
  exact hP

lemma exists_removeAt (hp : p ≤ n) : (∃ i < n, P (removeAt f p i)) ↔ ∃ i < n+1, i ≠ p ∧ P (f i) := by
  unfold removeAt
  constructor
  · rintro ⟨i,hi,hP⟩
    split at hP
    · exact ⟨i,by omega,by omega,hP⟩
    · exact ⟨i+1,by omega,by omega,hP⟩
  rintro ⟨i,hi,hne,hP⟩
  by_cases hip : i < p
  · exact ⟨i,by omega,by rw [if_pos hip]; exact hP⟩
  refine ⟨i-1,by omega,?_⟩
  rw [if_neg (by omega),Nat.sub_add_cancel (by omega)]
  exact hP

lemma exists_update (hp : p < n) : (∃ i < n, P (Function.update f p x i)) ↔ P x ∨ ∃ i < n, i ≠ p ∧ P (f i) := by
  constructor
  · rintro ⟨i,hi,hP⟩
    rw [update_apply] at hP
    split at hP
    · exact .inl hP
    · exact .inr ⟨i,hi,by assumption,hP⟩
  rintro (hP | ⟨i,hi,hne,hP⟩)
  · exact ⟨p,hp,by rw [update_self]; exact hP⟩
  · exact ⟨i,hi,by rw [update_of_ne hne]; exact hP⟩

end Slots
