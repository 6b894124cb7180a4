import Mathlib.Tactic.Common

/-! Walks of a given length along a relation, and what one more edge can add: a closed walk that was not
there before comes from a walk from the end of the edge back to its beginning. -/
namespace Walks

variable {V : Type*} {E E' : V → V → Prop} {a b x y z : V} {n m : Nat}

inductive Along (E : V → V → Prop) : Nat → V → V → Prop
  | nil (x : V) : Along E 0 x x
  | cons {n : Nat} {x y z : V} (edge : E x y) (walk : Along E n y z) : Along E (n+1) x z

lemma Along.eq_of_zero (h : Along E 0 x y) : x = y := by
  cases h
  rfl

lemma Along.append (h : Along E n x y) (h' : Along E m y z) : Along E (m+n) x z := by
  induction h with
  | nil => exact h'
  | cons edge _ ih => exact Along.cons edge (ih h')

lemma Along.mono (hsub : ∀ x y, E' x y → E x y) (h : Along E' n x y) : Along E n x y := by
  induction h with
  | nil x => exact Along.nil x
  | cons edge _ ih => exact Along.cons (hsub _ _ edge) ih

section Edge
variable (hsub : ∀ x y, E' x y → E x y ∨ (x = a ∧ y = b))
include hsub

lemma Along.first_visit (h : Along E' n x a) : ∃ m ≤ n, Along E m x a := by
  generalize hz : a = z at h
  induction h with
  | nil x => exact ⟨0,Nat.le_refl 0,Along.nil x⟩
  | @cons n x y z edge _ ih =>
    subst hz
    by_cases hx : x = a
    · rw [hx]
      exact ⟨0,Nat.zero_le _,Along.nil a⟩
    obtain ⟨m,hm,hwalk⟩ := ih rfl
    rcases hsub x y edge with hold | ⟨heq,-⟩
    · exact ⟨m+1,Nat.succ_le_succ hm,Along.cons hold hwalk⟩
    · exact absurd heq hx

lemma Along.split (h : Along E' n x y) : Along E n x y ∨ ∃ i j, i+j+1 = n ∧ Along E i x a ∧ Along E' j b y := by
  induction h with
  | nil x => exact .inl (Along.nil x)
  | @cons n x y z edge walk ih =>
    rcases hsub x y edge with hold | ⟨rfl,rfl⟩
    · rcases ih with hwalk | ⟨i,j,hij,hfirst,hsecond⟩
      · exact .inl (Along.cons hold hwalk)
      · exact .inr ⟨i+1,j,by omega,Along.cons hold hfirst,hsecond⟩
    · exact .inr ⟨0,n,by omega,Along.nil x,walk⟩

lemma Along.closed (hold : ∀ x y, E x y → E' x y) (h : Along E' n x x) : Along E n x x ∨ ∃ m < n, Along E m b a := by
  rcases h.split hsub with hwalk | ⟨i,j,hij,hfirst,hsecond⟩
  · exact .inl hwalk
  obtain ⟨m,hm,hback⟩ := (hsecond.append (hfirst.mono hold)).first_visit hsub
  exact .inr ⟨m,by omega,hback⟩

end Edge

end Walks
