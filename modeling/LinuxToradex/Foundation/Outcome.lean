import Mathlib.Tactic.Common

/-! A function returns a number, stops at a `BUG`, or runs out of fuel. Specifications have a second
postcondition for the states in which it stops. -/
namespace Outcome

variable {σ α : Type*}

inductive Run (σ : Type*) where
  | done (s : σ) (ret : Int)
  | bug (s : σ)
  | fuel

def Run.next : Run σ → (σ → Run σ) → Run σ
  | .done s ret, f => if ret = 0 then f s else .done s ret
  | .bug s, _ => .bug s
  | .fuel, _ => .fuel

def Run.finally : Run σ → (σ → σ) → Run σ
  | .done s ret, f => .done (f s) ret
  | .bug s, _ => .bug s
  | .fuel, _ => .fuel

def Run.state? : Run σ → Option σ
  | .done s _ => some s
  | .bug s => some s
  | .fuel => none

def forEach (f : α → σ → Run σ) : List α → σ → Run σ
  | [], s => .done s 0
  | a::l, s => (f a s).next (forEach f l)

/-- The computation returns zero in a state with `P`, or stops in one with `B`. -/
def Run.Ends (P B : σ → Prop) : Run σ → Prop
  | .done s ret => ret = 0 ∧ P s
  | .bug s => B s
  | .fuel => False

variable {P Q B : σ → Prop} {x : Run σ} {f : σ → Run σ}

section
variable (h : x.Ends P B)
include h

lemma Run.Ends.mono (hpq : ∀ s, P s → Q s) : x.Ends Q B := by
  cases x with
  | done s ret => exact ⟨h.1,hpq s h.2⟩
  | bug s => exact h
  | fuel => exact h

lemma Run.Ends.next (hf : ∀ s, P s → (f s).Ends Q B) : (x.next f).Ends Q B := by
  cases x with
  | done s ret =>
    obtain ⟨rfl,hs⟩ := h
    exact hf s hs
  | bug s => exact h
  | fuel => exact h

lemma Run.Ends.finally {g : σ → σ} (hg : ∀ s, P s → Q (g s)) : (x.finally g).Ends Q B := by
  cases x with
  | done s ret => exact ⟨h.1,hg s h.2⟩
  | bug s => exact h
  | fuel => exact h

lemma Run.Ends.returns (hB : ∀ s, ¬B s) : ∃ s, x = .done s 0 ∧ P s := by
  cases x with
  | done s ret =>
    obtain ⟨rfl,hs⟩ := h
    exact ⟨s,rfl,hs⟩
  | bug s => exact absurd h (hB s)
  | fuel => exact h.elim

lemma Run.Ends.leaves (hP : ∀ s, P s → Q s) (hB : ∀ s, B s → Q s) : ∃ s, x.state? = some s ∧ Q s := by
  cases x with
  | done s ret => exact ⟨s,rfl,hP s h.2⟩
  | bug s => exact ⟨s,rfl,hB s h⟩
  | fuel => exact h.elim

end

lemma ends_done {s : σ} (h : P s) : (Run.done s 0).Ends P B := ⟨rfl,h⟩

lemma forEach_idle {f : α → σ → Run σ} {l : List α} {s : σ} (h : ∀ a ∈ l, f a s = .done s 0) :
    forEach f l s = .done s 0 := by
  induction l with
  | nil => rfl
  | cons a l ih =>
    rw [forEach,h a List.mem_cons_self]
    exact ih fun b hb => h b (List.mem_cons_of_mem a hb)

end Outcome
