import Mathlib.Data.List.Chain
import Mathlib.Data.List.Nodup

/-! The element behind and in front of another one, as a linked list or a tree in order gives
them. -/
namespace Neighbours
open List

variable {α : Type*} [DecidableEq α] {l l1 l2 : List α} {x y : α}

def nextIn (l : List α) (x : α) : Option α := (l.dropWhile fun y => decide (y ≠ x)).tail.head?

def prevIn (l : List α) (x : α) : Option α := nextIn l.reverse x

lemma dropWhile_append_cons (h : x ∉ l1) : (l1++x::l2).dropWhile (fun y => decide (y ≠ x)) = x::l2 := by
  rw [dropWhile_append_of_pos,dropWhile_cons_of_neg]
  · simp
  intro y hy
  simp only [decide_eq_true_iff]
  rintro rfl
  exact h hy

lemma nextIn_append (h : x ∉ l1) : nextIn (l1++x::l2) x = l2.head? := by
  rw [nextIn,dropWhile_append_cons h,tail_cons]

lemma prevIn_append (h : x ∉ l2) : prevIn (l1++x::l2) x = l1.getLast? := by
  rw [prevIn,reverse_append,reverse_cons,append_assoc,singleton_append,
    nextIn_append (by simpa using h),head?_reverse]

lemma mem_of_nextIn (h : nextIn l x = some y) : y ∈ l :=
  (dropWhile_sublist _).subset (mem_of_mem_tail (mem_of_mem_head? h))

lemma mem_of_prevIn (h : prevIn l x = some y) : y ∈ l := mem_reverse.mp (mem_of_nextIn h)

omit [DecidableEq α] in
lemma isChain_insert {R : α → α → Prop} (h : (l1++x::l2).IsChain R) (hx : R x y)
    (hy : ∀ z ∈ l2.head?, R y z) : (l1++x::y::l2).IsChain R := by
  rw [isChain_split] at h ⊢
  refine ⟨h.1,isChain_cons_cons.mpr ⟨hx,isChain_cons.mpr ⟨hy,?_⟩⟩⟩
  exact (isChain_cons.mp h.2).2

end Neighbours
