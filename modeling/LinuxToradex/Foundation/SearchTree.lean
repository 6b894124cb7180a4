import Mathlib.Data.List.Nodup
import Mathlib.Data.List.Perm.Basic
import Mathlib.Data.Tree.Basic

/-! A binary tree stands for the sequence of its values. Linking a leaf puts a value into the sequence,
unlinking a node takes it out, and rotations leave it alone. -/
namespace SearchTree
open List

variable {α : Type*}

def toList : BinaryTree α → List α
  | .nil => []
  | .node x l r => toList l++x::toList r

/-- Links a new leaf at the end of the way down, to the right of the values that pass the
test. -/
def link (right : α → Bool) (x : α) : BinaryTree α → BinaryTree α
  | .nil => .node x .nil .nil
  | .node y l r =>
    if right y then .node y l (link right x r) else .node y (link right x l) r

/-- The leftmost value of a tree with the root `x`, and the tree without it. -/
def unlinkFirst (x : α) : BinaryTree α → BinaryTree α → α × BinaryTree α
  | .nil, r => (x,r)
  | .node y l r, r' =>
    let (first,rest) := unlinkFirst y l r
    (first,.node x rest r')

/-- Puts the children of an unlinked node together: the successor takes its place. -/
def join : BinaryTree α → BinaryTree α → BinaryTree α
  | .nil, r => r
  | l, .nil => l
  | l, .node y rl rr =>
    let (first,rest) := unlinkFirst y rl rr
    .node first l rest

def unlink [DecidableEq α] (x : α) : BinaryTree α → BinaryTree α
  | .nil => .nil
  | .node y l r => if y = x then join l r else .node y (unlink x l) (unlink x r)

def rotateLeft : BinaryTree α → BinaryTree α
  | .node x l (.node y rl rr) => .node y (.node x l rl) rr
  | t => t

def rotateRight : BinaryTree α → BinaryTree α
  | .node x (.node y ll lr) r => .node y ll (.node x lr r)
  | t => t

def rotate (left : Bool) : List Bool → BinaryTree α → BinaryTree α
  | [], t => if left then rotateLeft t else rotateRight t
  | _, .nil => .nil
  | true::path, .node x l r => .node x l (rotate left path r)
  | false::path, .node x l r => .node x (rotate left path l) r

def balance (t : BinaryTree α) (rotations : List (Bool × List Bool)) : BinaryTree α :=
  rotations.foldl (fun t rot => rotate rot.1 rot.2 t) t

lemma toList_rotateLeft (t : BinaryTree α) : toList (rotateLeft t) = toList t := by
  unfold rotateLeft
  split <;> simp [toList]

lemma toList_rotateRight (t : BinaryTree α) : toList (rotateRight t) = toList t := by
  unfold rotateRight
  split <;> simp [toList]

lemma toList_rotate (left : Bool) (path : List Bool) (t : BinaryTree α) : toList (rotate left path t) = toList t := by
  induction path generalizing t with
  | nil =>
    unfold rotate
    split
    · exact toList_rotateLeft t
    · exact toList_rotateRight t
  | cons d path ih =>
    cases t with
    | nil => rfl
    | node x l r => cases d <;> simp [rotate,toList,ih]

@[simp]
lemma toList_balance (t : BinaryTree α) (rotations : List (Bool × List Bool)) :
    toList (balance t rotations) = toList t := by
  induction rotations generalizing t with
  | nil => rfl
  | cons rot rotations ih =>
    rw [balance,foldl_cons]
    exact (ih _).trans (toList_rotate _ _ t)

lemma toList_link_perm (right : α → Bool) (x : α) (t : BinaryTree α) :
    (toList (link right x t)).Perm (x::toList t) := by
  induction t with
  | nil => exact List.Perm.refl _
  | node y l r ihl ihr =>
    unfold link
    split
    · rw [toList,toList]
      refine ((ihr.cons y).append_left _).trans ?_
      refine (List.Perm.append_left _ (List.Perm.swap x y _)).trans ?_
      exact perm_middle
    rw [toList,toList]
    exact ihl.append_right _

/-- If the test tells the front of the sequence from its rear, the new value comes between. -/
theorem toList_link {right : α → Bool} {x : α} {t : BinaryTree α} {l1 l2 : List α}
    (ht : toList t = l1++l2) (h1 : ∀ y ∈ l1, right y = true) (h2 : ∀ y ∈ l2, right y = false) :
    toList (link right x t) = l1++x::l2 := by
  induction t generalizing l1 l2 with
  | nil =>
    rw [toList,eq_comm,append_eq_nil_iff] at ht
    rw [ht.1,ht.2]
    rfl
  | node y l r ihl ihr =>
    unfold link
    rcases append_eq_append_iff.mp ht with ⟨m,rfl,hm⟩ | ⟨m,hl,hm⟩
    · rcases m with _ | ⟨z,m⟩
      · rw [nil_append] at hm
        have hy : right y = false := h2 y (hm ▸ mem_cons_self)
        rw [hy,if_neg Bool.false_ne_true,toList,ihl (append_nil _).symm (by simpa using h1) (by simp),← hm]
        simp
      rw [cons_append,List.cons.injEq] at hm
      obtain ⟨rfl,hm⟩ := hm
      have hy : right y = true := h1 y (by simp)
      rw [hy,if_pos rfl,toList,ihr hm (fun z hz => h1 z (by simp [hz])) h2]
      simp
    rcases m with _ | ⟨z,m⟩
    · rw [append_nil] at hl
      have hy : right y = false := h2 y (by simp [hm])
      rw [hy,if_neg Bool.false_ne_true,toList,ihl (hl.trans (append_nil _).symm) h1 (by simp),hm]
      simp
    have hy : right y = false := h2 y (by simp [hm])
    rw [hy,if_neg Bool.false_ne_true,toList,ihl hl h1 (fun w hw => h2 w (by
      rw [hm]
      exact mem_append_left _ hw)),hm]
    simp

lemma toList_unlinkFirst (x : α) (l r : BinaryTree α) :
    (unlinkFirst x l r).1::toList (unlinkFirst x l r).2 = toList (.node x l r) := by
  induction l generalizing x r with
  | nil => rfl
  | node y l r' ihl _ =>
    have hfirst := ihl y r'
    simp only [unlinkFirst,toList] at hfirst ⊢
    rw [← cons_append,hfirst]

lemma toList_join (l r : BinaryTree α) : toList (join l r) = toList l++toList r := by
  unfold join
  split
  · rfl
  · simp [toList]
  · rw [toList,← toList_unlinkFirst]

lemma toList_unlink [DecidableEq α] (x : α) {t : BinaryTree α} (h : (toList t).Nodup) :
    toList (unlink x t) = (toList t).filter fun y => decide (y ≠ x) := by
  induction t with
  | nil => rfl
  | node y l r ihl ihr =>
    rw [toList,nodup_middle,nodup_cons] at h
    have hl := h.2.sublist (sublist_append_left _ _)
    have hr := h.2.sublist (sublist_append_right _ _)
    have hkeep : ∀ m : List α, y ∉ m → m.filter (fun z => decide (z ≠ y)) = m := by
      intro m hm
      refine filter_eq_self.mpr fun z hz => decide_eq_true ?_
      rintro rfl
      exact hm hz
    unfold unlink
    split
    · rename_i he
      subst he
      rw [mem_append,not_or] at h
      rw [toList_join,toList,filter_append,hkeep _ h.1.1, filter_cons_of_neg (by simp),hkeep _ h.1.2]
    rename_i hne
    rw [toList,toList,filter_append,filter_cons_of_pos (by simpa using hne),ihl hl,ihr hr]

end SearchTree
