import LinuxToradex.Rbtree.Erase
import Mathlib.Data.Nat.Bitwise
import Mathlib.Data.Nat.Log

/-! From an empty root every sequence comes to an end and leaves a red-black tree with the nodes in the
order that the calls ask for. -/
namespace LinuxToradex.Rbtree
open List Option

open ParentTree Heap Color

inductive Linked (h : Nodes) : Nat → Prop
  | root {x : Nat} : h.root = some x → Linked h x
  | child {p x : Nat} (s : Side) : Linked h p → (h.cell p).child s = some x → Linked h x

def Free (h : Nodes) : Link → Prop
  | .root => h.root = none
  | .child p s => Linked h p ∧ (h.cell p).child s = none

inductive Op
  | insert (x : Nat) (link : Link)
  | erase (x : Nat)

/-- What a caller has to see to: a new node goes to a null pointer, and a linked node is erased. -/
def Op.Allowed (h : Nodes) : Op → Prop
  | .insert x link => ¬Linked h x ∧ Free h link
  | .erase x => Linked h x

def step (fuel : Nat) (h : Nodes) : Op → Option Nodes
  | .insert x link => rbInsertColor fuel x (rbLinkNode x link h)
  | .erase x => rbErase fuel x h

def Returns (h : Nodes) (op : Op) (h' : Nodes) : Prop := ∃ n, ∀ fuel > n, step fuel h op = some h'

inductive Reaches : Nodes → Prop
  | empty (cell : Nat → Cell Nat Color) : Reaches ⟨cell,none⟩
  | step {h h' : Nodes} (op : Op) : Reaches h → op.Allowed h → Returns h op h' → Reaches h'

def Op.apply : Op → List Nat → List Nat
  | .insert x .root, _ => [x]
  | .insert x (.child p s), l => insertBeside s p x l
  | .erase x, l => l.erase x
where
  /-- Put a node right before, or right after, another. -/
  insertBeside (s : Side) (p x : Nat) : List Nat → List Nat
    | [] => []
    | y::l =>
      if y = p then (match s with | .left => x::y::l | .right => y::x::l)
      else y::insertBeside s p x l

variable {h h' : Nodes} {t : Sub} {x p n m : Nat} {s : Side} {fs : Path}

lemma Returns.unique {op : Op} {h1 h2 : Nodes} (h1' : Returns h op h1) (h2' : Returns h op h2) : h1 = h2 := by
  obtain ⟨n1,hn1⟩ := h1'
  obtain ⟨n2,hn2⟩ := h2'
  have := (hn1 (n1+n2+1) (by omega)).symm.trans (hn2 (n1+n2+1) (by omega))
  exact Option.some.inj this

lemma step_mono {fuel : Nat} {op : Op} (hrun : step fuel h op = some h') : step (fuel+1) h op = some h' := by
  cases op with
  | insert x link =>
    obtain ⟨h1,hloop,hrest⟩ := bind_eq_some_iff.mp hrun
    exact bind_eq_some_iff.mpr ⟨h1,insertLoop_mono hloop,hrest⟩
  | erase x => exact rbErase_mono hrun

lemma returns_of_step {n : Nat} {op : Op} (hrun : step n h op = some h') : Returns h op h' := by
  refine ⟨n,fun fuel hfuel => ?_⟩
  obtain ⟨k,rfl⟩ := Nat.exists_eq_add_of_lt hfuel
  clear hfuel
  induction k with
  | zero => exact step_mono hrun
  | succ k ih => exact step_mono ih

lemma linked_iff (hs : Stored h t) : Linked h x ↔ x ∈ t.inorder := by
  constructor
  · intro hx
    induction hx with
    | root hroot => exact Tree.root_mem (hs.root.symm.trans hroot)
    | @child p x s _ hchild ih =>
      obtain ⟨c,l,r,fs,rfl⟩ := exists_plug ih
      have hcell : h.cell p = Cell.fork .left (above none fs) c l.root r.root :=
        Stored.cell_eq (s := .left) hs
      rw [hcell] at hchild
      rw [(inorder_plug_perm _ _).mem_iff]
      refine mem_append_left _ ?_
      rw [Tree.inorder,mem_append,mem_cons]
      cases s with
      | left => exact .inl (Tree.root_mem hchild)
      | right => exact .inr (.inr (Tree.root_mem hchild))
  -- down the path from the root to the node
  have hdown : ∀ (fs : Path) (u : Sub), Stored h (plug u fs) → ∀ y, u.root = some y → Linked h y := by
    intro fs
    induction fs with
    | nil => exact fun u hu y hy => Linked.root (hu.root.trans hy)
    | cons f fs ih =>
      intro u hu y hy
      have hf := ih _ hu f.key Tree.root_fork
      refine Linked.child f.side hf ?_
      rw [hu.frame_eq,Cell.fork_child,hy]
  intro hx
  obtain ⟨c,l,r,fs,rfl⟩ := exists_plug hx
  exact hdown fs _ hs x rfl

lemma insertBeside_middle {before after : List Nat} (hp : p ∉ before) :
    Op.apply.insertBeside s p x (before++p::after) =
      before++(match s with | .left => x::p::after | .right => p::x::after) := by
  induction before with
  | nil => exact if_pos rfl
  | cons y before ih =>
    have hy : ¬y = p := fun heq => hp (heq ▸ mem_cons_self)
    have hrest := ih fun hmem => hp (mem_cons_of_mem y hmem)
    exact (if_neg hy).trans (congrArg (y :: ·) hrest)

/-- A free link is the end of a path to an empty tree. -/
theorem Free.exists_path {link : Link} (hs : Stored h t) (hfree : Free h link) :
    ∃ fs : Path, t = plug .nil fs ∧ link = linkOf fs ∧
      ∀ x, (plug (.node red .nil x .nil) fs).inorder = (Op.insert x link).apply t.inorder := by
  rcases link with _ | ⟨p,s⟩
  · have hnil : t = .nil := Tree.root_eq_none_iff.mp (hs.root.symm.trans hfree)
    subst hnil
    exact ⟨[],rfl,rfl,fun x => rfl⟩
  obtain ⟨hlinked,hnull⟩ := hfree
  obtain ⟨c,l,r,fs,rfl⟩ := exists_plug ((linked_iff hs).mp hlinked)
  have hcell : h.cell p = Cell.fork .left (above none fs) c l.root r.root :=
    Stored.cell_eq (s := .left) hs
  rw [hcell] at hnull
  obtain ⟨before,after,hin⟩ := inorder_plug fs
  have hnodup := hs.nodup
  rw [hin] at hnodup
  rcases s with _ | _
  · obtain rfl : l = .nil := Tree.root_eq_none_iff.mp hnull
    refine ⟨⟨.left,c,p,r⟩::fs,rfl,rfl,fun x => ?_⟩
    have hp : p ∉ before := fun hmem => by
      simp only [Tree.inorder,nil_append,append_assoc] at hnodup
      exact (nodup_append.mp hnodup).2.2 p hmem p mem_cons_self rfl
    rw [plug,hin,hin]
    simp only [Tree.fork,Tree.inorder,nil_append,append_assoc,cons_append,Op.apply]
    rw [insertBeside_middle hp]
  obtain rfl : r = .nil := Tree.root_eq_none_iff.mp hnull
  refine ⟨⟨.right,c,p,l⟩::fs,rfl,rfl,fun x => ?_⟩
  have hp : p ∉ before++l.inorder := fun hmem => by
    simp only [Tree.inorder] at hnodup
    rw [← append_assoc,append_assoc] at hnodup
    exact (nodup_append.mp hnodup).2.2 p hmem p mem_cons_self rfl
  rw [plug,hin,hin]
  have horder : before++(.node c l p .nil : Sub).inorder++after =
      (before++l.inorder)++p::after := by simp [Tree.inorder]
  rw [horder,Op.apply,insertBeside_middle hp]
  simp [Tree.fork,Tree.inorder]

def RedBlack (h : Nodes) (t : Sub) : Prop := Stored h t ∧ ∃ m, Balanced t black m

lemma step_spec {op : Op} (ht : RedBlack h t) (hop : op.Allowed h) :
    ∃ h' t', Returns h op h' ∧ RedBlack h' t' ∧ t'.inorder = op.apply t.inorder := by
  obtain ⟨hs,m,hbal⟩ := ht
  rcases op with ⟨x,link⟩ | x
  · obtain ⟨hnew,hfree⟩ := hop
    obtain ⟨fs,rfl,rfl,hin⟩ := hfree.exists_path hs
    obtain ⟨c,n,hnil,hfits⟩ := hbal.of_plug
    cases hnil
    have hx : x ∉ beside fs := fun hmem => hnew ((linked_iff hs).mpr
      ((inorder_plug_perm _ _).mem_iff.mpr (mem_append_right _ hmem)))
    obtain ⟨h',t',m',hrun,hst,hbal',hin'⟩ :=
      rbInsertColor_spec (Nat.lt_succ_self fs.length) hfits hs hx
    exact ⟨h',t',returns_of_step hrun,⟨hst,m',hbal'⟩,hin'.trans (hin x)⟩
  obtain ⟨h',t',m',hrun,hst,hbal',hin'⟩ :=
    rbErase_spec (Nat.lt_succ_self _) hbal hs ((linked_iff hs).mp hop)
  exact ⟨h',t',returns_of_step hrun,⟨hst,m',hbal'⟩,hin'⟩

lemma Reaches.redBlack (hr : Reaches h) : ∃ t, RedBlack h t := by
  induction hr with
  | empty cell => exact ⟨.nil,⟨trivial,rfl,nodup_nil⟩,0,Balanced.nil⟩
  | step op _ hop hret ih =>
    obtain ⟨t,ht⟩ := ih
    obtain ⟨h1,t1,hret1,ht1,-⟩ := step_spec ht hop
    exact ⟨t1,hret.unique hret1 ▸ ht1⟩

/-- **The tree stays a red-black tree.** After any allowed calls on an empty root its parent and child
pointers agree, its root is black, no red node has a red child and all paths down have the same number of
black nodes. Every further allowed call returns, and inserts the node at the link, or takes it out, in the
order of the nodes. -/
theorem red_black_tree (hr : Reaches h) : ∃ t, RedBlack h t ∧ ∀ op : Op, op.Allowed h →
    ∃ h' t', Returns h op h' ∧ RedBlack h' t' ∧ t'.inorder = op.apply t.inorder := by
  obtain ⟨t,ht⟩ := hr.redBlack
  exact ⟨t,ht,fun _ hop => step_spec ht hop⟩

lemma three_nodes : ∃ h₁ h₂ h₃ : Nodes,
    step 4 ⟨fun _ => ⟨none,red,none,none⟩,none⟩ (.insert 1 .root) = some h₁ ∧
    step 4 h₁ (.insert 2 (.child 1 .right)) = some h₂ ∧ step 4 h₂ (.insert 3 (.child 2 .right)) = some h₃ ∧
    Stored h₃ (.node black (.node red .nil 1 .nil) 2 (.node red .nil 3 .nil)) ∧ Reaches h₃ := by
  have hempty : Stored (⟨fun _ => ⟨none,red,none,none⟩,none⟩ : Nodes) .nil :=
    ⟨trivial,rfl,nodup_nil⟩
  obtain ⟨h₁,h₂,h₃,hstep1,hstep2,hstep3,hs1,hs2,hs3⟩ : ∃ h₁ h₂ h₃ : Nodes,
      step 4 ⟨fun _ => ⟨none,red,none,none⟩,none⟩ (.insert 1 .root) = some h₁ ∧
      step 4 h₁ (.insert 2 (.child 1 .right)) = some h₂ ∧
      step 4 h₂ (.insert 3 (.child 2 .right)) = some h₃ ∧
      Stored h₁ (.node black .nil 1 .nil) ∧ Stored h₂ (.node black .nil 1 (.node red .nil 2 .nil)) ∧
      Stored h₃ (.node black (.node red .nil 1 .nil) 2 (.node red .nil 3 .nil)) := by
    refine ⟨_,_,_,rfl,rfl,rfl,⟨⟨rfl,trivial,trivial⟩,rfl,by decide⟩,
      ⟨⟨rfl,trivial,rfl,trivial,trivial⟩,rfl,by decide⟩,
      ⟨⟨rfl,⟨rfl,trivial,trivial⟩,rfl,trivial,trivial⟩,rfl,by decide⟩⟩
  have hr1 := (Reaches.empty _).step (.insert 1 .root) ⟨by rw [linked_iff hempty]; decide,rfl⟩
    (returns_of_step hstep1)
  have hr2 := hr1.step (.insert 2 (.child 1 .right))
    ⟨by rw [linked_iff hs1]; decide,(linked_iff hs1).mpr (by decide),by rw [hs1.holds.1]; rfl⟩
    (returns_of_step hstep2)
  have hr3 := hr2.step (.insert 3 (.child 2 .right))
    ⟨by rw [linked_iff hs2]; decide,(linked_iff hs2).mpr (by decide),by rw [hs2.holds.2.2.1]; rfl⟩
    (returns_of_step hstep3)
  exact ⟨h₁,h₂,h₃,hstep1,hstep2,hstep3,hs3,hr3⟩

/-- Three nodes linked one to the right of the other, with a rotation, and the root erased. -/
theorem red_black_tree_rotate : ∃ h₁ h₂ h₃ : Nodes,
    step 4 ⟨fun _ => ⟨none,red,none,none⟩,none⟩ (.insert 1 .root) = some h₁ ∧
    step 4 h₁ (.insert 2 (.child 1 .right)) = some h₂ ∧ step 4 h₂ (.insert 3 (.child 2 .right)) = some h₃ ∧
    Stored h₃ (.node black (.node red .nil 1 .nil) 2 (.node red .nil 3 .nil)) ∧
    ∃ h' t', Returns h₃ (.erase 2) h' ∧ RedBlack h' t' ∧ t'.inorder = [1,3] := by
  obtain ⟨h₁,h₂,h₃,hstep1,hstep2,hstep3,hs,hr⟩ := three_nodes
  obtain ⟨t,ht,hops⟩ := red_black_tree hr
  obtain rfl := ht.1.unique hs
  exact ⟨h₁,h₂,h₃,hstep1,hstep2,hstep3,hs,hops (.erase 2) ((linked_iff hs).mpr (by decide))⟩

def height : Sub → Nat
  | .nil => 0
  | .node _ l _ r => max (height l) (height r)+1

lemma Balanced.bounds {c : Color} (h : Balanced t c n) :
    2^n ≤ t.inorder.length+1 ∧ height t ≤ 2*n+if c = red then 1 else 0 := by
  induction h with
  | nil => exact ⟨le_rfl,le_rfl⟩
  | redNode _ _ ihl ihr =>
    simp only [Tree.inorder,length_append,length_cons,height,reduceCtorEq,if_true,if_false] at *
    omega
  | @blackNode l r x n cl cr _ _ ihl ihr =>
    have hl : height l ≤ 2*n+1 := ihl.2.trans (by split <;> omega)
    have hr : height r ≤ 2*n+1 := ihr.2.trans (by split <;> omega)
    rw [Nat.pow_succ,Tree.inorder,length_append,length_cons,height]
    omega

/-- The way down to a node of a tree is logarithmic in the number of nodes, whatever calls have built it. -/
theorem height_le_log (hr : Reaches h) : ∃ t, RedBlack h t ∧ height t ≤ 2*Nat.log 2 (t.inorder.length+1) := by
  obtain ⟨t,hs,n,hb⟩ := hr.redBlack
  obtain ⟨hpow,hle⟩ := hb.bounds
  have hlog := Nat.le_log_of_pow_le (by decide) hpow
  rw [if_neg (by decide)] at hle
  exact ⟨t,⟨hs,n,hb⟩,by omega⟩

theorem height_le_log_rotate : ∃ h₁ h₂ h₃ : Nodes,
    step 4 ⟨fun _ => ⟨none,red,none,none⟩,none⟩ (.insert 1 .root) = some h₁ ∧
    step 4 h₁ (.insert 2 (.child 1 .right)) = some h₂ ∧ step 4 h₂ (.insert 3 (.child 2 .right)) = some h₃ ∧
    ∃ t, RedBlack h₃ t ∧ t.inorder = [1,2,3] ∧ height t ≤ 2*Nat.log 2 (t.inorder.length+1) := by
  obtain ⟨h₁,h₂,h₃,hstep1,hstep2,hstep3,hs,hr⟩ := three_nodes
  obtain ⟨t,ht,hle⟩ := height_le_log hr
  obtain rfl := ht.1.unique hs
  exact ⟨h₁,h₂,h₃,hstep1,hstep2,hstep3,_,ht,rfl,hle⟩

end LinuxToradex.Rbtree
