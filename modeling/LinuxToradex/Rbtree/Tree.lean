import Mathlib.Data.List.Induction
import LinuxToradex.Foundation.ParentTree

/-! `lib/rbtree.c`. `none` is the read of a null pointer, or a loop that the fuel does not suffice for. The
branches of the source for the left and the right are one definition for a side. -/
namespace LinuxToradex.Rbtree
open Option

open ParentTree

inductive Color
  | red
  | black
deriving DecidableEq

/-- The nodes, by their addresses, and the root. The colour and the parent, which share a word in the
source, are fields of their own. -/
abbrev Nodes := Heap Nat Color

def setColor (h : Nodes) (x : Nat) (c : Color) : Nodes := h.modify x (·.setTag c)

def isBlack (h : Nodes) (x : Option Nat) : Bool :=
  match x with
  | none => true
  | some x => decide ((h.cell x).tag = .black)

/-- `__rb_rotate_left` and `__rb_rotate_right`: the child on the other side comes up. -/
def rotate (s : Side) (node : Nat) (h : Nodes) : Option Nodes := do
  let up ← (h.cell node).child s.flip
  let parent := (h.cell node).parent
  let inner := (h.cell up).child s
  let h := h.modify node (·.setChild s.flip inner)
  let h := h.setParentOf inner (some node)
  let h := h.modify up (·.setChild s (some node))
  let h := h.modify up (·.setParent parent)
  let h := h.replaceChild s parent (some node) (some up)
  pure (h.modify node (·.setParent (some up)))

def rotateLeft : Nat → Nodes → Option Nodes := rotate .left

def rotateRight : Nat → Nodes → Option Nodes := rotate .right

inductive Link
  | root
  | child (parent : Nat) (s : Side)
deriving DecidableEq

def Link.parent : Link → Option Nat
  | .root => none
  | .child p _ => some p

def Link.get (h : Nodes) : Link → Option Nat
  | .root => h.root
  | .child p s => (h.cell p).child s

def rbLinkNode (node : Nat) (link : Link) (h : Nodes) : Nodes :=
  let h := h.modify node fun _ => ⟨link.parent,.red,none,none⟩
  match link with
  | .root => {h with root := some node}
  | .child p s => h.modify p (·.setChild s (some node))

def straighten (s : Side) (node parent : Nat) (h : Nodes) : Option (Nat × Nat × Nodes) :=
  if (h.cell parent).child s.flip = some node then
    (rotate s parent h).map fun h => (parent,node,h)
  else some (node,parent,h)

/-- One pass of the loop of `rb_insert_color`, for a red parent on the side `s` of the grandparent: the
node of the next pass, and the tree. -/
def insertPass (s : Side) (node parent gparent : Nat) (h : Nodes) : Option (Nat × Nodes) :=
  let uncle := (h.cell gparent).child s.flip
  if isBlack h uncle = false then
    uncle.map fun uncle =>
      let h := setColor h uncle .black
      let h := setColor h parent .black
      (gparent,setColor h gparent .red)
  else
    (straighten s node parent h).bind fun (node,parent,h) =>
      let h := setColor h parent .black
      let h := setColor h gparent .red
      (rotate s.flip gparent h).map fun h => (node,h)

def insertLoop : Nat → Nat → Nodes → Option Nodes
  | 0, _, _ => none
  | n+1, node, h =>
    match (h.cell node).parent with
    | none => some h
    | some parent =>
      if (h.cell parent).tag = .red then do
        let gparent ← (h.cell parent).parent
        let s := if (h.cell gparent).left = some parent then Side.left else .right
        let (node,h) ← insertPass s node parent gparent h
        insertLoop n node h
      else some h

variable {n node : Nat} {h h' : Nodes}

lemma insertLoop_mono (hrun : insertLoop n node h = some h') : insertLoop (n+1) node h = some h' := by
  induction n generalizing node h with
  | zero => cases hrun
  | succ n ih =>
    rw [insertLoop] at hrun ⊢
    rcases hp : (h.cell node).parent with _ | parent
    · rwa [hp] at hrun
    rw [hp] at hrun
    dsimp only at hrun ⊢
    split at hrun
    · rename_i hred
      rw [if_pos hred]
      obtain ⟨gparent,hg,hrun⟩ := bind_eq_some_iff.mp hrun
      obtain ⟨⟨next,h1⟩,hpass,hrun⟩ := bind_eq_some_iff.mp hrun
      refine bind_eq_some_iff.mpr ⟨gparent,hg,?_⟩
      exact bind_eq_some_iff.mpr ⟨(next,h1),hpass,ih hrun⟩
    rename_i hblack
    rwa [if_neg hblack]

def rbInsertColor (fuel node : Nat) (h : Nodes) : Option Nodes := do
  let h ← insertLoop fuel node h
  let root ← h.root
  pure (setColor h root .black)

inductive ErasePass
  | next (node : Nat) (parent : Option Nat) (h : Nodes)
  | done (h : Nodes)

/-- A red sibling comes up, so that the node gets a black one: the sibling and the tree. -/
def liftSibling (s : Side) (parent other : Nat) (h : Nodes) : Option (Nat × Nodes) :=
  if (h.cell other).tag = .red then
    let h := setColor h other .black
    let h := setColor h parent .red
    (rotate s parent h).bind fun h => ((h.cell parent).child s.flip).map fun other => (other,h)
  else some (other,h)

/-- If the red child of the sibling is the one beside the node, the sibling is turned: the sibling and
the tree. -/
def turnSibling (s : Side) (parent other : Nat) (h : Nodes) : Option (Nat × Nodes) :=
  if isBlack h ((h.cell other).child s.flip) then
    ((h.cell other).child s).bind fun inner =>
      let h := setColor h inner .black
      let h := setColor h other .red
      (rotate s.flip other h).bind fun h => ((h.cell parent).child s.flip).map fun other => (other,h)
  else some (other,h)

def settle (s : Side) (parent other : Nat) (h : Nodes) : Option ErasePass :=
  if isBlack h (h.cell other).left && isBlack h (h.cell other).right then
    let h := setColor h other .red
    some (.next parent (h.cell parent).parent h)
  else
    (turnSibling s parent other h).bind fun (other,h) =>
      let h := setColor h other (h.cell parent).tag
      let h := setColor h parent .black
      ((h.cell other).child s.flip).bind fun outer =>
        (rotate s parent (setColor h outer .black)).map .done

/-- One pass of the loop of `__rb_erase_color`, for a node on the side `s` of its parent. -/
def erasePass (s : Side) (parent : Nat) (h : Nodes) : Option ErasePass :=
  ((h.cell parent).child s.flip).bind fun other =>
    (liftSibling s parent other h).bind fun (other,h) => settle s parent other h

def blacken (node : Option Nat) (h : Nodes) : Nodes :=
  match node with
  | none => h
  | some x => setColor h x .black

def rbEraseColor : Nat → Option Nat → Option Nat → Nodes → Option Nodes
  | 0, _, _, _ => none
  | n+1, node, parent, h =>
    if isBlack h node = true ∧ node ≠ h.root then do
      let p ← parent
      let s := if (h.cell p).left = node then Side.left else .right
      let pass ← erasePass s p h
      match pass with
      | .next node parent h => rbEraseColor n (some node) parent h
      | .done h => some (blacken h.root h)
    else some (blacken node h)

lemma rbEraseColor_mono {node parent : Option Nat} (hrun : rbEraseColor n node parent h = some h') :
    rbEraseColor (n+1) node parent h = some h' := by
  induction n generalizing node parent h with
  | zero => cases hrun
  | succ n ih =>
    rw [rbEraseColor] at hrun ⊢
    split at hrun
    · rename_i hcond
      rw [if_pos hcond]
      obtain ⟨p,hp,hrun⟩ := bind_eq_some_iff.mp hrun
      obtain ⟨pass,hpass,hrun⟩ := bind_eq_some_iff.mp hrun
      refine bind_eq_some_iff.mpr ⟨p,hp,bind_eq_some_iff.mpr ⟨pass,hpass,?_⟩⟩
      cases pass with
      | next node parent h1 => exact ih hrun
      | done h1 => exact hrun
    rename_i hcond
    rwa [if_neg hcond]

def leftmost : Nat → Nat → Nodes → Option Nat
  | 0, _, _ => none
  | n+1, node, h =>
    match (h.cell node).left with
    | none => some node
    | some left => leftmost n left h

lemma leftmost_mono {x : Nat} (hrun : leftmost n node h = some x) : leftmost (n+1) node h = some x := by
  induction n generalizing node with
  | zero => cases hrun
  | succ n ih =>
    rw [leftmost] at hrun ⊢
    cases hl : (h.cell node).left with
    | none => rwa [hl] at hrun
    | some left =>
      rw [hl] at hrun
      exact ih hrun

def eraseOne (fuel node : Nat) (child : Option Nat) (h : Nodes) : Option Nodes :=
  let parent := (h.cell node).parent
  let color := (h.cell node).tag
  let h := h.setParentOf child parent
  let h := h.replaceChild .left parent (some node) child
  if color = .black then rbEraseColor fuel child parent h else some h

/-- Let a node without a left child take the place of another node, from below it: its child, the
node that has lost one below it, and its colour. -/
def takePlace (old node : Nat) (h : Nodes) : Option (Option Nat × Nat × Color × Nodes) := do
  let h := h.replaceChild .left (h.cell old).parent (some old) (some node)
  let child := (h.cell node).right
  let parent ← (h.cell node).parent
  let color := (h.cell node).tag
  let (parent,h) :=
    if parent = old then (node,h)
    else
      let h := h.setParentOf child (some parent)
      let h := h.modify parent (·.setChild .left child)
      let h := h.modify node (·.setChild .right (h.cell old).right)
      (parent,h.setParentOf (h.cell old).right (some node))
  let h := h.modify node fun c => {c with parent := (h.cell old).parent, tag := (h.cell old).tag}
  let h := h.modify node (·.setChild .left (h.cell old).left)
  pure (child,parent,color,h.setParentOf (h.cell old).left (some node))

def eraseTwo (fuel old right : Nat) (h : Nodes) : Option Nodes := do
  let node ← leftmost fuel right h
  let (child,parent,color,h) ← takePlace old node h
  if color = .black then rbEraseColor fuel child (some parent) h else some h

def rbErase (fuel node : Nat) (h : Nodes) : Option Nodes :=
  match (h.cell node).left, (h.cell node).right with
  | none, right => eraseOne fuel node right h
  | left, none => eraseOne fuel node left h
  | some _, some right => eraseTwo fuel node right h

lemma eraseOne_mono {child : Option Nat} (hrun : eraseOne n node child h = some h') :
    eraseOne (n+1) node child h = some h' := by
  unfold eraseOne at hrun ⊢
  dsimp only at hrun ⊢
  split at hrun
  · rename_i hblack
    rw [if_pos hblack]
    exact rbEraseColor_mono hrun
  rename_i hred
  rwa [if_neg hred]

lemma rbErase_mono (hrun : rbErase n node h = some h') : rbErase (n+1) node h = some h' := by
  unfold rbErase at hrun ⊢
  split at hrun
  · exact eraseOne_mono hrun
  · exact eraseOne_mono hrun
  unfold eraseTwo at hrun ⊢
  obtain ⟨y,hwalk,hrun⟩ := bind_eq_some_iff.mp hrun
  obtain ⟨⟨child,parent,color,h1⟩,htake,hrun⟩ := bind_eq_some_iff.mp hrun
  refine bind_eq_some_iff.mpr ⟨y,leftmost_mono hwalk,?_⟩
  refine bind_eq_some_iff.mpr ⟨_,htake,?_⟩
  dsimp only at hrun ⊢
  split at hrun
  · rename_i hblack
    rw [if_pos hblack]
    exact rbEraseColor_mono hrun
  rename_i hred
  rwa [if_neg hred]

open List

open ParentTree Heap

abbrev Sub := Tree Nat Color

abbrev Path := List (Frame Nat Color)

variable {h h' : Nodes} {s : Side} {c c' : Color} {a b d t : Sub} {x y : Nat} {fs : Path}

lemma Stored.setColor (hs : Stored h (plug (Tree.fork s c a x b) fs)) (c' : Color) :
    Stored (setColor h x c') (plug (Tree.fork s c' a x b) fs) := Stored.setTag hs

lemma rotate_stored (hs : Stored h (plug (Tree.fork s c a x (Tree.fork s c' b y d)) fs)) :
    ∃ h', rotate s x h = some h' ∧ Stored h' (plug (Tree.fork s c' (Tree.fork s c a x b) y d) fs) := by
  have hx := hs.cell_eq
  rw [sep_stored_plug,Tree.root_fork] at hs
  have hsplit := sep_fork.mp hs
  have hxfs : x ∉ beside fs := ((hsplit.pick [_,_,_]).pick [_]).notMem
  have hpieces := sep_fork.mp (hsplit.pick [_,_])
  have hy := hpieces.cell_eq
  rw [Tree.root_fork] at hx hpieces
  unfold rotate
  rw [hx,Cell.fork_child_flip,Cell.fork_parent]
  dsimp only [Option.bind_eq_bind,Option.bind_some,Option.pure_def]
  rw [hy,Cell.fork_child]
  refine ⟨_,rfl,?_⟩
  -- the writes one after the other: each touches one piece
  have h1 := (hpieces.pick [_,_,_]).modify (·.setChild s.flip b.root)
  have h2 := (h1.pick [_,_]).setParentOf (some x)
  have h3 := ((h2.pick [_,_]).modify (·.setChild s (some x))).modify (·.setParent (above none fs))
  have h4 := (h3.pick [_,_,_,_,_]).replaceChild hxfs s (some y)
  have h5 := (h4.pick [_,_,_]).modify (·.setParent (some y))
  rw [Cell.fork_setChild_flip,Cell.fork_setParent,Cell.fork_setChild,Cell.fork_setParent] at h5
  have hlow := sep_fork.mpr (((h5.pick [_,_,_]).pick [_,_,_,_,_]).pick [_,_])
  rw [sep_stored_plug,Tree.root_fork]
  refine sep_fork.mpr ?_
  rw [Tree.root_fork]
  exact ((hlow.pick [_,_,_]).pick [_]).pick [_,_,_]

def linkOf : Path → Link
  | [] => .root
  | f::_ => .child f.key f.side

lemma rbLinkNode_stored (hs : Stored h (plug .nil fs)) (hx : x ∉ beside fs) :
    Stored (rbLinkNode x (linkOf fs) h) (plug (.node .red .nil x .nil) fs) := by
  have hparent : (linkOf fs).parent = above none fs := by cases fs <;> rfl
  have hnew := (sep_stored_plug.mp hs).alloc (x := x) (by simpa [Piece.names,Tree.inorder] using hx)
    fun _ => ⟨(linkOf fs).parent,.red,none,none⟩
  -- the place has no node, and neither have the places below the new one
  have hleaf := Sep.replace (m := [.tree _ .nil]) (n := [.tree (some x) .nil,.tree (some x) .nil])
    (hnew.pick [_]) (fun _ => by simp [Piece.In,Holds]) (List.Perm.refl _)
  have hnode := (sep_fork (s := .left) (a := .nil) (b := .nil)).mpr (hparent ▸ hleaf.pick [_,_])
  rw [sep_stored_plug]
  rcases fs with _ | ⟨f,fs⟩
  · exact Sep.pick [_] ((hnode.pick [_]).write trivial rfl (fun _ _ => rfl) rfl)
  have hset := (sep_frame.mp (hnode.pick [_])).modify (·.setChild f.side (some x))
  rw [Cell.fork_setChild] at hset
  exact (sep_frame.mpr hset).pick [_]

lemma splice_stored (hs : Stored h (plug (Tree.fork s c .nil x t) fs)) :
    Stored ((h.setParentOf t.root (above none fs)).replaceChild .left (above none fs) (some x) t.root)
      (plug t fs) := by
  rw [sep_stored_plug,Tree.root_fork] at hs
  have hsplit := sep_fork.mp hs
  have hxfs : x ∉ beside fs := ((hsplit.pick [_,_,_]).pick [_]).notMem
  have hchild := (hsplit.pick [_,_]).setParentOf (above none fs)
  have hpath := (hchild.pick [_,_,_]).replaceChild hxfs .left t.root
  exact sep_stored_plug.mpr (((hpath.pick [_,_]).drop.pick [_,_]).drop.pick [_])

lemma leftmost_spec {p : Option Nat} {ls : Path} {r : Sub}
    (ht : Holds h.cell p (plug (.node c .nil y r) ls)) (hleft : ∀ f ∈ ls, f.side = Side.left) {z : Nat}
    (hz : top (some y) ls = some z) {fuel : Nat} (hfuel : ls.length < fuel) : leftmost fuel z h = some y := by
  induction ls using reverseRecOn generalizing p z fuel with
  | nil =>
    obtain ⟨n,rfl⟩ : ∃ n, fuel = n+1 := ⟨fuel-1,by omega⟩
    obtain rfl := some.inj hz
    rw [leftmost,ht.1]
    rfl
  | append_singleton ls f ih =>
    obtain ⟨n,rfl⟩ : ∃ n, fuel = n+1 := ⟨fuel-1,by omega⟩
    rw [plug_append,plug,plug,hleft f (mem_append_right _ mem_cons_self)] at ht
    obtain rfl := some.inj ((top_append_singleton _ ls f).symm.trans hz)
    obtain ⟨w,hw⟩ := exists_top y ls
    have hf := ht.1
    rw [root_plug,Tree.root,hw] at hf
    rw [leftmost,hf]
    refine ih ht.2.1 (fun g hg => hleft g (mem_append_left _ hg)) hw ?_
    rw [length_append,length_singleton] at hfuel
    omega

/-- The last writes of a node that takes the place of `x`, with its right subtree in place. -/
def adopt (h : Nodes) (x y : Nat) : Nodes :=
  let h := h.modify y fun c => {c with parent := (h.cell x).parent, tag := (h.cell x).tag}
  let h := h.modify y (·.setChild .left (h.cell x).left)
  h.setParentOf (h.cell x).left (some y)

lemma adopt_stored {l r : Sub} {p right : Option Nat} {k : Cell Nat Color}
    (hs : Sep h (top (some y) fs) [.cell x ⟨above none fs,c,l.root,right⟩,.cell y k,.tree p l,
      .tree (some y) r,.path none (some y) fs]) (hy : k.right = r.root) :
    Stored (adopt h x y) (plug (.node c l y r) fs) := by
  have hxy : x ≠ y := fun heq => hs.notMem (mem_singleton.mpr heq)
  have hcell := ((hs.pick [_]).modify fun c' => {c' with parent := above none fs, tag := c}).modify
    (·.setChild .left l.root)
  have hleft := (hcell.pick [_,_]).setParentOf (some y)
  have hnode : ({k with parent := above none fs, tag := c} : Cell Nat Color).setChild .left l.root =
      Cell.fork .left (above none fs) c l.root r.root := by
    rw [← hy]
    rfl
  rw [hnode] at hleft
  unfold adopt
  simp only [modify_of_ne hxy,hs.cell_eq]
  exact sep_stored_plug.mpr ((sep_fork (s := .left)).mpr ((hleft.pick [_,_]).drop.pick [_]))

/-- The right child has no left child, and takes the place of its parent. -/
theorem takePlace_child {l r : Sub} (hs : Stored h (plug (.node c l x (.node c' .nil y r)) fs)) :
    ∃ h', takePlace x y h = some (r.root,y,c',h') ∧ Stored h' (plug (.node c l y r) fs) := by
  have hx := Stored.cell_eq (s := .left) hs
  have hsplit := (sep_fork (s := .left)).mp (sep_stored_plug.mp hs)
  have hxfs : x ∉ beside fs := ((hsplit.pick [_,_,_]).pick [_]).notMem
  have hpieces := (sep_fork (s := .left)).mp (hsplit.pick [_,_])
  have hpath := (hpieces.pick [_,_,_,_,_]).replaceChild hxfs .left (some y)
  have hy := (hpath.pick [_]).cell_eq
  unfold takePlace
  rw [hx]
  dsimp only [Option.bind_eq_bind,Option.pure_def,Cell.fork] at hy ⊢
  rw [hy]
  dsimp only [Option.bind_some]
  rw [if_pos rfl]
  have hrest := (hpath.pick [_,_]).drop
  exact ⟨_,rfl,adopt_stored ((((hrest.pick [_,_]).pick [_,_,_,_]).pick [_,_,_]).pick [_,_,_,_]) rfl⟩

/-- The first node of the right subtree, with a parent in it, takes the place of a node. -/
theorem takePlace_deep {l r : Sub} {f : Frame Nat Color} {ls : Path} (hf : f.side = .left)
    (hs : Stored h (plug (.node c l x (plug (.node c' .nil y r) (f::ls))) fs)) :
    ∃ h', takePlace x y h = some (r.root,f.key,c',h') ∧ Stored h' (plug (.node c l y (plug r (f::ls))) fs) := by
  obtain ⟨side,tag,z,u⟩ := f
  obtain rfl : side = Side.left := hf
  have hx := Stored.cell_eq (s := .left) hs
  have hsplit := (sep_fork (s := .left)).mp (sep_stored_plug.mp hs)
  have hxfs : x ∉ beside fs := ((hsplit.pick [_,_,_]).pick [_]).notMem
  have hright := (sep_fork (s := .left)).mp (sep_plug.mp (hsplit.pick [_,_]))
  have hpieces := sep_frame.mp (hright.pick [_,_,_])
  -- the pointer to `x` now points to `y`
  have hpath := (hpieces.pick [_,_,_,_,_,_,_,_]).replaceChild hxfs .left (some y)
  have hy := (hpath.pick [_,_,_,_]).cell_eq
  have hxz : x ≠ z := fun heq =>
    ((hpath.pick [_]).pick [_,_,_,_,_,_,_]).notMem (mem_singleton.mpr heq)
  -- `y` leaves its place to its child
  have hchild := (hpath.pick [_,_,_,_,_,_]).setParentOf (some z)
  have hlink := (hchild.pick [_,_]).modify (·.setChild .left r.root)
  have hframe := sep_frame.mpr (((hlink.pick [_,_,_,_]).pick [_,_,_,_]).pick [_,_])
  have hrest : Sep _ _ (.tree (some x) (plug r (⟨.left,tag,z,u⟩::ls))::_) :=
    sep_plug.mpr (hframe.pick [_])
  have hroot : (plug (.node c' .nil y r) (⟨.left,tag,z,u⟩::ls)).root = (plug r (⟨.left,tag,z,u⟩::ls)).root := by
    rw [root_plug,root_plug]
    rfl
  -- the rest of the right subtree moves under `y`
  have hnode := (hrest.pick [_,_]).modify (·.setChild .right (plug r (⟨.left,tag,z,u⟩::ls)).root)
  have hmoved := (hnode.pick [_]).setParentOf (some y)
  unfold takePlace
  rw [hx]
  dsimp only [Option.bind_eq_bind,Option.pure_def,Cell.fork] at hy ⊢
  generalize h.replaceChild .left (above none fs) (some x) (some y) = h1 at *
  rw [hy]
  dsimp only [Option.bind_some,above]
  rw [if_neg hxz.symm]
  refine ⟨_,rfl,?_⟩
  generalize (h1.setParentOf r.root (some z)).modify z (·.setChild .left r.root) = h3 at *
  have hx1 : (h3.cell x).right = _ :=
    (congrArg Cell.right (hrest.pick [_,_,_,_]).cell_eq).trans hroot
  have hx2 : ((h3.modify y (·.setChild .right _)).cell x).right = _ :=
    (congrArg Cell.right (hnode.pick [_,_,_,_]).cell_eq).trans hroot
  rw [hx1,hx2]
  have hlast := (hmoved.pick [_,_,_]).drop
  exact adopt_stored (((hlast.pick [_,_,_,_]).pick [_,_]).pick [_,_,_,_]) rfl

end LinuxToradex.Rbtree
