import LinuxToradex.Rbtree.Tree

/-! Inserting keeps the colours. The red-black conditions on a tree and on the path above a place. -/
namespace LinuxToradex.Rbtree
open List Option

open ParentTree Heap Color

variable {u sib : Sub} {p g fuel : Nat}

/-- No red node has a red child, and every path down to a null pointer has `n` black nodes. An empty
tree counts as black. -/
inductive Balanced : Sub → Color → Nat → Prop
  | nil : Balanced .nil black 0
  | redNode {l r : Sub} {x n : Nat} : Balanced l black n → Balanced r black n →
      Balanced (.node red l x r) red n
  | blackNode {l r : Sub} {x n : Nat} {cl cr : Color} : Balanced l cl n → Balanced r cr n →
      Balanced (.node black l x r) black (n+1)

/-- A tree of the colour `c`, with `n` black nodes on its paths, makes the tree at the top of the path
balanced, with a black root. -/
inductive Fits : Path → Color → Nat → Prop
  | top (n : Nat) : Fits [] black n
  | underRed {f : Frame Nat Color} {fs : Path} {n : Nat} : f.tag = red → Balanced f.sibling black n →
      Fits fs red n → Fits (f::fs) black n
  | underBlack {f : Frame Nat Color} {fs : Path} {n : Nat} {c c' : Color} : f.tag = black →
      Balanced f.sibling c' n → Fits fs black (n+1) → Fits (f::fs) c n

variable {h : Nodes} {s : Side} {c c' : Color} {a b t : Sub} {x n m : Nat} {fs : Path}
  {f : Frame Nat Color}

lemma balanced_fork_red : Balanced (Tree.fork s red a x b) c n ↔
    c = red ∧ Balanced a black n ∧ Balanced b black n := by
  constructor
  · intro h
    cases s with
    | left =>
      cases h with
      | redNode ha hb => exact ⟨rfl,ha,hb⟩
    | right =>
      cases h with
      | redNode hb ha => exact ⟨rfl,ha,hb⟩
  rintro ⟨rfl,ha,hb⟩
  cases s with
  | left => exact Balanced.redNode ha hb
  | right => exact Balanced.redNode hb ha

lemma balanced_fork_black : Balanced (Tree.fork s black a x b) c n ↔
    c = black ∧ ∃ m ca cb, n = m+1 ∧ Balanced a ca m ∧ Balanced b cb m := by
  constructor
  · intro h
    cases s with
    | left =>
      cases h with
      | blackNode ha hb => exact ⟨rfl,_,_,_,rfl,ha,hb⟩
    | right =>
      cases h with
      | blackNode hb ha => exact ⟨rfl,_,_,_,rfl,ha,hb⟩
  rintro ⟨rfl,m,ca,cb,rfl,ha,hb⟩
  cases s with
  | left => exact Balanced.blackNode ha hb
  | right => exact Balanced.blackNode hb ha

lemma Balanced.mkRed (ha : Balanced a black n) (hb : Balanced b black n) :
    Balanced (Tree.fork s red a x b) red n := balanced_fork_red.mpr ⟨rfl,ha,hb⟩

lemma Balanced.mkBlack (ha : Balanced a c n) (hb : Balanced b c' n) :
    Balanced (Tree.fork s black a x b) black (n+1) :=
  balanced_fork_black.mpr ⟨rfl,n,c,c',rfl,ha,hb⟩

lemma Balanced.tag_eq (h : Balanced (Tree.fork s c' a x b) c n) : c' = c := by
  cases c' with
  | red => exact (balanced_fork_red.mp h).1.symm
  | black => exact (balanced_fork_black.mp h).1.symm

lemma Balanced.plug (ht : Balanced t c n) (hfs : Fits fs c n) : ∃ m, Balanced (plug t fs) black m := by
  induction hfs generalizing t with
  | top n => exact ⟨n,ht⟩
  | @underRed f fs n htag hsib _ ih =>
    rw [ParentTree.plug,htag]
    exact ih (ht.mkRed hsib)
  | @underBlack f fs n c c' htag hsib _ ih =>
    rw [ParentTree.plug,htag]
    exact ih (ht.mkBlack hsib)

lemma Balanced.of_plug (h : Balanced (ParentTree.plug t fs) black m) : ∃ c n, Balanced t c n ∧ Fits fs c n := by
  induction fs generalizing t with
  | nil => exact ⟨black,m,h,Fits.top m⟩
  | cons f fs ih =>
    obtain ⟨c,n,ht,hfs⟩ := ih h
    rcases hf : f.tag with _ | _
    · rw [hf,balanced_fork_red] at ht
      obtain ⟨rfl,ht,hsib⟩ := ht
      exact ⟨black,n,ht,Fits.underRed hf hsib hfs⟩
    rw [hf,balanced_fork_black] at ht
    obtain ⟨rfl,k,ca,cb,rfl,ht,hsib⟩ := ht
    exact ⟨ca,k,ht,Fits.underBlack hf hsib hfs⟩

lemma Fits.of_red (h : Fits fs red n) : ∃ f gs c', fs = f::gs ∧ f.tag = black ∧
    Balanced f.sibling c' n ∧ Fits gs black (n+1) := by
  cases h with
  | @underBlack f gs _ _ c' htag hsib hgs => exact ⟨f,gs,c',rfl,htag,hsib,hgs⟩

lemma Fits.to_black (h : Fits fs c n) : Fits fs black n := by
  cases c with
  | black => exact h
  | red =>
    obtain ⟨f,gs,c',rfl,htag,hsib,hgs⟩ := h.of_red
    exact Fits.underBlack htag hsib hgs

def BalancedBelow (t : Sub) (n : Nat) : Prop :=
  ∃ s c a x b, t = Tree.fork s c a x b ∧ Balanced (Tree.fork s black a x b) black n

lemma Balanced.balancedBelow (h : Balanced t black n) (hne : t ≠ .nil) : BalancedBelow t n := by
  rcases t.eq_nil_or_fork .left with rfl | ⟨c,a,x,b,rfl⟩
  · exact absurd rfl hne
  obtain rfl := h.tag_eq
  exact ⟨.left,black,a,x,b,rfl,h⟩

lemma plug_ne_nil (t : Sub) (f : Frame Nat Color) (fs : Path) : plug t (f::fs) ≠ .nil := by
  intro heq
  have hroot := root_plug t (f::fs)
  obtain ⟨y,hy⟩ := exists_top f.key fs
  rw [heq] at hroot
  exact absurd (hroot.trans hy) (by simp [Tree.root])

lemma side_eq (hs : Stored h (plug t (f::fs))) (hne : t.root ≠ f.sibling.root) :
    (if (h.cell f.key).left = t.root then Side.left else .right) = f.side := by
  rw [hs.frame_eq]
  cases f.side with
  | left => exact if_pos rfl
  | right => exact if_neg hne.symm

lemma root_ne_sibling (hs : Stored h (plug t (f::fs))) (hx : t.root = some x) : t.root ≠ f.sibling.root := by
  intro heq
  have hnodup := (stored_plug.mp hs).2.2.2
  have hdisj := (nodup_append.mp hnodup).2.2
  refine hdisj x (Tree.root_mem hx) x ?_ rfl
  rw [beside]
  exact mem_cons_of_mem _ (mem_append_left _ (Tree.root_mem (heq.symm.trans hx)))

lemma insertPass_recolour {u : Nat} {s : Side} {ua ub : Sub} {s1 : Side}
    (hs : Stored h (plug t (⟨s1,red,p,sib⟩::⟨s,black,g,Tree.fork s.flip red ua u ub⟩::fs))) :
    ∃ h', insertPass s x p g h = some (g,h') ∧
      Stored h' (plug (Tree.fork s red (Tree.fork s1 black t p sib) g (Tree.fork s.flip black ua u ub)) fs) := by
  have hg := Stored.frame_eq (t := Tree.fork s1 red t p sib) hs
  have hfocus : Stored h (plug (Tree.fork s.flip red ua u ub) (⟨s.flip,black,g,Tree.fork s1 red t p sib⟩::fs)) := by
    rw [plug,Tree.fork_flip]
    exact hs
  have hu : h.cell u = Cell.fork s.flip (some g) red ua.root ub.root := hfocus.cell_eq
  unfold insertPass
  have hblack : isBlack h (some u) = false := by
    rw [isBlack,hu,Cell.fork_tag]
    rfl
  rw [hg,Cell.fork_child_flip,Tree.root_fork]
  rw [if_pos hblack]
  refine ⟨_,rfl,?_⟩
  have h1 := Stored.setColor hfocus black
  rw [plug,Tree.fork_flip] at h1
  have h2 : Stored (setColor (setColor h u black) p black)
      (plug (Tree.fork s black (Tree.fork s1 black t p sib) g (Tree.fork s.flip black ua u ub)) fs) :=
    Stored.setColor (show Stored _ (plug (Tree.fork s1 red t p sib) (⟨s,black,g,_⟩::fs)) from h1) black
  exact Stored.setColor h2 red

lemma rotate_up {r : Sub} (hs : Stored h (plug (Tree.fork s red t p r) (⟨s,black,g,u⟩::fs))) :
    ∃ h', rotate s.flip g (setColor (setColor h p black) g red) = some h' ∧
      Stored h' (plug (Tree.fork s black t p (Tree.fork s red r g u)) fs) := by
  have h1 := Stored.setColor hs black
  have h2 : Stored (setColor (setColor h p black) g red) (plug (Tree.fork s red (Tree.fork s black t p r) g u) fs) :=
    Stored.setColor (c := black) (show Stored _ (plug (Tree.fork s black _ g u) fs) from h1) red
  rw [← Tree.fork_flip,← Tree.fork_flip (a := r)] at h2
  obtain ⟨h',hrot,hs'⟩ := rotate_stored h2
  refine ⟨h',hrot,?_⟩
  rwa [Tree.fork_flip,Tree.fork_flip] at hs'

lemma insertPass_outer (hx : t.root = some x) (hu : isBlack h u.root = true)
    (hs : Stored h (plug t (⟨s,red,p,sib⟩::⟨s,black,g,u⟩::fs))) : ∃ h', insertPass s x p g h = some (x,h') ∧
      Stored h' (plug t (⟨s,black,p,Tree.fork s red sib g u⟩::fs)) := by
  have hg := Stored.frame_eq (t := Tree.fork s red t p sib) hs
  have hp := hs.frame_eq
  have hne := root_ne_sibling hs hx
  obtain ⟨h',hrot,hs'⟩ := rotate_up (show Stored h (plug (Tree.fork s red t p sib) (_::fs)) from hs)
  refine ⟨h',?_,hs'⟩
  have hstraight : straighten s x p h = some (x,p,h) := by
    rw [straighten,hp,Cell.fork_child_flip,if_neg fun heq => hne (hx.trans heq.symm)]
  unfold insertPass
  rw [hg,Cell.fork_child_flip]
  rw [if_neg (by rw [hu]; decide),hstraight]
  dsimp only [bind_some]
  rw [hrot]
  rfl

lemma insertPass_inner (hu : isBlack h u.root = true)
    (hs : Stored h (plug (Tree.fork s red a x b) (⟨s.flip,red,p,sib⟩::⟨s,black,g,u⟩::fs))) :
    ∃ h', insertPass s x p g h = some (p,h') ∧
      Stored h' (plug (Tree.fork s red sib p a) (⟨s,black,x,Tree.fork s red b g u⟩::fs)) := by
  have hp := hs.frame_eq
  have hg := Stored.frame_eq (t := Tree.fork s.flip red (Tree.fork s red a x b) p sib) hs
  have hs0 : Stored h (plug (Tree.fork s red sib p (Tree.fork s red a x b)) (⟨s,black,g,u⟩::fs)) := by
    rw [← Tree.fork_flip]
    exact hs
  obtain ⟨h1,hrot,hs1⟩ := rotate_stored hs0
  obtain ⟨h',hrot',hs'⟩ := rotate_up hs1
  refine ⟨h',?_,hs'⟩
  have hstraight : straighten s x p h = some (p,x,h1) := by
    rw [straighten,hp,Cell.fork_child,if_pos Tree.root_fork,hrot]
    rfl
  unfold insertPass
  rw [hg,Cell.fork_child_flip]
  rw [if_neg (by rw [hu]; decide),hstraight]
  dsimp only [bind_some]
  rw [hrot']
  rfl

lemma isBlack_of_balanced {p : Option Nat} (hu : Holds h.cell p u) (hbal : Balanced u c n) :
    isBlack h u.root = decide (c = black) := by
  rcases u.eq_nil_or_fork .left with rfl | ⟨c',a,y,b,rfl⟩
  · cases hbal
    rfl
  · rw [Tree.root_fork,isBlack,(holds_fork.mp hu).1,Cell.fork_tag,hbal.tag_eq]

lemma insertLoop_stop {k : Nat} (hs : Stored h (plug (Tree.fork s c a x b) (f::fs)))
    (htag : f.tag = black) : insertLoop (k+1) x h = some h := by
  unfold insertLoop
  rw [hs.cell_eq,Cell.fork_parent]
  dsimp only [above]
  rw [hs.frame_eq,Cell.fork_tag,htag,if_neg (by decide)]

/-- The loop ends with a tree of the same nodes in the same order that is balanced once its root is
black. -/
theorem insertLoop_spec (hfuel : fs.length < fuel) (ha : Balanced a black n)
    (hb : Balanced b black n) (hfs : Fits fs black n) (hs : Stored h (plug (Tree.fork s red a x b) fs)) :
    ∃ h' t m, insertLoop fuel x h = some h' ∧ Stored h' t ∧ BalancedBelow t m ∧
      t.inorder = (plug (Tree.fork s red a x b) fs).inorder := by
  induction fuel generalizing h s a x b fs n with
  | zero => cases hfuel
  | succ fuel ih =>
    have hx := hs.cell_eq
    unfold insertLoop
    rw [hx,Cell.fork_parent]
    cases hfs with
    | top =>
      exact ⟨h,_,n+1,rfl,hs,⟨s,red,a,x,b,rfl,ha.mkBlack hb⟩,rfl⟩
    | @underBlack f fs _ _ c' htag hsib hgs =>
      have hf := hs.frame_eq
      dsimp only [above]
      rw [hf,Cell.fork_tag,htag,if_neg (by decide)]
      obtain ⟨m,hbal⟩ := (ha.mkRed hb).plug (Fits.underBlack htag hsib hgs)
      exact ⟨h,_,m,rfl,hs,hbal.balancedBelow (plug_ne_nil _ _ _),rfl⟩
    | @underRed f fs _ htag hsib hgs =>
      -- the parent is red, and so has a black parent
      obtain ⟨g,gs,cu,rfl,hgtag,hu,hup⟩ := hgs.of_red
      obtain ⟨fside,ftag,p,sib⟩ := f
      obtain ⟨gside,gtag,q,u⟩ := g
      subst htag hgtag
      have hf := hs.frame_eq
      have hs1 : Stored h (plug (Tree.fork fside red (Tree.fork s red a x b) p sib) (⟨gside,black,q,u⟩::gs)) := hs
      have hside := side_eq hs1 (root_ne_sibling hs1 Tree.root_fork)
      rw [Tree.root_fork] at hside
      dsimp only [above] at hside hf ⊢
      rw [hf,Cell.fork_tag,if_pos rfl,Cell.fork_parent]
      dsimp only [bind_eq_bind,bind_some]
      rw [hside]
      have hustored : Holds h.cell (some q) u := (stored_plug.mp hs1).2.1.2.1
      have hblack := isBlack_of_balanced hustored hu
      rw [length_cons,length_cons] at hfuel
      rcases cu with _ | _
      · rcases u.eq_nil_or_fork gside.flip with rfl | ⟨cu,ua,y,ub,rfl⟩
        · cases hu
        obtain rfl := hu.tag_eq
        obtain ⟨-,hua,hub⟩ := balanced_fork_red.mp hu
        obtain ⟨h',hpass,hs'⟩ := insertPass_recolour (x := x) hs
        rw [hpass]
        obtain ⟨h'',t,m,hloop,hst,hbal,hin⟩ :=
          ih (by omega) ((ha.mkRed hb).mkBlack hsib) (hua.mkBlack hub) hup hs'
        refine ⟨h'',t,m,hloop,hst,hbal,hin.trans ?_⟩
        refine inorder_plug_congr gs ?_
        cases gside <;> cases fside <;> rfl
      obtain ⟨k,rfl⟩ : ∃ k, fuel = k+1 := ⟨fuel-1,by omega⟩
      by_cases hsame : fside = gside
      · subst hsame
        obtain ⟨h',hpass,hs'⟩ := insertPass_outer Tree.root_fork hblack hs
        rw [hpass]
        obtain ⟨m,hbal⟩ := ((ha.mkRed hb).mkBlack (hsib.mkRed hu)).plug hup
        refine ⟨h',_,m,?_,hs',hbal.balancedBelow ?_,?_⟩
        · exact insertLoop_stop hs' rfl
        · exact plug_ne_nil (Tree.fork s red a x b) ⟨fside,black,p,Tree.fork fside red sib q u⟩ gs
        refine inorder_plug_congr gs ?_
        cases fside <;> simp [Tree.fork,Tree.inorder]
      have hflip : fside = gside.flip := by
        cases fside <;> cases gside <;> simp_all [Side.flip]
      subst hflip
      -- the node, seen from the side of its grandparent
      obtain ⟨a',b',hfork,ha',hb'⟩ : ∃ a' b', Tree.fork s red a x b = Tree.fork gside red a' x b' ∧
          Balanced a' black n ∧ Balanced b' black n := by
        by_cases hs' : s = gside
        · exact ⟨a,b,by rw [hs'],ha,hb⟩
        refine ⟨b,a,?_,hb,ha⟩
        rw [← Tree.fork_flip]
        congr 1
        cases s <;> cases gside <;> simp_all [Side.flip]
      rw [hfork] at hs ⊢
      obtain ⟨h',hpass,hs'⟩ := insertPass_inner hblack hs
      rw [hpass]
      obtain ⟨m,hbal⟩ := ((hsib.mkRed ha').mkBlack (hb'.mkRed hu)).plug hup
      refine ⟨h',_,m,?_,hs',hbal.balancedBelow ?_,?_⟩
      · exact insertLoop_stop hs' rfl
      · exact plug_ne_nil (Tree.fork gside red sib p a') ⟨gside,black,x,_⟩ gs
      refine inorder_plug_congr gs ?_
      cases gside <;> simp [Tree.fork,Tree.inorder,Side.flip]

/-- Linking a red node at the end of a path and restoring the colours: the tree is balanced, and the node
has been put in its place. -/
theorem rbInsertColor_spec (hfuel : fs.length < fuel) (hfs : Fits fs black 0)
    (hs : Stored h (plug .nil fs)) (hx : x ∉ beside fs) :
    ∃ h' t m, rbInsertColor fuel x (rbLinkNode x (linkOf fs) h) = some h' ∧ Stored h' t ∧
      Balanced t black m ∧ t.inorder = (plug (.node red .nil x .nil) fs).inorder := by
  have hlinked := rbLinkNode_stored hs hx
  obtain ⟨h1,t,m,hloop,hst,⟨s,c,a,y,b,rfl,hbal⟩,hin⟩ :=
    insertLoop_spec (s := .left) hfuel Balanced.nil Balanced.nil hfs hlinked
  have hst' : Stored h1 (plug (Tree.fork s c a y b) []) := hst
  refine ⟨setColor h1 y black,_,m,?_,Stored.setColor hst' black,hbal,?_⟩
  · unfold rbInsertColor
    rw [hloop]
    dsimp only [bind_eq_bind,bind_some]
    rw [hst.root,Tree.root_fork]
    rfl
  refine Eq.trans ?_ hin
  cases s <;> rfl

end LinuxToradex.Rbtree
