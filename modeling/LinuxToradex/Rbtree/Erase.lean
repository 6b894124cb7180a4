import LinuxToradex.Rbtree.Insert

/-! The loop of `__rb_erase_color` moves the one place whose paths lack a black node up, until it can be made
good. -/
namespace LinuxToradex.Rbtree
open List Option

open ParentTree Heap Color

variable {h : Nodes} {s : Side} {c c' : Color} {a b t : Sub} {x p o n m : Nat} {fs : Path}
  {f : Frame Nat Color}

def Lacks (t : Sub) (n : Nat) : Prop :=
  Balanced t black n ∨ ∃ s a x b, t = Tree.fork s red a x b ∧ Balanced (Tree.fork s black a x b) black (n+1)

lemma Balanced.lacks (ht : Balanced t c n) : Lacks t n := by
  cases c with
  | black => exact .inl ht
  | red =>
    rcases t.eq_nil_or_fork .left with rfl | ⟨c,a,x,b,rfl⟩
    · cases ht
    obtain rfl := ht.tag_eq
    obtain ⟨-,ha,hb⟩ := balanced_fork_red.mp ht
    exact .inr ⟨.left,a,x,b,rfl,ha.mkBlack hb⟩

lemma Balanced.exists_fork (ht : Balanced t c (n+1)) (s : Side) : ∃ a x b, t = Tree.fork s c a x b := by
  rcases t.eq_nil_or_fork s with rfl | ⟨c',a,x,b,rfl⟩
  · cases ht
  obtain rfl := ht.tag_eq
  exact ⟨a,x,b,rfl⟩

lemma plug_sibling (t u : Sub) (s : Side) (c : Color) (p : Nat) (fs : Path) :
    plug t (⟨s,c,p,u⟩::fs) = plug u (⟨s.flip,c,p,t⟩::fs) := by
  rw [plug,plug,Tree.fork_flip]

lemma Stored.sibling {u : Sub} (hs : Stored h (plug t (⟨s,c,p,u⟩::fs))) : Stored h (plug u (⟨s.flip,c,p,t⟩::fs)) := by
  rwa [← plug_sibling]

lemma liftSibling_red (hs : Stored h (plug t (⟨s,c,p,Tree.fork s red a o b⟩::fs))) {x : Nat}
    (hx : a.root = some x) : ∃ h', liftSibling s p o h = some (x,h') ∧
      Stored h' (plug t (⟨s,red,p,a⟩::⟨s,black,o,b⟩::fs)) := by
  have hsib := Stored.sibling hs
  have h1 := Stored.setColor hsib black
  rw [← plug_sibling] at h1
  have h2 : Stored (setColor (setColor h o black) p red) (plug (Tree.fork s red t p (Tree.fork s black a o b)) fs) :=
    Stored.setColor (show Stored _ (plug (Tree.fork s c t p _) fs) from h1) red
  obtain ⟨h',hrot,hs'⟩ := rotate_stored h2
  have hp : h'.cell p = _ := Stored.cell_eq
    (show Stored h' (plug (Tree.fork s red t p a) (⟨s,black,o,b⟩::fs)) from hs')
  refine ⟨h',?_,hs'⟩
  unfold liftSibling
  rw [hsib.cell_eq,Cell.fork_tag,if_pos rfl]
  dsimp only
  rw [hrot]
  dsimp only [bind_some]
  rw [hp,Cell.fork_child_flip,hx]
  rfl

lemma liftSibling_black (hs : Stored h (plug t (⟨s,c,p,Tree.fork s black a o b⟩::fs))) :
    liftSibling s p o h = some (o,h) := by
  rw [plug_sibling] at hs
  rw [liftSibling,hs.cell_eq,Cell.fork_tag,if_neg (by decide)]

lemma turnSibling_inner {i : Nat} {ia ib : Sub}
    (hs : Stored h (plug t (⟨s,c,p,Tree.fork s black (Tree.fork s red ia i ib) o b⟩::fs)))
    (hb : isBlack h b.root = true) : ∃ h', turnSibling s p o h = some (i,h') ∧
      Stored h' (plug t (⟨s,c,p,Tree.fork s black ia i (Tree.fork s red ib o b)⟩::fs)) := by
  rw [plug_sibling] at hs
  have ho := hs.cell_eq
  have hinner : Stored h (plug (Tree.fork s red ia i ib) (⟨s,black,o,b⟩::⟨s.flip,c,p,t⟩::fs)) := hs
  have h1 := Stored.setColor hinner black
  have h2 : Stored (setColor (setColor h i black) o red)
      (plug (Tree.fork s red (Tree.fork s black ia i ib) o b) (⟨s.flip,c,p,t⟩::fs)) :=
    Stored.setColor (show Stored _ (plug (Tree.fork s black _ o b) (⟨s.flip,c,p,t⟩::fs)) from h1) red
  rw [← Tree.fork_flip,← Tree.fork_flip (a := ib)] at h2
  obtain ⟨h',hrot,hs'⟩ := rotate_stored h2
  rw [Tree.fork_flip,Tree.fork_flip,← plug_sibling] at hs'
  have hp := hs'.frame_eq
  refine ⟨h',?_,hs'⟩
  unfold turnSibling
  rw [ho,Cell.fork_child_flip,if_pos hb,Cell.fork_child,Tree.root_fork]
  dsimp only [bind_some]
  rw [hrot]
  dsimp only [bind_some]
  rw [hp,Cell.fork_child_flip,Tree.root_fork]
  rfl

lemma turnSibling_outer (hs : Stored h (plug t (⟨s,c,p,Tree.fork s black a o b⟩::fs)))
    (hb : isBlack h b.root = false) : turnSibling s p o h = some (o,h) := by
  rw [plug_sibling] at hs
  rw [turnSibling,hs.cell_eq,Cell.fork_child_flip,if_neg (by rw [hb]; decide)]

lemma rotate_over {q : Nat} {oa ob : Sub}
    (hs : Stored h (plug t (⟨s,c,p,Tree.fork s black a o (Tree.fork s red oa q ob)⟩::fs))) :
    ∃ h', ((setColor (setColor h o (h.cell p).tag) p black).cell o).child s.flip = some q ∧
      rotate s p (setColor (setColor (setColor h o (h.cell p).tag) p black) q black) = some h' ∧
      Stored h' (plug (Tree.fork s c (Tree.fork s black t p a) o (Tree.fork s black oa q ob)) fs) := by
  have hp := hs.frame_eq
  rw [hp,Cell.fork_tag]
  rw [plug_sibling] at hs
  have h1 := Stored.setColor hs c
  rw [← plug_sibling] at h1
  have h2 : Stored (setColor (setColor h o c) p black)
      (plug (Tree.fork s black t p (Tree.fork s c a o (Tree.fork s red oa q ob))) fs) :=
    Stored.setColor (show Stored _ (plug (Tree.fork s c t p _) fs) from h1) black
  have hsib := Stored.sibling h2
  have houter : Stored (setColor (setColor h o c) p black)
      (plug (Tree.fork s red oa q ob) (⟨s.flip,c,o,a⟩::⟨s.flip,black,p,t⟩::fs)) := by
    rw [plug,Tree.fork_flip]
    exact hsib
  have h3 := Stored.setColor houter black
  rw [plug,Tree.fork_flip,← plug_sibling] at h3
  obtain ⟨h',hrot,hs'⟩ := rotate_stored
    (show Stored _ (plug (Tree.fork s black t p (Tree.fork s c a o _)) fs) from h3)
  refine ⟨h',?_,hrot,hs'⟩
  rw [hsib.cell_eq,Cell.fork_child_flip,Tree.root_fork]

/-- What a pass leaves behind: a place further up that lacks a black node, or a balanced tree. -/
def PassDone (nodes : List Nat) (len : Nat) : ErasePass → Prop
  | .next node parent h => ∃ t fs n, some node = t.root ∧ parent = above none fs ∧ Stored h (plug t fs) ∧
      Lacks t n ∧ Fits fs black (n+1) ∧ (plug t fs).inorder = nodes ∧
      (fs.length < len ∨ isBlack h t.root = false)
  | .done h => ∃ t m, Stored h t ∧ Balanced t black m ∧ t.inorder = nodes

lemma isBlack_and (hs : Stored h (plug (Tree.fork s c a o b) fs)) :
    (isBlack h (h.cell o).left && isBlack h (h.cell o).right) = (isBlack h a.root && isBlack h b.root) := by
  rw [hs.cell_eq]
  cases s with
  | left => rfl
  | right => exact Bool.and_comm ..

lemma settle_spec {ca cb : Color} (ht : Balanced t black n) (ha : Balanced a ca n)
    (hb : Balanced b cb n) (hfs : Fits (⟨s,c,p,Tree.fork s black a o b⟩::fs) black (n+1))
    (hs : Stored h (plug t (⟨s,c,p,Tree.fork s black a o b⟩::fs))) (len : Nat)
    (hlen : fs.length < len ∨ c = red) : ∃ r, settle s p o h = some r ∧
      PassDone (plug t (⟨s,c,p,Tree.fork s black a o b⟩::fs)).inorder len r := by
  have hsib := Stored.sibling hs
  obtain ⟨-,haheld,hbheld⟩ := holds_fork.mp (stored_plug.mp hsib).1
  have haB := isBlack_of_balanced haheld ha
  have hbB := isBlack_of_balanced hbheld hb
  unfold settle
  rw [isBlack_and hsib,haB,hbB]
  by_cases hboth : ca = black ∧ cb = black
  · -- the sibling becomes red, and the parent's place lacks the black node
    obtain ⟨rfl,rfl⟩ := hboth
    rw [if_pos (by decide)]
    have h1 := Stored.setColor hsib red
    rw [← plug_sibling] at h1
    have hp := h1.frame_eq
    dsimp only at hp ⊢
    rw [hp,Cell.fork_parent]
    have h2 : Stored (setColor h o red) (plug (Tree.fork s c t p (Tree.fork s red a o b)) fs) := h1
    refine ⟨_,rfl,Tree.fork s c t p (Tree.fork s red a o b),fs,?_⟩
    have hin : (plug (Tree.fork s c t p (Tree.fork s red a o b)) fs).inorder =
        (plug t (⟨s,c,p,Tree.fork s black a o b⟩::fs)).inorder := by
      refine inorder_plug_congr fs ?_
      cases s <;> rfl
    cases hfs with
    | underRed htag _ hup =>
      subst htag
      refine ⟨n,Tree.root_fork.symm,rfl,h2,.inr ⟨s,t,p,_,rfl,ht.mkBlack (ha.mkRed hb)⟩, hup.to_black,hin,.inr ?_⟩
      rw [Tree.root_fork,isBlack,h2.cell_eq,Cell.fork_tag]
      rfl
    | underBlack htag _ hup =>
      subst htag
      exact ⟨n+1,Tree.root_fork.symm,rfl,h2,.inl (ht.mkBlack (ha.mkRed hb)),hup,hin,
        .inl (hlen.resolve_right (by decide))⟩
  rw [if_neg (by cases ca <;> cases cb <;> simp_all)]
  -- bring a red node to the far side of the sibling
  obtain ⟨h1,o1,a1,oa,q,ob,ca1,hturn,hs1,ha1,hoa,hob,hin⟩ :
      ∃ h1 o1 a1 oa q ob ca1, turnSibling s p o h = some (o1,h1) ∧
        Stored h1 (plug t (⟨s,c,p,Tree.fork s black a1 o1 (Tree.fork s red oa q ob)⟩::fs)) ∧
        Balanced a1 ca1 n ∧ Balanced oa black n ∧ Balanced ob black n ∧
        (Tree.fork s black a1 o1 (Tree.fork s red oa q ob)).inorder =
          (Tree.fork s black a o b).inorder := by
    cases cb with
    | red =>
      rcases b.eq_nil_or_fork s with rfl | ⟨cb,oa,q,ob,rfl⟩
      · cases hb
      obtain rfl := hb.tag_eq
      obtain ⟨-,hoa,hob⟩ := balanced_fork_red.mp hb
      exact ⟨h,o,a,oa,q,ob,ca,turnSibling_outer hs hbB,hs,ha,hoa,hob,rfl⟩
    | black =>
      have hca : ca = red := by cases ca <;> simp_all
      subst hca
      rcases a.eq_nil_or_fork s with rfl | ⟨ca,ia,i,ib,rfl⟩
      · cases ha
      obtain rfl := ha.tag_eq
      obtain ⟨-,hia,hib⟩ := balanced_fork_red.mp ha
      obtain ⟨h1,hturn,hs1⟩ := turnSibling_inner hs hbB
      refine ⟨h1,i,ia,ib,o,b,black,hturn,hs1,hia,hib,hb,?_⟩
      cases s <;> simp [Tree.fork,Tree.inorder]
  obtain ⟨h2,houter,hrot,hs2⟩ := rotate_over hs1
  rw [hturn]
  dsimp only [bind_some]
  rw [houter]
  dsimp only [bind_some]
  rw [hrot]
  have hnodes : (plug (Tree.fork s c (Tree.fork s black t p a1) o1 (Tree.fork s black oa q ob)) fs).inorder =
      (plug t (⟨s,c,p,Tree.fork s black a o b⟩::fs)).inorder := by
    refine inorder_plug_congr fs ?_
    have hfork : ∀ u v : Sub, u.inorder = v.inorder →
        (Tree.fork s c t p u).inorder = (Tree.fork s c t p v).inorder := by
      intro u v huv
      cases s <;> simp [Tree.fork,Tree.inorder,huv]
    rw [← hfork _ _ hin]
    cases s <;> simp [Tree.fork,Tree.inorder]
  have hleft : Balanced (Tree.fork s black t p a1) black (n+1) := ht.mkBlack ha1
  have hright : Balanced (Tree.fork s black oa q ob) black (n+1) := hoa.mkBlack hob
  cases hfs with
  | underRed htag _ hup =>
    subst htag
    obtain ⟨m,hbal⟩ := (hleft.mkRed hright).plug hup
    exact ⟨_,rfl,_,m,hs2,hbal,hnodes⟩
  | underBlack htag _ hup =>
    subst htag
    obtain ⟨m,hbal⟩ := (hleft.mkBlack hright).plug hup
    exact ⟨_,rfl,_,m,hs2,hbal,hnodes⟩

lemma erasePass_spec (ht : Balanced t black n) (hfs : Fits (f::fs) black (n+1))
    (hs : Stored h (plug t (f::fs))) : ∃ r, erasePass f.side f.key h = some r ∧
      PassDone (plug t (f::fs)).inorder (fs.length+1) r := by
  obtain ⟨s,c,p,u⟩ := f
  have hp := hs.frame_eq
  unfold erasePass
  rw [hp,Cell.fork_child_flip]
  -- the sibling's paths have black nodes, so it is there; under a red parent it is black
  obtain ⟨cu,hu,hcu⟩ : ∃ cu, Balanced u cu (n+1) ∧ (cu = red → c = black ∧ Fits fs black (n+2)) := by
    cases hfs with
    | underRed _ hsib _ => exact ⟨black,hsib,nofun⟩
    | @underBlack _ _ _ _ cu htag hsib hup => exact ⟨cu,hsib,fun _ => ⟨htag,hup⟩⟩
  obtain ⟨a,o,b,rfl⟩ := hu.exists_fork s
  rw [Tree.root_fork]
  dsimp only [bind_some]
  cases cu with
  | black =>
    obtain ⟨-,m,ca,cb,hm,ha,hb⟩ := balanced_fork_black.mp hu
    obtain rfl := Nat.succ.inj hm
    rw [liftSibling_black hs]
    exact settle_spec ht ha hb hfs hs (fs.length+1) (.inl (Nat.lt_succ_self _))
  | red =>
    obtain ⟨rfl,hup⟩ := hcu rfl
    obtain ⟨-,ha,hb⟩ := balanced_fork_red.mp hu
    obtain ⟨a1,x,b1,rfl⟩ := ha.exists_fork s
    obtain ⟨h1,hlift,hs1⟩ := liftSibling_red hs Tree.root_fork
    rw [hlift]
    obtain ⟨-,m,ca,cb,hm,ha1,hb1⟩ := balanced_fork_black.mp ha
    obtain rfl := Nat.succ.inj hm
    have hfs1 : Fits (⟨s,red,p,Tree.fork s black a1 x b1⟩::⟨s,black,o,b⟩::fs) black (n+1) :=
      Fits.underRed rfl ha (Fits.underBlack rfl hb hup)
    obtain ⟨r,hr,hdone⟩ := settle_spec ht ha1 hb1 hfs1 hs1 (fs.length+1) (.inr rfl)
    refine ⟨r,hr,?_⟩
    have hin : (plug t (⟨s,red,p,Tree.fork s black a1 x b1⟩::⟨s,black,o,b⟩::fs)).inorder =
        (plug t (⟨s,black,p,Tree.fork s red (Tree.fork s black a1 x b1) o b⟩::fs)).inorder := by
      refine inorder_plug_congr fs ?_
      cases s <;> simp [Tree.fork,Tree.inorder]
    rwa [hin] at hdone

lemma blacken_root (hs : Stored h t) (hbal : Balanced t black m) : Stored (blacken h.root h) t := by
  rw [hs.root]
  rcases t.eq_nil_or_fork .left with rfl | ⟨c,a,x,b,rfl⟩
  · exact hs
  obtain rfl := hbal.tag_eq
  rw [Tree.root_fork]
  exact Stored.setColor (show Stored h (plug _ []) from hs) black

variable {fuel y : Nat} {ls : Path}

lemma rbEraseColor_spec (hfuel : fs.length < fuel ∨ (isBlack h t.root = false ∧ 0 < fuel))
    (ht : Lacks t n) (hfs : Fits fs black (n+1)) (hs : Stored h (plug t fs)) :
    ∃ h' t' m, rbEraseColor fuel t.root (above none fs) h = some h' ∧ Stored h' t' ∧
      Balanced t' black m ∧ t'.inorder = (plug t fs).inorder := by
  induction fuel generalizing h t fs n with
  | zero => omega
  | succ fuel ih =>
    unfold rbEraseColor
    rcases ht with ht | ⟨s,a,x,b,rfl,ht⟩
    · have hblack : isBlack h t.root = true := isBlack_of_balanced (stored_plug.mp hs).1 ht
      rcases fs with _ | ⟨f,fs⟩
      · have hroot : t.root = h.root := hs.root.symm
        rw [if_neg (fun hcond => hcond.2 hroot),hroot]
        exact ⟨_,t,n,rfl,blacken_root hs ht,ht,rfl⟩
      have hne : t.root ≠ h.root := by
        intro heq
        obtain ⟨y,hy⟩ := exists_top f.key fs
        have hroot : h.root = some y := ((stored_plug.mp hs).2.2.1).trans hy
        have hnodup := (stored_plug.mp hs).2.2.2
        refine (nodup_append.mp hnodup).2.2 y (Tree.root_mem (heq.trans hroot)) y ?_ rfl
        exact top_mem hy
      rw [if_pos ⟨hblack,hne⟩]
      dsimp only [above,bind_eq_bind,bind_some]
      have hsib : t.root ≠ f.sibling.root := by
        cases htr : t.root with
        | some x => exact htr ▸ root_ne_sibling hs htr
        | none =>
          obtain ⟨cu,hu⟩ : ∃ cu, Balanced f.sibling cu (n+1) := by
            cases hfs with
            | underRed _ hu _ => exact ⟨_,hu⟩
            | underBlack _ hu _ => exact ⟨_,hu⟩
          obtain ⟨a,o,b,hfork⟩ := hu.exists_fork .left
          rw [hfork,Tree.root_fork]
          intro h
          cases h
      rw [side_eq hs hsib]
      obtain ⟨r,hpass,hdone⟩ := erasePass_spec ht hfs hs
      rw [hpass]
      cases r with
      | done h1 =>
        obtain ⟨t',m,hst,hbal,hin⟩ := hdone
        exact ⟨_,t',m,rfl,blacken_root hst hbal,hbal,hin⟩
      | next node parent h1 =>
        obtain ⟨t1,fs1,n1,hnode,hparent,hs1,hlacks,hfits,hin,hlen⟩ := hdone
        dsimp only [bind_some]
        rw [hnode,hparent]
        have hfuel' : fs.length+1 < fuel+1 := by
          rcases hfuel with hlt | ⟨hred,-⟩
          · simpa using hlt
          rw [hblack] at hred
          cases hred
        obtain ⟨h',t',m,hloop,hst,hbal,hin'⟩ := ih (by
          rcases hlen with hlt | hred
          · left
            omega
          · exact .inr ⟨hred,by omega⟩) hlacks hfits hs1
        exact ⟨h',t',m,hloop,hst,hbal,hin'.trans hin⟩
    have hred : isBlack h (Tree.fork s red a x b).root = false := by
      rw [Tree.root_fork,isBlack,hs.cell_eq,Cell.fork_tag]
      rfl
    rw [if_neg (fun hcond => by rw [hred] at hcond; cases hcond.1)]
    obtain ⟨m,hbal⟩ := ht.plug hfs
    rw [Tree.root_fork]
    refine ⟨_,_,m,rfl,Stored.setColor hs black,hbal,inorder_plug_congr fs ?_⟩
    cases s <;> rfl

lemma length_le_beside (fs : Path) : fs.length ≤ (beside fs).length := by
  induction fs with
  | nil => exact Nat.le_refl 0
  | cons f fs ih =>
    rw [beside,length_cons,length_cons,length_append]
    omega

lemma length_le_inorder (t : Sub) (fs : Path) : fs.length ≤ (plug t fs).inorder.length := by
  have := length_le_beside fs
  rw [(inorder_plug_perm t fs).length_eq,length_append]
  omega

section
variable (hfuel : fs.length < fuel) (ht : Balanced (Tree.fork s c .nil x t) c n) (hfs : Fits fs c n)
include hfuel ht hfs

lemma repair_spec (hs : Stored h (plug t fs)) :
    ∃ h' t' m, (if c = black then rbEraseColor fuel t.root (above none fs) h else some h) = some h' ∧
      Stored h' t' ∧ Balanced t' black m ∧ t'.inorder = (plug t fs).inorder := by
  cases c with
  | black =>
    rw [if_pos rfl]
    obtain ⟨-,k,ca,cb,rfl,-,hchild⟩ := balanced_fork_black.mp ht
    exact rbEraseColor_spec (.inl hfuel) hchild.lacks hfs hs
  | red =>
    rw [if_neg (by decide)]
    obtain ⟨-,-,hchild⟩ := balanced_fork_red.mp ht
    obtain ⟨m,hbal⟩ := hchild.plug hfs.to_black
    exact ⟨h,_,m,rfl,hs,hbal,rfl⟩

lemma eraseOne_spec (hs : Stored h (plug (Tree.fork s c .nil x t) fs)) :
    ∃ h' t' m, eraseOne fuel x t.root h = some h' ∧ Stored h' t' ∧ Balanced t' black m ∧
      t'.inorder = (plug t fs).inorder := by
  unfold eraseOne
  rw [hs.cell_eq,Cell.fork_parent,Cell.fork_tag]
  exact repair_spec hfuel ht hfs (splice_stored hs)

end

lemma Fits.rename (h : Fits (ls++⟨s,c',x,t⟩::fs) c n) : Fits (ls++⟨s,c',y,t⟩::fs) c n := by
  induction ls generalizing c n with
  | nil =>
    cases h with
    | underRed htag hsib hup => exact Fits.underRed htag hsib hup
    | underBlack htag hsib hup => exact Fits.underBlack htag hsib hup
  | cons f ls ih =>
    cases h with
    | underRed htag hsib hup => exact Fits.underRed htag hsib (ih hup)
    | underBlack htag hsib hup => exact Fits.underBlack htag hsib (ih hup)

lemma eraseTwo_spec {l r : Sub} {c' : Color} (hls : ls.length < fuel)
    (hfuel : (ls++⟨.right,c,y,l⟩::fs).length < fuel) (hleft : ∀ f ∈ ls, f.side = Side.left)
    (hbal : Balanced (plug (.node c l x (plug (.node c' .nil y r) ls)) fs) black m)
    (hs : Stored h (plug (.node c l x (plug (.node c' .nil y r) ls)) fs)) {right : Nat}
    (hright : top (some y) ls = some right) :
    ∃ h' t' m', eraseTwo fuel x right h = some h' ∧ Stored h' t' ∧ Balanced t' black m' ∧
      t'.inorder = (plug (.node c l y (plug r ls)) fs).inorder := by
  have hwalk : leftmost fuel right h = some y :=
    leftmost_spec (stored_plug.mp hs).1.2.2 hleft hright hls
  obtain ⟨h1,htake,hs1⟩ : ∃ h1, takePlace x y h = some (r.root,(above none (ls++⟨.right,c,y,l⟩::fs)).getD 0,c',h1) ∧
        Stored h1 (plug (.node c l y (plug r ls)) fs) := by
    cases ls with
    | nil => exact takePlace_child hs
    | cons f ls => exact takePlace_deep (hleft f mem_cons_self) hs
  have habove : some ((above none (ls++⟨.right,c,y,l⟩::fs)).getD 0) = above none (ls++⟨.right,c,y,l⟩::fs) := by
    cases ls <;> rfl
  have hplug : ∀ (u : Sub) (z : Nat), plug (.node c l z (plug u ls)) fs =
      plug u (ls++⟨.right,c,z,l⟩::fs) := fun u z => (plug_append u ls (⟨.right,c,z,l⟩::fs)).symm
  rw [hplug] at hbal hs1 ⊢
  obtain ⟨cy,ny,hy,hfits⟩ := hbal.of_plug
  obtain rfl : c' = cy := Balanced.tag_eq (s := .left) hy
  unfold eraseTwo
  rw [hwalk]
  dsimp only [bind_eq_bind,bind_some]
  rw [htake]
  dsimp only [bind_some]
  rw [habove]
  exact repair_spec (s := .left) hfuel hy hfits.rename hs1

lemma inorder_first {r : Sub} (hleft : ∀ f ∈ ls, f.side = Side.left) :
    (plug (.node c .nil y r) ls).inorder = y::(plug r ls).inorder := by
  have hafter : ∃ after : List Nat, ∀ u : Sub, (plug u ls).inorder = u.inorder++after := by
    induction ls with
    | nil => exact ⟨[],fun u => (append_nil _).symm⟩
    | cons f ls ih =>
      obtain ⟨after,h⟩ := ih fun g hg => hleft g (mem_cons_of_mem f hg)
      refine ⟨f.key::f.sibling.inorder++after,fun u => ?_⟩
      rw [plug,h,hleft f mem_cons_self]
      simp [Tree.fork,Tree.inorder]
  obtain ⟨after,h⟩ := hafter
  rw [h,h]
  rfl

lemma erase_middle {before after : List Nat} (hx : x ∉ before) : (before++x::after).erase x = before++after := by
  rw [erase_append_right _ hx,erase_cons_head]

/-- Erasing a node of a balanced tree. -/
theorem rbErase_spec (hfuel : t.inorder.length < fuel) (hbal : Balanced t black m)
    (hs : Stored h t) (hx : x ∈ t.inorder) :
    ∃ h' t' m', rbErase fuel x h = some h' ∧ Stored h' t' ∧ Balanced t' black m' ∧
      t'.inorder = t.inorder.erase x := by
  obtain ⟨c,l,r,fs,rfl⟩ := exists_plug hx
  have hlen := length_le_inorder (.node c l x r) fs
  obtain ⟨c',n,hnode,hfits⟩ := hbal.of_plug
  obtain rfl : c = c' := Balanced.tag_eq (s := .left) hnode
  obtain ⟨before,after,hin⟩ := inorder_plug fs
  -- removing the node from the order of its subtree removes it from the order of the tree
  have hremove : ∀ u : Sub, u.inorder = (.node c l x r : Sub).inorder.erase x →
      (plug u fs).inorder = (plug (.node c l x r) fs).inorder.erase x := by
    intro u hu
    have hnodup := hs.nodup
    rw [hin] at hnodup
    have hnot : x ∉ before := by
      rw [append_assoc] at hnodup
      intro hmem
      refine (nodup_append.mp hnodup).2.2 x hmem x (mem_append_left _ ?_) rfl
      exact Tree.root_mem rfl
    have hmem : x ∈ (.node c l x r : Sub).inorder := Tree.root_mem rfl
    rw [hin,hin,append_assoc,append_assoc,erase_append_right _ hnot,erase_append_left _ hmem,hu]
  have hxl : x ∉ l.inorder := by
    have hnodup := (nodup_append.mp (stored_plug.mp hs).2.2.2).1
    exact fun hmem => (nodup_append.mp hnodup).2.2 x hmem x mem_cons_self rfl
  have hcell : h.cell x = ⟨above none fs,c,l.root,r.root⟩ := (stored_plug.mp hs).1.1
  have herase : (.node c l x r : Sub).inorder.erase x = l.inorder++r.inorder := erase_middle hxl
  have hfs : fs.length < fuel := Nat.lt_of_le_of_lt hlen hfuel
  unfold rbErase
  rw [hcell]
  rcases l with _ | ⟨cl,ll,xl,lr⟩
  · obtain ⟨h',t',m',hrun,hst,hb,hin'⟩ :=
      eraseOne_spec (s := .left) hfs hnode hfits hs
    exact ⟨h',t',m',hrun,hst,hb,hin'.trans (hremove r herase.symm)⟩
  rcases r with _ | ⟨cr,rl,xr,rr⟩
  · obtain ⟨h',t',m',hrun,hst,hb,hin'⟩ :=
      eraseOne_spec (s := .right) hfs hnode hfits hs
    refine ⟨h',t',m',hrun,hst,hb,hin'.trans (hremove _ (Eq.trans ?_ herase.symm))⟩
    exact (append_nil _).symm
  obtain ⟨cy,y,ry,ls,hr,hleft⟩ := exists_first (t := (.node cr rl xr rr : Sub)) (fun h => by cases h)
  have hright : top (some y) ls = some xr := by
    have := root_plug (.node cy .nil y ry : Sub) ls
    rw [← hr] at this
    exact this.symm
  rw [hr] at hbal hs hlen hfuel
  have hlen' := length_le_inorder (.node cy .nil y ry) (ls++⟨.right,c,x,.node cl ll xl lr⟩::fs)
  rw [plug_append] at hlen'
  have hls : (ls++⟨.right,c,x,.node cl ll xl lr⟩::fs).length < fuel :=
    Nat.lt_of_le_of_lt hlen' hfuel
  rw [length_append,length_cons] at hls
  have hls' : ls.length < fuel := by omega
  have hpath : (ls++⟨.right,c,y,.node cl ll xl lr⟩::fs).length < fuel := by
    rw [length_append,length_cons]
    omega
  obtain ⟨h',t',m',hrun,hst,hb,hin'⟩ := eraseTwo_spec hls' hpath hleft hbal hs hright
  refine ⟨h',t',m',hrun,hst,hb,?_⟩
  rw [hin']
  refine hremove _ (Eq.trans ?_ herase.symm)
  rw [hr,inorder_first hleft]
  rfl

end LinuxToradex.Rbtree
