import LinuxToradex.Resource.Runs
import Mathlib

/-! `__reserve_region_with_split`. A call of `kzalloc` gives a number that was not used before, or nothing. -/
namespace LinuxToradex.Resource
open Option List Function Forest

/-- `pool k` is what call `k` of `kzalloc` returns; the calls are counted. -/
def Heap.reserveRegionWithSplit (pool : Nat → Option Id) (root : Id) (steps : Nat) :
    Nat → Nat × Heap → Nat → Nat → Option (Nat × Heap)
  | 0, _, _, _ => none
  | fuel+1, (k,h), start, stop =>
    match pool k with
    | none => some (k+1,h)
    | some res =>
      match (h.write res ⟨none,none,none,start,stop,busy⟩).requestResource steps root res with
      | none => none
      | some (none,granted) => some (k+1,granted)
      | some (some conflict,h) =>
        if h.start conflict ≤ start ∧ stop ≤ h.stop conflict then some (k+1,h)
        else do
          let s ← (if start < h.start conflict then
              reserveRegionWithSplit pool root steps fuel (k+1,h) start (h.start conflict-1)
            else some (k+1,h))
          if s.2.stop conflict < stop then
            reserveRegionWithSplit pool root steps fuel s (s.2.stop conflict+1) stop
          else some s

section Split

variable {roots : Id → Prop} {pool : Nat → Option Id} {root new : Id} {h h' : Heap} {kids kids' : Id → List Id}
  {k k' start stop fuel steps : Nat}

/-- No list of children is longer than the address space. -/
lemma Nested.length_le {start stop : Id → Nat} {n : Id} {l : List Id} (h : Nested start stop n l)
    (hbound : ∀ x, stop x < word) : l.length ≤ word := by
  have hnodup : (l.map start).Nodup := by
    refine pairwise_map.mpr (h.sorted.imp_of_mem ?_)
    intro a b ha _ hab
    have hle := (h.inside a ha).2.1
    omega
  have hsub : l.map start ⊆ range word := by
    intro a ha
    obtain ⟨c,hc,rfl⟩ := mem_map.mp ha
    exact mem_range.mpr (lt_of_le_of_lt (h.inside c hc).2.1 (hbound c))
  have hlen := (subperm_of_subset hnodup hsub).length_le
  rwa [length_map,length_range] at hlen

lemma requestLoop_returns (new : Id) (before after : List Id) (hinv : Inv roots h kids)
    (hkids : kids root = before++after) (hfuel : after.length < fuel) :
    ∃ r, h.requestLoop root new fuel (place root before) = some r := by
  induction fuel generalizing before after with
  | zero => cases hfuel
  | succ fuel ih =>
    rw [Heap.requestLoop,hinv.linked.get_place hkids]
    rcases after with _ | ⟨tmp,after⟩
    · exact ⟨_,rfl⟩
    dsimp only [head?_cons]
    split_ifs
    · exact ⟨_,rfl⟩
    · rw [← place_append root before tmp]
      exact ih (before++[tmp]) after (by rw [hkids]; simp) (by simpa using hfuel)
    · exact ⟨_,rfl⟩

lemma requestResource_inside (hinv : Inv roots h kids) (hx : ∀ n, new ∉ kids n) (hfree : ¬roots new)
    (hlow : h.start root ≤ h.start new) (hle : h.start new ≤ h.stop new) (hhigh : h.stop new ≤ h.stop root)
    (hfuel : word < fuel) :
    (∃ h', h.requestResource fuel root new = some (none,h') ∧ Granted roots h kids root new h') ∨
      ∃ conflict, h.requestResource fuel root new = some (some conflict,h) ∧ Conflict h kids root new conflict := by
  have hlen := (hinv.nested root).length_le hinv.bound
  have hloop : h.requestResource fuel root new = h.requestLoop root new fuel (place root []) := by
    unfold Heap.requestResource
    rw [if_neg (not_lt.mpr hle),if_neg (not_lt.mpr hlow),if_neg (not_lt.mpr hhigh)]
    rfl
  obtain ⟨⟨result,h'⟩,hrun⟩ := requestLoop_returns new [] _ hinv rfl (hlen.trans_lt hfuel)
  rw [hloop,hrun]
  rcases requestLoop_spec [] _ hinv hx hfree rfl hlow hle hhigh (by simp) hrun with
    ⟨rfl,hgranted⟩ | ⟨conflict,rfl,rfl,hconflict⟩
  · exact .inl ⟨h',rfl,hgranted⟩
  · exact .inr ⟨conflict,rfl,hconflict⟩

structure Ready (roots : Id → Prop) (pool : Nat → Option Id) (root : Id) (k : Nat) (h : Heap)
    (kids : Id → List Id) : Prop where
  inv : Inv roots h kids
  fresh : ∀ i, k ≤ i → ∃ x, pool i = some x ∧ x ≠ root ∧ ¬roots x ∧ (∀ n, x ∉ kids n) ∧ kids x = []

def Covered (h : Heap) (l : List Id) (a : Nat) : Prop := ∃ c ∈ l, h.start c ≤ a ∧ a ≤ h.stop c

/-- The children of `root` cover the addresses of `added` too, and what was there is as it was. -/
structure Reserved (roots : Id → Prop) (pool : Nat → Option Id) (root : Id) (k : Nat) (h : Heap)
    (kids : Id → List Id) (added : Nat → Prop) (k' : Nat) (h' : Heap) (kids' : Id → List Id) : Prop
    extends Ready roots pool root k' h' kids' where
  le : k ≤ k'
  range : ∀ x, (∀ i, k ≤ i → pool i ≠ some x) →
    h'.start x = h.start x ∧ h'.stop x = h.stop x ∧ h'.flags x = h.flags x
  lists : ∀ x, (∀ i, k ≤ i → pool i ≠ some x) → x ≠ root → kids' x = kids x
  old : ∀ c ∈ kids root, c ∈ kids' root
  covers : ∀ a, Covered h' (kids' root) a ↔ Covered h (kids root) a ∨ added a

lemma Reserved.congr {A B : Nat → Prop} (hres : Reserved roots pool root k h kids A k' h' kids')
    (hadd : ∀ a, Covered h (kids root) a ∨ A a ↔ Covered h (kids root) a ∨ B a) :
    Reserved roots pool root k h kids B k' h' kids' :=
  {hres with covers := fun a => (hres.covers a).trans (hadd a)}

lemma Ready.reserved_none (hready : Ready roots pool root k h kids) {A : Nat → Prop} (hA : ∀ a, ¬A a) :
    Reserved roots pool root k h kids A k h kids :=
  ⟨hready,le_rfl,fun _ _ => ⟨rfl,rfl,rfl⟩,fun _ _ _ => rfl,fun _ hc => hc,fun a => by simp [hA a]⟩

lemma Reserved.trans {A B : Nat → Prop} {k1 : Nat} {w : Heap} {kids1 : Id → List Id}
    (hfst : Reserved roots pool root k h kids A k1 w kids1)
    (hsnd : Reserved roots pool root k1 w kids1 B k' h' kids') :
    Reserved roots pool root k h kids (fun a => A a ∨ B a) k' h' kids' := by
  have hlater : ∀ x, (∀ i, k ≤ i → pool i ≠ some x) → ∀ i, k1 ≤ i → pool i ≠ some x :=
    fun x hx i hi => hx i (hfst.le.trans hi)
  refine ⟨hsnd.toReady,hfst.le.trans hsnd.le,?_,?_,fun c hc => hsnd.old c (hfst.old c hc),?_⟩
  · intro x hx
    obtain ⟨h1,h2,h3⟩ := hfst.range x hx
    obtain ⟨g1,g2,g3⟩ := hsnd.range x (hlater x hx)
    exact ⟨g1.trans h1,g2.trans h2,g3.trans h3⟩
  · intro x hx hne
    rw [hsnd.lists x (hlater x hx) hne,hfst.lists x hx hne]
  intro a
  rw [hsnd.covers,hfst.covers]
  tauto

lemma Ready.not_pool (hready : Ready roots pool root k h kids) {c n : Id} (hc : c ∈ kids n) :
    ∀ i, k ≤ i → pool i ≠ some c := by
  intro i hi heq
  obtain ⟨x,hx,-,-,hout,-⟩ := hready.fresh i hi
  rw [some.inj (heq.symm.trans hx)] at hc
  exact hout n hc

lemma Ready.root_not_pool (hready : Ready roots pool root k h kids) : ∀ i, k ≤ i → pool i ≠ some root := by
  intro i hi heq
  obtain ⟨x,hx,hne,-⟩ := hready.fresh i hi
  exact hne (some.inj (hx.symm.trans heq))

/-- The resource of call `k`, written and not yet requested. -/
lemma Ready.write (hready : Ready roots pool root k h kids) (hx : pool k = some new) (node : Node)
    (hleaf : node.child = none) (hbound : node.stop < word) :
    Reserved roots pool root k h kids (fun _ => False) (k+1) (h.write new node) kids := by
  obtain ⟨_,hpool,-,-,hout,hnil⟩ := hready.fresh k le_rfl
  obtain rfl := some.inj (hx.symm.trans hpool)
  have hinv := (hready.inv.write node hout hleaf hbound).1
  rw [← hnil,update_eq_self] at hinv
  have hsame := SameBut.write h new node
  have hne : ∀ y, (∀ i, k ≤ i → pool i ≠ some y) → y ≠ new := fun y hy heq => hy k le_rfl (heq ▸ hx)
  refine ⟨⟨hinv,fun i hi => hready.fresh i (Nat.le_of_succ_le hi)⟩,k.le_succ,?_,fun _ _ _ => rfl,fun _ hc => hc,?_⟩
  · intro y hy
    exact ⟨hsame.start y (hne y hy),hsame.stop y (hne y hy),hsame.flags y (hne y hy)⟩
  intro a
  rw [or_false]
  refine exists_congr fun c => and_congr_right fun hc => ?_
  have hcx := hne c (hready.not_pool hc)
  rw [hsame.start c hcx,hsame.stop c hcx]

lemma Ready.granted (hinj : Injective pool) (hready : Ready roots pool root (k+1) h kids)
    (hnew : pool k = some new) (hgranted : Granted roots h kids root new h') :
    ∃ kids', Reserved roots pool root (k+1) h kids (fun a => h.start new ≤ a ∧ a ≤ h.stop new) (k+1) h' kids' := by
  obtain ⟨before,after,links,hkids,rfl,hinv⟩ := hgranted
  have hmem : ∀ c, c ∈ before++new::after ↔ c ∈ kids root ∨ c = new := by
    intro c
    rw [hkids]
    simp only [mem_append,mem_cons]
    tauto
  refine ⟨_,⟨hinv,?_⟩,le_rfl,fun _ _ => ⟨rfl,rfl,rfl⟩,fun x _ hne => update_of_ne hne _ _,?_,?_⟩
  · intro i hi
    obtain ⟨y,hy,hyroot,hyfree,hyout,hnil⟩ := hready.fresh i hi
    refine ⟨y,hy,hyroot,hyfree,fun n hn => ?_,by rwa [update_of_ne hyroot]⟩
    by_cases hr : n = root
    · rw [hr,update_self,hmem] at hn
      rcases hn with hn | rfl
      · exact hyout root hn
      · have heq := hinj (hnew.trans hy.symm)
        omega
    rw [update_of_ne hr] at hn
    exact hyout n hn
  · intro c hc
    rw [update_self,hmem]
    exact .inl hc
  intro a
  rw [update_self]
  simp only [Covered,hmem,or_and_right,exists_or,exists_eq_left]

lemma reserve_inside (hinj : Injective pool) (hsteps : word < steps) (hready : Ready roots pool root k h kids)
    (hlow : h.start root ≤ start) (hle : start ≤ stop) (hhigh : stop ≤ h.stop root) (hfuel : stop-start < fuel) :
    ∃ k' h' kids', Heap.reserveRegionWithSplit pool root steps fuel (k,h) start stop = some (k',h') ∧
      Reserved roots pool root k h kids (fun a => start ≤ a ∧ a ≤ stop) k' h' kids' := by
  induction fuel generalizing k h kids start stop with
  | zero => cases hfuel
  | succ fuel ih =>
    obtain ⟨res,hres,-,hfree,hout,-⟩ := hready.fresh k le_rfl
    have hbound : stop < word := lt_of_le_of_lt hhigh (hready.inv.bound root)
    have hwrite := hready.write hres ⟨none,none,none,start,stop,busy⟩ rfl hbound
    obtain ⟨hrs,hre,-⟩ := hwrite.range root hready.root_not_pool
    rw [Heap.reserveRegionWithSplit,hres]
    dsimp only
    generalize hw : h.write res _ = w at hwrite hrs hre ⊢
    have hstart : w.start res = start := by rw [← hw]; exact update_self _ _ _
    have hstop : w.stop res = stop := by rw [← hw]; exact update_self _ _ _
    rw [← hrs] at hlow
    rw [← hre] at hhigh
    have hlow' : w.start root ≤ w.start res := by rwa [hstart]
    have hhigh' : w.stop res ≤ w.stop root := by rwa [hstop]
    rcases requestResource_inside hwrite.inv hout hfree hlow' (by rwa [hstart,hstop]) hhigh' hsteps with
      ⟨g,hrun,hgranted⟩ | ⟨c,hrun,-,-,-,before,after,hkids,-,hcs,hce⟩
    · rw [hrun]
      obtain ⟨kids',hdone⟩ := hwrite.granted hinj hres hgranted
      rw [hstart,hstop] at hdone
      exact ⟨_,g,kids',rfl,(hwrite.trans hdone).congr fun a => by rw [false_or]⟩
    rw [hstop] at hcs
    rw [hstart] at hce
    rw [hrun]
    dsimp only
    have hc : c ∈ kids root := by
      rw [hkids]
      exact mem_append_right _ mem_cons_self
    have hold : ∀ a, w.start c ≤ a → a ≤ w.stop c → Covered h (kids root) a := fun a h1 h2 =>
      ((hwrite.covers a).mp ⟨c,hc,h1,h2⟩).resolve_right id
    split
    · next hcover =>
      refine ⟨_,w,_,rfl,hwrite.congr fun a => ?_⟩
      have hin : start ≤ a ∧ a ≤ stop → Covered h (kids root) a := fun ha =>
        hold a (hcover.1.trans ha.1) (ha.2.trans hcover.2)
      tauto
    next hcover =>
    have hinside := (hwrite.inv.nested root).inside c hc
    have hleft : ∃ k1 w1 kids1, (if start < w.start c then
          Heap.reserveRegionWithSplit pool root steps fuel (k+1,w) start (w.start c-1) else some (k+1,w)) =
          some (k1,w1) ∧ Reserved roots pool root (k+1) w kids (fun a => start ≤ a ∧ a < w.start c)
          k1 w1 kids1 := by
      split_ifs with hlt
      · obtain ⟨k1,w1,kids1,hrun1,hres1⟩ := ih hwrite.toReady hlow (show start ≤ w.start c-1 by omega)
          (by omega) (by omega)
        exact ⟨k1,w1,kids1,hrun1,hres1.congr fun a => by rw [Nat.lt_iff_le_pred (by omega)]⟩
      · exact ⟨_,w,_,rfl,hwrite.reserved_none fun a => by omega⟩
    obtain ⟨k1,w1,kids1,hrun1,hres1⟩ := hleft
    obtain ⟨hs1,he1,-⟩ := hres1.range root hwrite.root_not_pool
    obtain ⟨-,hce1,-⟩ := hres1.range c (hwrite.not_pool hc)
    have hright : ∃ k2 w2 kids2, (if w1.stop c < stop then
          Heap.reserveRegionWithSplit pool root steps fuel (k1,w1) (w1.stop c+1) stop else some (k1,w1)) =
          some (k2,w2) ∧ Reserved roots pool root k1 w1 kids1 (fun a => w.stop c < a ∧ a ≤ stop) k2 w2 kids2 := by
      rw [hce1]
      split_ifs with hlt
      · exact ih hres1.toReady (show w1.start root ≤ w.stop c+1 by omega) hlt (by omega) (by omega)
      · exact ⟨_,w1,_,rfl,hres1.reserved_none fun a => by omega⟩
    obtain ⟨k2,w2,kids2,hrun2,hres2⟩ := hright
    rw [hrun1]
    refine ⟨k2,w2,kids2,hrun2,(hwrite.trans (hres1.trans hres2)).congr fun a => ?_⟩
    by_cases hcov : Covered h (kids root) a
    · simp [hcov]
    have hnot : ¬(w.start c ≤ a ∧ a ≤ w.stop c) := fun hin => hcov (hold a hin.1 hin.2)
    simp only [hcov,false_or]
    omega

/-- A range that sticks out of `root` meets `root` in every call. -/
lemma reserve_outside (hpool : ∀ i, ∃ x, pool i = some x ∧ x ≠ root) (hle : start ≤ stop)
    (hout : start < h.start root ∨ h.stop root < stop) :
    Heap.reserveRegionWithSplit pool root steps fuel (k,h) start stop = none := by
  induction fuel generalizing k h start stop with
  | zero => rfl
  | succ fuel ih =>
    obtain ⟨x,hx,hne⟩ := hpool k
    have hsame := SameBut.write h x ⟨none,none,none,start,stop,busy⟩
    have hs := hsame.start root hne.symm
    have he := hsame.stop root hne.symm
    rw [Heap.reserveRegionWithSplit,hx]
    dsimp only
    generalize hw : h.write x _ = w at hs he ⊢
    have hstart : w.start x = start := by rw [← hw]; exact update_self _ _ _
    have hstop : w.stop x = stop := by rw [← hw]; exact update_self _ _ _
    have hreq : w.requestResource steps root x = some (some root,w) := by
      unfold Heap.requestResource
      rw [hstart,hstop,hs,he,if_neg (by omega)]
      split_ifs
      · rfl
      · rfl
      · omega
    rw [hreq]
    dsimp only
    rw [if_neg (by omega)]
    split
    · next hlow =>
      rw [ih (by omega) (by omega)]
      rfl
    next hlow =>
    have hhigh : w.stop root < stop := by omega
    exact (if_pos hhigh).trans (ih hhigh (.inr hhigh))

/-- The call returns, and then has covered what `root` has of the range beside the old children, exactly when
the range is in `root`. -/
theorem reserve_region_with_split_iff (hinj : Injective pool) (hready : Ready roots pool root 0 h kids)
    (hle : start ≤ stop) : (∃ steps fuel k' h' kids',
        Heap.reserveRegionWithSplit pool root steps fuel (0,h) start stop = some (k',h') ∧
        Reserved roots pool root 0 h kids (fun a => (start ≤ a ∧ a ≤ stop) ∧ h.start root ≤ a ∧ a ≤ h.stop root)
          k' h' kids') ↔ h.start root ≤ start ∧ stop ≤ h.stop root := by
  constructor
  · rintro ⟨steps,fuel,k',h',kids',hrun,-⟩
    by_contra hout
    have hpool : ∀ i, ∃ x, pool i = some x ∧ x ≠ root := by
      intro i
      obtain ⟨x,hx,hne,-⟩ := hready.fresh i i.zero_le
      exact ⟨x,hx,hne⟩
    rw [reserve_outside hpool hle (by omega)] at hrun
    cases hrun
  · rintro ⟨hlow,hhigh⟩
    have hpart : (fun a => (start ≤ a ∧ a ≤ stop) ∧ h.start root ≤ a ∧ a ≤ h.stop root) =
        fun a => start ≤ a ∧ a ≤ stop := funext fun a => propext (by omega)
    rw [hpart]
    exact ⟨word+1,stop-start+1,reserve_inside hinj (Nat.lt_succ_self _) hready hlow hle hhigh (Nat.lt_succ_self _)⟩

end Split

lemma requested_ready : ∃ kids, Ready (fun x => x = 0) (fun i => some (i+2)) 0 0 requested kids := by
  obtain ⟨kids,hinv⟩ := reaches_requested.inv
  refine ⟨kids,hinv,fun i _ =>
    ⟨i+2,rfl,Nat.succ_ne_zero _,Nat.succ_ne_zero _,hinv.not_mem_of_parent ?_,hinv.kids_eq_nil ?_⟩⟩
  · change update (fun _ => none) 1 (some 0) (i+2) = none
    exact update_of_ne (by omega) _ _
  · change update (fun _ => none) 0 (some 1) (i+2) = none
    exact update_of_ne (Nat.succ_ne_zero _) _ _

/-- A range around the child of the root. -/
theorem reserve_region_with_split_around : ∃ kids steps fuel k' h' kids',
    Heap.reserveRegionWithSplit (fun i => some (i+2)) 0 steps fuel (0,requested) 0xc0 0x2ff = some (k',h') ∧
      Reserved (fun x => x = 0) (fun i => some (i+2)) 0 0 requested kids
        (fun a => (0xc0 ≤ a ∧ a ≤ 0x2ff) ∧ requested.start 0 ≤ a ∧ a ≤ requested.stop 0) k' h' kids' := by
  obtain ⟨kids,hready⟩ := requested_ready
  have hinj : Injective fun i : Nat => some (i+2) := fun i j h => by simpa using h
  exact ⟨kids,(reserve_region_with_split_iff hinj hready (by decide)).mpr ⟨by decide,by decide⟩⟩

/-- One address more than the root has. -/
theorem reserve_region_with_split_beyond :
    (∃ kids, Ready (fun x => x = 0) (fun i => some (i+2)) 0 0 requested kids) ∧ ∀ steps fuel,
      Heap.reserveRegionWithSplit (fun i => some (i+2)) 0 steps fuel (0,requested) 0 0x10000 = none :=
  ⟨requested_ready,fun _ _ => reserve_outside (fun i => ⟨i+2,rfl,Nat.succ_ne_zero _⟩) (by decide) (.inr (by decide))⟩

end LinuxToradex.Resource
