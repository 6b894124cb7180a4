import LinuxToradex.Nvmap.Heap
import LinuxToradex.Foundation.BuddyTree

/-! The bitmap describes a tree of blocks. Entries inside of a block are stale and never looked at. -/
namespace LinuxToradex.Nvmap
open Function Buddy

variable {bm bm' : Nat → BuddyBits} {K : Nat}
variable {alignMask o buddy : Nat}

abbrev Describes (bm : Nat → BuddyBits) (t : Tree) (k i : Nat) : Prop :=
  t.Repr (fun i => (bm i).alloc) (fun i => (bm i).order) k i

abbrev DescribesCtx (bm : Nat → BuddyBits) (c : Ctx) (k i K I : Nat) : Prop :=
  c.Repr (fun i => (bm i).alloc) (fun i => (bm i).order) k i K I

def Suitable (t : Tree) (K order alignMask index : Nat) : Prop :=
  ∃ o, t.HasLeaf K 0 index o false ∧ order ≤ o ∧ index &&& alignMask = 0

variable {index best k order I n s : Nat} {c : Ctx} {t : Tree}

lemma buddySearch_suitable (h : Describes bm t K 0) (hindex : index = 2^K ∨ ∃ o v, t.HasLeaf K 0 index o v)
    (hbest : best = 2^K ∨ Suitable t K order alignMask best) : buddySearch bm (2^K) order alignMask index best = 2^K ∨
      Suitable t K order alignMask (buddySearch bm (2^K) order alignMask index best) := by
  -- the walk goes from one block to the next
  have hwalk : ∀ index < 2^K, (index = 2^K ∨ ∃ o v, t.HasLeaf K 0 index o v) → index+2^(bm index).order = 2^K ∨
        ∃ o v, t.HasLeaf K 0 (index+2^(bm index).order) o v := by
    rintro index hlt (rfl | ⟨o,v,hl⟩)
    · exact absurd hlt (lt_irrefl _)
    have ho : (bm index).order = o := (h.of_leaf hl).2
    have hnext := h.next hl
    rw [zero_add] at hnext
    rw [ho]
    exact hnext
  have hpick : ∀ index best, index < 2^K → (index = 2^K ∨ ∃ o v, t.HasLeaf K 0 index o v) →
      (best = 2^K ∨ Suitable t K order alignMask best) →
      ¬((bm index).alloc = true ∨ index &&& alignMask ≠ 0 ∨ (bm index).order < order) →
      Suitable t K order alignMask
        (if best = 2^K ∨ (bm index).order < (bm best).order then index else best) := by
    intro index best hlt hindex hbest hok
    rw [not_or,not_or,not_not] at hok
    split
    · rcases hindex with rfl | ⟨o,v,hl⟩
      · exact absurd hlt (lt_irrefl _)
      obtain ⟨hv,ho⟩ := h.of_leaf hl
      have hfree : v = false := by
        rw [← hv]
        exact Bool.eq_false_iff.mpr hok.1
      subst hfree
      exact ⟨o,hl,by omega,hok.2.1⟩
    rename_i hkeep
    exact hbest.resolve_left fun he => hkeep (.inl he)
  fun_induction buddySearch bm (2^K) order alignMask index best with
  | case1 index best hlt next hskip ih => exact ih (hwalk index hlt hindex) hbest
  | case2 index best hlt hskip best' hdone => exact .inr (hpick index best hlt hindex hbest hskip)
  | case3 index best hlt next hskip best' hdone ih =>
    exact ih (hwalk index hlt hindex) (.inr (hpick index best hlt hindex hbest hskip))
  | case4 index best hlt => exact hbest

lemma DescribesCtx.halve (hc : DescribesCtx bm c (k+1) best K I) (hI : 2^K ∣ I) :
    DescribesCtx (update (update bm best {bm best with order := k})
      (best ^^^ 2^k) ⟨false,k⟩) (.left (.leaf false) c) k best K I := by
  have hbuddy := xor_left (hc.dvd hI)
  have hpos := Nat.two_pow_pos k
  rw [hbuddy]
  refine ⟨⟨by simp,by simp⟩,?_⟩
  refine (Ctx.repr_congr fun j hj => ?_).mpr hc
  have h1 : j ≠ best+2^k := by omega
  have h2 : j ≠ best := by omega
  simp [h1,h2]

def Tight (c : Ctx) : Prop := ∀ t : Tree, t.Compact → t ≠ .leaf false → (c.plug t).Compact

lemma Tight.halve (h : Tight c) : Tight (.left (.leaf false) c) := by
  intro t ht hne
  exact h (.node t (.leaf false)) ⟨fun he => hne he.1,ht,trivial⟩ nofun

/-- The splits of `buddy_alloc`: the free block ends up with the order asked for, and no
block is lost or becomes used. -/
theorem buddySplit_describes (hc : DescribesCtx bm c o best K I) (hbm : bm best = ⟨false,o⟩)
    (hle : order ≤ o) (hI : 2^K ∣ I) (ht : Tight c) :
    ∃ c', DescribesCtx (buddySplit bm best order) c' order best K I ∧
      buddySplit bm best order best = ⟨false,order⟩ ∧ Tight c' ∧
      ∀ j p, c'.HasLeaf order best j p true ↔ c.HasLeaf o best j p true := by
  induction o generalizing bm c with
  | zero =>
    have hzero : order = 0 := by omega
    subst hzero
    rw [buddySplit,hbm,if_neg (lt_irrefl 0)]
    exact ⟨c,hc,hbm,ht,fun _ _ => Iff.rfl⟩
  | succ o ih =>
    by_cases heq : order = o+1
    · subst heq
      rw [buddySplit,hbm,if_neg (lt_irrefl _)]
      exact ⟨c,hc,hbm,ht,fun _ _ => Iff.rfl⟩
    rw [buddySplit,hbm,if_pos (by dsimp only; omega)]
    rw [Nat.add_sub_cancel]
    have hhalve := hc.halve hI
    rw [hbm] at hhalve
    obtain ⟨c',hc',hbm',ht',hleaf⟩ := ih hhalve (by
      rw [update_of_ne (xor_two_pow_ne _ _),update_self]) (by omega) ht.halve
    refine ⟨c',hc',hbm',ht',fun j p => ?_⟩
    rw [hleaf,Ctx.HasLeaf,Tree.HasLeaf]
    simp

lemma buddyMerge_round (hbuddy : index ^^^ 2^k = buddy) (hbm : bm index = ⟨false,k⟩)
    (hfree : bm buddy = ⟨false,k⟩) (hlt : buddy < 2^K) :
    ∃ bm', buddyMerge (2^K) (n+1) bm index = buddyMerge (2^K) n bm' (min buddy index) ∧
      bm' (min buddy index) = ⟨false,k+1⟩ ∧ ∀ j ≠ buddy, j ≠ index → bm' j = bm j := by
  have hne : index ≠ buddy := by
    rw [← hbuddy]
    exact xor_two_pow_ne _ _
  rw [buddyMerge,hbm]
  rw [hbuddy,hfree,if_neg (by simp [hlt])]
  refine ⟨_,rfl,?_,?_⟩
  · rw [update_of_ne hne,hbm]
    rcases le_total buddy index with hle | hle
    · rw [Nat.min_eq_left hle,update_of_ne hne.symm,update_self]
    · rw [Nat.min_eq_right hle,update_self]
  intro j hj hj'
  simp [hj,hj']

lemma buddyMerge_stop {s : Tree} (hbuddy : index ^^^ 2^k = buddy) (hbm : bm index = ⟨false,k⟩)
    (hs : Describes bm s k buddy) (hne : s ≠ .leaf false) : buddyMerge (2^K) (n+1) bm index = some bm := by
  have hbusy : (bm buddy).alloc = true ∨ (bm buddy).order ≠ k := by
    by_contra hcon
    rw [not_or,not_not] at hcon
    exact hne (hs.eq_free_iff.mpr ⟨Bool.eq_false_iff.mpr hcon.1,hcon.2⟩)
  rw [buddyMerge,hbm]
  rw [hbuddy,if_pos (.inr hbusy)]

lemma Describes.cell (h : Describes bm (.leaf false) k index) : bm index = ⟨false,k⟩ := by
  obtain ⟨ha,ho⟩ := h
  cases hb : bm index
  simp_all

/-- The loop of `do_buddy_free` ends, and the free block is merged with its buddies. -/
theorem buddyMerge_describes (hc : DescribesCtx bm c k index K 0) (hbm : bm index = ⟨false,k⟩)
    (hn : K < n+k) : ∃ bm', buddyMerge (2^K) n bm index = some bm' ∧
      Describes bm' ((c.climb k index).1.plug (.leaf false)) K 0 := by
  have hleaf : Describes bm (.leaf false) k index := by
    simp [Describes,Tree.Repr,hbm]
  induction c generalizing bm k index n with
  | top =>
    obtain ⟨rfl,rfl⟩ := hc
    rcases n with _ | n
    · omega
    refine ⟨bm,?_,hleaf⟩
    rw [buddyMerge,hbm]
    simp
  | left s c ih =>
    have hparent := hc.2.bounds
    have hbuddy := xor_left (hc.2.dvd (Nat.dvd_zero _))
    have hpos := Nat.two_pow_pos k
    rcases n with _ | n
    · omega
    by_cases hs : s = .leaf false
    · subst hs
      obtain ⟨bm',hrun,hbm',hsame⟩ := buddyMerge_round (n := n) (K := K) hbuddy hbm (Describes.cell hc.1) (by omega)
      rw [Nat.min_eq_right (by omega)] at hrun hbm'
      rw [hrun]
      refine ih ((Ctx.repr_congr fun j hj => ?_).mpr hc.2) hbm' (by omega) ?_
      · rw [Nat.pow_succ] at hj
        rw [hsame j (by omega) (by omega)]
        exact ⟨rfl,rfl⟩
      · simp [Describes,Tree.Repr,hbm']
    rw [buddyMerge_stop hbuddy hbm hc.1 hs,Ctx.climb_left_of_ne hs]
    exact ⟨bm,rfl,hc.plug hleaf⟩
  | right s c ih =>
    obtain ⟨p,rfl,hs',hc'⟩ := hc
    have hparent := hc'.bounds
    have hbuddy := xor_right (hc'.dvd (Nat.dvd_zero _))
    have hpos := Nat.two_pow_pos k
    rcases n with _ | n
    · omega
    by_cases hs : s = .leaf false
    · subst hs
      obtain ⟨bm',hrun,hbm',hsame⟩ := buddyMerge_round (n := n) (K := K) hbuddy hbm (Describes.cell hs') (by omega)
      rw [Nat.min_eq_left (by omega)] at hrun hbm'
      rw [hrun,Ctx.climb,Nat.add_sub_cancel]
      refine ih ((Ctx.repr_congr fun j hj => ?_).mpr hc') hbm' (by omega) ?_
      · rw [Nat.pow_succ] at hj
        rw [hsame j (by omega) (by omega)]
        exact ⟨rfl,rfl⟩
      · simp [Describes,Tree.Repr,hbm']
    rw [buddyMerge_stop hbuddy hbm hs' hs,Ctx.climb_right_of_ne hs]
    have hplug : DescribesCtx bm (.right s c) k (p+2^k) K 0 := ⟨p,rfl,hs',hc'⟩
    exact ⟨bm,rfl,hplug.plug hleaf⟩

lemma DescribesCtx.setAlloc (hc : DescribesCtx bm c k index K I) (used : Bool) :
    DescribesCtx (update bm index {bm index with alloc := used}) c k index K I := by
  have hpos := Nat.two_pow_pos k
  refine (Ctx.repr_congr fun j hj => ?_).mpr hc
  have hne : j ≠ index := by omega
  simp [hne]

lemma buddySplit_mark (h : Describes bm t K 0) (hcompact : t.Compact)
    (hbest : Suitable t K order alignMask best) : ∃ t', Describes (update (buddySplit bm best order) best
        {buddySplit bm best order best with alloc := true}) t' K 0 ∧ t'.Compact ∧
      ∀ j o, t'.HasLeaf K 0 j o true ↔ j = best ∧ o = order ∨ t.HasLeaf K 0 j o true := by
  obtain ⟨o,hl,hle,-⟩ := hbest
  obtain ⟨c,rfl,hc⟩ := h.ctx_of_leaf hl
  have hbm : bm best = ⟨false,o⟩ := Describes.cell (h.of_leaf hl)
  have htight : Tight c := fun t ht hne => Ctx.compact_replace hcompact ht hne
  obtain ⟨c',hc',hbm',ht',hleaf⟩ := buddySplit_describes hc hbm hle (Nat.dvd_zero _) htight
  have hmark := DescribesCtx.setAlloc hc' true
  refine ⟨c'.plug (.leaf true),hmark.plug ?_,ht' _ trivial nofun,fun j p => ?_⟩
  · rw [hbm']
    simp [Tree.Repr]
  rw [hmark.hasLeaf_plug,hleaf,hc.hasLeaf_plug,Tree.HasLeaf,Tree.HasLeaf]
  simp only [Bool.false_eq_true,false_and,or_false,true_and]
  exact or_comm

/-- What `do_buddy_free` does to the bitmap: one block less is used, and the whole is one
block exactly when none is left. -/
theorem buddyMerge_clear (h : Describes bm t K 0) (hcompact : t.Compact)
    (hl : t.HasLeaf K 0 index o true) : ∃ bm' t', buddyMerge (2^K) (2^K)
        (update bm index {bm index with alloc := false}) index = some bm' ∧
      Describes bm' t' K 0 ∧ t'.Compact ∧
      (∀ j p, t'.HasLeaf K 0 j p true ↔ t.HasLeaf K 0 j p true ∧ j ≠ index) ∧
      (2^(bm' 0).order = 2^K ↔ ∀ j p, ¬t'.HasLeaf K 0 j p true) := by
  obtain ⟨c,rfl,hc⟩ := h.ctx_of_leaf hl
  have ho : (bm index).order = o := (h.of_leaf hl).2
  have hclear := DescribesCtx.setAlloc hc false
  obtain ⟨bm',hrun,hd⟩ := buddyMerge_describes (n := 2^K) hclear (by simp [ho])
    (lt_of_lt_of_le Nat.lt_two_pow_self (Nat.le_add_right _ _))
  have hcompact' := Ctx.compact_climb (k := o) (i := index) hcompact
  have hleaf : ∀ j p, ((c.climb o index).1.plug (.leaf false)).HasLeaf K 0 j p true ↔
      (c.plug (.leaf true)).HasLeaf K 0 j p true ∧ j ≠ index := by
    intro j p
    rw [hc.climb.hasLeaf_plug,Ctx.hasLeaf_climb,hc.hasLeaf_plug,Tree.HasLeaf,Tree.HasLeaf]
    constructor
    · rintro (hcl | ⟨hf,-⟩)
      · have hout := hc.outside hcl
        have hpos := Nat.two_pow_pos o
        have hpos' := Nat.two_pow_pos p
        exact ⟨.inl hcl,by omega⟩
      · cases hf
    rintro ⟨hcl | ⟨-,hj,-⟩,hne⟩
    · exact .inl hcl
    · exact absurd hj hne
  refine ⟨bm',_,hrun,hd,hcompact',hleaf,?_,?_⟩
  · intro hroot j p hj
    have hK : (bm' 0).order = K := Nat.pow_right_injective (le_refl 2) hroot
    -- the block at the first cell is the whole region, so it is the used one
    obtain ⟨o',v,hfirst⟩ := hd.first
    have ho' : o' = K := (hd.of_leaf hfirst).2.symm.trans hK
    subst ho'
    have hj0 : j = 0 := by
      by_contra hne
      have hdis := hfirst.disjoint hj (Ne.symm hne)
      have hb := hj.bounds
      have hpos := Nat.two_pow_pos p
      omega
    subst hj0
    have hp : p = o' := (hd.of_leaf hj).2.symm.trans hK
    subst hp
    obtain ⟨hold,hne⟩ := (hleaf 0 p).mp hj
    have hdis := hold.disjoint hl hne
    have hb := hl.bounds
    have hpos := Nat.two_pow_pos o
    omega
  intro hnone
  have hroot := hcompact'.eq_leaf hd hnone
  rw [hroot] at hd
  have hK : (bm' 0).order = K := hd.2
  rw [hK]

lemma buddySearch_empty (alignMask : Nat) (h : bm 0 = ⟨false,K⟩) (ho : order ≤ K) :
    buddySearch bm (2^K) order alignMask 0 (2^K) = 0 := by
  have hpos := Nat.two_pow_pos K
  have hno : ¬((bm 0).alloc = true ∨ 0 &&& alignMask ≠ 0 ∨ (bm 0).order < order) := by
    simp [h,ho]
  unfold buddySearch
  rw [if_pos hpos]
  dsimp only
  rw [if_neg hno,if_pos (Or.inl rfl),h]
  split
  · rfl
  unfold buddySearch
  simp

lemma orderOf_spec {len : Nat} (hpos : 0 < len) (hle : len ≤ 2^(s+6)) :
    len ≤ 2^(orderOf len s+s) ∧ orderOf len s ≤ 6 := by
  have hs := Nat.two_pow_pos s
  have hdiv := Nat.div_add_mod (len+2^s-1) (2^s)
  unfold orderOf
  generalize hq : (len+2^s-1)/2^s = q at hdiv ⊢
  have hlen : len ≤ 2^s*q := by omega
  have hq64 : q ≤ 64 := by
    rw [← hq]
    apply Nat.le_of_lt_succ
    rw [Nat.div_lt_iff_lt_mul hs]
    rw [pow_add] at hle
    omega
  have hq0 : 0 < q := by
    rw [← hq]
    exact Nat.div_pos (by omega) hs
  rw [show (2*q+4294967295)%4294967296 = 2*q-1 by omega]
  have hne : 2*q-1 ≠ 0 := by omega
  have hlow := (Nat.log2_lt hne).mp (Nat.lt_succ_self _)
  constructor
  · refine hlen.trans ?_
    rw [pow_add,mul_comm]
    apply Nat.mul_le_mul_right
    omega
  apply Nat.le_of_lt_succ
  rw [Nat.log2_lt hne]
  omega

lemma orderOf_whole : orderOf (2^(s+7)) s = 7 := by
  have hs := Nat.two_pow_pos s
  have hq : (2^(s+7)+2^s-1)/2^s = 128 := by
    rw [Nat.pow_add,Nat.add_sub_assoc hs,Nat.mul_add_div hs,Nat.div_eq_of_lt (by omega)]
  rw [orderOf,hq]
  decide

lemma dvd_of_alignMask {align : Nat} (ha : Align.IsPow2 align)
    (h : best &&& ((max align (2^s) >>> s)-1) = 0) : align ∣ best*2^s := by
  obtain ⟨a,-,rfl⟩ := ha
  rcases le_total a s with hle | hle
  · exact (pow_dvd_pow 2 hle).trans (dvd_mul_left _ _)
  have hmax : max (2^a) (2^s) = 2^a := max_eq_left (Nat.pow_le_pow_right (by omega) hle)
  rw [hmax,Nat.shiftRight_eq_div_pow,Nat.pow_div hle (by omega), Nat.and_two_pow_sub_one_eq_mod] at h
  have hsplit : 2^a = 2^(a-s)*2^s := by rw [← pow_add,Nat.sub_add_cancel hle]
  rw [hsplit]
  exact Nat.mul_dvd_mul_right (Nat.dvd_of_mod_eq_zero h) _

end LinuxToradex.Nvmap
