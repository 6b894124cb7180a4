import LinuxToradex.Nvmap.ListHeap
import LinuxToradex.Nvmap.SubHeap

/-! Every block of the list that is not free was handed out or is the block of a sub-heap; every used block of a
sub-heap was handed out. -/
namespace LinuxToradex.Nvmap
open List Function Tiling Buddy Nat

structure Live where
  block : HeapBlock
  len : Nat
  align : Nat
  deriving DecidableEq

structure Carveout where
  heap : NvmapHeap
  live : List Live

namespace NvmapHeap

variable {h : NvmapHeap} {bh : BuddyId}

def cellBase (h : NvmapHeap) (bh : BuddyId) (j : Nat) : Nat :=
  (h.block (h.buddy bh).heapBase).base+j*2^h.minBuddyShift

/-- Sub-heaps are powers of two of 128 cells, and at least the minimal size. -/
structure Config (h : NvmapHeap) : Prop where
  pow2 : h.buddyHeapSize ≠ 0 → Align.IsPow2 h.buddyHeapSize
  min : h.buddyHeapSize ≠ 0 → heapMinBuddySize ≤ h.buddyHeapSize
  cells : h.buddyHeapSize ≠ 0 → h.buddyHeapSize = 2^(h.minBuddyShift+7)

structure SubInv (h : NvmapHeap) (live : List Live) (t : Tree) (bh : BuddyId) : Prop where
  nonzero : h.buddyHeapSize ≠ 0
  nr : (h.buddy bh).nrBuddies = 128
  size : h.buddyHeapSize ≤ (h.block (h.buddy bh).heapBase).size
  dvd : h.buddyHeapSize ∣ (h.block (h.buddy bh).heapBase).base
  describes : Describes (h.buddy bh).bitmap t 7 0
  compact : t.Compact
  leaf_live : ∀ j o, t.HasLeaf 7 0 j o true →
    ∃ x ∈ live, x.block = .buddy bh (h.cellBase bh j)
  live_leaf : ∀ x ∈ live, ∀ a, x.block = .buddy bh a → ∃ j o, t.HasLeaf 7 0 j o true ∧
    a = h.cellBase bh j ∧ x.len ≤ 2^(o+h.minBuddyShift) ∧ x.align ∣ a

lemma SubInv.congr {h' : NvmapHeap} {live live' : List Live} {t : Tree} (hs : h.SubInv live t bh)
    (hbuddy : h'.buddy bh = h.buddy bh) (hblock : h'.block (h.buddy bh).heapBase = h.block (h.buddy bh).heapBase)
    (hsize : h'.buddyHeapSize = h.buddyHeapSize) (hshift : h'.minBuddyShift = h.minBuddyShift)
    (hlive : ∀ x : Live, (∃ a, x.block = .buddy bh a) → (x ∈ live' ↔ x ∈ live)) : h'.SubInv live' t bh := by
  have hcell : ∀ j, h'.cellBase bh j = h.cellBase bh j := by
    intro j
    rw [cellBase,cellBase,hbuddy,hblock,hshift]
  refine ⟨by rw [hsize]; exact hs.nonzero,by rw [hbuddy]; exact hs.nr,?_,?_,?_,hs.compact, ?_,?_⟩
  · rw [hbuddy,hblock,hsize]
    exact hs.size
  · rw [hbuddy,hblock,hsize]
    exact hs.dvd
  · rw [hbuddy]
    exact hs.describes
  · intro j o hj
    obtain ⟨x,hx,hb⟩ := hs.leaf_live j o hj
    exact ⟨x,(hlive x ⟨_,hb⟩).mpr hx,by rw [hcell]; exact hb⟩
  intro x hx a hb
  rw [hshift]
  simp only [hcell]
  exact hs.live_leaf x ((hlive x ⟨a,hb⟩).mp hx) a hb

lemma SubInv.setBitmap {live live' : List Live} {t t' : Tree} {bm : Nat → BuddyBits}
    (hs : h.SubInv live t bh) (hd : Describes bm t' 7 0) (hc : t'.Compact)
    (hleaf : ∀ j o, t'.HasLeaf 7 0 j o true → ∃ x ∈ live', x.block = .buddy bh (h.cellBase bh j))
    (hlive : ∀ x ∈ live', ∀ a, x.block = .buddy bh a →
      ∃ j o, t'.HasLeaf 7 0 j o true ∧ a = h.cellBase bh j ∧ x.len ≤ 2^(o+h.minBuddyShift) ∧ x.align ∣ a) :
    (h.setBitmap bh bm).SubInv live' t' bh := by
  have hbuddy : (h.setBitmap bh bm).buddy bh = {h.buddy bh with bitmap := bm} :=
    update_self ..
  have hcell : ∀ j, (h.setBitmap bh bm).cellBase bh j = h.cellBase bh j := by
    intro j
    rw [cellBase,hbuddy]
    rfl
  refine ⟨hs.nonzero,?_,?_,?_,?_,hc,?_,?_⟩
  · rw [hbuddy]
    exact hs.nr
  · rw [hbuddy]
    exact hs.size
  · rw [hbuddy]
    exact hs.dvd
  · rw [hbuddy]
    exact hd
  · simp only [hcell]
    exact hleaf
  simp only [hcell]
  exact hlive

lemma cellBase_inj {i j : Nat} (he : h.cellBase bh i = h.cellBase bh j) : i = j :=
  eq_of_mul_eq_mul_right (Nat.two_pow_pos _) (add_left_cancel he)

end NvmapHeap

namespace Carveout

variable {x : Live} {len align prot : Nat}
variable {l : ListHeap} {bh : BuddyId} {live : List Live}

/-- The heap from `lo` to `hi` and its live blocks; `tree` are the blocks of the sub-heaps. -/
structure Inv (c : Carveout) (lo hi : Nat) (tree : BuddyId → Tree) : Prop where
  list : c.heap.toListHeap.Inv lo hi
  config : c.heap.Config
  nodup : (c.live.map Live.block).Nodup
  buddies : c.heap.buddyList.Nodup
  below : ∀ bh ∈ c.heap.buddyList, bh < c.heap.nextBuddy
  owner : ∀ i, c.heap.Allocated i ↔ (∃ x ∈ c.live, x.block = .list i) ∨
    ∃ bh ∈ c.heap.buddyList, (c.heap.buddy bh).heapBase = i
  unique : ∀ x ∈ c.live, ∀ bh ∈ c.heap.buddyList, x.block ≠ .list (c.heap.buddy bh).heapBase
  base_inj : ∀ bh ∈ c.heap.buddyList, ∀ bh' ∈ c.heap.buddyList,
    (c.heap.buddy bh).heapBase = (c.heap.buddy bh').heapBase → bh = bh'
  fits : ∀ x ∈ c.live, ∀ i, x.block = .list i →
    x.len ≤ (c.heap.block i).size ∧ x.align ∣ (c.heap.block i).base
  subs : ∀ bh ∈ c.heap.buddyList, c.heap.SubInv c.live (tree bh) bh
  listed : ∀ x ∈ c.live, ∀ bh a, x.block = .buddy bh a → bh ∈ c.heap.buddyList

def Busy (c : Carveout) (tree : BuddyId → Tree) : Prop :=
  ∀ bh ∈ c.heap.buddyList, ∃ j o, (tree bh).HasLeaf 7 0 j o true

variable {c : Carveout} {lo hi : Nat} {tree : BuddyId → Tree}

lemma Inv.allocated_base (h : c.Inv lo hi tree) (hb : bh ∈ c.heap.buddyList) :
    c.heap.Allocated (c.heap.buddy bh).heapBase :=
  (h.owner _).mpr (.inr ⟨bh,hb,rfl⟩)

lemma mem_cons_of_other {y : Live} (hy : ∀ a, y.block ≠ .buddy bh a)
    (hx : ∃ a, x.block = .buddy bh a) : x ∈ y::live ↔ x ∈ live := by
  obtain ⟨a,ha⟩ := hx
  rw [mem_cons,or_iff_right]
  rintro rfl
  exact hy a ha

section ListCalls

variable {b : BlockId}

lemma Inv.taken_same (h : c.Inv lo hi tree) {front rear : Option BlockId}
    (ht : c.heap.toListHeap.Taken l b front rear) {i : BlockId} (hi : c.heap.Allocated i) :
    i ≠ b ∧ l.block i = c.heap.block i := by
  obtain ⟨f1,f2,hfree,-⟩ := ht.free
  have hne : i ≠ b := by
    rintro rfl
    exact hi.2 (by rw [hfree]; simp)
  exact ⟨hne,ht.same i (h.list.below i hi.1) hne⟩

/-- `do_heap_alloc` for a block that is handed out. -/
theorem Inv.listAlloc (h : c.Inv lo hi tree) {len' align' : Nat} {k : SplitMem}
    (ha : c.heap.toListHeap.Alloc l b len' align' prot k) (hlen : len ≤ len') (halign : align ∣ align') :
    Inv ⟨{c.heap with toListHeap := l},⟨.list b,len,align⟩::c.live⟩ lo hi tree := by
  obtain ⟨front,rear,ht⟩ := ha.taken
  have hnew : ¬c.heap.Allocated b := fun hb => (h.taken_same ht hb).1 rfl
  have hlive : ∀ x ∈ c.live, x.block ≠ .list b := by
    intro x hx hb
    exact hnew ((h.owner b).mpr (.inl ⟨x,hx,hb⟩))
  refine ⟨ht.inv h.list,⟨h.config.pow2,h.config.min,h.config.cells⟩,?_,h.buddies,h.below,?_,?_,h.base_inj,?_,?_,?_⟩
  · refine nodup_cons.mpr ⟨?_,h.nodup⟩
    intro hin
    obtain ⟨x,hx,hb⟩ := mem_map.mp hin
    exact hlive x hx hb
  · intro i
    refine (ht.allocated_iff h.list i).trans ?_
    rw [h.owner i]
    simp only [mem_cons,exists_eq_or_imp,HeapBlock.list.injEq]
    grind
  · refine forall_mem_cons.mpr ⟨fun bh hbh he => ?_,h.unique⟩
    exact hnew (HeapBlock.list.inj he ▸ h.allocated_base hbh)
  · intro x hx i hi
    rcases mem_cons.mp hx with rfl | hx
    · cases hi
      exact ⟨hlen.trans ha.len_le,halign.trans ha.dvd⟩
    have hsame := (h.taken_same ht ((h.owner i).mpr (.inl ⟨x,hx,hi⟩))).2
    simp only [hsame]
    exact h.fits x hx i hi
  · intro bh hbh
    refine (h.subs bh hbh).congr rfl (h.taken_same ht (h.allocated_base hbh)).2 rfl rfl ?_
    intro x hx
    exact mem_cons_of_other (by simp) hx
  exact forall_mem_cons.mpr ⟨fun _ _ hb => (by cases hb),h.listed⟩

/-- `do_heap_free` of a live block of the list. -/
theorem Inv.listFree (h : c.Inv lo hi tree) {into : BlockId}
    (hr : c.heap.toListHeap.Released l b into lo hi) (hb : ∃ x ∈ c.live, x.block = .list b) :
    Inv ⟨{c.heap with toListHeap := l},c.live.filter fun y => decide (y.block ≠ .list b)⟩ lo hi tree := by
  obtain ⟨y,hy,hyb⟩ := hb
  have hbase : ∀ bh ∈ c.heap.buddyList, (c.heap.buddy bh).heapBase ≠ b := by
    rintro bh hbh rfl
    exact h.unique y hy bh hbh hyb
  refine ⟨hr.inv,⟨h.config.pow2,h.config.min,h.config.cells⟩,?_,h.buddies,h.below,?_,?_,h.base_inj,?_,?_,?_⟩
  · exact h.nodup.sublist (filter_sublist.map _)
  · intro i
    refine (hr.allocated_iff i).trans ?_
    rw [h.owner i]
    constructor
    · rintro ⟨⟨x,hx,hxi⟩ | hbh,hne⟩
      · refine .inl ⟨x,mem_filter.mpr ⟨hx,?_⟩,hxi⟩
        rw [hxi]
        simp [hne]
      · exact .inr hbh
    rintro (⟨x,hx,hxi⟩ | ⟨bh,hbh,rfl⟩)
    · obtain ⟨hx,hne⟩ := mem_filter.mp hx
      rw [hxi,decide_eq_true_iff] at hne
      exact ⟨.inl ⟨x,hx,hxi⟩,fun he => hne (he ▸ rfl)⟩
    · exact ⟨.inr ⟨bh,hbh,rfl⟩,hbase bh hbh⟩
  · intro x hx bh hbh
    exact h.unique x (mem_of_mem_filter hx) bh hbh
  · intro x hx i hi
    obtain ⟨hx,hne⟩ := mem_filter.mp hx
    rw [hi,decide_eq_true_iff] at hne
    have hsame := hr.same i (fun he => hne (he ▸ rfl)) ((h.owner i).mpr (.inl ⟨x,hx,hi⟩))
    simp only [hsame]
    exact h.fits x hx i hi
  · intro bh hbh
    refine (h.subs bh hbh).congr rfl (hr.same _ (hbase bh hbh) (h.allocated_base hbh)) rfl rfl ?_
    rintro x ⟨b,hb⟩
    rw [mem_filter,and_iff_left]
    simp [hb]
  intro x hx bh a hb
  exact h.listed x (mem_of_mem_filter hx) bh a hb

end ListCalls

section BuddyCalls

variable {bm : Nat → BuddyBits} {t : Tree}

section
variable (h : c.Inv lo hi tree)
include h

/-- A sub-heap gets another bitmap, and the live blocks change only inside of it. -/
theorem Inv.setBitmap (hbh : bh ∈ c.heap.buddyList)
    (hsub : (c.heap.setBitmap bh bm).SubInv live t bh) (hnodup : (live.map Live.block).Nodup)
    (hlive : ∀ x : Live, (∀ a, x.block ≠ .buddy bh a) → (x ∈ live ↔ x ∈ c.live)) :
    Inv ⟨c.heap.setBitmap bh bm,live⟩ lo hi (update tree bh t) := by
  have hbase : ∀ b, ((c.heap.setBitmap bh bm).buddy b).heapBase = (c.heap.buddy b).heapBase := by
    intro b
    by_cases hb : b = bh
    · subst hb
      simp [NvmapHeap.setBitmap]
    · simp [NvmapHeap.setBitmap,hb]
  have hlist : ∀ (x : Live) (i : BlockId), x.block = .list i → (x ∈ live ↔ x ∈ c.live) := by
    intro x i hi
    exact hlive x (by simp [hi])
  refine ⟨h.list,⟨h.config.pow2,h.config.min,h.config.cells⟩,hnodup,h.buddies,h.below, ?_,?_,?_,?_,?_,?_⟩
  · intro i
    refine (h.owner i).trans ?_
    simp only [hbase]
    refine or_congr_left ⟨?_,?_⟩
    · rintro ⟨x,hx,hi⟩
      exact ⟨x,(hlist x i hi).mpr hx,hi⟩
    rintro ⟨x,hx,hi⟩
    exact ⟨x,(hlist x i hi).mp hx,hi⟩
  · intro x hx b hb he
    rw [hbase] at he
    exact h.unique x ((hlist x _ he).mp hx) b hb he
  · intro b hb b' hb' he
    rw [hbase,hbase] at he
    exact h.base_inj b hb b' hb' he
  · intro x hx i hi
    exact h.fits x ((hlist x i hi).mp hx) i hi
  · intro b hb
    by_cases hne : b = bh
    · subst hne
      rw [update_self]
      exact hsub
    rw [update_of_ne hne]
    refine (h.subs b hb).congr (update_of_ne hne _ _) rfl rfl rfl ?_
    rintro x ⟨a,ha⟩
    refine hlive x fun a' ha' => hne ?_
    rw [ha] at ha'
    exact (HeapBlock.buddy.inj ha').1
  intro x hx b a ha
  by_cases hne : b = bh
  · subst hne
    exact hbh
  refine h.listed x ((hlive x fun a' ha' => hne ?_).mp hx) b a ha
  rw [ha] at ha'
  exact (HeapBlock.buddy.inj ha').1

/-- `buddy_alloc` in a sub-heap of the list, for a size and an alignment it can serve. -/
theorem Inv.buddyAlloc (hbh : bh ∈ c.heap.buddyList) {ok : Bool} (hpos : 0 < len)
    (hlen : len ≤ c.heap.buddyHeapSize/2) (ha : Align.IsPow2 align)
    (halign : align ≤ c.heap.buddyHeapSize) {h' : NvmapHeap} {b : HeapBlock}
    (hrun : c.heap.buddyAlloc bh len align prot ok = (h',some b)) :
    ∃ t, Inv ⟨h',⟨b,len,align⟩::c.live⟩ lo hi (update tree bh t) ∧
      h'.buddyList = c.heap.buddyList ∧ ∃ j o, t.HasLeaf 7 0 j o true := by
  have hsub := h.subs bh hbh
  have hcells := h.config.cells hsub.nonzero
  unfold NvmapHeap.buddyAlloc at hrun
  dsimp only at hrun
  split at hrun
  · cases hrun
  split at hrun
  · cases hrun
  rename_i hfound
  rw [not_or,hsub.nr] at hfound
  obtain ⟨rfl,hb⟩ := Prod.mk.inj hrun
  cases hb
  rw [hsub.nr] at *
  have hsuit : Suitable (tree bh) 7 (orderOf len c.heap.minBuddyShift)
      ((max align (2^c.heap.minBuddyShift) >>> c.heap.minBuddyShift)-1)
      (buddySearch (c.heap.buddy bh).bitmap 128 (orderOf len c.heap.minBuddyShift)
        ((max align (2^c.heap.minBuddyShift) >>> c.heap.minBuddyShift)-1) 0 128) :=
    (buddySearch_suitable (K := 7) hsub.describes (.inr hsub.describes.first) (.inl rfl)).resolve_left hfound.1
  generalize buddySearch _ _ _ _ _ _ = best at hsuit hfound ⊢
  obtain ⟨t',hd',hc',hleaf⟩ := buddySplit_mark hsub.describes hsub.compact hsuit
  obtain ⟨o,hbest,-,hmask⟩ := hsuit
  have hcell : (c.heap.block (c.heap.buddy bh).heapBase).base+best <<< c.heap.minBuddyShift =
      c.heap.cellBase bh best := by rw [NvmapHeap.cellBase,shiftLeft_eq]
  have hfree : ∀ p, ¬(tree bh).HasLeaf 7 0 best p true := by
    intro p hp
    have hu := (hsub.describes.of_leaf hp).1
    have hf := (hsub.describes.of_leaf hbest).1
    exact nomatch hu.symm.trans hf
  have horder := orderOf_spec (s := c.heap.minBuddyShift) hpos (by
    rw [hcells,Nat.pow_succ,Nat.mul_div_cancel _ (by omega)] at hlen
    exact hlen)
  have hdvd : align ∣ c.heap.cellBase bh best := by
    refine Nat.dvd_add ?_ (dvd_of_alignMask ha hmask)
    exact (ha.dvd_of_le (h.config.pow2 hsub.nonzero) halign).trans hsub.dvd
  rw [hcell]
  refine ⟨t',h.setBitmap hbh (hsub.setBitmap hd' hc' ?_ ?_) ?_ ?_,rfl,best,_, (hleaf _ _).mpr (.inl ⟨rfl,rfl⟩)⟩
  · intro j p hj
    rcases (hleaf j p).mp hj with ⟨rfl,-⟩ | hj
    · exact ⟨_,mem_cons_self,rfl⟩
    obtain ⟨x,hx,hb⟩ := hsub.leaf_live j p hj
    exact ⟨x,mem_cons_of_mem _ hx,hb⟩
  · intro x hx a hb
    rcases mem_cons.mp hx with rfl | hx
    · cases hb
      exact ⟨best,_,(hleaf _ _).mpr (.inl ⟨rfl,rfl⟩),rfl,horder.1,hdvd⟩
    obtain ⟨j,p,hj,hrest⟩ := hsub.live_leaf x hx a hb
    exact ⟨j,p,(hleaf j p).mpr (.inr hj),hrest⟩
  · refine nodup_cons.mpr ⟨?_,h.nodup⟩
    intro hin
    obtain ⟨x,hx,hb⟩ := mem_map.mp hin
    obtain ⟨j,p,hj,he,-⟩ := hsub.live_leaf x hx _ hb
    rw [NvmapHeap.cellBase_inj he] at hfree
    exact hfree p hj
  intro x hx
  rw [mem_cons,or_iff_right]
  rintro rfl
  exact hx _ rfl

/-- `do_buddy_free` of a live block of a sub-heap. -/
theorem Inv.doBuddyFree (hx : x ∈ c.live) {a : Nat} (hb : x.block = .buddy bh a) :
    ∃ h' t empty, c.heap.doBuddyFree bh a = some (h',empty) ∧
      Inv ⟨h',c.live.filter fun y => decide (y.block ≠ .buddy bh a)⟩ lo hi (update tree bh t) ∧
      h'.buddyList = c.heap.buddyList ∧ (empty = true ↔ ∀ j o, ¬t.HasLeaf 7 0 j o true) := by
  have hbh := h.listed x hx bh a hb
  have hsub := h.subs bh hbh
  obtain ⟨index,o,hl,rfl,-⟩ := hsub.live_leaf x hx a hb
  obtain ⟨bm',t',hrun,hd',hc',hleaf,hempty⟩ :=
    buddyMerge_clear hsub.describes hsub.compact hl
  have hindex : (c.heap.cellBase bh index-(c.heap.block (c.heap.buddy bh).heapBase).base) >>>
      c.heap.minBuddyShift = index := by
    rw [NvmapHeap.cellBase,Nat.add_sub_cancel_left,shiftRight_eq_div_pow, Nat.mul_div_cancel _ (Nat.two_pow_pos _)]
  have hrun' : buddyMerge 128 128 (update (c.heap.buddy bh).bitmap index
      {(c.heap.buddy bh).bitmap index with alloc := false}) index = some bm' := hrun
  refine ⟨c.heap.setBitmap bh bm',t',decide (2^(bm' 0).order = 128),?_,?_,rfl,?_⟩
  · unfold NvmapHeap.doBuddyFree
    dsimp only
    rw [hindex,hsub.nr,hrun']
    rfl
  · refine h.setBitmap hbh (hsub.setBitmap hd' hc' ?_ ?_) ?_ ?_
    · intro j p hj
      obtain ⟨hj,hne⟩ := (hleaf j p).mp hj
      obtain ⟨y,hy,hyb⟩ := hsub.leaf_live j p hj
      refine ⟨y,mem_filter.mpr ⟨hy,?_⟩,hyb⟩
      rw [hyb,decide_eq_true_iff]
      intro he
      exact hne (NvmapHeap.cellBase_inj (HeapBlock.buddy.inj he).2)
    · intro y hy a hyb
      obtain ⟨hy,hne⟩ := mem_filter.mp hy
      obtain ⟨j,p,hj,ha,hrest⟩ := hsub.live_leaf y hy a hyb
      refine ⟨j,p,(hleaf j p).mpr ⟨hj,?_⟩,ha,hrest⟩
      rintro rfl
      rw [hyb,ha] at hne
      simp at hne
    · exact h.nodup.sublist (filter_sublist.map _)
    intro y hy
    rw [mem_filter,and_iff_left]
    rw [decide_eq_true_iff]
    exact hy _
  rw [decide_eq_true_iff]
  exact hempty

/-- A block of the list becomes a new sub-heap. -/
theorem Inv.addBuddy {b : BlockId} {k : SplitMem}
    (ha : c.heap.toListHeap.Alloc l b len align prot k) (hlen : c.heap.buddyHeapSize ≤ len)
    (halign : c.heap.buddyHeapSize ∣ align) (hnonzero : c.heap.buddyHeapSize ≠ 0) :
    Inv ⟨({ c.heap with toListHeap := l } : NvmapHeap).addBuddy b,c.live⟩ lo hi
      (update tree c.heap.nextBuddy (.leaf false)) := by
  obtain ⟨front,rear,ht⟩ := ha.taken
  have hnew : ¬ c.heap.Allocated b := fun hb => (h.taken_same ht hb).1 rfl
  have hcells := h.config.cells hnonzero
  have hout : c.heap.nextBuddy ∉ c.heap.buddyList := fun hin => Nat.lt_irrefl _ (h.below _ hin)
  have hne : ∀ bh ∈ c.heap.buddyList, bh ≠ c.heap.nextBuddy := fun bh hbh =>
    Nat.ne_of_lt (h.below bh hbh)
  have hold : ∀ bh ∈ c.heap.buddyList,
      (({ c.heap with toListHeap := l } : NvmapHeap).addBuddy b).buddy bh = c.heap.buddy bh :=
    fun bh hbh => update_of_ne (hne bh hbh) _ _
  have hself : ((({ c.heap with toListHeap := l } : NvmapHeap).addBuddy b).buddy
      c.heap.nextBuddy) = { heapBase := b
                            nrBuddies := c.heap.buddyHeapSize >>> c.heap.minBuddyShift
                            bitmap := update (fun _ => ⟨false,0⟩) 0
                              ⟨false,orderOf c.heap.buddyHeapSize c.heap.minBuddyShift⟩ } :=
    update_self ..
  have hmem : ∀ bh, bh ∈ (({ c.heap with toListHeap := l } : NvmapHeap).addBuddy b).buddyList ↔
      bh ∈ c.heap.buddyList ∨ bh = c.heap.nextBuddy := by
    intro bh
    simp [NvmapHeap.addBuddy]
  have hlive : ∀ x ∈ c.live, ∀ a, x.block ≠ .buddy c.heap.nextBuddy a := by
    intro x hx a hb
    exact hout (h.listed x hx _ a hb)
  refine ⟨ht.inv h.list,⟨h.config.pow2,h.config.min,h.config.cells⟩,h.nodup,?_,?_,?_,?_, ?_,?_,?_,?_⟩
  · refine nodup_append.mpr ⟨h.buddies,nodup_singleton _,?_⟩
    intro x hx y hy
    rw [mem_singleton.mp hy]
    exact hne x hx
  · intro bh hbh
    rcases (hmem bh).mp hbh with hbh | rfl
    · exact lt_succ_of_lt (h.below bh hbh)
    · exact lt_succ_self _
  · intro i
    refine (ht.allocated_iff h.list i).trans ?_
    rw [h.owner i]
    constructor
    · rintro (rfl | hx | ⟨bh,hbh,rfl⟩)
      · exact .inr ⟨_,(hmem _).mpr (.inr rfl),by rw [hself]⟩
      · exact .inl hx
      · exact .inr ⟨bh,(hmem bh).mpr (.inl hbh),by rw [hold bh hbh]⟩
    rintro (hx | ⟨bh,hbh,rfl⟩)
    · exact .inr (.inl hx)
    · rcases (hmem bh).mp hbh with hbh | rfl
      · exact .inr (.inr ⟨bh,hbh,by rw [hold bh hbh]⟩)
      · exact .inl (by rw [hself])
  · intro x hx bh hbh
    rcases (hmem bh).mp hbh with hbh | rfl
    · rw [hold bh hbh]
      exact h.unique x hx bh hbh
    · rw [hself]
      intro hb
      exact hnew ((h.owner b).mpr (.inl ⟨x,hx,hb⟩))
  · intro bh hbh bh' hbh' he
    rcases (hmem bh).mp hbh with hbh | rfl <;> rcases (hmem bh').mp hbh' with hbh' | rfl
    · rw [hold bh hbh,hold bh' hbh'] at he
      exact h.base_inj bh hbh bh' hbh' he
    · rw [hold bh hbh,hself] at he
      change (c.heap.buddy bh).heapBase = b at he
      exact absurd (he ▸ h.allocated_base hbh) hnew
    · rw [hold bh' hbh',hself] at he
      change b = (c.heap.buddy bh').heapBase at he
      exact absurd (he.symm ▸ h.allocated_base hbh') hnew
    · rfl
  · intro x hx i hi
    have hsame := (h.taken_same ht ((h.owner i).mpr (.inl ⟨x,hx,hi⟩))).2
    change x.len ≤ (l.block i).size ∧ x.align ∣ (l.block i).base
    rw [hsame]
    exact h.fits x hx i hi
  · intro bh hbh
    rcases (hmem bh).mp hbh with hbh | rfl
    · rw [update_of_ne (hne bh hbh)]
      exact (h.subs bh hbh).congr (hold bh hbh) (h.taken_same ht (h.allocated_base hbh)).2 rfl rfl
        fun _ _ => Iff.rfl
    rw [update_self]
    refine ⟨hnonzero,?_,?_,?_,?_,trivial,?_,?_⟩
    · rw [hself,hcells,shiftRight_eq_div_pow,Nat.pow_add, Nat.mul_div_cancel_left _ (Nat.two_pow_pos _)]
    · rw [hself]
      exact hlen.trans ha.len_le
    · rw [hself]
      exact halign.trans ha.dvd
    · rw [hself,hcells,orderOf_whole]
      simp [Describes,Tree.Repr]
    · rintro j o ⟨hf,-⟩
      cases hf
    · intro x hx a hb
      exact absurd hb (hlive x hx a)
  · intro x hx bh a hb
    exact (hmem bh).mpr (.inl (h.listed x hx bh a hb))

/-- The block of a sub-heap without used blocks goes back to the list. -/
theorem Inv.dropBuddy (hbh : bh ∈ c.heap.buddyList) (hempty : ∀ j o, ¬(tree bh).HasLeaf 7 0 j o true) {into : BlockId}
    (hr : c.heap.toListHeap.Released l (c.heap.buddy bh).heapBase into lo hi) :
    Inv ⟨{c.heap with toListHeap := l, buddyList := c.heap.buddyList.erase bh},c.live⟩ lo hi tree := by
  have hmem : ∀ b, b ∈ c.heap.buddyList.erase bh ↔ b ≠ bh ∧ b ∈ c.heap.buddyList := fun b =>
    h.buddies.mem_erase_iff
  have hne : ∀ b ∈ c.heap.buddyList.erase bh, (c.heap.buddy b).heapBase ≠ (c.heap.buddy bh).heapBase := by
    intro b hb he
    obtain ⟨hneq,hb⟩ := (hmem b).mp hb
    exact hneq (h.base_inj b hb bh hbh he)
  have hsub : ∀ b ∈ c.heap.buddyList.erase bh, b ∈ c.heap.buddyList := fun b hb =>
    ((hmem b).mp hb).2
  refine ⟨hr.inv,⟨h.config.pow2,h.config.min,h.config.cells⟩,h.nodup,h.buddies.erase bh,
    fun b hb => h.below b (hsub b hb),?_,fun x hx b hb => h.unique x hx b (hsub b hb),
    fun b hb b' hb' => h.base_inj b (hsub b hb) b' (hsub b' hb'),?_,?_,?_⟩
  · intro i
    refine (hr.allocated_iff i).trans ?_
    rw [h.owner i]
    constructor
    · rintro ⟨hx | ⟨b,hb,rfl⟩,hi⟩
      · exact .inl hx
      refine .inr ⟨b,(hmem b).mpr ⟨?_,hb⟩,rfl⟩
      rintro rfl
      exact hi rfl
    rintro (⟨x,hx,hi⟩ | ⟨b,hb,rfl⟩)
    · refine ⟨.inl ⟨x,hx,hi⟩,?_⟩
      rintro rfl
      exact h.unique x hx bh hbh hi
    · exact ⟨.inr ⟨b,hsub b hb,rfl⟩,hne b hb⟩
  · intro x hx i hi
    have hni : i ≠ (c.heap.buddy bh).heapBase := by
      rintro rfl
      exact h.unique x hx bh hbh hi
    have hsame := hr.same i hni ((h.owner i).mpr (.inl ⟨x,hx,hi⟩))
    simp only [hsame]
    exact h.fits x hx i hi
  · intro b hb
    exact (h.subs b (hsub b hb)).congr rfl
      (hr.same _ (hne b hb) (h.allocated_base (hsub b hb))) rfl rfl fun _ _ => Iff.rfl
  intro x hx b a hxb
  refine (hmem b).mpr ⟨?_,h.listed x hx b a hxb⟩
  rintro rfl
  obtain ⟨j,o,hj,-⟩ := (h.subs b hbh).live_leaf x hx a hxb
  exact hempty j o hj

end

end BuddyCalls

end Carveout

end LinuxToradex.Nvmap
