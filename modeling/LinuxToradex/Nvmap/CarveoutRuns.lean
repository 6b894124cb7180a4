import LinuxToradex.Nvmap.CarveoutInv

/-! The live blocks stay apart and inside of the carveout unless a descriptor is missing, a small block asks
for a larger alignment than that of the sub-heaps, or the rounded length wraps. -/
namespace LinuxToradex.Nvmap
open List Function Tiling Buddy Nat Option

namespace NvmapHeap

def rounding (h : NvmapHeap) (prot : Nat) : Nat :=
  if h.buddyHeapSize ≠ 0 then h.buddyHeapSize
  else if prot = handleCacheable ∨ prot = handleInnerCacheable then pageSize
  else 1

def span (h : NvmapHeap) : HeapBlock → Nat × Nat
  | .list b => ((h.block b).base,(h.block b).size)
  | .buddy bh base =>
    let heap := h.buddy bh
    let index := (base-(h.block heap.heapBase).base) >>> h.minBuddyShift
    (base,(2^(heap.bitmap index).order) <<< h.minBuddyShift)

def home (h : NvmapHeap) : HeapBlock → BlockId
  | .list b => b
  | .buddy bh _ => (h.buddy bh).heapBase

end NvmapHeap

namespace Carveout

variable {c : Carveout} {lo hi : Nat} {tree : BuddyId → Tree}
variable {len align prot l1CacheBytes a base buddySize : Nat} {x : Live}

def addLive (live : List Live) (len align : Nat) : Option HeapBlock → List Live
  | none => live
  | some b => ⟨b,len,align⟩::live

lemma tryBuddies_some {h h' : NvmapHeap} {ok : Nat → Bool} {bhs : List BuddyId} {n : Nat}
    {b : HeapBlock} (hrun : h.tryBuddies len align prot ok bhs n = some (h',b)) :
    ∃ bh ∈ bhs, ∃ ok, h.buddyAlloc bh len align prot ok = (h',some b) := by
  induction bhs generalizing n with
  | nil => cases hrun
  | cons bh rest ih =>
    unfold NvmapHeap.tryBuddies at hrun
    split at hrun
    · rename_i hb
      cases hrun
      exact ⟨bh,mem_cons_self,ok n,hb⟩
    obtain ⟨bh',hin,hb⟩ := ih hrun
    exact ⟨bh',mem_cons_of_mem _ hin,hb⟩

lemma buddyAlloc_addBuddy (h : NvmapHeap) (align : Nat) {b : BlockId} {ok : Bool}
    (hcells : h.buddyHeapSize = 2^(h.minBuddyShift+7)) (hpos : 0 < len)
    (hlen : len ≤ h.buddyHeapSize/2) (hprot : (h.block b).memProt = prot) (hok : ok = true) :
    ∃ h' blk, (h.addBuddy b).buddyAlloc h.nextBuddy len align prot ok = (h',some blk) := by
  have hself : (h.addBuddy b).buddy h.nextBuddy =
      { heapBase := b
        nrBuddies := h.buddyHeapSize >>> h.minBuddyShift
        bitmap := Function.update (fun _ => ⟨false,0⟩) 0
          ⟨false,orderOf h.buddyHeapSize h.minBuddyShift⟩ } := update_self ..
  have hnr : h.buddyHeapSize >>> h.minBuddyShift = 2^7 := by
    rw [hcells,shiftRight_eq_div_pow,pow_add, Nat.mul_div_cancel_left _ (Nat.two_pow_pos _)]
  have hhalf : h.buddyHeapSize/2 = 2^(h.minBuddyShift+6) := by
    rw [hcells,pow_succ,Nat.mul_div_cancel _ (by omega)]
  have horder := (orderOf_spec (s := h.minBuddyShift) hpos (hhalf ▸ hlen)).2
  have hempty : Function.update (fun _ => (⟨false,0⟩ : BuddyBits)) 0
      ⟨false,orderOf h.buddyHeapSize h.minBuddyShift⟩ 0 = ⟨false,7⟩ := by
    rw [update_self,hcells,orderOf_whole]
  have hsearch := buddySearch_empty ((max align (2^h.minBuddyShift) >>> h.minBuddyShift)-1)
    hempty (le_succ_of_le horder)
  unfold NvmapHeap.buddyAlloc
  rw [hself]
  dsimp only
  have hprot' : ((h.addBuddy b).block b).memProt = prot := hprot
  have hshift : (h.addBuddy b).minBuddyShift = h.minBuddyShift := rfl
  rw [if_neg (not_not.mpr hprot'),hnr,hshift,hsearch,if_neg (by simp [hok])]
  exact ⟨_,_,rfl⟩

lemma Busy.update {t : Tree} {bh : BuddyId}
    (hother : ∀ b ∈ c.heap.buddyList, b ≠ bh → ∃ j o, (tree b).HasLeaf 7 0 j o true)
    (ht : ∃ j o, t.HasLeaf 7 0 j o true) : c.Busy (Function.update tree bh t) := by
  intro b hb
  by_cases hne : b = bh
  · subst hne
    rwa [update_self]
  rw [update_of_ne hne]
  exact hother b hb hne

/-- `do_buddy_alloc`. -/
theorem Inv.doBuddyAlloc (h : c.Inv lo hi tree) (hbusy : c.Busy tree) (hhi : hi ≤ 4294967296)
    {k : Kmem} (hpos : 0 < len) (hlen : len ≤ c.heap.buddyHeapSize/2) (ha : Align.IsPow2 align)
    (halign : align ≤ c.heap.buddyHeapSize) (hhead : k.head = true) (hfirst : k.first = true) :
    ∃ h' r tree', c.heap.doBuddyAlloc len align prot k = some (h',r) ∧
      Inv ⟨h',addLive c.live len align r⟩ lo hi tree' ∧ Busy ⟨h',addLive c.live len align r⟩ tree' := by
  have hnonzero : c.heap.buddyHeapSize ≠ 0 := by omega
  unfold NvmapHeap.doBuddyAlloc
  split
  · rename_i h' b htry
    obtain ⟨bh,hbh,ok,hrun⟩ := tryBuddies_some htry
    obtain ⟨t,hinv,hlist,hleaf⟩ := h.buddyAlloc hbh hpos hlen ha halign hrun
    refine ⟨h',some b,_,rfl,hinv,?_⟩
    refine Busy.update (fun bh hb _ => ?_) hleaf
    exact hbusy bh (hlist ▸ hb)
  split
  · exact ⟨_,none,tree,rfl,h,hbusy⟩
  have hpow := h.config.pow2 hnonzero
  have hle : pageSize ≤ c.heap.buddyHeapSize :=
    (by decide : pageSize ≤ heapMinBuddySize).trans (h.config.min hnonzero)
  have hpage : Align.IsPow2 pageSize := ⟨12,by omega,rfl⟩
  have hreq := ListHeap.request_of_page prot (hpage.dvd_of_le hpow hle) hpow.lt hle
  rcases hfound : c.heap.toListHeap.found false c.heap.buddyHeapSize c.heap.buddyHeapSize prot 0
    with - | ⟨b,fixBase⟩
  · rw [ListHeap.doHeapAlloc_none hfound]
    exact ⟨_,none,tree,rfl,h,hbusy⟩
  obtain ⟨l,hrun,-,-,halloc⟩ := h.list.doHeapAlloc hhi (h.config.pow2 hnonzero)
    (by rw [hreq]; exact Nat.pos_of_ne_zero hnonzero) hhead hfound
  rw [hreq] at halloc
  rw [hrun]
  have hnew := h.addBuddy halloc (le_refl _) (dvd_refl _) hnonzero
  obtain ⟨h',blk,hblk⟩ := buddyAlloc_addBuddy {c.heap with toListHeap := l} align
    (h.config.cells hnonzero) hpos hlen halloc.memProt hfirst
  have hin : c.heap.nextBuddy ∈ (({c.heap with toListHeap := l} : NvmapHeap).addBuddy b).buddyList := by
    simp [NvmapHeap.addBuddy]
  obtain ⟨t,hinv,hlist,hleaf⟩ := hnew.buddyAlloc hin hpos hlen ha halign hblk
  refine ⟨h',some blk,_,congrArg some hblk,hinv,Busy.update (fun bh hb hne => ?_) hleaf⟩
  rw [update_of_ne hne]
  refine hbusy bh ?_
  have hmem : bh ∈ c.heap.buddyList++[c.heap.nextBuddy] := by
    rw [hlist] at hb
    exact hb
  simpa [hne] using hmem

lemma le_request {h : NvmapHeap} (align : Nat) (hc : h.Config) (hlen : len+(h.rounding prot-1) < 4294967296) :
    len ≤ (ListHeap.request (if h.buddyHeapSize ≠ 0 then Align.up len h.buddyHeapSize else len) align prot).1 := by
  have hpage : Align.IsPow2 pageSize := ⟨12,by omega,rfl⟩
  unfold ListHeap.request
  unfold NvmapHeap.rounding at hlen
  by_cases hsize : h.buddyHeapSize = 0
  · rw [if_neg (not_not.mpr hsize)] at hlen ⊢
    split
    · rename_i hprot
      rw [if_pos hprot] at hlen
      exact (Align.up_of_no_wrap hpage hlen).1
    · exact le_refl len
  rw [if_pos hsize] at hlen ⊢
  have hpow := hc.pow2 hsize
  obtain ⟨hle,hlt⟩ := Align.up_of_no_wrap hpow hlen
  have hdvd : pageSize ∣ Align.up len h.buddyHeapSize := by
    refine (hpage.dvd_of_le hpow ?_).trans (Align.dvd_up hpow)
    exact (by decide : pageSize ≤ heapMinBuddySize).trans (hc.min hsize)
  split
  · change len ≤ Align.up (Align.up len h.buddyHeapSize) pageSize
    rwa [Align.up_of_dvd hpage hdvd (by omega)]
  · exact hle

section
variable (h : c.Inv lo hi tree) (hbusy : c.Busy tree) (hhi : hi ≤ 4294967296)
include h hbusy hhi

lemma Inv.nvmapHeapAlloc (prot : Nat) {k : Kmem} (hl1 : Align.IsPow2 l1CacheBytes)
    (hpos : 0 < len) (ha : Align.IsPow2 align) (hhead : k.head = true) (hfirst : k.first = true)
    (halign : len ≤ c.heap.buddyHeapSize/2 → align ≤ c.heap.buddyHeapSize)
    (hwrap : c.heap.buddyHeapSize/2 < len → len+(c.heap.rounding prot-1) < 4294967296) :
    ∃ h' r tree', c.heap.nvmapHeapAlloc l1CacheBytes len align prot k = some (h',r) ∧
      Inv ⟨h',addLive c.live len align r⟩ lo hi tree' ∧ Busy ⟨h',addLive c.live len align r⟩ tree' := by
  unfold NvmapHeap.nvmapHeapAlloc
  split
  · next hsmall => exact h.doBuddyAlloc hbusy hhi hpos hsmall ha (halign hsmall) hhead hfirst
  next hsmall =>
  dsimp only
  have hle := le_request (max align l1CacheBytes) h.config (hwrap (Nat.lt_of_not_le hsmall))
  generalize (if c.heap.buddyHeapSize ≠ 0 then Align.up len c.heap.buddyHeapSize else len) = len' at hle ⊢
  have hmax := ha.max hl1
  rcases hfound : c.heap.toListHeap.found false len' (max align l1CacheBytes) prot 0 with - | ⟨b,fixBase⟩
  · rw [ListHeap.doHeapAlloc_none hfound]
    exact ⟨_,none,tree,rfl,h,hbusy⟩
  obtain ⟨l,hrun,-,-,halloc⟩ := h.list.doHeapAlloc hhi hmax (hpos.trans_le hle) hhead hfound
  rw [hrun]
  have hdvd : align ∣ (ListHeap.request len' (max align l1CacheBytes) prot).2 :=
    ha.dvd_of_le (ListHeap.request_pow2 _ _ hmax)
      ((le_max_left _ _).trans ListHeap.le_request_align)
  exact ⟨_,some (.list b),tree,rfl,h.listAlloc halloc hle hdvd,hbusy⟩

/-- `nvmap_heap_free` of a live block. -/
theorem Inv.nvmapHeapFree (hlen : hi < lo+4294967296) {b : HeapBlock} (hb : ∃ x ∈ c.live, x.block = b) :
    ∃ h' tree', c.heap.nvmapHeapFree b = some h' ∧
      Inv ⟨h',c.live.filter fun y => decide (y.block ≠ b)⟩ lo hi tree' ∧
      Busy ⟨h',c.live.filter fun y => decide (y.block ≠ b)⟩ tree' := by
  rcases b with b | ⟨bh,a⟩
  · obtain ⟨l,into,hrun,hr,-⟩ := h.list.doHeapFree hhi hlen ((h.owner b).mpr (.inl hb))
    refine ⟨_,tree,?_,h.listFree hr hb,hbusy⟩
    simp only [NvmapHeap.nvmapHeapFree,hrun,map_some]
  obtain ⟨x,hx,hxb⟩ := hb
  have hbh := h.listed x hx bh a hxb
  obtain ⟨h1,t,empty,hrun,hinv,hlist,hempty⟩ := h.doBuddyFree hx hxb
  unfold NvmapHeap.nvmapHeapFree
  dsimp only
  rw [hrun]
  have hother : ∀ b ∈ h1.buddyList, b ≠ bh → ∃ j o, (tree b).HasLeaf 7 0 j o true :=
    fun b hb _ => hbusy b (hlist ▸ hb)
  rcases empty with _ | _
  · refine ⟨h1,_,rfl,hinv,Busy.update hother ?_⟩
    by_contra hnone
    simp only [not_exists] at hnone
    exact absurd (hempty.mpr hnone) Bool.false_ne_true
  have hbh' : bh ∈ h1.buddyList := hlist ▸ hbh
  obtain ⟨l,into,hfree,hr,-⟩ := hinv.list.doHeapFree hhi hlen (hinv.allocated_base hbh')
  dsimp only at hfree ⊢
  rw [hfree]
  refine ⟨_,_,rfl,hinv.dropBuddy hbh' ?_ hr,?_⟩
  · rw [update_self]
    exact hempty.mp rfl
  intro b hb
  obtain ⟨hne,hb⟩ := hinv.buddies.mem_erase_iff.mp hb
  rw [update_of_ne hne]
  exact hother b hb hne

end

section
variable (h : c.Inv lo hi tree) (hx : x ∈ c.live)
include h hx

lemma Inv.span_buddy {bh : BuddyId} (hb : x.block = .buddy bh a) : ∃ j o, (tree bh).HasLeaf 7 0 j o true ∧
      c.heap.span x.block = (c.heap.cellBase bh j,2^(o+c.heap.minBuddyShift)) ∧
      x.len ≤ 2^(o+c.heap.minBuddyShift) ∧ x.align ∣ c.heap.cellBase bh j := by
  have hsub := h.subs bh (h.listed x hx bh a hb)
  obtain ⟨j,o,hj,rfl,hlen,halign⟩ := hsub.live_leaf x hx a hb
  refine ⟨j,o,hj,?_,hlen,halign⟩
  have hindex : (c.heap.cellBase bh j-(c.heap.block (c.heap.buddy bh).heapBase).base) >>>
      c.heap.minBuddyShift = j := by
    rw [NvmapHeap.cellBase,Nat.add_sub_cancel_left,shiftRight_eq_div_pow, Nat.mul_div_cancel _ (Nat.two_pow_pos _)]
  rw [hb,NvmapHeap.span,hindex,(hsub.describes.of_leaf hj).2,shiftLeft_eq,← pow_add]

lemma Inv.home_allocated : c.heap.Allocated (c.heap.home x.block) := by
  rcases hb : x.block with i | ⟨bh,a⟩
  · exact (h.owner i).mpr (.inl ⟨x,hx,hb⟩)
  · exact h.allocated_base (h.listed x hx bh a hb)

lemma Inv.span_home : (c.heap.block (c.heap.home x.block)).base ≤ (c.heap.span x.block).1 ∧
      (c.heap.span x.block).1+(c.heap.span x.block).2 ≤
        (c.heap.block (c.heap.home x.block)).base+(c.heap.block (c.heap.home x.block)).size := by
  rcases hb : x.block with i | ⟨bh,a⟩
  · exact ⟨le_refl _,le_refl _⟩
  have hsub := h.subs bh (h.listed x hx bh a hb)
  have hcells := h.config.cells hsub.nonzero
  obtain ⟨j,o,hj,hspan,-⟩ := h.span_buddy hx hb
  have hend : (j+2^o)*2^c.heap.minBuddyShift ≤ 2^7*2^c.heap.minBuddyShift := by
    have hbounds := hj.bounds
    exact Nat.mul_le_mul_right _ (by omega)
  have hsize := hsub.size
  rw [hcells,add_comm,pow_add] at hsize
  rw [← hb,hspan,hb]
  dsimp only [NvmapHeap.home,NvmapHeap.cellBase]
  rw [pow_add]
  rw [add_mul] at hend
  omega

/-- Live blocks do not overlap. -/
theorem Inv.span_disjoint {y : Live} (hy : y ∈ c.live) (hne : x.block ≠ y.block) :
    (c.heap.span x.block).1+(c.heap.span x.block).2 ≤ (c.heap.span y.block).1 ∨
      (c.heap.span y.block).1+(c.heap.span y.block).2 ≤ (c.heap.span x.block).1 := by
  have hxs := h.span_home hx
  have hys := h.span_home hy
  by_cases hhome : c.heap.home x.block = c.heap.home y.block
  · rcases hxb : x.block with i | ⟨bh,a⟩ <;> rcases hyb : y.block with i' | ⟨bh',a'⟩
    · rw [hxb,hyb] at hhome hne
      exact absurd (congrArg HeapBlock.list hhome) hne
    · rw [hxb,hyb] at hhome
      refine absurd ?_ (h.unique x hx bh' (h.listed y hy bh' a' hyb))
      rw [hxb]
      exact congrArg HeapBlock.list hhome
    · rw [hxb,hyb] at hhome
      refine absurd ?_ (h.unique y hy bh (h.listed x hx bh a hxb))
      rw [hyb]
      exact congrArg HeapBlock.list hhome.symm
    -- in one sub-heap they are different leaves of its tree
    rw [hxb,hyb] at hhome
    obtain rfl : bh = bh' :=
      h.base_inj bh (h.listed x hx bh a hxb) bh' (h.listed y hy bh' a' hyb) hhome
    obtain ⟨j,o,hj,hjs,-⟩ := h.span_buddy hx hxb
    obtain ⟨j',o',hj',hjs',-⟩ := h.span_buddy hy hyb
    have hjj : j ≠ j' := by
      rintro rfl
      have ha : a = a' := by
        rw [hxb] at hjs
        rw [hyb] at hjs'
        exact (congrArg Prod.fst hjs).trans (congrArg Prod.fst hjs').symm
      rw [hxb,hyb,ha] at hne
      exact hne rfl
    rw [← hxb,← hyb,hjs,hjs']
    dsimp only [NvmapHeap.cellBase]
    rw [pow_add,pow_add,add_assoc,add_assoc,← add_mul,← add_mul]
    rcases hj.disjoint hj' hjj with hdis | hdis
    · exact .inl (Nat.add_le_add_left (Nat.mul_le_mul_right _ hdis) _)
    · exact .inr (Nat.add_le_add_left (Nat.mul_le_mul_right _ hdis) _)
  have hdis := h.list.layout.tiles.disjoint (h.home_allocated hx).1 (h.home_allocated hy).1 hhome
  omega

end

/-- A call on the heap: an allocation, with the descriptor allocations it makes, or giving a
block back. -/
inductive Call where
  | alloc (len align prot : Nat) (k : Kmem)
  | free (b : HeapBlock)

/-- A call; `none` is a `BUG_ON`. -/
def step (l1CacheBytes : Nat) (c : Carveout) : Call → Option Carveout
  | .alloc len align prot k =>
    (c.heap.nvmapHeapAlloc l1CacheBytes len align prot k).map fun (h,r) =>
      ⟨h,addLive c.live len align r⟩
  | .free b =>
    (c.heap.nvmapHeapFree b).map fun h => ⟨h,c.live.filter fun y => decide (y.block ≠ b)⟩

def run (l1CacheBytes : Nat) (c : Carveout) : List Call → Option Carveout
  | [] => some c
  | call::calls => (c.step l1CacheBytes call).bind fun c => c.run l1CacheBytes calls

def Valid (c : Carveout) : Call → Prop
  | .alloc len align _ _ => 0 < len ∧ len < 4294967296 ∧ Align.IsPow2 align
  | .free b => ∃ x ∈ c.live, x.block = b

/-- Allocations that the heap can serve: the descriptors are there, a small block is aligned to no more than
the size of the sub-heaps, and rounding another length does not wrap. -/
def Servable (c : Carveout) : Call → Prop
  | .alloc len align prot k =>
    k.head = true ∧ k.first = true ∧
      (len ≤ c.heap.buddyHeapSize/2 → align ≤ c.heap.buddyHeapSize) ∧
      (c.heap.buddyHeapSize/2 < len → len+(c.heap.rounding prot-1) < 4294967296)
  | .free _ => True

def Along (P : Carveout → Call → Prop) (l1CacheBytes : Nat) : Carveout → List Call → Prop
  | _, [] => True
  | c, call::calls =>
    P c call ∧ ∀ c' ∈ c.step l1CacheBytes call, Along P l1CacheBytes c' calls

instance decidableValid (c : Carveout) : (call : Call) → Decidable (c.Valid call)
  | .alloc len align _ _ =>
    inferInstanceAs (Decidable (0 < len ∧ len < 4294967296 ∧ ∃ k < 32, align = 2^k))
  | .free b => inferInstanceAs (Decidable (∃ x ∈ c.live, x.block = b))

instance decidableServable (c : Carveout) : (call : Call) → Decidable (c.Servable call)
  | .alloc len align prot k => inferInstanceAs (Decidable (k.head = true ∧ k.first = true ∧
      (len ≤ c.heap.buddyHeapSize/2 → align ≤ c.heap.buddyHeapSize) ∧
      (c.heap.buddyHeapSize/2 < len → len+(c.heap.rounding prot-1) < 4294967296)))
  | .free _ => .isTrue trivial

instance decidableAlong {P : Carveout → Call → Prop} [∀ c call, Decidable (P c call)]
    (l1CacheBytes : Nat) :
    (c : Carveout) → (calls : List Call) → Decidable (Along P l1CacheBytes c calls)
  | _, [] => .isTrue trivial
  | c, call::calls =>
    have := fun c' => decidableAlong (P := P) l1CacheBytes c' calls
    match hstep : c.step l1CacheBytes call with
    | none => decidable_of_iff (P c call) (by simp [Along,hstep])
    | some c' => decidable_of_iff (P c call ∧ Along P l1CacheBytes c' calls) (by simp [Along,hstep])

structure Sound (c : Carveout) (lo hi : Nat) : Prop where
  inside : ∀ x ∈ c.live, lo ≤ (c.heap.span x.block).1 ∧
    (c.heap.span x.block).1+(c.heap.span x.block).2 ≤ hi
  disjoint : c.live.Pairwise fun x y =>
    (c.heap.span x.block).1+(c.heap.span x.block).2 ≤ (c.heap.span y.block).1 ∨
      (c.heap.span y.block).1+(c.heap.span y.block).2 ≤ (c.heap.span x.block).1
  length : ∀ x ∈ c.live, x.len ≤ (c.heap.span x.block).2
  aligned : ∀ x ∈ c.live, x.align ∣ (c.heap.span x.block).1
  tiles : Tiles (fun i => (c.heap.block i).base) (fun i => (c.heap.block i).size) c.heap.allList
    lo hi
  coalesced : ∀ l₁ i j l₂, c.heap.allList = l₁++i::j::l₂ →
    ¬ (i ∈ c.heap.freeList ∧ j ∈ c.heap.freeList)
  whole : c.live = [] → ∃ b, c.heap.allList = [b] ∧ c.heap.freeList = [b]

section
variable (h : c.Inv lo hi tree) (hbusy : c.Busy tree)
include h hbusy

/-- When nothing is live the list is one free block. -/
theorem Inv.whole (hpos : lo < hi) (hlive : c.live = []) : ∃ b, c.heap.allList = [b] ∧ c.heap.freeList = [b] := by
  have hbuddies : c.heap.buddyList = [] := by
    rw [eq_nil_iff_forall_not_mem]
    intro bh hbh
    obtain ⟨j,o,hj⟩ := hbusy bh hbh
    obtain ⟨x,hx,-⟩ := (h.subs bh hbh).leaf_live j o hj
    rw [hlive] at hx
    cases hx
  have hfree : ∀ i ∈ c.heap.allList, i ∈ c.heap.freeList := by
    intro i hi
    by_contra hno
    have howner := (h.owner i).mp ⟨hi,hno⟩
    rw [hlive,hbuddies] at howner
    simp at howner
  have hlayout := h.list.layout
  rcases hall : c.heap.allList with - | ⟨b,- | ⟨b',rest⟩⟩
  · have htiles := hlayout.tiles
    rw [hall] at htiles
    exact absurd htiles hpos.ne
  · refine ⟨b,rfl,?_⟩
    have hb := hfree b (by rw [hall]; exact mem_cons_self)
    have hsub := hlayout.subset
    rw [hall] at hsub
    refine perm_singleton.mp ?_
    refine (perm_ext_iff_of_nodup hlayout.free_nodup (nodup_singleton b)).mpr ?_
    intro i
    exact ⟨hsub i,fun hi => mem_singleton.mp hi ▸ hb⟩
  have hpair : c.heap.allList = []++b::b'::rest := hall
  refine absurd ⟨hfree b ?_,hfree b' ?_⟩ (hlayout.not_both_free hpair)
  · simp [hall]
  · simp [hall]

lemma Inv.sound (hpos : lo < hi) : c.Sound lo hi := by
  refine ⟨?_,?_,?_,?_,h.list.layout.tiles,fun _ _ _ _ => h.list.layout.not_both_free, h.whole hbusy hpos⟩
  · intro x hx
    have hhome := h.list.layout.tiles.bounds (h.home_allocated hx).1
    have hspan := h.span_home hx
    omega
  · have hne : c.live.Pairwise fun x y => x.block ≠ y.block := pairwise_map.mp h.nodup
    exact hne.imp_of_mem fun hx hy => h.span_disjoint hx hy
  · intro x hx
    rcases hb : x.block with i | ⟨bh,a⟩
    · exact (h.fits x hx i hb).1
    obtain ⟨j,o,-,hspan,hlen,-⟩ := h.span_buddy hx hb
    rw [← hb,hspan]
    exact hlen
  intro x hx
  rcases hb : x.block with i | ⟨bh,a⟩
  · exact (h.fits x hx i hb).2
  obtain ⟨j,o,-,hspan,-,halign⟩ := h.span_buddy hx hb
  rw [← hb,hspan]
  exact halign

section
variable (hhi : hi ≤ 4294967296) (hlen : hi < lo+4294967296) (hl1 : Align.IsPow2 l1CacheBytes)
include hhi hlen hl1

lemma Inv.step {call : Call} (hvalid : c.Valid call) (hserv : c.Servable call) :
    ∃ c' tree', c.step l1CacheBytes call = some c' ∧ c'.Inv lo hi tree' ∧ c'.Busy tree' := by
  rcases call with ⟨len,align,prot,k⟩ | b
  · obtain ⟨hpos,-,ha⟩ := hvalid
    obtain ⟨hhead,hfirst,halign,hwrap⟩ := hserv
    obtain ⟨h',r,tree',hrun,hinv,hbusy'⟩ :=
      h.nvmapHeapAlloc hbusy hhi prot hl1 hpos ha hhead hfirst halign hwrap
    refine ⟨_,tree',?_,hinv,hbusy'⟩
    rw [Carveout.step,hrun,map_some]
  obtain ⟨h',tree',hrun,hinv,hbusy'⟩ := h.nvmapHeapFree hbusy hhi hlen hvalid
  refine ⟨_,tree',?_,hinv,hbusy'⟩
  rw [Carveout.step,hrun,map_some]

lemma Inv.run {calls : List Call}
    (hcalls : Along (fun c call => c.Valid call ∧ c.Servable call) l1CacheBytes c calls) :
    ∃ c' tree', c.run l1CacheBytes calls = some c' ∧ c'.Inv lo hi tree' ∧ c'.Busy tree' := by
  induction calls generalizing c tree with
  | nil => exact ⟨c,tree,rfl,h,hbusy⟩
  | cons call calls ih =>
    obtain ⟨⟨hvalid,hserv⟩,hrest⟩ := hcalls
    obtain ⟨c1,tree1,hstep,hinv,hbusy1⟩ := h.step hbusy hhi hlen hl1 hvalid hserv
    rw [Carveout.run,hstep,bind_some]
    exact ih hinv hbusy1 (hrest c1 hstep)

end

end

def create (base len buddySize : Nat) : Carveout :=
  ⟨.nvmapHeapCreate base len buddySize,[]⟩

/-- Sizes that `nvmap_heap_create` need not correct, unless the sub-heaps are too large. -/
structure Sizes (base len buddySize : Nat) : Prop where
  pos : 0 < len
  len_lt : len < 4294967296
  end_le : base+len ≤ 4294967296
  buddy : buddySize = 0 ∨ Align.IsPow2 buddySize ∧ heapMinBuddySize ≤ buddySize ∧
    buddySize ∣ base ∧ buddySize ∣ len

lemma and_pred_eq_zero {x : Nat} (ha : Align.IsPow2 a) : x &&& (a-1) = 0 ↔ a ∣ x := by
  obtain ⟨k,-,rfl⟩ := ha
  rw [and_two_pow_sub_one_eq_mod,dvd_iff_mod_eq_zero]

lemma Sizes.createSizes_eq (h : Sizes base len buddySize) : NvmapHeap.createSizes base len buddySize =
      (base,len,if buddySize ≥ len then 0 else buddySize) := by
  unfold NvmapHeap.createSizes
  rcases h.buddy with rfl | ⟨hpow,hmin,hbase,hlen⟩
  · simp
  have hself : buddySize &&& (buddySize-1) = 0 := (and_pred_eq_zero hpow).mpr (dvd_refl _)
  have hb := (and_pred_eq_zero hpow).mpr hbase
  have hl := (and_pred_eq_zero hpow).mpr hlen
  by_cases hge : buddySize ≥ len
  · simp [hge,not_lt.mpr hmin]
  · simp [hge,not_lt.mpr hmin,hself,hb,hl]

lemma inv_create (h : Sizes base len buddySize) :
    (create base len buddySize).Inv base (base+len) fun _ => .leaf false := by
  have hsizes := h.createSizes_eq
  generalize hsz : (if buddySize ≥ len then 0 else buddySize) = size at hsizes
  have hpow : size ≠ 0 → Align.IsPow2 size ∧ heapMinBuddySize ≤ size := by
    intro hne
    split at hsz
    · exact absurd hsz.symm hne
    subst hsz
    rcases h.buddy with rfl | ⟨hpow,hmin,-⟩
    · exact absurd rfl hne
    · exact ⟨hpow,hmin⟩
  unfold create NvmapHeap.nvmapHeapCreate
  rw [hsizes]
  refine ⟨⟨⟨?_,?_,?_,?_⟩,?_,?_⟩,⟨fun hne => (hpow hne).1,fun hne => (hpow hne).2,?_⟩,
    nodup_nil,nodup_nil,?_,?_,?_,?_,?_,?_,?_⟩
  · simp [Tiles,h.pos]
  · simp
  · simp
  · have hpos := h.pos
    simp
    omega
  · simp
  · simp
  · intro hne
    obtain ⟨⟨k,hk,rfl⟩,hmin⟩ := hpow hne
    have hk7 : 7 ≤ k := by
      by_contra hlt
      have hle : 2^k ≤ 2^7 := Nat.pow_le_pow_right (by omega) (by omega)
      have hm : heapMinBuddySize = 8192 := rfl
      omega
    dsimp only
    rw [if_pos hne,show maxBuddyNr = 2^7 from rfl,Nat.pow_div hk7 (by omega),log2_two_pow, Nat.sub_add_cancel hk7]
  · simp
  · simp [ListHeap.Allocated]
  · simp
  · simp
  · simp
  · simp
  · simp

/-- In every run of calls that can be served no `BUG_ON` is reached and the heap is sound. -/
theorem run_sound {l1CacheBytes base len buddySize : Nat} (hl1 : Align.IsPow2 l1CacheBytes)
    (hsizes : Sizes base len buddySize) {calls : List Call}
    (hcalls : Along (fun c call => c.Valid call ∧ c.Servable call) l1CacheBytes
      (create base len buddySize) calls) : ∃ c, (create base len buddySize).run l1CacheBytes calls = some c ∧
      c.Sound base (base+len) := by
  have hpos := hsizes.pos
  have hlen := hsizes.len_lt
  have hbusy : (create base len buddySize).Busy fun _ => .leaf false := by
    intro bh hbh
    simp [create,NvmapHeap.nvmapHeapCreate] at hbh
  obtain ⟨c,tree,hrun,hinv,hb⟩ :=
    (inv_create hsizes).run hbusy hsizes.end_le (by omega) hl1 hcalls
  exact ⟨c,hrun,hinv.sound hb (by omega)⟩

def allDescriptors : Kmem := ⟨⟨true,true⟩,fun _ => true,true,true⟩

theorem run_sound_mixed : ∃ c, (create 8192 65536 8192).run 32 [.alloc 64 32 0 allDescriptors,
        .alloc 20000 4096 0 allDescriptors,.free (.buddy 0 8192)] = some c ∧ c.Sound 8192 (8192+65536) :=
  run_sound ⟨5,by decide,rfl⟩ ⟨by decide,by decide,by decide,.inr ⟨⟨13,by decide,rfl⟩,
    by decide,by decide,by decide⟩⟩ (by decide +kernel)

/-- Four runs of valid calls. Without a descriptor for the free block in front, giving the block back is a
`BUG_ON`. A small block with a large alignment is not aligned. A length that wraps gives a block of no bytes.
A new sub-heap whose first block gets no descriptor stays. -/
theorem run_not_sound :
    (Along Valid 32 (create 4096 65536 0) [.alloc 4096 8192 0 {allDescriptors with head := false}] ∧
      ∃ c ∈ (create 4096 65536 0).run 32 [.alloc 4096 8192 0 {allDescriptors with head := false}],
        ¬ Tiles (fun i => (c.heap.block i).base) (fun i => (c.heap.block i).size)
          c.heap.allList 4096 (4096+65536) ∧
        c.live.map Live.block = [.list 0] ∧ (c.step 32 (.free (.list 0))).isNone) ∧
    (Along Valid 32 (create 8192 65536 8192) [.alloc 64 16384 0 allDescriptors] ∧
      ∃ c ∈ (create 8192 65536 8192).run 32 [.alloc 64 16384 0 allDescriptors],
        ∃ x ∈ c.live, ¬ x.align ∣ (c.heap.span x.block).1) ∧
    (Along Valid 32 (create 8192 65536 8192) [.alloc 4294967295 4096 0 allDescriptors] ∧
      ∃ c ∈ (create 8192 65536 8192).run 32 [.alloc 4294967295 4096 0 allDescriptors],
        ∃ x ∈ c.live, ¬ x.len ≤ (c.heap.span x.block).2) ∧
    (Along Valid 32 (create 8192 65536 8192) [.alloc 64 32 0 {allDescriptors with first := false}] ∧
      ∃ c ∈ (create 8192 65536 8192).run 32 [.alloc 64 32 0 {allDescriptors with first := false}],
        c.live = [] ∧ c.heap.allList.length = 2) := by
  decide +kernel

end Carveout

end LinuxToradex.Nvmap
