import LinuxToradex.Nvmap.Heap

/-! The blocks of the heap tile it, and no two free blocks touch. Each function is described by what it does to
the lists and to the blocks, from which the invariant follows. -/
namespace LinuxToradex.Nvmap
open List Function Tiling Nat Option

variable {l₁ l₂ : List BlockId}

lemma splice_append {pos : BlockId} {blocks : List BlockId} (h : pos ∉ l₁) :
    splice pos blocks (l₁++pos::l₂) = l₁++(blocks++l₂) := by
  induction l₁ with
  | nil => simp [splice]
  | cons i l₁ ih =>
    have hne : i ≠ pos := fun he => h (by simp [he])
    have hnot : pos ∉ l₁ := fun hin => h (by simp [hin])
    simp [splice,hne,ih hnot]

lemma insertBefore_append {new pos : BlockId} (h : pos ∉ l₁) :
    insertBefore new pos (l₁++pos::l₂) = l₁++new::pos::l₂ := splice_append h

lemma insertAfter_append {new pos : BlockId} (h : pos ∉ l₁) :
    insertAfter new pos (l₁++pos::l₂) = l₁++pos::new::l₂ := splice_append h

lemma erase_append_cons {b : BlockId} (h : b ∉ l₁) : (l₁++b::l₂).erase b = l₁++l₂ := by
  rw [erase_append_right _ h,erase_cons_head]

namespace ListHeap

structure Inv (h : ListHeap) (lo hi : Nat) : Prop where
  layout : Layout (fun i => (h.block i).base) (fun i => (h.block i).size) h.allList h.freeList lo hi
  below : ∀ i ∈ h.allList, i < h.next
  orig : ∀ i ∈ h.allList, (h.block i).origAddr = (h.block i).base

def Allocated (h : ListHeap) (i : BlockId) : Prop := i ∈ h.allList ∧ i ∉ h.freeList

variable {h h' : ListHeap} {lo hi : Nat} {b n : BlockId}

lemma Inv.not_mem_left (hinv : h.Inv lo hi) {l₁ l₂ : List BlockId}
    (hall : h.allList = l₁++b::l₂) : b ∉ l₁ ∧ b ∉ l₂ := by
  have hnodup := hinv.layout.tiles.nodup
  rw [hall,nodup_middle,nodup_cons,mem_append] at hnodup
  exact not_or.mp hnodup.1

lemma Inv.not_mem_free_left (hinv : h.Inv lo hi) {f1 f2 : List BlockId}
    (hfree : h.freeList = f1++b::f2) : b ∉ f1 ∧ b ∉ f2 := by
  have hnodup := hinv.layout.free_nodup
  rw [hfree,nodup_middle,nodup_cons,mem_append] at hnodup
  exact not_or.mp hnodup.1

structure Taken (h h' : ListHeap) (b : BlockId) (front rear : Option BlockId) : Prop where
  all : ∃ l₁ l₂, h.allList = l₁++b::l₂ ∧
    h'.allList = l₁++((front.toList++b::rear.toList)++l₂)
  free : ∃ f₁ f₂, h.freeList = f₁++b::f₂ ∧
    h'.freeList = f₁++((front.toList++rear.toList)++f₂)
  fresh : ∀ i ∈ front.toList++rear.toList, h.next ≤ i ∧ i < h'.next ∧
    (h'.block i).origAddr = (h'.block i).base ∧ (h'.block i).type = .empty
  next : h.next ≤ h'.next
  same : ∀ i, i < h.next → i ≠ b → h'.block i = h.block i
  carved : Layout.Carved (fun i => (h.block i).base) (fun i => (h.block i).size)
    (fun i => (h'.block i).base) (fun i => (h'.block i).size) b front rear
  orig : (h'.block b).origAddr = (h'.block b).base

variable {align len fixBase baseMax memProt : Nat} {front rear : Option BlockId}
  {left right l : List BlockId} {k : SplitMem} {compactor : Bool} {f : ListBlock → ListBlock}

lemma Taken.inv (ht : Taken h h' b front rear) (hinv : h.Inv lo hi) : h'.Inv lo hi := by
  obtain ⟨l₁,l₂,hall,hall'⟩ := ht.all
  obtain ⟨f1,f2,hfree,hfree'⟩ := ht.free
  have hout := hinv.not_mem_left hall
  have hsame : ∀ i ∈ l₁++l₂, i ∈ h.allList ∧ h'.block i = h.block i := by
    intro i hi
    have hmem : i ∈ h.allList := by
      rw [hall]
      grind
    have hne : i ≠ b := ne_of_mem_of_not_mem hi (by simp [hout])
    exact ⟨hmem,ht.same i (hinv.below i hmem) hne⟩
  have hcases : ∀ i ∈ h'.allList, i ∈ front.toList++rear.toList ∨ i = b ∨ i ∈ l₁++l₂ := by
    intro i hi
    grind
  refine ⟨?_,?_,?_⟩
  · have hlayout := hinv.layout
    rw [hall,hfree] at hlayout
    rw [hall',hfree']
    exact hlayout.carve ht.carved fun i hi => by rw [(hsame i hi).2]; exact ⟨rfl,rfl⟩
  · intro i hi
    rcases hcases i hi with hi | rfl | hi
    · exact (ht.fresh i hi).2.1
    · exact (hinv.below i (by simp [hall])).trans_le ht.next
    · exact (hinv.below i (hsame i hi).1).trans_le ht.next
  intro i hi
  rcases hcases i hi with hi | rfl | hi
  · exact (ht.fresh i hi).2.2.1
  · exact ht.orig
  rw [(hsame i hi).2]
  exact hinv.orig i (hsame i hi).1

lemma Taken.allocated_iff (ht : Taken h h' b front rear) (hinv : h.Inv lo hi) (i : BlockId) :
    h'.Allocated i ↔ i = b ∨ h.Allocated i := by
  obtain ⟨l₁,l₂,hall,hall'⟩ := ht.all
  obtain ⟨f1,f2,hfree,hfree'⟩ := ht.free
  have hfresh : ∀ i ∈ h.allList, i ∉ front.toList++rear.toList := by
    intro i hi hin
    exact not_lt.mpr (ht.fresh i hin).1 (hinv.below i hi)
  have hout := hinv.not_mem_free_left hfree
  unfold Allocated
  rw [hall',hfree']
  by_cases hib : i = b
  · subst hib
    grind
  have hrest : i ∈ h.allList → i ∉ front.toList++rear.toList := hfresh i
  grind

structure Fits (h : ListHeap) (b : BlockId) (fixBase len align : Nat) : Prop where
  free : b ∈ h.freeList
  base_le : (h.block b).base ≤ fixBase
  le_end : fixBase+len ≤ (h.block b).base+(h.block b).size
  dvd : align ∣ fixBase

lemma bottomUp_some (hfound : h.bottomUp len align baseMax l = some (b,fixBase)) :
    b ∈ l ∧ fixBase = Align.up (h.block b).base align ∧ fixBase ≠ 0 ∧ fixBase < h.blockEnd b ∧
      (baseMax ≠ 0 → fixBase ≤ baseMax) ∧ len ≤ (h.block b).size-(fixBase-(h.block b).base) := by
  induction l with
  | nil => cases hfound
  | cons i l ih =>
    have htail : h.bottomUp len align baseMax l = some (b,fixBase) → _ := fun hl =>
      And.imp_left (mem_cons_of_mem i) (ih hl)
    unfold bottomUp at hfound
    dsimp only at hfound
    split at hfound
    · exact htail hfound
    rename_i hskip
    split at hfound
    · cases hfound
    rename_i hmax
    split at hfound
    · rename_i hsize
      cases hfound
      rw [not_or,not_le] at hskip
      refine ⟨mem_cons_self,rfl,hskip.1,hskip.2,fun hne => ?_,hsize⟩
      exact Nat.le_of_not_lt fun hlt => hmax ⟨hne,hlt⟩
    · exact htail hfound

lemma bottomUp_fits (ha : Align.IsPow2 align) (hsub : ∀ i ∈ l, i ∈ h.freeList ∧ (h.block i).base < 4294967296)
    (hfound : h.bottomUp len align baseMax l = some (b,fixBase)) : h.Fits b fixBase len align := by
  obtain ⟨hb,rfl,hne,hend,-,hlen⟩ := bottomUp_some hfound
  obtain ⟨hfree,hlt⟩ := hsub b hb
  have hle := Align.le_up ha hlt hne
  have hmod : h.blockEnd b ≤ (h.block b).base+(h.block b).size := mod_le _ _
  refine ⟨hfree,hle,?_,Align.dvd_up ha⟩
  omega

lemma topDown_fits (ha : Align.IsPow2 align) (hsub : ∀ i ∈ l, i ∈ h.freeList)
    (hfound : h.topDown len align l = some (b,fixBase)) : h.Fits b fixBase len align := by
  induction l with
  | nil => cases hfound
  | cons i l ih =>
    unfold topDown at hfound
    dsimp only at hfound
    split at hfound
    · rename_i hfit
      cases hfound
      have hlt : ((h.block b).base+(h.block b).size-len)%4294967296 < 4294967296 :=
        mod_lt _ (by omega)
      have hle := Align.down_le hlt ha
      refine ⟨hsub b mem_cons_self,hfit.2,?_,Align.dvd_down hlt ha⟩
      omega
    · exact ih (fun j hj => hsub j (mem_cons_of_mem i hj)) hfound

@[simp]
lemma modify_block_self (h : ListHeap) (b : BlockId) (f : ListBlock → ListBlock) :
    (h.modify b f).block b = f (h.block b) := update_self ..

lemma modify_block_of_ne (h : ListHeap) {b i : BlockId} (hne : i ≠ b)
    (f : ListBlock → ListBlock) : (h.modify b f).block i = h.block i := update_of_ne hne ..

lemma modify_eq_self (hf : f (h.block b) = h.block b) : h.modify b f = h := by
  unfold modify
  rw [hf,update_eq_self]

lemma take_block_self (h : ListHeap) (b : BlockId) (memProt align : Nat) :
    (h.take b memProt align).block b = {h.block b with memProt := memProt, align := align} := by
  simp [ListHeap.take]

/-- The heap while a free block is being split: the block is still on the free list. -/
structure Splitting (h h' : ListHeap) (b : BlockId) (front rear : Option BlockId) : Prop where
  all : ∃ l₁ l₂, h.allList = l₁++b::l₂ ∧
    h'.allList = l₁++((front.toList++b::rear.toList)++l₂)
  free : ∃ f₁ f₂, h.freeList = f₁++b::f₂ ∧
    h'.freeList = f₁++((front.toList++b::rear.toList)++f₂)
  fresh : ∀ i ∈ front.toList++rear.toList, h.next ≤ i ∧ i < h'.next ∧
    (h'.block i).origAddr = (h'.block i).base ∧ (h'.block i).type = .empty
  next : h.next ≤ h'.next
  same : ∀ i, i < h.next → i ≠ b → h'.block i = h.block i
  carved : Layout.Carved (fun i => (h.block i).base) (fun i => (h.block i).size)
    (fun i => (h'.block i).base) (fun i => (h'.block i).size) b front rear

lemma Inv.splitting (hinv : h.Inv lo hi) (hb : b ∈ h.freeList) : Splitting h h b none none := by
  have hball := hinv.layout.subset b hb
  have hpos := (hinv.layout.tiles.bounds hball).2.2
  obtain ⟨l₁,l₂,hall⟩ := append_of_mem hball
  obtain ⟨f1,f2,hfree⟩ := append_of_mem hb
  exact ⟨⟨l₁,l₂,hall,by simpa using hall⟩,⟨f1,f2,hfree,by simpa using hfree⟩,by simp,
    le_rfl,fun _ _ _ => rfl,⟨hpos,rfl,rfl⟩⟩

lemma Splitting.modify (hs : Splitting h h' b front rear) (hb : b ∉ front.toList++rear.toList)
    (hf : ∀ x : ListBlock, (f x).base = x.base ∧ (f x).size = x.size) : Splitting h (h'.modify b f) b front rear := by
  have hfields : ∀ i, ((h'.modify b f).block i).base = (h'.block i).base ∧
      ((h'.modify b f).block i).size = (h'.block i).size := by
    intro i
    by_cases hi : i = b
    · subst hi
      rw [modify_block_self]
      exact hf _
    rw [modify_block_of_ne _ hi]
    exact ⟨rfl,rfl⟩
  refine ⟨hs.all,hs.free,?_,hs.next,?_,?_⟩
  · intro i hi
    have hne : i ≠ b := fun he => hb (he ▸ hi)
    rw [modify_block_of_ne _ hne]
    exact hs.fresh i hi
  · intro i hlt hne
    rw [modify_block_of_ne _ hne]
    exact hs.same i hlt hne
  simp only [hfields]
  exact hs.carved

lemma Inv.splitting_head (hinv : h.Inv lo hi) (hb : b ∈ h.freeList)
    (hlt : (h.block b).base < fixBase) (hend : fixBase < (h.block b).base+(h.block b).size) :
    Splitting h (h.splitHead b fixBase) b (some h.next) none := by
  have hball := hinv.layout.subset b hb
  have hne : h.next ≠ b := (hinv.below b hball).ne'
  obtain ⟨l₁,l₂,hall⟩ := append_of_mem hball
  obtain ⟨f1,f2,hfree⟩ := append_of_mem hb
  have hbblock : (h.splitHead b fixBase).block b = {h.block b with
      base := fixBase, origAddr := fixBase,
      size := (h.block b).size-(fixBase-(h.block b).base)} := by simp [splitHead]
  have hnext : (h.splitHead b fixBase).block h.next = {ListBlock.zero with
      type := .empty, base := (h.block b).base, origAddr := (h.block b).base,
      size := fixBase-(h.block b).base} := by simp [splitHead,hne]
  refine ⟨⟨l₁,l₂,hall,?_⟩,⟨f1,f2,hfree,?_⟩,?_,le_succ _,?_,⟨?_,?_,?_⟩⟩
  · simp [splitHead,hall,insertBefore_append (hinv.not_mem_left hall).1]
  · simp [splitHead,hfree,insertBefore_append (hinv.not_mem_free_left hfree).1]
  · intro i hi
    have hi' : i = h.next := by simpa using hi
    subst hi'
    rw [hnext]
    exact ⟨le_rfl,lt_succ_self _,rfl,rfl⟩
  · intro i hi hib
    simp [splitHead,hib,hi.ne]
  · rw [hbblock]
    dsimp only
    omega
  · refine Tiles.cons (n := fixBase-(h.block b).base) ?_ ?_ (by omega) ?_
    · simp only [hnext]
    · simp only [hnext]
    simp only [hbblock,Tiles]
    omega
  simp only [hbblock,toList_none,Tiles]
  omega

lemma Splitting.tail (hs : Splitting h h' b front none) (hinv : h.Inv lo hi) (hpos : 0 < len)
    (hlen : len < (h'.block b).size) : ∃ h'', h'.splitTail b len = some h'' ∧ Splitting h h'' b front (some h'.next) ∧
      h''.block b = {h'.block b with size := len} := by
  obtain ⟨l₁,l₂,hall,hall'⟩ := hs.all
  obtain ⟨f1,f2,hfree,hfree'⟩ := hs.free
  have hblt : b < h'.next := (hinv.below b (by simp [hall])).trans_le hs.next
  have hne : h'.next ≠ b := hblt.ne'
  have hfrontlt : ∀ i ∈ front.toList, i < h'.next ∧ i ≠ b := by
    intro i hi
    have hfresh := hs.fresh i (by simp [hi])
    refine ⟨hfresh.2.1,?_⟩
    rintro rfl
    exact Nat.not_lt.mpr hfresh.1 (hinv.below i (by simp [hall]))
  have hbfront : b ∉ front.toList := fun hin => (hfrontlt b hin).2 rfl
  have hbl : b ∉ l₁++front.toList := by
    simp only [mem_append,not_or]
    exact ⟨(hinv.not_mem_left hall).1,hbfront⟩
  have hbf : b ∉ f1++front.toList := by
    simp only [mem_append,not_or]
    exact ⟨(hinv.not_mem_free_left hfree).1,hbfront⟩
  have hrear : (h'.block b).base+(h'.block b).size = (h.block b).base+(h.block b).size :=
    hs.carved.rear
  unfold splitTail
  dsimp only
  rw [if_neg (by omega)]
  refine ⟨_,rfl,⟨⟨l₁,l₂,hall,?_⟩,⟨f1,f2,hfree,?_⟩,?_,?_,?_,⟨?_,?_,?_⟩⟩,?_⟩
  · have hassoc : h'.allList = (l₁++front.toList)++b::l₂ := by simp [hall']
    rw [hassoc,insertAfter_append hbl]
    simp
  · have hassoc : h'.freeList = (f1++front.toList)++b::f2 := by simp [hfree']
    rw [hassoc,insertAfter_append hbf]
    simp
  · intro i hi
    rcases mem_append.mp hi with hi | hi
    · obtain ⟨hlt,hib⟩ := hfrontlt i hi
      have hfresh := hs.fresh i (by simp [hi])
      simp only [update_of_ne hib,update_of_ne hlt.ne]
      exact ⟨hfresh.1,lt_succ_of_lt hlt,hfresh.2.2⟩
    have hi' : i = h'.next := by simpa using hi
    subst hi'
    refine ⟨hs.next,lt_succ_self _,?_,?_⟩ <;> simp [hne]
  · exact le_succ_of_le hs.next
  · intro i hi hib
    have hlt : i < h'.next := hi.trans_le hs.next
    simp only [update_of_ne hib,update_of_ne hlt.ne]
    exact hs.same i hi hib
  · simpa using hpos
  · simp only [update_self]
    refine (tiles_congr fun i hi => ?_).mpr hs.carved.front
    obtain ⟨hlt,hib⟩ := hfrontlt i hi
    simp [hib,hlt.ne]
  · simp only [update_self]
    refine Tiles.cons (n := (h'.block b).size-len) ?_ ?_ (by omega) ?_
    · simp only [update_of_ne hne,update_self]
    · simp only [update_of_ne hne,update_self]
    simp only [Tiles]
    omega
  · simp only [update_self]

section
variable (hinv : h.Inv lo hi) (hfit : h.Fits b fixBase len align) (hpos : 0 < len)
include hinv hfit hpos

lemma Inv.split_front :
    ∃ front, Splitting h (if (h.block b).base ≠ fixBase then h.splitHead b fixBase else h) b front none ∧
      ((if (h.block b).base ≠ fixBase then h.splitHead b fixBase else h).block b).base = fixBase ∧
      ((if (h.block b).base ≠ fixBase then h.splitHead b fixBase else h).block b).type = (h.block b).type := by
  have hle := hfit.base_le
  have hend := hfit.le_end
  by_cases hbase : (h.block b).base = fixBase
  · rw [if_neg (not_not.mpr hbase)]
    exact ⟨none,hinv.splitting hfit.free,hbase,rfl⟩
  rw [if_pos hbase]
  refine ⟨_,hinv.splitting_head hfit.free (by omega) (by omega),?_,?_⟩ <;> simp [splitHead]

/-- The splits of `do_heap_alloc`, when the descriptor for the block in front is there. -/
theorem Inv.split (hk : k.head = true) :
    ∃ h' front rear, h.split b fixBase len k = some h' ∧ Splitting h h' b front rear ∧
      (h'.block b).origAddr = (h'.block b).base ∧ (h'.block b).base = fixBase ∧
      (h'.block b).type = (h.block b).type ∧ len ≤ (h'.block b).size ∧ (k.tail = true → (h'.block b).size = len) := by
  obtain ⟨front,hs,hbase,htype⟩ := hinv.split_front hfit hpos
  unfold ListHeap.split
  rw [if_neg (by simp [hk])]
  dsimp only
  generalize (if (h.block b).base ≠ fixBase then h.splitHead b fixBase else h) = h1 at *
  have hball := hinv.layout.subset b hfit.free
  have hbfront : b ∉ front.toList++(none : Option BlockId).toList := by
    intro hin
    exact not_lt.mpr (hs.fresh b hin).1 (hinv.below b hball)
  have hs1 := hs.modify hbfront (f := fun blk => {blk with origAddr := blk.base}) fun _ => ⟨rfl,rfl⟩
  have hblock : (h1.modify b fun blk => {blk with origAddr := blk.base}).block b =
      {h1.block b with origAddr := (h1.block b).base} := modify_block_self ..
  generalize (h1.modify b fun blk => {blk with origAddr := blk.base}) = h2 at *
  have hrear : (h2.block b).base+(h2.block b).size = (h.block b).base+(h.block b).size :=
    hs1.carved.rear
  have hbase2 : (h2.block b).base = fixBase := by rw [hblock]; exact hbase
  have hend := hfit.le_end
  split
  · next htail =>
    obtain ⟨h3,hsplit,hs3,hblock3⟩ := hs1.tail hinv hpos htail.1
    refine ⟨h3,front,some h2.next,hsplit,hs3,?_,?_,?_,?_,?_⟩
    · rw [hblock3,hblock]
    · rw [hblock3]
      exact hbase2
    · rw [hblock3,hblock]
      exact htype
    · rw [hblock3]
    intro _
    rw [hblock3]
  next htail =>
  refine ⟨h2,front,none,rfl,hs1,?_,hbase2,?_,?_,?_⟩
  · rw [hblock]
  · rw [hblock]
    exact htype
  · omega
  intro hk'
  have hnot : ¬(h2.block b).size > len := fun hgt => htail ⟨hgt,hk'⟩
  omega

end

lemma Splitting.take (hs : Splitting h h' b front rear) (hinv : h.Inv lo hi)
    (horig : (h'.block b).origAddr = (h'.block b).base) (memProt align : Nat) :
    Taken h (h'.take b memProt align) b front rear := by
  obtain ⟨f1,f2,hfree,hfree'⟩ := hs.free
  have hball : b ∈ h.allList := hinv.layout.subset b (by simp [hfree])
  have hb : b ∉ front.toList++rear.toList := by
    intro hin
    exact not_lt.mpr (hs.fresh b hin).1 (hinv.below b hball)
  have hm := hs.modify hb (f := fun blk => {blk with memProt := memProt, align := align}) fun _ => ⟨rfl,rfl⟩
  refine ⟨hm.all,⟨f1,f2,hfree,?_⟩,hm.fresh,hm.next,hm.same,hm.carved,?_⟩
  · have hassoc : h'.freeList = (f1++front.toList)++b::(rear.toList++f2) := by
      simp [hfree']
    have hbf : b ∉ f1++front.toList := by
      simp only [mem_append,not_or] at hb ⊢
      exact ⟨(hinv.not_mem_free_left hfree).1,hb.1⟩
    change h'.freeList.erase b = _
    rw [hassoc,erase_append_cons hbf]
    simp
  rw [take_block_self]
  exact horig

def found (compactor : Bool) (h : ListHeap) (len align memProt baseMax : Nat) :
    Option (BlockId × Nat) :=
  if compactor = true ∨ (request len align memProt).1 ≤ h.smallAlloc then
    h.bottomUp (request len align memProt).1 (request len align memProt).2 baseMax h.freeList
  else h.topDown (request len align memProt).1 (request len align memProt).2 h.freeList.reverse

lemma request_pow2 (len memProt : Nat) (ha : Align.IsPow2 align) : Align.IsPow2 (request len align memProt).2 := by
  unfold request
  split
  · exact ha.max ⟨12,by omega,rfl⟩
  · exact ha

lemma request_of_page {size : Nat} (prot : Nat) (hs : pageSize ∣ size) (hlt : size < 4294967296)
    (ha : pageSize ≤ align) : request size align prot = (size,align) := by
  have hpage : Align.IsPow2 pageSize := ⟨12,by omega,rfl⟩
  unfold request
  rw [Align.up_of_dvd hpage hs hlt,max_eq_left ha,ite_self]

lemma le_request_align : align ≤ (request len align memProt).2 := by
  unfold request
  split
  · exact le_max_left align pageSize
  · exact le_refl align

lemma found_fits (hinv : h.Inv lo hi) (hhi : hi ≤ 4294967296) (ha : Align.IsPow2 align)
    (hfound : h.found compactor len align memProt baseMax = some (b,fixBase)) :
    h.Fits b fixBase (request len align memProt).1 (request len align memProt).2 := by
  have ha' := request_pow2 len memProt ha
  unfold found at hfound
  split at hfound
  · refine bottomUp_fits ha' (fun i hi => ⟨hi,?_⟩) hfound
    have hbounds := hinv.layout.tiles.bounds (hinv.layout.subset i hi)
    omega
  · exact topDown_fits ha' (fun i hi => mem_reverse.mp hi) hfound

lemma Inv.relabel (hinv : h.Inv lo hi) (b : BlockId)
    (hf : ∀ blk, (f blk).base = blk.base ∧ (f blk).size = blk.size ∧ (f blk).origAddr =
      blk.origAddr) : (h.modify b f).Inv lo hi := by
  have hfields : ∀ i, ((h.modify b f).block i).base = (h.block i).base ∧
      ((h.modify b f).block i).size = (h.block i).size ∧
      ((h.modify b f).block i).origAddr = (h.block i).origAddr := by
    intro i
    by_cases hi : i = b
    · subst hi
      rw [modify_block_self]
      exact hf _
    · simp [modify_block_of_ne _ hi]
  refine ⟨?_,hinv.below,?_⟩
  · exact hinv.layout.congr fun i _ => ⟨(hfields i).1,(hfields i).2.1⟩
  intro i hi
  rw [(hfields i).1,(hfields i).2.2]
  exact hinv.orig i hi

structure Alloc (h h' : ListHeap) (b : BlockId) (len align memProt : Nat) (k : SplitMem) : Prop where
  taken : ∃ front rear, Taken h h' b front rear
  dvd : align ∣ (h'.block b).base
  len_le : len ≤ (h'.block b).size
  size_eq : k.tail = true → (h'.block b).size = len
  memProt : (h'.block b).memProt = memProt
  align : (h'.block b).align = align

lemma doHeapAlloc_none (hfound : h.found compactor len align memProt baseMax = none) :
    h.doHeapAlloc compactor len align memProt baseMax k = some (h,none) := by
  unfold found at hfound
  unfold ListHeap.doHeapAlloc
  generalize request len align memProt = r at hfound ⊢
  obtain ⟨l,a⟩ := r
  dsimp only at hfound ⊢
  by_cases hdir : compactor = true ∨ l ≤ h.smallAlloc
  · rw [if_pos hdir] at hfound ⊢
    simp only [hfound]
  rw [if_neg hdir] at hfound ⊢
  simp only [hfound]

lemma doHeapAlloc_some (hfound : h.found compactor len align memProt baseMax = some (b,fixBase)) :
    ∃ ty, (compactor = true → ty = .firstFit) ∧ h.doHeapAlloc compactor len align memProt baseMax k =
        (((h.modify b fun blk => {blk with type := ty}).split b fixBase
          (request len align memProt).1 k).map fun h' =>
            (h'.take b memProt (request len align memProt).2,some b)) := by
  unfold found at hfound
  unfold ListHeap.doHeapAlloc
  generalize request len align memProt = r at hfound ⊢
  obtain ⟨l,a⟩ := r
  dsimp only at hfound ⊢
  by_cases hdir : compactor = true ∨ l ≤ h.smallAlloc
  · rw [if_pos hdir] at hfound ⊢
    refine ⟨.firstFit,fun _ => rfl,?_⟩
    simp only [hfound,if_true]
  rw [if_neg hdir] at hfound ⊢
  refine ⟨(h.block b).type,fun hc => absurd (.inl hc) hdir,?_⟩
  have hself : (h.modify b fun blk => {blk with type := (h.block b).type}) = h :=
    modify_eq_self rfl
  rw [hself]
  simp only [hfound]
  rfl

lemma Inv.doHeapAlloc (hinv : h.Inv lo hi) (hhi : hi ≤ 4294967296) (ha : Align.IsPow2 align)
    (hlen : 0 < (request len align memProt).1) (hk : k.head = true)
    (hfound : h.found compactor len align memProt baseMax = some (b,fixBase)) :
    ∃ h', h.doHeapAlloc compactor len align memProt baseMax k = some (h',some b) ∧
      (h'.block b).base = fixBase ∧ (compactor = true → (h'.block b).type = .firstFit) ∧
      h.Alloc h' b (request len align memProt).1 (request len align memProt).2 memProt k := by
  have hfit := found_fits hinv hhi ha hfound
  obtain ⟨ty,hty,hrun⟩ := doHeapAlloc_some (k := k) hfound
  have hinv0 := hinv.relabel b (f := fun blk => {blk with type := ty}) fun _ => ⟨rfl,rfl,rfl⟩
  have hfields : ∀ i, ((h.modify b fun blk => {blk with type := ty}).block i).base =
      (h.block i).base ∧ ((h.modify b fun blk => {blk with type := ty}).block i).size =
      (h.block i).size := by
    intro i
    by_cases hi : i = b
    · subst hi
      simp
    · simp [modify_block_of_ne _ hi]
  have hfit0 : (h.modify b fun blk => {blk with type := ty}).Fits b fixBase
      (request len align memProt).1 (request len align memProt).2 := by
    refine ⟨hfit.free,?_,?_,hfit.dvd⟩
    · rw [(hfields b).1]
      exact hfit.base_le
    rw [(hfields b).1,(hfields b).2]
    exact hfit.le_end
  obtain ⟨h1,front,rear,hsplit,hs,horig,hbase,htype,hle,heq⟩ :=
    hinv0.split hfit0 hlen hk
  have ht := hs.take hinv0 horig memProt (request len align memProt).2
  rw [hrun,hsplit]
  have hblock : (h1.take b memProt (request len align memProt).2).block b = {h1.block b with
      memProt := memProt, align := (request len align memProt).2} := take_block_self ..
  refine ⟨_,rfl,?_,?_,⟨⟨front,rear,?_⟩,?_,?_,?_,?_,?_⟩⟩
  · rw [hblock]
    exact hbase
  · intro hc
    rw [hblock]
    refine htype.trans ?_
    rw [modify_block_self]
    exact hty hc
  · refine ⟨ht.all,ht.free,ht.fresh,ht.next,?_,?_,ht.orig⟩
    · intro i hi hne
      rw [ht.same i hi hne,modify_block_of_ne _ hne]
    have hcarved := ht.carved
    simp only [hfields] at hcarved
    exact hcarved
  · rw [hblock]
    rw [hbase]
    exact hfit.dvd
  · rw [hblock]
    exact hle
  · rw [hblock]
    exact heq
  · rw [hblock]
  · rw [hblock]

lemma Inv.base_eq_blockEnd (hinv : h.Inv lo hi) (hhi : hi ≤ 4294967296)
    (hlen : hi < lo+4294967296) {i j : BlockId} (hi : i ∈ h.allList) (hj : j ∈ h.allList) :
    (h.block j).base = h.blockEnd i ↔ (h.block i).base+(h.block i).size = (h.block j).base := by
  have hbi := hinv.layout.tiles.bounds hi
  have hbj := hinv.layout.tiles.bounds hj
  unfold blockEnd
  omega

/-- The heap while the block `b` is being released, between the free blocks `left` and
`right`: it has taken over the free block behind it, but not yet looked in front. -/
structure Releasing (h h' : ListHeap) (b : BlockId) (left right : List BlockId) (lo hi : Nat) :
    Prop where
  layout : Layout (fun i => (h'.block i).base) (fun i => (h'.block i).size) h'.allList
    (left++right) lo hi
  free : h'.freeList = left++b::right
  mem : b ∈ h'.allList
  not_free : b ∉ left++right
  before : ∀ i ∈ left, (h'.block i).base < (h'.block b).base
  after : ∀ i ∈ right, (h'.block b).base < (h'.block i).base
  next_used : ∀ j ∈ left++right, (h'.block b).base+(h'.block b).size ≠ (h'.block j).base
  allocated : ∀ i, i ∈ h'.allList ∧ i ∉ left++right ↔ h.Allocated i
  kept : ∀ i ∈ left++right, i ∈ h.freeList
  same : ∀ i, i ≠ b → h'.block i = h.block i
  below : ∀ i ∈ h'.allList, i < h'.next
  orig : ∀ i ∈ h'.allList, (h'.block i).origAddr = (h'.block i).base

/-- The block takes over the free block behind it. -/
theorem Inv.absorbNext (hinv : h.Inv lo hi) (hb : h.Allocated b) (hfree : h.freeList = left++n::right)
    (hbefore : ∀ i ∈ left, (h.block i).base < (h.block b).base)
    (hafter : ∀ i ∈ n::right, (h.block b).base < (h.block i).base)
    (htouch : (h.block b).base+(h.block b).size = (h.block n).base) :
    Releasing h {h.modify b (fun blk => {blk with size := blk.size+(h.block n).size}) with
      allList := h.allList.erase n, freeList := left++b::right} b left right lo hi := by
  have hlayout := hinv.layout
  have hnot := hb.2
  rw [hfree] at hlayout hnot
  have hn : n ∈ h.allList := hlayout.subset n (by simp)
  obtain ⟨l₁,l₂,hall⟩ := append_of_mem hb.1
  have htiles := hlayout.tiles
  rw [hall] at htiles hlayout
  obtain ⟨l₂,rfl⟩ := htiles.next (hall ▸ hn) htouch.symm
  have hassoc : h.allList = (l₁++[b])++n::l₂ := by simp [hall]
  have herase : h.allList.erase n = l₁++b::l₂ := by
    rw [hassoc,erase_append_cons (hinv.not_mem_left hassoc).1]
    simp
  have hnout := hinv.not_mem_left hassoc
  have hbout := hinv.not_mem_left hall
  have hmodify : ∀ i ≠ b, (h.modify b fun blk => {blk with size := blk.size+(h.block n).size}).block i =
        h.block i := fun i hi => modify_block_of_ne _ hi _
  have hkeep : ∀ i ∈ l₁++b::l₂, i ∈ h.allList := by
    intro i hi
    rw [hall]
    grind
  have hne : ∀ i ∈ left++right, i ≠ b := by
    rintro i hi rfl
    grind
  rw [herase]
  refine ⟨?_,rfl,by simp,?_,?_,?_,?_,?_,?_,hmodify,?_,?_⟩
  · refine hlayout.absorbNext hnot ?_ ?_ fun i hi => ?_
    · simp
    · simp
    have hib : i ≠ b := by
      rintro rfl
      grind
    simp only [hmodify i hib]
    exact ⟨trivial,trivial⟩
  · intro hin
    exact hne b hin rfl
  · intro i hi
    simp only [modify_block_self,hmodify i (hne i (by simp [hi]))]
    exact hbefore i hi
  · intro i hi
    simp only [modify_block_self,hmodify i (hne i (by simp [hi]))]
    exact hafter i (by simp [hi])
  · intro j hj
    have hapart := hlayout.apart n (by simp) j (by
      grind)
    simp only [modify_block_self,hmodify j (hne j hj)]
    omega
  · intro i
    rw [Allocated,hall,hfree]
    by_cases hin : i = n
    · subst hin
      grind
    · grind
  · intro i hi
    rw [hfree]
    grind
  · intro i hi
    exact hinv.below i (hkeep i hi)
  intro i hi
  by_cases hib : i = b
  · subst hib
    simp only [modify_block_self]
    exact hinv.orig i hb.1
  simp only [hmodify i hib]
  exact hinv.orig i (hkeep i hi)

lemma Inv.mergeNext (hinv : h.Inv lo hi) (hhi : hi ≤ 4294967296) (hlen : hi < lo+4294967296)
    (hb : h.Allocated b) (hfree : h.freeList = left++right)
    (hbefore : ∀ i ∈ left, (h.block i).base < (h.block b).base)
    (hafter : ∀ i ∈ right, (h.block b).base < (h.block i).base) :
    ∃ h' right', h.mergeNext b left right = some (h',right') ∧ Releasing h h' b left right' lo hi := by
  have hlayout := hinv.layout
  have hnot := hb.2
  rw [hfree] at hlayout hnot
  have hallocated : ∀ i, i ∈ h.allList ∧ i ∉ left++right ↔ h.Allocated i := by
    intro i
    rw [Allocated,hfree]
  have hkept : ∀ i ∈ left++right, i ∈ h.freeList := fun i hi => hfree ▸ hi
  unfold ListHeap.mergeNext
  rcases right with _ | ⟨n,right'⟩
  · refine ⟨_,_,rfl,hlayout,rfl,hb.1,hnot,hbefore,by simp,?_,hallocated,hkept, fun _ _ => rfl,hinv.below,hinv.orig⟩
    intro j hj
    have hlt := hbefore j (by simpa using hj)
    dsimp only
    omega
  have hn : n ∈ h.allList := hlayout.subset n (by simp)
  have hbn := hafter n (by simp)
  dsimp only
  split
  · next htouch =>
    rw [hinv.base_eq_blockEnd hhi hlen hb.1 hn] at htouch
    rw [if_neg (by rw [hinv.orig b hb.1,hinv.orig n hn]; omega)]
    exact ⟨_,_,rfl,hinv.absorbNext hb hfree hbefore hafter htouch⟩
  next htouch =>
  rw [hinv.base_eq_blockEnd hhi hlen hb.1 hn] at htouch
  refine ⟨_,_,rfl,hlayout,rfl,hb.1,hnot,hbefore,hafter,?_,hallocated,hkept, fun _ _ => rfl,hinv.below,hinv.orig⟩
  intro j hj
  have hdis := hlayout.tiles.disjoint hb.1 hn (by rintro rfl; omega)
  dsimp only
  rcases mem_append.mp hj with hj | hj
  · have hlt := hbefore j hj
    omega
  rcases mem_cons.mp hj with rfl | hj
  · exact htouch
  have hsorted := hlayout.sorted
  rw [pairwise_append,pairwise_cons] at hsorted
  have hlt := hsorted.2.1.1 j hj
  omega

/-- What happens to the heap when the allocated block `b` is released into the free block
`into`, which may be itself. -/
structure Released (h h' : ListHeap) (b into : BlockId) (lo hi : Nat) : Prop where
  inv : h'.Inv lo hi
  allocated_iff : ∀ i, h'.Allocated i ↔ h.Allocated i ∧ i ≠ b
  same : ∀ i, i ≠ b → h.Allocated i → h'.block i = h.block i
  into_free : into ∈ h'.freeList
  kept : ∀ i ∈ h'.freeList, i ≠ into → i ∈ h.freeList ∧ h'.block i = h.block i

section
variable (hr : Releasing h h' b left right lo hi)
include hr

lemma Releasing.alone (hprev : ∀ j ∈ left, (h'.block j).base+(h'.block j).size ≠ (h'.block b).base) :
    Released h h' b b lo hi := by
  have hlayout := hr.layout.release hr.mem hr.before hr.after hr.next_used (by
    intro j hj
    rcases mem_append.mp hj with hj | hj
    · exact hprev j hj
    have hlt := hr.after j hj
    omega)
  refine ⟨⟨?_,hr.below,hr.orig⟩,?_,fun i hi _ => hr.same i hi,?_,?_⟩
  · rw [hr.free]
    exact hlayout
  · intro i
    rw [← hr.allocated,Allocated,hr.free]
    grind
  · simp [hr.free]
  intro i hi hib
  rw [hr.free] at hi
  refine ⟨hr.kept i ?_,hr.same i hib⟩
  grind

/-- The free block in front takes over the released one. -/
theorem Releasing.absorbPrev (hn : n ∈ left) (htouch : (h'.block n).base+(h'.block n).size = (h'.block b).base) :
    Released h {h'.modify n (fun blk => {blk with size := blk.size+(h'.block b).size}) with
      allList := h'.allList.erase b, freeList := left++right} b n lo hi := by
  obtain ⟨l₁,l₂,hall⟩ := append_of_mem hr.mem
  have hnin : n ∈ h'.allList := hr.layout.subset n (by simp [hn])
  have htiles := hr.layout.tiles
  have hlayout := hr.layout
  rw [hall] at htiles hlayout
  obtain ⟨l₁,rfl⟩ := htiles.prev (hall ▸ hnin) htouch
  have hnodup := htiles.nodup
  rw [nodup_middle,nodup_cons] at hnodup
  have hbout : b ∉ l₁++[n] := fun hin => hnodup.1 (mem_append_left _ hin)
  have herase : h'.allList.erase b = l₁++n::l₂ := by
    rw [hall,erase_append_cons hbout]
    simp
  have hmodify : ∀ i ≠ n, (h'.modify n fun blk => {blk with size := blk.size+(h'.block b).size}).block i =
        h'.block i := fun i hi => modify_block_of_ne _ hi _
  have hkeep : ∀ i ∈ l₁++n::l₂, i ∈ h'.allList := by
    intro i hi
    rw [hall]
    grind
  have hnout : n ∉ l₁++l₂ := by
    have hnodup' := hnodup.2
    rw [append_assoc,singleton_append,nodup_middle,nodup_cons] at hnodup'
    exact hnodup'.1
  have hnfree : n ∈ left++right := by simp [hn]
  rw [append_assoc,singleton_append] at hlayout
  rw [herase]
  refine ⟨⟨?_,?_,?_⟩,?_,?_,hnfree,?_⟩
  · refine hlayout.absorbPrev hr.not_free hr.next_used ?_ ?_ fun i hi => ?_
    · simp
    · simp
    have hin : i ≠ n := fun he => hnout (he ▸ hi)
    simp only [hmodify i hin]
    exact ⟨trivial,trivial⟩
  · intro i hi
    exact hr.below i (hkeep i hi)
  · intro i hi
    by_cases hin : i = n
    · subst hin
      simp only [modify_block_self]
      exact hr.orig i hnin
    simp only [hmodify i hin]
    exact hr.orig i (hkeep i hi)
  · intro i
    rw [← hr.allocated,hall,Allocated]
    by_cases hib : i = b
    · subst hib
      grind
    · grind
  · intro i hib hi
    have hin : i ≠ n := by
      rintro rfl
      exact ((hr.allocated i).mpr hi).2 hnfree
    simp only [hmodify i hin]
    exact hr.same i hib
  intro i hi hin
  have hib : i ≠ b := fun he => hr.not_free (he ▸ hi)
  refine ⟨hr.kept i hi,?_⟩
  simp only [hmodify i hin]
  exact hr.same i hib

lemma Releasing.mergePrev (hhi : hi ≤ 4294967296) (hlen : hi < lo+4294967296) :
    ∃ h'' into, h'.mergePrev b left right = some (h'',into) ∧ Released h h'' b into lo hi := by
  unfold ListHeap.mergePrev
  rcases eq_nil_or_concat left with rfl | ⟨left',n,rfl⟩
  · exact ⟨h',b,rfl,hr.alone (by simp)⟩
  rw [concat_eq_append] at hr ⊢
  rw [getLast?_concat]
  dsimp only
  have hnmem : n ∈ left' ++ [n] := by simp
  have hn : n ∈ h'.allList := hr.layout.subset n (by simp)
  have hlt := hr.before n hnmem
  have hbn := hr.layout.tiles.bounds hn
  have hbb := hr.layout.tiles.bounds hr.mem
  split
  · next htouch =>
    rw [if_neg (by rw [hr.orig b hr.mem,hr.orig n hn]; omega)]
    refine ⟨_,n,rfl,hr.absorbPrev hnmem ?_⟩
    unfold blockEnd at htouch
    omega
  next htouch =>
  refine ⟨h',b,rfl,hr.alone fun j hj => ?_⟩
  rcases mem_append.mp hj with hj | hj
  · -- an earlier free block ends before the last one begins
    have hsorted := hr.layout.sorted
    rw [pairwise_append,pairwise_append] at hsorted
    have hjn := hsorted.1.2.2 j hj n (by simp)
    have hjin := hr.layout.subset j (by simp [hj])
    have hdis := hr.layout.tiles.disjoint hjin hn (by rintro rfl; omega)
    omega
  cases mem_singleton.mp hj
  unfold blockEnd at htouch
  omega

end

lemma Released.setType {into : BlockId} (hr : Released h h' b into lo hi) (ty : BlockType) :
    Released h (h'.modify into fun blk => {blk with type := ty}) b into lo hi := by
  refine ⟨hr.inv.relabel into fun _ => ⟨rfl,rfl,rfl⟩,hr.allocated_iff,?_,hr.into_free,?_⟩
  · intro i hib hi
    have hne : i ≠ into := by
      rintro rfl
      exact ((hr.allocated_iff i).mpr ⟨hi,hib⟩).2 hr.into_free
    rw [modify_block_of_ne _ hne]
    exact hr.same i hib hi
  intro i hi hne
  rw [modify_block_of_ne _ hne]
  exact hr.kept i hi hne

/-- `do_heap_free` of an allocated block reaches no `BUG_ON`. -/
theorem Inv.doHeapFree (hinv : h.Inv lo hi) (hhi : hi ≤ 4294967296) (hlen : hi < lo+4294967296)
    (hb : h.Allocated b) : ∃ h' into, h.doHeapFree b = some (h',into) ∧ Released h h' b into lo hi ∧
      (h'.block into).type = .empty := by
  have horig := hinv.orig b hb.1
  have hbounds := hinv.layout.tiles.bounds hb.1
  have hself : (h.modify b fun blk => {blk with
      size := (blk.size+(4294967296+blk.base-blk.origAddr))%4294967296
      base := blk.origAddr}) = h := by
    refine modify_eq_self ?_
    generalize h.block b = blk at horig hbounds ⊢
    obtain ⟨base,type,memProt,origAddr,size,align⟩ := blk
    dsimp only at horig hbounds ⊢
    subst horig
    rw [show (size+(4294967296+origAddr-origAddr))%4294967296 = size by omega]
  have hne : ∀ i ∈ h.freeList, (h.block i).base ≠ (h.block b).base := by
    intro i hi hbase
    have he := hinv.layout.tiles.base_inj (hinv.layout.subset i hi) hb.1 hbase
    exact hb.2 (he ▸ hi)
  unfold ListHeap.doHeapFree
  rw [if_neg (by omega)]
  rw [hself,if_neg (not_not.mpr hb.1)]
  obtain ⟨h1,right,hnext,hr⟩ := hinv.mergeNext hhi hlen hb (takeWhile_append_dropWhile (p := fun n =>
      decide ((h.block n).base ≤ (h.block b).base))).symm
    (fun i hi => by
      have hle := Layout.before_takeWhile hi
      have hmem := hne i ((takeWhile_sublist _).subset hi)
      omega)
    (fun i hi => hinv.layout.after_dropWhile hi)
  obtain ⟨h2,into,hprev,hrel⟩ := hr.mergePrev hhi hlen
  rw [hnext]
  dsimp only [bind_eq_bind,bind_some]
  rw [hprev]
  refine ⟨_,into,rfl,hrel.setType .empty,?_⟩
  simp

end ListHeap

end LinuxToradex.Nvmap
