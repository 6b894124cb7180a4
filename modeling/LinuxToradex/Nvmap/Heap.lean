import Mathlib.Algebra.Order.Group.Nat
import LinuxToradex.Foundation.Align
import LinuxToradex.Foundation.Tiling
import LinuxToradex.Foundation.Neighbours

/-! `drivers/video/tegra/nvmap/nvmap_heap.c`. The blocks are on one list in address order, the free ones
also on a second one. `do_heap_alloc` takes a free block by first fit or last fit; `do_heap_free` merges
with free neighbours. `BUG_ON` is `none`; the descriptor allocations that fail are an input. -/
namespace LinuxToradex.Nvmap
open Function (update)

abbrev BlockId := Nat

inductive BlockType where
  | firstFit
  | buddy
  | empty
  deriving DecidableEq

structure ListBlock where
  base : Nat
  type : BlockType
  memProt : Nat
  origAddr : Nat
  size : Nat
  align : Nat
  deriving DecidableEq

def ListBlock.zero : ListBlock := ⟨0,.firstFit,0,0,0,0⟩

/-- The part of `struct nvmap_heap` that the list allocator works on. Descriptors from `next`
on are not allocated. -/
structure ListHeap where
  block : BlockId → ListBlock
  allList : List BlockId
  freeList : List BlockId
  next : BlockId
  smallAlloc : Nat

/-- Which descriptor allocations of a call to `do_heap_alloc` succeed: the one for the free
block in front and the one for the free block behind. -/
structure SplitMem where
  head : Bool
  tail : Bool
  deriving DecidableEq

def handleInnerCacheable : Nat := 2
def handleCacheable : Nat := 3
def pageSize : Nat := 4096

inductive Direction where
  | topDown
  | bottomUp
  deriving DecidableEq

/-- The list with these blocks where `pos` is. -/
def splice (pos : BlockId) (blocks : List BlockId) : List BlockId → List BlockId
  | [] => []
  | i::l => if i = pos then blocks++l else i::splice pos blocks l

def insertBefore (new pos : BlockId) : List BlockId → List BlockId := splice pos [new,pos]

def insertAfter (new pos : BlockId) : List BlockId → List BlockId := splice pos [pos,new]

namespace ListHeap

def blockEnd (h : ListHeap) (i : BlockId) : Nat :=
  ((h.block i).base+(h.block i).size)%4294967296

def modify (h : ListHeap) (i : BlockId) (f : ListBlock → ListBlock) : ListHeap :=
  {h with block := update h.block i (f (h.block i))}

def bottomUp (h : ListHeap) (len align baseMax : Nat) : List BlockId → Option (BlockId × Nat)
  | [] => none
  | i::rest =>
    let fixBase := Align.up (h.block i).base align
    if fixBase = 0 ∨ fixBase ≥ h.blockEnd i then h.bottomUp len align baseMax rest
    else if baseMax ≠ 0 ∧ fixBase > baseMax then none
    else if (h.block i).size-(fixBase-(h.block i).base) ≥ len then some (i,fixBase)
    else h.bottomUp len align baseMax rest

def topDown (h : ListHeap) (len align : Nat) : List BlockId → Option (BlockId × Nat)
  | [] => none
  | i::rest =>
    let fixBase := Align.down (((h.block i).base+(h.block i).size-len)%4294967296) align
    if (h.block i).size ≥ len ∧ fixBase ≥ (h.block i).base then some (i,fixBase)
    else h.topDown len align rest

def splitHead (h : ListHeap) (b : BlockId) (fixBase : Nat) : ListHeap :=
  let blk := h.block b
  let rem := {ListBlock.zero with
    type := .empty, base := blk.base, origAddr := blk.base, size := fixBase-blk.base}
  {h with
    block := update (update h.block h.next rem) b
      {blk with base := fixBase, origAddr := fixBase, size := blk.size - rem.size}
    allList := insertBefore h.next b h.allList
    freeList := insertBefore h.next b h.freeList
    next := h.next+1}

/-- Without a descriptor for it the block keeps its old address in `orig_addr`. -/
def skipHead (h : ListHeap) (b : BlockId) (fixBase : Nat) : ListHeap :=
  h.modify b fun blk => {blk with
    origAddr := blk.base, base := fixBase, size := blk.size-(fixBase-blk.base)}

def splitTail (h : ListHeap) (b : BlockId) (len : Nat) : Option ListHeap :=
  let blk := h.block b
  let rem := {ListBlock.zero with
    type := .empty, base := blk.base+len, origAddr := blk.base+len, size := blk.size-len}
  if rem.size > blk.size then none
  else some {h with
    block := update (update h.block h.next rem) b {blk with size := len}
    allList := insertAfter h.next b h.allList
    freeList := insertAfter h.next b h.freeList
    next := h.next+1}

def take (h : ListHeap) (b : BlockId) (memProt align : Nat) : ListHeap :=
  {h.modify b (fun blk => {blk with memProt := memProt, align := align}) with
    freeList := h.freeList.erase b}

def split (h : ListHeap) (b : BlockId) (fixBase len : Nat) (k : SplitMem) : Option ListHeap :=
  if (h.block b).base ≠ fixBase ∧ k.head = false then some (h.skipHead b fixBase)
  else
    let h := if (h.block b).base ≠ fixBase then h.splitHead b fixBase else h
    let h := h.modify b fun blk => {blk with origAddr := blk.base}
    if (h.block b).size > len ∧ k.tail = true then h.splitTail b len else some h

/-- Cacheable blocks are rounded to pages: the length and the alignment `do_heap_alloc` looks
for. -/
def request (len align memProt : Nat) : Nat × Nat :=
  if memProt = handleCacheable ∨ memProt = handleInnerCacheable then
    (Align.up len pageSize,max align pageSize)
  else (len,align)

/-- `do_heap_alloc`. The heap of a kernel with the compactor is always searched from the
bottom. -/
def doHeapAlloc (compactor : Bool) (h : ListHeap) (len align memProt baseMax : Nat)
    (k : SplitMem) : Option (ListHeap × Option BlockId) :=
  let (len,align) := request len align memProt
  let dir := if compactor = true ∨ len ≤ h.smallAlloc then Direction.bottomUp else .topDown
  let found := match dir with
    | .bottomUp => h.bottomUp len align baseMax h.freeList
    | .topDown => h.topDown len align h.freeList.reverse
  match found with
  | none => some (h,none)
  | some (b,fixBase) =>
    let h := if dir = .bottomUp then h.modify b fun blk => {blk with type := .firstFit} else h
    (h.split b fixBase len k).map fun h => (h.take b memProt align,some b)

def mergeNext (h : ListHeap) (b : BlockId) (left right : List BlockId) :
    Option (ListHeap × List BlockId) :=
  match right with
  | [] => some ({h with freeList := left++[b]},[])
  | n::right' =>
    if (h.block n).base = h.blockEnd b then
      if (h.block b).origAddr ≥ (h.block n).origAddr then none
      else
        let h' := h.modify b fun blk => {blk with size := blk.size+(h.block n).size}
        some ({h' with allList := h.allList.erase n, freeList := left++b::right'},right')
    else some ({h with freeList := left++b::right},right)

def mergePrev (h : ListHeap) (b : BlockId) (left right : List BlockId) :
    Option (ListHeap × BlockId) :=
  match left.getLast? with
  | none => some (h,b)
  | some n =>
    if h.blockEnd n = (h.block b).base then
      if (h.block n).origAddr ≥ (h.block b).origAddr then none
      else
        let h' := h.modify n fun blk => {blk with size := blk.size+(h.block b).size}
        some ({h' with allList := h.allList.erase b, freeList := left++right},n)
    else some (h,b)

def doHeapFree (h : ListHeap) (b : BlockId) : Option (ListHeap × BlockId) :=
  if (h.block b).base > (h.block b).origAddr then none
  else
    let h := h.modify b fun blk => {blk with
      size := (blk.size+(4294967296+blk.base-blk.origAddr))%4294967296
      base := blk.origAddr}
    let left := h.freeList.takeWhile fun n => decide ((h.block n).base ≤ (h.block b).base)
    let right := h.freeList.dropWhile fun n => decide ((h.block n).base ≤ (h.block b).base)
    if b ∉ h.allList then none
    else do
      let (h,right) ← h.mergeNext b left right
      let (h,b) ← h.mergePrev b left right
      pure (h.modify b fun blk => {blk with type := .empty},b)

end ListHeap

open Function

abbrev BuddyId := Nat

structure BuddyBits where
  alloc : Bool
  order : Nat
  deriving DecidableEq

structure BuddyHeap where
  heapBase : BlockId
  nrBuddies : Nat
  bitmap : Nat → BuddyBits

structure NvmapHeap extends ListHeap where
  buddyList : List BuddyId
  buddy : BuddyId → BuddyHeap
  nextBuddy : BuddyId
  minBuddyShift : Nat
  buddyHeapSize : Nat

/-- A `struct nvmap_heap_block *`: a block of the list, or a block of a sub-heap, which is
known by its sub-heap and its base. -/
inductive HeapBlock where
  | list (b : BlockId)
  | buddy (heap : BuddyId) (base : Nat)
  deriving DecidableEq

/-- Which descriptor allocations of a call to `nvmap_heap_alloc` succeed: the block in the
`n`-th sub-heap tried, the new sub-heap, and the first block in it. -/
structure Kmem extends SplitMem where
  block : Nat → Bool
  heap : Bool
  first : Bool

def maxBuddyNr : Nat := 128
def heapMinBuddySize : Nat := 8192

def orderOf (len minShift : Nat) : Nat :=
  ((2*((len+2^minShift-1)/2^minShift)+4294967295)%4294967296).log2

/-- The search of `buddy_alloc`: the smallest free block that is large enough and aligned, or
`nr` if there is none. -/
def buddySearch (bm : Nat → BuddyBits) (nr order alignMask index best : Nat) : Nat :=
  if index < nr then
    let next := index+2^(bm index).order
    if (bm index).alloc = true ∨ index &&& alignMask ≠ 0 ∨ (bm index).order < order then
      buddySearch bm nr order alignMask next best
    else
      let best := if best = nr ∨ (bm index).order < (bm best).order then index else best
      if (bm best).order = order then best
      else buddySearch bm nr order alignMask next best
  else best
termination_by nr-index
decreasing_by
  all_goals
    have hpos := Nat.two_pow_pos (bm index).order
    omega

lemma xor_two_pow_ne (i o : Nat) : i ≠ i ^^^ 2^o := by
  intro he
  have hzero : i ^^^ (i ^^^ 2^o) = 0 := by rw [← he,Nat.xor_self]
  rw [← Nat.xor_assoc,Nat.xor_self,Nat.zero_xor] at hzero
  exact absurd hzero (Nat.two_pow_pos o).ne'

/-- The splits of `buddy_alloc`: the block at `best` is halved until it has the order; the
search has left it with that order or a larger one. -/
def buddySplit (bm : Nat → BuddyBits) (best order : Nat) : Nat → BuddyBits :=
  if order < (bm best).order then
    let o := (bm best).order-1
    buddySplit (update (update bm best {bm best with order := o})
      (best ^^^ 2^o) ⟨false,o⟩) best order
  else bm
termination_by (bm best).order
decreasing_by
  rw [update_of_ne (xor_two_pow_ne _ _),update_self]
  dsimp only
  omega

/-- The loop of `do_buddy_free`: the free block at `index` is merged with its buddies. `none`
when it has not ended after the given number of rounds. -/
def buddyMerge (nr : Nat) : Nat → (Nat → BuddyBits) → Nat → Option (Nat → BuddyBits)
  | 0, _, _ => none
  | n+1, bm, index =>
    let buddy := index ^^^ 2^(bm index).order
    if buddy ≥ nr ∨ (bm buddy).alloc = true ∨ (bm buddy).order ≠ (bm index).order then some bm
    else
      let bm := update bm buddy {bm buddy with order := (bm buddy).order+1}
      let bm := update bm index {bm index with order := (bm index).order+1}
      buddyMerge nr n bm (min buddy index)

namespace NvmapHeap

def setBitmap (h : NvmapHeap) (bh : BuddyId) (bitmap : Nat → BuddyBits) : NvmapHeap :=
  {h with buddy := update h.buddy bh {h.buddy bh with bitmap := bitmap}}

/-- `buddy_alloc`; `ok` tells whether the descriptor for the block is allocated. -/
def buddyAlloc (h : NvmapHeap) (bh : BuddyId) (size align memProt : Nat) (ok : Bool) :
    NvmapHeap × Option HeapBlock :=
  let heap := h.buddy bh
  let order := orderOf size h.minBuddyShift
  if (h.block heap.heapBase).memProt ≠ memProt then (h,none)
  else
    let align := max align (2^h.minBuddyShift)
    let alignMask := (align >>> h.minBuddyShift)-1
    let best := buddySearch heap.bitmap heap.nrBuddies order alignMask 0 heap.nrBuddies
    if best = heap.nrBuddies ∨ ok = false then (h,none)
    else
      let bitmap := buddySplit heap.bitmap best order
      let bitmap := update bitmap best {bitmap best with alloc := true}
      (h.setBitmap bh bitmap, some (.buddy bh ((h.block heap.heapBase).base+best <<< h.minBuddyShift)))

def doBuddyFree (h : NvmapHeap) (bh : BuddyId) (base : Nat) : Option (NvmapHeap × Bool) :=
  let heap := h.buddy bh
  let index := (base-(h.block heap.heapBase).base) >>> h.minBuddyShift
  let bitmap := update heap.bitmap index {heap.bitmap index with alloc := false}
  (buddyMerge heap.nrBuddies heap.nrBuddies bitmap index).map fun bitmap =>
    (h.setBitmap bh bitmap,decide (2^(bitmap 0).order = heap.nrBuddies))

def tryBuddies (h : NvmapHeap) (len align memProt : Nat) (ok : Nat → Bool) :
    List BuddyId → Nat → Option (NvmapHeap × HeapBlock)
  | [], _ => none
  | bh::rest, n =>
    match h.buddyAlloc bh len align memProt (ok n) with
    | (h',some b) => some (h',b)
    | (_,none) => h.tryBuddies len align memProt ok rest (n+1)

def addBuddy (h : NvmapHeap) (b : BlockId) : NvmapHeap :=
  { h with
    buddy := update h.buddy h.nextBuddy
      { heapBase := b
        nrBuddies := h.buddyHeapSize >>> h.minBuddyShift
        bitmap := update (fun _ => ⟨false,0⟩) 0
          ⟨false,orderOf h.buddyHeapSize h.minBuddyShift⟩ }
    buddyList := h.buddyList++[h.nextBuddy]
    nextBuddy := h.nextBuddy+1 }

def doBuddyAlloc (h : NvmapHeap) (len align memProt : Nat) (k : Kmem) :
    Option (NvmapHeap × Option HeapBlock) :=
  match h.tryBuddies len align memProt k.block h.buddyList 0 with
  | some (h,b) => some (h,some b)
  | none =>
    if k.heap = false then some (h,none)
    else
      match h.toListHeap.doHeapAlloc false h.buddyHeapSize h.buddyHeapSize memProt 0
          k.toSplitMem with
      | none => none
      | some (_,none) => some (h,none)
      | some (l,some b) =>
        some (({h with toListHeap := l}.addBuddy b).buddyAlloc h.nextBuddy len align memProt
          k.first)

/-- `nvmap_heap_alloc`, for a handle of this size, alignment and protection. The links between
block and handle, which only the compactor follows, are left out. -/
def nvmapHeapAlloc (l1CacheBytes : Nat) (h : NvmapHeap) (len align prot : Nat) (k : Kmem) :
    Option (NvmapHeap × Option HeapBlock) :=
  if len ≤ h.buddyHeapSize/2 then h.doBuddyAlloc len align prot k
  else
    let len := if h.buddyHeapSize ≠ 0 then Align.up len h.buddyHeapSize else len
    let align := max align l1CacheBytes
    (h.toListHeap.doHeapAlloc false len align prot 0 k.toSplitMem).map fun (l,b) =>
      ({h with toListHeap := l},b.map .list)

/-- `nvmap_heap_free`. The block of an empty sub-heap is a block of the list. -/
def nvmapHeapFree (h : NvmapHeap) : HeapBlock → Option NvmapHeap
  | .list b => (h.toListHeap.doHeapFree b).map fun (l,_) => {h with toListHeap := l}
  | .buddy bh base =>
    match h.doBuddyFree bh base with
    | none => none
    | some (h,false) => some h
    | some (h,true) =>
      (h.toListHeap.doHeapFree (h.buddy bh).heapBase).map fun (l,_) =>
        {h with toListHeap := l, buddyList := h.buddyList.erase bh}

def createSizes (base len buddySize : Nat) : Nat × Nat × Nat :=
  let buddySize :=
    if buddySize ≠ 0 ∧ buddySize < heapMinBuddySize then 0
    else if buddySize ≥ len then 0
    else if buddySize &&& (buddySize-1) ≠ 0 then 2^(buddySize.log2+1)
    else buddySize
  let unaligned := buddySize ≠ 0 ∧ base &&& (buddySize-1) ≠ 0
  let base' := if unaligned then Align.up base buddySize else base
  let len :=
    if unaligned then
      (len+4294967296-(base'+4294967296-base)%4294967296)%4294967296
    else len
  let len := if buddySize ≠ 0 ∧ len &&& (buddySize-1) ≠ 0 then Align.down len buddySize else len
  (base',len,buddySize)

def nvmapHeapCreate (base len buddySize : Nat) : NvmapHeap :=
  let (base,len,buddySize) := createSizes base len buddySize
  { block := update (fun _ => ListBlock.zero) 0
      { ListBlock.zero with base := base, type := .empty, size := len, origAddr := base }
    allList := [0]
    freeList := [0]
    next := 1
    smallAlloc := max (2*buddySize%4294967296) (len/256)
    buddyList := []
    buddy := fun _ => ⟨0,0,fun _ => ⟨false,0⟩⟩
    nextBuddy := 0
    minBuddyShift := if buddySize ≠ 0 then (buddySize/maxBuddyNr).log2 else 0
    buddyHeapSize := buddySize }

end NvmapHeap

end LinuxToradex.Nvmap
