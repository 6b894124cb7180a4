import LinuxToradex.Foundation.Align
import LinuxToradex.Foundation.Neighbours
import LinuxToradex.Foundation.SearchTree
import LinuxToradex.Foundation.Tiling

/-! `arch/arm/mach-tegra/iovmm.c`. The blocks of a domain are in a tree by address, the free ones also in one
by length. What is done under `block_lock` is one function. A look at a freed block, unlinking a node that is
not linked and a `BUG_ON` are `none`. The rotations that balance the trees are an input. -/
namespace LinuxToradex.Iovmm
open SearchTree

abbrev BlockId := Nat

abbrev Rotations := Nat → List (Bool × List Bool)

/-- `struct tegra_iovmm_block`; `areaStart` and `areaLength` are those of its `vm_area`. A block
is poisoned when it is freed. -/
structure Block where
  areaStart : Nat
  areaLength : Nat
  start : Nat
  length : Nat
  ref : Nat
  free : Bool
  poison : Bool
  deriving DecidableEq

/-- `struct tegra_iovmm_domain` and `iovmm_block_splitting`. Blocks from `next` on have not been
allocated yet. -/
structure Domain where
  block : BlockId → Block
  allBlocks : BinaryTree BlockId
  freeBlocks : BinaryTree BlockId
  next : BlockId
  splitting : Bool
  pgsizeBits : Nat

inductive Request where
  | floating (size align : Nat)
  | fixed (size start : Nat)
  deriving DecidableEq

/-- Where an allocation stands when the lock is released: it is about to split off the front of
the free block, the rear of the block it has taken, or it returns. -/
inductive Phase where
  | front (b : BlockId) (cut : Nat)
  | rear (best : BlockId) (cut : Nat)
  | done (best : Option BlockId)
  deriving DecidableEq

namespace Domain

def modify (d : Domain) (b : BlockId) (f : Block → Block) : Domain :=
  {d with block := Function.update d.block b (f (d.block b))}

def Readable (d : Domain) (t : BinaryTree BlockId) : Prop :=
  ∀ i ∈ toList t, (d.block i).poison = false

instance (d : Domain) (t : BinaryTree BlockId) : Decidable (d.Readable t) :=
  inferInstanceAs (Decidable (∀ i ∈ toList t, (d.block i).poison = false))

def pageSize (d : Domain) : Nat := 2^d.pgsizeBits

def DoSplit (d : Domain) (m : Nat) : Prop := m ≥ 4*d.pageSize%4294967296

instance (d : Domain) (m : Nat) : Decidable (d.DoSplit m) :=
  inferInstanceAs (Decidable (m ≥ 4*d.pageSize%4294967296))

def simAlign (d : Domain) (b : BlockId) (align : Nat) : Nat :=
  if (d.block b).start%align ≠ 0 then align-(d.block b).start%align else 0

def blockPut (d : Domain) (b : BlockId) : Option Domain :=
  if (d.block b).poison = true then none
  else if (d.block b).ref = 0 then none
  else some (d.modify b fun blk =>
    {blk with ref := blk.ref - 1, poison := decide (blk.ref - 1 = 0)})

def eraseAll (d : Domain) (b : BlockId) (rot : List (Bool × List Bool)) : Option Domain :=
  if b ∈ toList d.allBlocks then
    some {d with allBlocks := balance (unlink b d.allBlocks) rot}
  else none

def eraseFree (d : Domain) (b : BlockId) (rot : List (Bool × List Bool)) : Option Domain :=
  if b ∈ toList d.freeBlocks then
    some {d with freeBlocks := balance (unlink b d.freeBlocks) rot}
  else none

def insertFree (d : Domain) (b : BlockId) (rot : List (Bool × List Bool)) : Option Domain :=
  if d.Readable d.freeBlocks then
    some {d with freeBlocks := balance (link
      (fun i => decide ((d.block b).length ≥ (d.block i).length)) b d.freeBlocks) rot}
  else none

def insertAll (d : Domain) (b : BlockId) (rot : List (Bool × List Bool)) : Option Domain :=
  if d.Readable d.allBlocks then
    some {d with allBlocks := balance (link
      (fun i => decide ((d.block b).start ≥ (d.block i).start)) b d.allBlocks) rot}
  else none

def freeNeighbour (d : Domain) (neighbour : Option BlockId) : Option BlockId :=
  neighbour.filter fun i => (d.block i).free

/-- The part of `iovmm_free_block` that merges the block with free neighbours: the domain, and
the block that is free now. -/
def merge (d : Domain) (b : BlockId) (pred succ : Option BlockId) (rot : Rotations) :
    Option (Domain × BlockId) :=
  match pred, succ with
  | some p, some s => do
    let d := d.modify p fun blk =>
      {blk with length := blk.length+(d.block b).length+(d.block s).length}
    let d ← d.eraseAll b (rot 0)
    let d ← d.eraseAll s (rot 1)
    let d ← d.eraseFree s (rot 2)
    let d ← d.eraseFree p (rot 3)
    let d ← d.blockPut b
    let d ← d.blockPut s
    pure (d,p)
  | some p, none => do
    let d := d.modify p fun blk => {blk with length := blk.length+(d.block b).length}
    let d ← d.eraseAll b (rot 0)
    let d ← d.eraseFree p (rot 1)
    let d ← d.blockPut b
    pure (d,p)
  | none, some s => do
    let d := d.modify b fun blk => {blk with length := blk.length+(d.block s).length}
    let d ← d.eraseAll s (rot 0)
    let d ← d.eraseFree s (rot 1)
    let d ← d.blockPut s
    pure (d,b)
  | none, none => some (d,b)

def freeLocked (d : Domain) (b : BlockId) (rot : Rotations) : Option Domain :=
  if b ∈ toList d.allBlocks ∧ d.Readable d.allBlocks then do
    let l := toList d.allBlocks
    let (d,b) ← d.merge b (d.freeNeighbour (Neighbours.prevIn l b)) (d.freeNeighbour (Neighbours.nextIn l b)) rot
    let d ← d.insertFree b (rot 4)
    pure (d.modify b fun blk => {blk with free := true})
  else none

/-- The part of `iovmm_split_free_block` after the lock is taken again; `ok` tells whether a
block could be allocated for the remainder. -/
def splitFreeBlock (d : Domain) (b : BlockId) (size : Nat) (ok : Bool) (rot : Rotations) :
    Option (Domain × Option BlockId) :=
  if ok = false then some (d,none)
  else if (d.block b).poison = true then none
  else do
    let rem := d.next
    let blk := d.block b
    let d := {d with
      block := Function.update (Function.update d.block b {blk with length := size}) rem
        {areaStart := 0, areaLength := 0, start := blk.start+size, length := blk.length-size,
          ref := 1, free := true, poison := false}
      next := d.next+1}
    let d ← d.insertFree rem (rot 0)
    let d ← d.insertAll rem (rot 1)
    pure (d,some rem)

def bestFit (d : Domain) (size align : Nat) :
    BinaryTree BlockId → Option BlockId → Option BlockId
  | .nil, best => best
  | .node b l r, best =>
    let simalign := d.simAlign b align
    let alignedStart := ((d.block b).start+simalign)%4294967296
    let blockCeil := ((d.block b).start+(d.block b).length)%4294967296
    let wanted := (alignedStart+size)%4294967296
    if blockCeil ≥ wanted then
      if ¬d.DoSplit simalign ∧ ¬d.DoSplit (blockCeil-wanted) then some b
      else d.bestFit size align l (some b)
    else d.bestFit size align r best

/-- The search of `iovmm_allocate_vm`, over the free blocks in the order of their tree. -/
def findFixed (d : Domain) (size iovmStart : Nat) : Option BlockId :=
  (toList d.freeBlocks).find? fun b => decide ((d.block b).start ≤ iovmStart ∧
    ((d.block b).start+(d.block b).length)%4294967296 ≥ (iovmStart+size)%4294967296)

/-- The found block leaves the free ones and gets its area; what is left behind the area may
have to be split off. `iovmm_allocate_vm` checks that the area is in the block. -/
def claim (d : Domain) (best : BlockId) (r : Request) (iovmStart : Nat) (rot : List (Bool × List Bool)) :
    Option (Domain × Phase) :=
  let size := match r with | .floating size _ => size | .fixed size _ => size
  if (d.block best).poison = true then none
  else do
    let d ← d.eraseFree best rot
    let d := d.modify best fun blk =>
      {blk with free := false, ref := blk.ref+1, areaStart := iovmStart, areaLength := size}
    let blk := d.block best
    let rest := blk.start+blk.length-(iovmStart+size)
    match r with
    | .fixed .. =>
      if blk.start > iovmStart ∨ blk.start+blk.length < iovmStart+size then none
      else if d.DoSplit rest then
        pure ({d with splitting := true},.rear best (iovmStart - blk.start+size))
      else pure ({d with splitting := false},.done (some best))
    | .floating .. =>
      if d.DoSplit rest then
        pure ({d with splitting := true},.rear best (size+(iovmStart - blk.start)))
      else pure ({d with splitting := false},.done (some best))

def search (d : Domain) (r : Request) (rot : Rotations) : Option (Domain × Phase) :=
  if d.Readable d.freeBlocks then
    match r with
    | .floating size align =>
      match d.bestFit size align d.freeBlocks none with
      | none => some (d,.done none)
      | some b =>
        let simalign := d.simAlign b align
        if d.DoSplit simalign then some ({d with splitting := true},.front b simalign)
        else d.claim b r ((d.block b).start+simalign) (rot 0)
    | .fixed size iovmStart =>
      match d.findFixed size iovmStart with
      | none => some ({d with splitting := false},.done none)
      | some b =>
        if d.DoSplit (iovmStart-(d.block b).start) then
          some ({d with splitting := true},.front b (iovmStart - (d.block b).start))
        else d.claim b r iovmStart (rot 0)
  else none

def afterFront (d : Domain) (r : Request) (b : BlockId) (cut : Nat) (ok : Bool) (rot : Rotations) :
    Option (Domain × Phase) := do
  match ← d.splitFreeBlock b cut ok rot with
  | (d,some rem) =>
    match r with
    | .floating .. => d.claim rem r (d.block rem).start (rot 2)
    | .fixed _ iovmStart => d.claim rem r iovmStart (rot 2)
  | (d,none) =>
    match r with
    | .floating .. => d.claim b r ((d.block b).start+cut) (rot 2)
    | .fixed .. => some ({d with splitting := false},.done none)

def afterRear (d : Domain) (best : BlockId) (cut : Nat) (ok : Bool) (rot : Rotations) :
    Option (Domain × Phase) := do
  let (d,_) ← d.splitFreeBlock best cut ok rot
  pure ({d with splitting := false},.done (some best))

end Domain

def domainInit (pgsizeBits start stop : Nat) : Domain :=
  let pageSize := 2^pgsizeBits
  let first := Align.roundUp start pageSize
  { block := Function.update (fun _ => ⟨0,0,0,0,0,false,false⟩) 0
      { areaStart := 0, areaLength := 0, start := first
        length := Align.down stop pageSize-first, ref := 1, free := true, poison := false }
    allBlocks := .node 0 .nil .nil
    freeBlocks := .node 0 .nil .nil
    next := 1
    splitting := false
    pgsizeBits := pgsizeBits }

open List Function Tiling

def Request.size : Request → Nat
  | .floating size _ => size
  | .fixed size _ => size

namespace Domain

variable {d d' : Domain} {lo hi : Nat} {dropped : BlockId → Prop} {b : BlockId}

abbrev all (d : Domain) : List BlockId := toList d.allBlocks

abbrev frees (d : Domain) : List BlockId := toList d.freeBlocks

/-- A domain from `lo` to `hi`; the blocks in `dropped` have lost the reference of their
area. -/
structure Inv (d : Domain) (lo hi : Nat) (dropped : BlockId → Prop) : Prop where
  word : hi < 4294967296
  pages : d.pgsizeBits < 30
  tiles : Tiles (fun i => (d.block i).start) (fun i => (d.block i).length) d.all lo hi
  alive : ∀ i ∈ d.all, (d.block i).poison = false
  below : ∀ i ∈ d.all, i < d.next
  freeNodup : d.frees.Nodup
  free_iff : ∀ i, i ∈ d.frees ↔ i ∈ d.all ∧ (d.block i).free = true
  freeRef : ∀ i ∈ d.frees, (d.block i).ref = 1
  usedRef : ∀ i ∈ d.all, (d.block i).free = false → ¬dropped i → (d.block i).ref = 2
  droppedRef : ∀ i, dropped i → i ∈ d.all ∧ (d.block i).free = false ∧ (d.block i).ref = 1
  area : ∀ i ∈ d.all, (d.block i).free = false → (d.block i).start ≤ (d.block i).areaStart ∧
    (d.block i).areaStart+(d.block i).areaLength ≤ (d.block i).start+(d.block i).length

lemma Inv.nodup (h : d.Inv lo hi dropped) : d.all.Nodup := h.tiles.nodup

lemma Inv.readable_all (h : d.Inv lo hi dropped) : d.Readable d.allBlocks := h.alive

lemma Inv.readable_free (h : d.Inv lo hi dropped) : d.Readable d.freeBlocks := fun i hi =>
  h.alive i ((h.free_iff i).mp hi).1

lemma insertFree_perm (h : d.Readable d.freeBlocks) (b : BlockId) (rot : List (Bool × List Bool)) :
    ∃ t, d.insertFree b rot = some {d with freeBlocks := t} ∧ (toList t).Perm (b::d.frees) := by
  refine ⟨_,if_pos h,?_⟩
  rw [toList_balance]
  exact toList_link_perm _ _ _

lemma Inv.pos_of_doSplit (h : d.Inv lo hi dropped) {m : Nat} (hm : d.DoSplit m) : 0 < m := by
  have hlt : 4*d.pageSize < 4294967296 := by
    have hpow : 2^d.pgsizeBits ≤ 2^29 :=
      Nat.pow_le_pow_right (by omega) (Nat.le_of_lt_succ h.pages)
    unfold pageSize
    omega
  have hpos : 0 < d.pageSize := Nat.two_pow_pos _
  unfold DoSplit at hm
  omega

structure Split (d d' : Domain) (b : BlockId) (cut : Nat) : Prop where
  all : ∃ l₁ l₂, d.all = l₁++b::l₂ ∧ d'.all = l₁++b::d.next::l₂
  frees : d'.frees.Perm (d.next::d.frees)
  self : d'.block b = { d.block b with length := cut }
  rem : d'.block d.next =
    { areaStart := 0, areaLength := 0, start := (d.block b).start+cut
      length := (d.block b).length-cut, ref := 1, free := true, poison := false }
  same : ∀ i, i ≠ b → i ≠ d.next → d'.block i = d.block i
  next : d'.next = d.next+1
  splitting : d'.splitting = d.splitting
  pgsizeBits : d'.pgsizeBits = d.pgsizeBits

lemma Inv.splitFreeBlock (h : d.Inv lo hi dropped) (hb : b ∈ d.all) {cut : Nat} (hpos : 0 < cut)
    (hlt : cut < (d.block b).length) (rot : Rotations) :
    ∃ d', d.splitFreeBlock b cut true rot = some (d',some d.next) ∧ Split d d' b cut := by
  have hne : d.next ≠ b := ((h.below b hb).ne).symm
  have hold : ∀ i ∈ d.all, i ≠ d.next := fun i hi => (h.below i hi).ne
  unfold Domain.splitFreeBlock
  rw [if_neg (by simp),h.alive b hb,if_neg Bool.false_ne_true]
  dsimp only
  generalize hblk : update (update d.block b { d.block b with length := cut })
    d.next { areaStart := 0, areaLength := 0, start := (d.block b).start+cut
             length := (d.block b).length-cut, ref := 1, free := true, poison := false } = blk
  have hself : blk b = { d.block b with length := cut } := by
    rw [← hblk,update_of_ne hne.symm,update_self]
  have hrem := (congrFun hblk d.next).symm.trans (update_self ..)
  have hsame : ∀ i ≠ b, i ≠ d.next → blk i = d.block i := by
    intro i hib hin
    rw [← hblk,update_of_ne hin,update_of_ne hib]
  have hkept : ∀ i ∈ d.all, (blk i).poison = false ∧ (blk i).start = (d.block i).start := by
    intro i hi
    by_cases hib : i = b
    · rw [hib,hself]
      exact ⟨h.alive b hb,rfl⟩
    rw [hsame i hib (hold i hi)]
    exact ⟨h.alive i hi,rfl⟩
  obtain ⟨l1,l2,hall⟩ := append_of_mem hb
  have hpairs := h.tiles.pairwise
  rw [hall,pairwise_append,pairwise_cons] at hpairs
  obtain ⟨-,⟨hbehind,-⟩,hbefore⟩ := hpairs
  have hpoison := fun i hi => (hkept i hi).1
  have hmem : ∀ i ∈ l1++[b]++l2, i ∈ d.all := by
    rw [hall,append_assoc,singleton_append]
    exact fun i hi => hi
  have hfront : ∀ i ∈ l1++[b], (blk i).start ≤ (blk d.next).start := by
    intro i hi
    rw [hrem,(hkept i (hmem i (mem_append_left _ hi))).2]
    rcases mem_append.mp hi with hi | hi
    · have hle := hbefore i hi b mem_cons_self
      dsimp only
      omega
    rw [mem_singleton.mp hi]
    exact Nat.le_add_right _ _
  have hrear : ∀ i ∈ l2, (blk d.next).start < (blk i).start := by
    intro i hi
    have hle := hbehind i hi
    rw [hrem,(hkept i (hmem i (mem_append_right _ hi))).2]
    dsimp only
    omega
  obtain ⟨t1,ht1,hperm⟩ := insertFree_perm (d := { d with block := blk, next := d.next+1 })
    (fun i hi => hpoison i ((h.free_iff i).mp hi).1) d.next (rot 0)
  have hread : Domain.Readable { d with block := blk, next := d.next+1, freeBlocks := t1 } d.allBlocks := hpoison
  rw [ht1,Option.bind_eq_bind,Option.bind_some,insertAll,if_pos hread]
  refine ⟨_,rfl,⟨l1,l2,hall,?_⟩,hperm,hself,hrem,hsame,rfl,rfl,rfl⟩
  rw [← singleton_append,← append_assoc] at hall ⊢
  rw [all,toList_balance]
  exact toList_link hall (fun i hi => decide_eq_true (hfront i hi))
    fun i hi => decide_eq_false (not_le.mpr (hrear i hi))

/-- Splitting keeps the invariant if the area of the block is in front of the cut. -/
theorem Split.inv {cut : Nat} (hs : Split d d' b cut) (h : d.Inv lo hi dropped) (hpos : 0 < cut)
    (hlt : cut < (d.block b).length) (harea : (d.block b).free = false →
      (d.block b).areaStart+(d.block b).areaLength ≤ (d.block b).start+cut) : d'.Inv lo hi dropped := by
  obtain ⟨l1,l2,hall,hall'⟩ := hs.all
  have hmem : ∀ i, i ∈ d'.all ↔ i = d.next ∨ i ∈ d.all := by
    intro i
    rw [hall,hall']
    grind
  have hold : ∀ i ∈ d.all, i ≠ d.next := fun i hi => (h.below i hi).ne
  have hfields : ∀ i ∈ d.all, (d'.block i).start = (d.block i).start ∧
      (d'.block i).free = (d.block i).free ∧ (d'.block i).ref = (d.block i).ref ∧
      (d'.block i).poison = (d.block i).poison ∧
      (d'.block i).areaStart = (d.block i).areaStart ∧
      (d'.block i).areaLength = (d.block i).areaLength := by
    intro i hi
    by_cases hib : i = b
    · rw [hib,hs.self]
      simp
    rw [hs.same i hib (hold i hi)]
    simp
  refine ⟨h.word,hs.pgsizeBits ▸ h.pages,?_,?_,?_,?_,?_,?_,?_,?_,?_⟩
  · have htiles := h.tiles
    rw [hall] at htiles
    rw [hall']
    refine htiles.replace (m := [b,d.next]) ?_ ?_
    · intro i hi
      have hib : i ≠ b := by
        rintro rfl
        have hnodup := htiles.nodup
        rw [nodup_middle,nodup_cons] at hnodup
        exact hnodup.1 hi
      have hin : i ∈ d.all := by
        rw [hall]
        grind
      rw [hs.same i hib (hold i hin)]
      exact ⟨rfl,rfl⟩
    simp only [Tiles,hs.self,hs.rem]
    refine ⟨trivial,hpos,trivial,Nat.sub_pos_of_lt hlt,?_⟩
    omega
  · intro i hi
    rcases (hmem i).mp hi with rfl | hi
    · rw [hs.rem]
    rw [(hfields i hi).2.2.2.1]
    exact h.alive i hi
  · intro i hi
    rw [hs.next]
    rcases (hmem i).mp hi with rfl | hi
    · exact Nat.lt_succ_self _
    · exact Nat.lt_succ_of_lt (h.below i hi)
  · refine hs.frees.nodup_iff.mpr (nodup_cons.mpr ⟨?_,h.freeNodup⟩)
    intro hin
    exact hold _ ((h.free_iff _).mp hin).1 rfl
  · intro i
    rw [hs.frees.mem_iff,mem_cons,hmem,h.free_iff]
    constructor
    · rintro (rfl | ⟨hi,hf⟩)
      · exact ⟨.inl rfl,by rw [hs.rem]⟩
      · exact ⟨.inr hi,by rw [(hfields i hi).2.1]; exact hf⟩
    rintro ⟨rfl | hi,hf⟩
    · exact .inl rfl
    rw [(hfields i hi).2.1] at hf
    exact .inr ⟨hi,hf⟩
  · intro i hi
    rcases mem_cons.mp (hs.frees.mem_iff.mp hi) with rfl | hi
    · rw [hs.rem]
    rw [(hfields i ((h.free_iff i).mp hi).1).2.2.1]
    exact h.freeRef i hi
  · intro i hi hu hdrop
    rcases (hmem i).mp hi with rfl | hi
    · rw [hs.rem] at hu
      cases hu
    rw [(hfields i hi).2.1] at hu
    rw [(hfields i hi).2.2.1]
    exact h.usedRef i hi hu hdrop
  · intro i hdrop
    obtain ⟨hi,hu,href⟩ := h.droppedRef i hdrop
    rw [(hfields i hi).2.1,(hfields i hi).2.2.1]
    exact ⟨(hmem i).mpr (.inr hi),hu,href⟩
  intro i hi hu
  rcases (hmem i).mp hi with rfl | hi
  · rw [hs.rem] at hu
    cases hu
  obtain ⟨hstart,hfree,-,-,has,hal⟩ := hfields i hi
  rw [hfree] at hu
  rw [hstart,has,hal]
  have hold' := h.area i hi hu
  refine ⟨hold'.1,?_⟩
  by_cases hib : i = b
  · subst hib
    rw [hs.self]
    exact harea hu
  rw [hs.same i hib (hold i hi)]
  exact hold'.2

structure Claimed (d d' : Domain) (b : BlockId) (areaStart size : Nat) : Prop where
  all : d'.all = d.all
  frees : d'.frees = d.frees.filter (· ≠ b)
  self : d'.block b = {d.block b with
    free := false, ref := (d.block b).ref+1, areaStart := areaStart, areaLength := size}
  same : ∀ i, i ≠ b → d'.block i = d.block i
  next : d'.next = d.next
  pgsizeBits : d'.pgsizeBits = d.pgsizeBits

lemma Inv.claim (h : d.Inv lo hi dropped) (hb : b ∈ d.frees) (r : Request) {iovmStart : Nat}
    (hstart : (d.block b).start ≤ iovmStart)
    (hfit : iovmStart+r.size ≤ (d.block b).start+(d.block b).length) (rot : List (Bool × List Bool)) :
    ∃ d', Claimed d d' b iovmStart r.size ∧ d.claim b r iovmStart rot = some
      (if d.DoSplit ((d.block b).start+(d.block b).length-(iovmStart+r.size)) then
        ({d' with splitting := true},.rear b (iovmStart - (d.block b).start+r.size))
      else ({d' with splitting := false},.done (some b))) := by
  have halive : (d.block b).poison = false := h.alive b ((h.free_iff b).mp hb).1
  have herase : d.eraseFree b rot = some {d with freeBlocks := balance (unlink b d.freeBlocks) rot} := if_pos hb
  refine ⟨{d with
    freeBlocks := balance (unlink b d.freeBlocks) rot
    block := update d.block b {d.block b with
      free := false, ref := (d.block b).ref+1, areaStart := iovmStart, areaLength := r.size}},
    ⟨rfl,?_,update_self ..,fun i hi => update_of_ne hi ..,rfl,rfl⟩,?_⟩
  · rw [frees,toList_balance]
    exact toList_unlink b h.freeNodup
  unfold Domain.claim
  rw [halive,if_neg Bool.false_ne_true,herase,Option.bind_eq_bind,Option.bind_some]
  rcases r with ⟨size,align⟩ | ⟨size,start⟩
  · simp only [modify,update_self,Request.size,DoSplit,pageSize,pure,add_comm size]
    exact (apply_ite some _ _ _).symm
  have hok : ¬((d.block b).start > iovmStart ∨ (d.block b).start+(d.block b).length < iovmStart+size) := by
    have hfit' : iovmStart+size ≤ (d.block b).start+(d.block b).length := hfit
    omega
  simp only [modify,update_self,Request.size,DoSplit,pageSize,pure,if_neg hok]
  exact (apply_ite some _ _ _).symm

lemma Claimed.inv {areaStart size : Nat} (hc : Claimed d d' b areaStart size)
    (h : d.Inv lo hi dropped) (hb : b ∈ d.frees) (hstart : (d.block b).start ≤ areaStart)
    (hfit : areaStart+size ≤ (d.block b).start+(d.block b).length) : d'.Inv lo hi dropped := by
  obtain ⟨hball,hbfree⟩ := (h.free_iff b).mp hb
  have hfields : ∀ i, (d'.block i).start = (d.block i).start ∧
      (d'.block i).length = (d.block i).length ∧ (d'.block i).poison = (d.block i).poison := by
    intro i
    by_cases hib : i = b
    · rw [hib,hc.self]
      simp
    rw [hc.same i hib]
    simp
  have hfrees : ∀ i, i ∈ d'.frees ↔ i ∈ d.frees ∧ i ≠ b := by
    intro i
    rw [hc.frees]
    simp
  have hdrop : ∀ i, dropped i → i ≠ b := by
    rintro i hi rfl
    exact nomatch hbfree.symm.trans (h.droppedRef i hi).2.1
  refine ⟨h.word,hc.pgsizeBits ▸ h.pages,?_,?_,?_,?_,?_,?_,?_,?_,?_⟩
  · rw [hc.all]
    exact (tiles_congr fun i _ => ⟨(hfields i).1,(hfields i).2.1⟩).mpr h.tiles
  · intro i hi
    rw [(hfields i).2.2]
    exact h.alive i (hc.all ▸ hi)
  · intro i hi
    rw [hc.next]
    exact h.below i (hc.all ▸ hi)
  · rw [hc.frees]
    exact h.freeNodup.filter _
  · intro i
    rw [hfrees,h.free_iff,hc.all]
    by_cases hib : i = b
    · rw [hib,hc.self]
      simp
    rw [hc.same i hib]
    simp [hib]
  · intro i hi
    obtain ⟨hi,hib⟩ := (hfrees i).mp hi
    rw [hc.same i hib]
    exact h.freeRef i hi
  · intro i hi hu hnd
    by_cases hib : i = b
    · rw [hib,hc.self,h.freeRef b hb]
    rw [hc.same i hib] at hu ⊢
    exact h.usedRef i (hc.all ▸ hi) hu hnd
  · intro i hi
    rw [hc.same i (hdrop i hi),hc.all]
    exact h.droppedRef i hi
  intro i hi hu
  by_cases hib : i = b
  · rw [hib,hc.self]
    exact ⟨hstart,hfit⟩
  rw [hc.same i hib] at hu ⊢
  exact h.area i (hc.all ▸ hi) hu

/-- The area's reference is dropped. -/
theorem Inv.blockPut (h : d.Inv lo hi dropped) (hb : b ∈ d.all) (hused : (d.block b).free = false)
    (hnd : ¬dropped b) : ∃ d', d.blockPut b = some d' ∧ d' = d.modify b (fun blk => {blk with ref := 1}) ∧
      d'.Inv lo hi (fun i => dropped i ∨ i = b) := by
  have href := h.usedRef b hb hused hnd
  have halive := h.alive b hb
  have hput : d.blockPut b = some (d.modify b fun blk => {blk with ref := 1}) := by
    unfold Domain.blockPut modify
    rw [halive,href]
    simp [halive,href]
  refine ⟨_,hput,rfl,?_⟩
  generalize hd' : (d.modify b fun blk => {blk with ref := 1}) = d'
  have hself : d'.block b = {d.block b with ref := 1} := by
    rw [← hd']
    exact update_self ..
  have hsame : ∀ i ≠ b, d'.block i = d.block i := by
    intro i hi
    rw [← hd']
    exact update_of_ne hi ..
  have hall : d'.all = d.all := by rw [← hd']; rfl
  have hfrees : d'.frees = d.frees := by rw [← hd']; rfl
  have hfields : ∀ i, (d'.block i).start = (d.block i).start ∧
      (d'.block i).length = (d.block i).length ∧ (d'.block i).poison = (d.block i).poison ∧
      (d'.block i).free = (d.block i).free ∧ (d'.block i).areaStart = (d.block i).areaStart ∧
      (d'.block i).areaLength = (d.block i).areaLength := by
    intro i
    by_cases hib : i = b
    · rw [hib,hself]
      simp
    rw [hsame i hib]
    simp
  have hbfree : b ∉ d.frees := by
    intro hin
    exact nomatch hused.symm.trans ((h.free_iff b).mp hin).2
  have hpages : d'.pgsizeBits < 30 := by
    rw [← hd']
    exact h.pages
  refine ⟨h.word,hpages,?_,?_,?_,?_,?_,?_,?_,?_,?_⟩
  · rw [hall]
    exact (tiles_congr fun i _ => ⟨(hfields i).1,(hfields i).2.1⟩).mpr h.tiles
  · intro i hi
    rw [(hfields i).2.2.1]
    exact h.alive i (hall ▸ hi)
  · intro i hi
    have hnext : d'.next = d.next := by rw [← hd']; rfl
    rw [hnext]
    exact h.below i (hall ▸ hi)
  · rw [hfrees]
    exact h.freeNodup
  · intro i
    rw [hfrees,hall,(hfields i).2.2.2.1]
    exact h.free_iff i
  · intro i hi
    rw [hfrees] at hi
    rw [hsame i fun hib => hbfree (hib ▸ hi)]
    exact h.freeRef i hi
  · intro i hi hu hnd'
    have hib : i ≠ b := fun hib => hnd' (.inr hib)
    rw [hsame i hib] at hu ⊢
    exact h.usedRef i (hall ▸ hi) hu fun hd => hnd' (.inl hd)
  · intro i hi
    rw [hall,(hfields i).2.2.2.1]
    by_cases hib : i = b
    · rw [hib,hself]
      exact ⟨hb,hused,rfl⟩
    rw [hsame i hib]
    exact h.droppedRef i (hi.resolve_right hib)
  intro i hi hu
  obtain ⟨hst,hln,-,hfr,has,hal⟩ := hfields i
  rw [hfr] at hu
  rw [hst,hln,has,hal]
  exact h.area i (hall ▸ hi) hu

end Domain

end LinuxToradex.Iovmm
