import LinuxToradex.Foundation.Align
import LinuxToradex.Foundation.Ranges

/-! `mm/memblock.c`: two sorted arrays of regions, on words of 32 bits. An array without regions holds a filler
of size zero. A full array is doubled; before the slab allocator is there, the new array comes out of the map
itself, as the fuel allows. A `BUG_ON` is
`none`. -/
namespace LinuxToradex.Memblock
open Nat

def word : Nat := 4294967296

structure Region where
  base : Nat
  size : Nat
deriving DecidableEq

def filler : Region := ⟨0,0⟩

/-- `struct memblock_type`. `array` is the physical address of the regions, unless they are in the
array the kernel starts with. -/
structure RegionType where
  regions : List Region
  max : Nat
  array : Option Nat
deriving DecidableEq

inductive Kind
  | memory
  | reserved
deriving DecidableEq

structure Blocks where
  memory : RegionType
  reserved : RegionType
  currentLimit : Nat
deriving DecidableEq

def initMemblockRegions : Nat := 128

/-- `memblock_init`. `MEMBLOCK_ALLOC_ANYWHERE` is the last address. -/
def init : Blocks where
  memory := ⟨[filler],initMemblockRegions,none⟩
  reserved := ⟨[filler],initMemblockRegions,none⟩
  currentLimit := word-1

/-- What a call finds in the rest of the kernel: `memblock_can_resize`, whether the slab allocator
is available, and the physical address `kmalloc` answers with (zero if it fails). -/
structure Env where
  canResize : Bool
  slab : Bool
  kmalloc : Nat
deriving DecidableEq

namespace Blocks

def get (mb : Blocks) : Kind → RegionType
  | .memory => mb.memory
  | .reserved => mb.reserved

def set (mb : Blocks) : Kind → RegionType → Blocks
  | .memory, t => {mb with memory := t}
  | .reserved, t => {mb with reserved := t}

def write (mb : Blocks) (kind : Kind) (regions : List Region) : Blocks :=
  mb.set kind {mb.get kind with regions := regions}

end Blocks

def refill (regions : List Region) : List Region :=
  if regions = [] then [filler] else regions

def removeRegion (regions : List Region) (r : Nat) : List Region :=
  refill (regions.eraseIdx r)

def addrsOverlap (base1 size1 base2 size2 : Nat) : Bool :=
  decide (base1 < (base2+size2)%word) && decide (base2 < (base1+size1)%word)

def overlapsRegion (regions : List Region) (base size : Nat) : Option Region :=
  regions.find? fun rgn => addrsOverlap base size rgn.base rgn.size

def findLoop (reserved : List Region) (size align start : Nat) : Nat → Nat → Nat
  | 0, _ => 0
  | k+1, base =>
    if start ≤ base then
      match overlapsRegion reserved base size with
      | none => base
      | some rgn =>
        if rgn.base < size then 0
        else findLoop reserved size align start k (Align.down (rgn.base-size) align)
    else 0

def findRegion (reserved : List Region) (start stop size align : Nat) : Nat :=
  if stop < size then 0
  else
    let base := Align.down (stop-size) align
    findLoop reserved size align (if start = 0 then 4096 else start) (base+1) base

/-- The loop of `memblock_find_base`, over the regions of the memory from the last to the first. -/
def findBaseLoop (reserved : List Region) (size align start stop : Nat) : List Region → Nat
  | [] => 0
  | rgn::rest =>
    let rend := (rgn.base+rgn.size)%word
    if rgn.size < size then findBaseLoop reserved size align start stop rest
    else if rend ≤ start then 0
    else
      let bottom := max rgn.base start
      let top := min rend stop
      if top ≤ bottom then findBaseLoop reserved size align start stop rest
      else
        let found := findRegion reserved bottom top size align
        if found ≠ 0 then found else findBaseLoop reserved size align start stop rest

/-- `memblock_find_base`. `MEMBLOCK_ALLOC_ACCESSIBLE` is zero. -/
def findBase (mb : Blocks) (size align start stop : Nat) : Nat :=
  findBaseLoop mb.reserved.regions size align start (if stop = 0 then mb.currentLimit else stop)
    mb.memory.regions.reverse

/-- The first loop of `memblock_add_region`, over the regions from one place on: what becomes of them, and the
block that is still to be added, if any. `stop` is `end`. When the last region is removed the loop ends with
its filler; here the list is empty. -/
def addLoop (stop : Nat) : List Region → Nat → Nat → List Region × Option Region
  | [], base, size => ([],some ⟨base,size⟩)
  | rgn::rest, base, size =>
    let rend := (rgn.base+rgn.size)%word
    if stop < rgn.base ∨ rgn.size = 0 then (rgn::rest,some ⟨base,size⟩)
    else if rgn.base ≤ base ∧ stop ≤ rend then (rgn::rest,none)
    else if base < rgn.base ∧ rgn.base ≤ stop then
      -- the bottom of the region is extended down to `base`
      if stop ≤ rend then (⟨base,(rend+word-base)%word⟩::rest,none)
      else
        -- `base` and `size` become those of what is left above the region, which touches its top
        let left := (stop+word-rend)%word
        addLoop stop rest base ((left+(rend+word-base)%word)%word)
    else if base ≤ rend ∧ rend ≤ stop then
      addLoop stop rest rgn.base ((size+(base+word-rgn.base)%word)%word)
    else
      let (regions,block) := addLoop stop rest base size
      (rgn::regions,block)

def slot (regions : List Region) (base : Nat) : Nat → Nat
  | 0 => 0
  | i+1 => if base < (regions.getD i filler).base then slot regions base i else i+1

/-- The second loop of `memblock_add_region`: the array with the block in it, and its place. If
every region has been moved up, place zero still holds the region that was there. -/
def insertRegion (regions : List Region) (block : Region) : List Region × Nat :=
  let k := slot regions block.base regions.length
  let moved := regions.insertIdx k (if k = 0 then regions.headD block else block)
  if block.base < (moved.headD block).base then (moved.set 0 block,0) else (moved,k)

/-- What the loop of `__memblock_remove` comes to: other regions, or a region that has to be split. -/
inductive Cut
  | done (regions : List Region)
  | split (before : List Region) (rgn : Region) (after : List Region)
deriving DecidableEq

def Cut.cons (rgn : Region) : Cut → Cut
  | .done regions => .done (rgn::regions)
  | .split before rgn' after => .split (rgn::before) rgn' after

def removeLoop (base stop : Nat) : List Region → Cut
  | [] => .done []
  | rgn::rest =>
    let rend := (rgn.base+rgn.size)%word
    if stop < rgn.base ∨ rgn.size = 0 then .done (rgn::rest)
    else if base ≤ rgn.base ∧ rend ≤ stop then removeLoop base stop rest
    else if rgn.base < base ∧ stop < rend then .split [] rgn rest
    else if rgn.base < stop ∧ stop < rend then
      .done (⟨stop,(rgn.size+word-(stop-rgn.base))%word⟩::rest)
    else if base < rend then
      (removeLoop base stop rest).cons ⟨rgn.base,(rgn.size+word-(rend-base))%word⟩
    else (removeLoop base stop rest).cons rgn

namespace Blocks

mutual

def doubleArray (env : Env) : Nat → Blocks → Kind → Option (Int × Blocks)
  | 0, _, _ => none
  | fuel+1, mb, kind =>
    let type := mb.get kind
    let oldSize := type.max*8
    let newSize := oldSize*2
    if env.canResize = false then some (-1,mb)
    else
      let addr := if env.slab then env.kmalloc else findBase mb newSize 4 0 0
      if addr = 0 then some (-1,mb)
      else
        let moved := mb.set kind {type with max := type.max*2, array := some addr}
        if env.slab then some (0,moved)
        else
          match addRegion env fuel moved .reserved addr newSize with
          | some (0,added) =>
            match type.array with
            | none => some (0,added)
            | some old =>
              (removeRange env fuel added .reserved old oldSize).map fun result => (0,result.2)
          | _ => none

def addRegion (env : Env) : Nat → Blocks → Kind → Nat → Nat → Option (Int × Blocks)
  | 0, _, _, _, _ => none
  | fuel+1, mb, kind, base, size =>
    let type := mb.get kind
    match addLoop ((base+size)%word) type.regions base size with
    | (regions,none) => some (0,mb.write kind regions)
    | (regions,some block) =>
      let regions := refill regions
      if regions.length = 1 ∧ (regions.headD filler).size = 0 then some (0,mb.write kind [block])
      else if type.max ≤ regions.length then some (-1,mb.write kind regions)
      else
        let (inserted,place) := insertRegion regions block
        let added := mb.write kind inserted
        if inserted.length = type.max then
          match doubleArray env fuel added kind with
          | none => none
          | some (0,doubled) => some (0,doubled)
          | some (_,failed) =>
            some (-1,failed.write kind (removeRegion (failed.get kind).regions place))
        else some (0,added)

def removeRange (env : Env) : Nat → Blocks → Kind → Nat → Nat → Option (Int × Blocks)
  | 0, _, _, _, _ => none
  | fuel+1, mb, kind, base, size =>
    let stop := (base+size)%word
    match removeLoop base stop (mb.get kind).regions with
    | .done regions => some (0,mb.write kind (refill regions))
    | .split before rgn after =>
      let rend := (rgn.base+rgn.size)%word
      let cut := mb.write kind (before++⟨rgn.base,base-rgn.base⟩::after)
      match addRegion env fuel cut kind stop (rend - stop) with
      | none => none
      | some (0,added) => some (0,added)
      | some (_,failed) =>
        let regions := (failed.get kind).regions.modify before.length
          fun r => {r with size := (rend+word - r.base)%word}
        some (-1,failed.write kind regions)

end

end Blocks

/-- `memblock_add`, `memblock_remove`, `memblock_reserve` and `memblock_free`. -/
inductive Op
  | add
  | remove
  | reserve
  | free
deriving DecidableEq

structure Call where
  op : Op
  base : Nat
  size : Nat
  env : Env
deriving DecidableEq

def Op.kind : Op → Kind
  | .add => .memory
  | .remove => .memory
  | .reserve => .reserved
  | .free => .reserved

def Blocks.call (fuel : Nat) (mb : Blocks) (c : Call) : Option (Int × Blocks) :=
  match c.op with
  | .add => mb.addRegion c.env fuel .memory c.base c.size
  | .remove => mb.removeRange c.env fuel .memory c.base c.size
  | .reserve => if c.size = 0 then none else mb.addRegion c.env fuel .reserved c.base c.size
  | .free => mb.removeRange c.env fuel .reserved c.base c.size

open List Ranges

def Region.span (rgn : Region) : Span Bool := ⟨rgn.base,rgn.base+rgn.size-1,true⟩

def spans (l : List Region) : List (Span Bool) := l.map Region.span

def range (base stop : Nat) (value : Bool) : Span Bool := ⟨base,stop-1,value⟩

def Bounded (l : List Region) : Prop := ∀ rgn ∈ l, 0 < rgn.size ∧ rgn.base+rgn.size < word

def Sorted (l : List Region) : Prop := l.Pairwise fun x y => x.base+x.size < y.base

def Denotes (l : List Region) (a : Nat) : Prop := ∃ rgn ∈ l, rgn.base ≤ a ∧ a < rgn.base+rgn.size

variable {l : List Region} {rgn : Region} {stop : Nat}

lemma mem_spans {x : Span Bool} : x ∈ spans l ↔ ∃ rgn ∈ l, rgn.span = x :=
  mem_map

lemma canonical_spans (hb : Bounded l) (hs : Sorted l) : Canonical (spans l) := by
  constructor
  · intro x hx
    obtain ⟨rgn,hrgn,rfl⟩ := mem_spans.mp hx
    have hpos := (hb rgn hrgn).1
    simp only [Region.span]
    omega
  apply pairwise_map.mpr
  apply hs.imp
  intro x y hxy
  constructor
  · simp only [Region.span]
    omega
  intro _
  simp only [Region.span]
  omega

lemma sorted_of_canonical (h : Canonical (spans l)) : Sorted l := by
  apply (pairwise_map.mp h.2).imp
  intro x y hxy
  have hgap := hxy.2 rfl
  simp only [Region.span] at hgap
  omega

variable {l' : List Region} {r : Span Bool} {base : Nat} {result : List Region × Option Region}

lemma bounded_of_overwrites {new : Option Bool}
    (hb : Bounded l) (hr : r.stop < word-1) (h : Overwrites (spans l) r new (spans l')) : Bounded l' := by
  intro rgn hrgn
  have hmem : rgn.span ∈ spans l' := mem_spans.mpr ⟨rgn,hrgn,rfl⟩
  have hle := h.canonical.1 _ hmem
  have hlast : rgn.span.start ≤ rgn.span.stop ∧ rgn.span.stop ≤ rgn.span.stop := ⟨hle,Int.le_refl _⟩
  rcases h.origin hmem hlast with ⟨hin,-⟩ | ⟨y,hy,hin,-⟩
  · simp only [Region.span] at hle hin
    omega
  obtain ⟨old,hold,rfl⟩ := mem_spans.mp hy
  have hlt := (hb old hold).2
  simp only [Region.span] at hle hin
  omega

lemma valueAt_spans (h : Canonical (spans l)) (a : Nat) : valueAt (spans l) a = some true ↔ Denotes l a := by
  constructor
  · intro hv
    obtain ⟨x,hx,hin,-⟩ := exists_of_valueAt hv
    obtain ⟨rgn,hrgn,rfl⟩ := mem_spans.mp hx
    simp only [Region.span] at hin
    exact ⟨rgn,hrgn,by omega,by omega⟩
  rintro ⟨rgn,hrgn,hin⟩
  refine h.valueAt_eq (x := rgn.span) (mem_spans.mpr ⟨rgn,hrgn,rfl⟩) ?_
  simp only [Region.span]
  omega

lemma Bounded.tail (h : Bounded (rgn::l)) : Bounded l :=
  fun x hx => h x (mem_cons_of_mem rgn hx)

lemma Bounded.head (h : Bounded (rgn::l)) : 0 < rgn.size ∧ rgn.base+rgn.size < word :=
  h rgn mem_cons_self

lemma before_spans (hs : Sorted (rgn::l)) : ∀ y ∈ spans l, rgn.span.Before y := by
  intro y hy
  obtain ⟨x,hx,rfl⟩ := mem_spans.mp hy
  have hlt := rel_of_pairwise_cons hs hx
  constructor
  · simp only [Region.span]
    omega
  intro _
  simp only [Region.span]
  omega

/-- What the loop of `__memblock_remove` comes to, if no region begins where the range ends. A
region that has to be split is the only one that the range meets. -/
theorem removeLoop_spec (base stop : Nat) (hle : base ≤ stop) (hb : Bounded l) (hs : Sorted l)
    (hstop : ∀ rgn ∈ l, rgn.base ≠ stop) :
    match removeLoop base stop l with
    | .done l' => Overwrites (spans l) (range base stop false) none (spans l')
    | .split before rgn after =>
      l = before++rgn::after ∧ rgn.base < base ∧ stop < rgn.base+rgn.size := by
  induction l with
  | nil => exact Overwrites.clear ⟨by simp [spans],by simp [spans]⟩ (by simp [spans])
  | cons rgn rest ih =>
    have hcan := canonical_spans hb hs
    have hbefore := before_spans hs
    obtain ⟨hpos,hlt⟩ := hb.head
    have hne := hstop rgn mem_cons_self
    have hrend : (rgn.base+rgn.size)%word = rgn.base+rgn.size := mod_eq_of_lt hlt
    have ih := ih hb.tail hs.of_cons fun x hx => hstop x (mem_cons_of_mem rgn hx)
    have habove : stop < rgn.base+rgn.size → ∀ y ∈ spans rest, (range base stop false).stop < y.start := by
      intro hlow y hy
      have := (hbefore y hy).1
      simp only [Region.span,range] at this ⊢
      omega
    -- the regions above one that ends in the range begin above the range
    have hdone : base < rgn.base+rgn.size → ∃ l', removeLoop base stop rest = .done l' ∧
        Overwrites (spans rest) (range base stop false) none (spans l') := by
      intro hin
      rcases hcut : removeLoop base stop rest with l' | ⟨before,x,after⟩
      · rw [hcut] at ih
        exact ⟨l',rfl,ih⟩
      rw [hcut] at ih
      obtain ⟨rfl,hlow,-⟩ := ih
      have := rel_of_pairwise_cons hs (mem_append_right before mem_cons_self)
      omega
    rw [removeLoop,hrend]
    by_cases hexit : stop < rgn.base ∨ rgn.size = 0
    · rw [if_pos hexit]
      refine Overwrites.clear hcan (forall_mem_cons.mpr ⟨?_,habove (by omega)⟩)
      simp only [Region.span,range]
      omega
    rw [if_neg hexit]
    by_cases hcovered : base ≤ rgn.base ∧ rgn.base+rgn.size ≤ stop
    · rw [if_pos hcovered]
      obtain ⟨l',hcut,hrest⟩ := hdone (by omega)
      rw [hcut]
      exact Overwrites.covered (by simp only [range,Region.span]; omega)
        (by simp only [range,Region.span]; omega) hrest
    rw [if_neg hcovered]
    by_cases hsplit : rgn.base < base ∧ stop < rgn.base+rgn.size
    · rw [if_pos hsplit]
      exact ⟨rfl,hsplit⟩
    rw [if_neg hsplit]
    by_cases hbottom : rgn.base < stop ∧ stop < rgn.base+rgn.size
    · have hsize : (rgn.size+word-(stop-rgn.base))%word = rgn.base+rgn.size-stop := by
        unfold word at *
        omega
      rw [if_pos hbottom,hsize]
      refine Overwrites.trim (by simp only [range,Region.span]; omega) (by simp only [range,Region.span]; omega) ?_
      have hspan : (⟨stop,rgn.base+rgn.size-stop⟩ : Region).span =
          {rgn.span with start := (range base stop false).stop+1} := by
        simp only [Region.span,range,Span.mk.injEq,and_true]
        omega
      rw [spans,map_cons,hspan]
      refine Overwrites.clear (hcan.raise (by simp only [range,Region.span]; omega)) ?_
      exact forall_mem_cons.mpr ⟨by simp only [range]; omega,habove hbottom.2⟩
    rw [if_neg hbottom]
    by_cases htop : base < rgn.base+rgn.size
    · have hsize : (rgn.size+word-(rgn.base+rgn.size-base))%word = base-rgn.base := by
        unfold word at *
        omega
      rw [if_pos htop,hsize]
      obtain ⟨l',hcut,hrest⟩ := hdone htop
      have hspan : (⟨rgn.base,base-rgn.base⟩ : Region).span =
          {rgn.span with stop := (range base stop false).start - 1} := by
        simp only [Region.span,range,Span.mk.injEq,and_true,true_and]
        omega
      have := Overwrites.left hbefore (by simp only [range,Region.span]; omega)
        (by simp only [range,Region.span]; omega) (by simp only [range,Region.span]; omega)
        (by simp [range,Region.span]) hrest
      rw [← hspan] at this
      rwa [hcut]
    rw [if_neg htop]
    rcases hcut : removeLoop base stop rest with l' | ⟨before,x,after⟩
    · rw [hcut] at ih
      refine Overwrites.below (hcan.1 _ mem_cons_self) hbefore ⟨?_,?_⟩ ih
      · simp only [range,Region.span]
        omega
      intro heq
      simp [range,Region.span] at heq
    rw [hcut] at ih
    obtain ⟨rfl,hcond⟩ := ih
    exact ⟨rfl,hcond⟩

lemma span_eq (base size : Nat) : (⟨base,size⟩ : Region).span = range base (base+size) true := by
  simp only [Region.span,range,Span.mk.injEq,true_and,and_true]
  omega

lemma overwrites_set (base size : Nat) (hpos : 0 < size) (hcan : Canonical (spans l))
    (hbefore : ∀ rgn ∈ l, base+size < rgn.base) :
    Overwrites (spans l) (range base (base+size) true) (some true) (spans (⟨base,size⟩::l)) := by
  rw [show spans (⟨base,size⟩::l) = Region.span ⟨base,size⟩::spans l from rfl,span_eq]
  apply Overwrites.set hcan
  · simp only [range]
    omega
  intro y hy
  obtain ⟨rgn,hrgn,rfl⟩ := mem_spans.mp hy
  have hlt := hbefore rgn hrgn
  constructor
  · simp only [range,Region.span]
    omega
  intro _
  simp only [range,Region.span]
  omega

lemma overwrites_absorb (low high : Nat) (hlt : base < stop)
    (hbottom : rgn.base ≤ stop) (htop : base ≤ rgn.base+rgn.size)
    (hlow : low = min base rgn.base) (hhigh : high = max stop (rgn.base+rgn.size))
    (h : Overwrites (spans l) (range low high true) (some true) (spans l')) :
    Overwrites (spans (rgn::l)) (range base stop true) (some true) (spans l') := by
  refine Overwrites.absorb (r := range base stop true) (range low high true) rfl ?_ ?_ ?_ ?_ ?_ rfl h
  all_goals simp only [range,Region.span]
  all_goals omega

/-- `l'` is what the first loop of `memblock_add_region` leaves of `l`, and `block` has still to be
added: it has one place in `l'`, and with it the range is added. -/
structure Pending (l : List Region) (r : Span Bool) (l' : List Region) (block : Region) : Prop where
  shrinks : l' = l ∨ l'.length < l.length
  place : ∃ lo hi, l' = lo++hi ∧ Overwrites (spans l) r (some true) (spans (lo++block::hi))

def Added (l : List Region) (r : Span Bool) : List Region × Option Region → Prop
  | (l',none) => Overwrites (spans l) r (some true) (spans l') ∧ l'.length ≤ l.length
  | (l',some block) => Pending l r l' block

lemma Added.absorb {r' : Span Bool} (h : Added l r result)
    (hstep : ∀ m, Overwrites (spans l) r (some true) (spans m) → Overwrites (spans (rgn::l)) r'
      (some true) (spans m)) : Added (rgn::l) r' result := by
  obtain ⟨l',block⟩ := result
  rcases block with _ | block
  · exact ⟨hstep l' h.1,le_succ_of_le h.2⟩
  obtain ⟨lo,hi,hl',hover⟩ := h.place
  refine ⟨.inr ?_,lo,hi,hl',hstep _ hover⟩
  rw [length_cons]
  rcases h.shrinks with rfl | hlt <;> omega

lemma Added.below (h : Added l (range base stop true) result) (hpos : 0 < rgn.size)
    (hbefore : ∀ y ∈ spans l, rgn.span.Before y) (hlt : rgn.base+rgn.size < base) :
    Added (rgn::l) (range base stop true) (rgn::result.1,result.2) := by
  have hle : rgn.span.start ≤ rgn.span.stop := by
    simp only [Region.span]
    omega
  have hr : rgn.span.Before (range base stop true) := by
    constructor
    · simp only [range,Region.span]
      omega
    intro _
    simp only [range,Region.span]
    omega
  obtain ⟨l',block⟩ := result
  rcases block with _ | block
  · exact ⟨h.1.below hle hbefore hr,succ_le_succ h.2⟩
  obtain ⟨lo,hi,rfl,hover⟩ := h.place
  refine ⟨?_,rgn::lo,hi,rfl,hover.below hle hbefore hr⟩
  rcases h.shrinks with heq | hlt
  · exact .inl (by rw [heq])
  · exact .inr (succ_lt_succ hlt)

/-- What the first loop of `memblock_add_region` does. -/
theorem addLoop_spec (base size : Nat) (hpos : 0 < size) (hend : base+size = stop)
    (hlt : stop < word) (hb : Bounded l) (hs : Sorted l) :
    Added l (range base stop true) (addLoop stop l base size) := by
  induction l generalizing base size with
  | nil =>
    subst hend
    exact ⟨.inl rfl,[],[],rfl,overwrites_set base size hpos ⟨by simp [spans],by simp [spans]⟩ (by simp)⟩
  | cons rgn rest ih =>
    have hcan := canonical_spans hb hs
    obtain ⟨hsize,hltr⟩ := hb.head
    have hrend : (rgn.base+rgn.size)%word = rgn.base+rgn.size := mod_eq_of_lt hltr
    have habove : ∀ x ∈ rest, rgn.base+rgn.size < x.base :=
      fun x hx => rel_of_pairwise_cons hs hx
    rw [addLoop,hrend]
    split
    · next hexit =>
      subst hend
      refine ⟨.inl rfl,[],rgn::rest,rfl,overwrites_set base size hpos hcan ?_⟩
      intro x hx
      rcases mem_cons.mp hx with rfl | hx
      · omega
      have := habove x hx
      omega
    next hexit =>
    split
    · next hinside =>
      refine ⟨?_,le_rfl⟩
      apply overwrites_absorb rgn.base (rgn.base+rgn.size)
      · omega
      · omega
      · omega
      · omega
      · omega
      · exact overwrites_set _ _ hsize hcan.tail habove
    next hinside =>
    split
    · next hbottom =>
      by_cases hinside' : stop ≤ rgn.base+rgn.size
      · have hlen : (rgn.base+rgn.size+word-base)%word = rgn.base+rgn.size-base := by
          unfold word at *
          omega
        have hsum : base+(rgn.base+rgn.size-base) = rgn.base+rgn.size := by omega
        rw [if_pos hinside',hlen]
        refine ⟨?_,le_rfl⟩
        apply overwrites_absorb base (rgn.base+rgn.size)
        · omega
        · omega
        · omega
        · omega
        · omega
        have hset := overwrites_set base (rgn.base+rgn.size-base) (by omega) hcan.tail (by rw [hsum]; exact habove)
        rw [hsum] at hset
        exact hset
      have hlen : ((stop+word-(rgn.base+rgn.size))%word + (rgn.base+rgn.size+word-base)%word)%word = size := by
        unfold word at *
        omega
      rw [if_neg hinside']
      dsimp only
      rw [hlen]
      refine (ih base size hpos hend hb.tail hs.of_cons).absorb fun m hm => ?_
      exact overwrites_absorb base stop (by omega) (by omega) (by omega) (by omega) (by omega) hm
    next hbottom =>
    by_cases htop : base ≤ rgn.base+rgn.size ∧ rgn.base+rgn.size ≤ stop
    · have hlen : (size+(base+word-rgn.base)%word)%word = stop-rgn.base := by
        unfold word at *
        omega
      rw [if_pos htop,hlen]
      refine (ih rgn.base (stop-rgn.base) (by omega) (by omega) hb.tail hs.of_cons).absorb fun m hm => ?_
      exact overwrites_absorb rgn.base stop (by omega) (by omega) (by omega) (by omega) (by omega) hm
    rw [if_neg htop]
    exact (ih base size hpos hend hb.tail hs.of_cons).below hsize (before_spans hs) (by omega)

end LinuxToradex.Memblock
