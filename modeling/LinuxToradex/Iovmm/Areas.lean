import LinuxToradex.Iovmm.Allocation

/-! Runs of `tegra_iovmm_create_vm` and `tegra_iovmm_free_vm` by one thread. -/
namespace LinuxToradex.Iovmm
open List SearchTree Tiling Nat Function

structure Area where
  block : BlockId
  size : Nat
  align : Nat
  iovmStart : Nat
  deriving DecidableEq

namespace Domain

/-- An allocation from the search to its end; `ok` tells which blocks can be allocated. If some
other thread were splitting, it would wait. -/
def allocate (d : Domain) (r : Request) (ok : Nat → Bool) (rot : Nat → Rotations) :
    Option (Domain × Option BlockId) :=
  if d.splitting = true then none
  else do
    let (d,ph) ← d.search r (rot 0)
    let (d,ph) ← d.resume r ph (ok 0) (rot 1)
    let (d,ph) ← d.resume r ph (ok 1) (rot 2)
    match ph with
    | .done best => some (d,best)
    | _ => none

def iovmmAllocBlock (d : Domain) (size align : Nat) (ok : Nat → Bool) (rot : Nat → Rotations) :
    Option (Domain × Option BlockId) :=
  if size = 0 then none
  else d.allocate (.floating (Align.roundUp size d.pageSize) (Align.roundUp align d.pageSize)) ok rot

def iovmmAllocateVm (d : Domain) (size align iovmStart : Nat) (ok : Nat → Bool)
    (rot : Nat → Rotations) : Option (Domain × Option BlockId) :=
  if iovmStart%align ≠ 0 then none
  else if size = 0 then none
  else d.allocate (.fixed (Align.roundUp size d.pageSize) iovmStart) ok rot

def tegraIovmmCreateVm (d : Domain) (size align iovmStart : Nat) (ok : Nat → Bool)
    (rot : Nat → Rotations) : Option (Domain × Option BlockId) :=
  if iovmStart ≠ 0 then d.iovmmAllocateVm size align iovmStart ok rot
  else d.iovmmAllocBlock size align ok rot

def tegraIovmmFreeVm (d : Domain) (b : BlockId) (rot : Rotations) : Option Domain := do
  let d ← d.blockPut b
  d.freeLocked b rot

end Domain

inductive Call where
  | create (size align iovmStart : Nat) (ok : Nat → Bool) (rot : Nat → Rotations)
  | free (b : BlockId) (rot : Rotations)

structure Areas where
  domain : Domain
  live : List Area

namespace Areas

variable {d : Domain} {dropped : BlockId → Prop} {p a size align iovmStart : Nat}

def step (s : Areas) : Call → Option Areas
  | .create size align iovmStart ok rot => do
    let (d,best) ← s.domain.tegraIovmmCreateVm size align iovmStart ok rot
    match best with
    | some b => some {domain := d, live := ⟨b,size,align,iovmStart⟩::s.live}
    | none => some {s with domain := d}
  | .free b rot => do
    let d ← s.domain.tegraIovmmFreeVm b rot
    some {domain := d, live := s.live.filter fun a => decide (a.block ≠ b)}

def run (s : Areas) : List Call → Option Areas
  | [] => some s
  | c::cs => (s.step c).bind fun s' => s'.run cs

/-- Something is asked for, at a power of two, and nothing overflows; what is freed is live. -/
def Valid (s : Areas) : Call → Prop
  | .create size align iovmStart _ _ =>
    0 < size ∧ Align.IsPow2 align ∧ size+(s.domain.pageSize-1) < 4294967296 ∧
    if iovmStart = 0 then
      s.domain.PathFits (Align.roundUp size s.domain.pageSize)
        (Align.roundUp align s.domain.pageSize) s.domain.freeBlocks
    else align ∣ iovmStart ∧ s.domain.pageSize ∣ iovmStart ∧
      iovmStart+Align.roundUp size s.domain.pageSize < 4294967296
  | .free b _ => ∃ a ∈ s.live, a.block = b

def AllValid (s : Areas) : List Call → Prop
  | [] => True
  | c::cs => s.Valid c ∧ ∀ s' ∈ s.step c, s'.AllValid cs

def init (pgsizeBits start stop : Nat) : Areas :=
  {domain := domainInit pgsizeBits start stop, live := []}

def areaStart (s : Areas) (a : Area) : Nat := (s.domain.block a.block).areaStart

def areaEnd (s : Areas) (a : Area) : Nat :=
  s.areaStart a+(s.domain.block a.block).areaLength

structure Good (s : Areas) (lo hi : Nat) : Prop where
  tiles : Tiles (fun i => (s.domain.block i).start) (fun i => (s.domain.block i).length)
    s.domain.all lo hi
  inside : ∀ a ∈ s.live, a.block ∈ s.domain.all ∧ (s.domain.block a.block).free = false ∧
    (s.domain.block a.block).start ≤ s.areaStart a ∧
    s.areaEnd a ≤ (s.domain.block a.block).start+(s.domain.block a.block).length
  own : s.live.Pairwise fun a a' => a.block ≠ a'.block
  aligned : ∀ a ∈ s.live, a.align ∣ s.areaStart a
  placed : ∀ a ∈ s.live, a.iovmStart ≠ 0 → s.areaStart a = a.iovmStart
  size : ∀ a ∈ s.live, s.areaStart a+a.size ≤ s.areaEnd a
  disjoint : s.live.Pairwise fun a a' =>
    s.areaEnd a ≤ s.areaStart a' ∨ s.areaEnd a' ≤ s.areaStart a
  freeNodup : s.domain.frees.Nodup
  free_iff : ∀ i, i ∈ s.domain.frees ↔ i ∈ s.domain.all ∧ (s.domain.block i).free = true
  separated : s.domain.Separated

structure Inv (s : Areas) (lo hi : Nat) : Prop where
  domain : s.domain.Inv lo hi fun _ => False
  splitting : s.domain.splitting = false
  separated : s.domain.Separated
  own : s.live.Pairwise fun a a' => a.block ≠ a'.block
  met : ∀ a ∈ s.live, s.domain.Used a.block ∧ a.align ∣ s.areaStart a ∧
    (a.iovmStart ≠ 0 → s.areaStart a = a.iovmStart) ∧
    a.size ≤ (s.domain.block a.block).areaLength

variable {s s' : Areas} {lo hi : Nat}

lemma Inv.good (h : s.Inv lo hi) : s.Good lo hi where
  tiles := h.domain.tiles
  inside a ha := by
    obtain ⟨hall,hused⟩ := (h.met a ha).1
    exact ⟨hall,hused,h.domain.area _ hall hused⟩
  own := h.own
  aligned a ha := (h.met a ha).2.1
  placed a ha := (h.met a ha).2.2.1
  size a ha := Nat.add_le_add_left (h.met a ha).2.2.2 _
  disjoint := by
    refine h.own.imp_of_mem fun {a a'} ha ha' hne => ?_
    obtain ⟨hall,hused⟩ := (h.met a ha).1
    obtain ⟨hall',hused'⟩ := (h.met a' ha').1
    have hsep := h.domain.tiles.disjoint hall hall' hne
    have harea := h.domain.area _ hall hused
    have harea' := h.domain.area _ hall' hused'
    unfold areaEnd areaStart
    omega
  freeNodup := h.domain.freeNodup
  free_iff := h.domain.free_iff
  separated := h.separated

lemma allocate_done {r : Request} (h : d.Inv lo hi dropped) (hwrap : d.NoWrap r)
    (hsplit : d.splitting = false) (ok : Nat → Bool) (rot : Nat → Rotations) :
    ∃ d' best, d.allocate r ok rot = some (d',best) ∧ d'.Inv lo hi dropped ∧
      d'.PhaseOk r (.done best) ∧ Domain.Step d d' (.done none) (.done best) := by
  obtain ⟨d1,ph1,hsearch,h1,hok1,hstep1⟩ := h.search hwrap hsplit (rot 0)
  obtain ⟨d2,ph2,hres2,h2,hok2,hstep2,hleft2⟩ :=
    h1.resume hwrap.pos hok1 hstep1.splitting (ok 0) (rot 1)
  obtain ⟨d3,ph3,hres3,h3,hok3,hstep3,hleft3⟩ :=
    h2.resume hwrap.pos hok2 hstep2.splitting (ok 1) (rot 2)
  have hleft : ph3.left = 0 := by
    have hle : ph1.left ≤ 2 := by cases ph1 <;> simp [Phase.left]
    omega
  cases ph3 with
  | front => cases hleft
  | rear => cases hleft
  | done best =>
    refine ⟨d3,best,?_,h3,hok3,(hstep1.trans hstep2).trans hstep3⟩
    unfold Domain.allocate
    rw [hsplit,if_neg Bool.false_ne_true]
    exact some_bind hsearch (some_bind hres2 (some_bind hres3 rfl))

/-- No block is searched behind the end of the domain. -/
lemma pathFits_of_le (h : d.Inv lo hi dropped) (hle : hi+align+size ≤ 4294967296)
    (t : BinaryTree BlockId) (ht : ∀ i ∈ toList t, i ∈ d.all) : d.PathFits size align t := by
  induction t with
  | nil => trivial
  | node b l r ihl ihr =>
    obtain ⟨-,hend,hlen⟩ := h.tiles.bounds (ht b (by simp [toList]))
    have hsim : d.simAlign b align ≤ align := by
      unfold Domain.simAlign
      split <;> omega
    refine ⟨by omega,?_⟩
    split
    · exact fun _ => ihl fun i hi => ht i (by simp [toList,hi])
    · exact ihr fun i hi => ht i (by simp [toList,hi])

lemma pageSize_pow2 (h : d.Inv lo hi dropped) : Align.IsPow2 d.pageSize :=
  ⟨d.pgsizeBits,h.pages.trans (by omega),rfl⟩

lemma pageSize_le (h : d.Inv lo hi dropped) : d.pageSize ≤ 536870912 :=
  Nat.pow_le_pow_right (by omega) (le_of_lt_succ h.pages)

lemma le_roundUp {x : Nat} (hp : Align.IsPow2 p) (hx : x+(p-1) < 4294967296) : x ≤ Align.roundUp x p := by
  rw [Align.roundUp_eq_up hp (by omega)]
  exact (Align.up_of_no_wrap hp hx).1

lemma dvd_roundUp (ha : Align.IsPow2 a) (hp : Align.IsPow2 p) : a ∣ Align.roundUp a p := by
  rw [Align.roundUp_eq_up hp ha.lt]
  rcases le_total a p with hle | hle
  · exact (ha.dvd_of_le hp hle).trans (Align.dvd_up hp)
  · rw [Align.up_of_dvd hp (hp.dvd_of_le ha hle) ha.lt]

lemma pow2_le (ha : Align.IsPow2 a) : a ≤ 2147483648 := by
  obtain ⟨k,hk,rfl⟩ := ha
  exact Nat.pow_le_pow_right (by omega) (le_of_lt_succ hk)

def request (d : Domain) (size align iovmStart : Nat) : Request :=
  if iovmStart = 0 then
    .floating (Align.roundUp size d.pageSize) (Align.roundUp align d.pageSize)
  else .fixed (Align.roundUp size d.pageSize) iovmStart

lemma Valid.noWrap {live : List Area} {ok : Nat → Bool} {rot : Nat → Rotations}
    (h : d.Inv lo hi dropped) (hv : Valid ⟨d,live⟩ (.create size align iovmStart ok rot)) :
    d.NoWrap (request d size align iovmStart) ∧ d.tegraIovmmCreateVm size align iovmStart ok rot =
        d.allocate (request d size align iovmStart) ok rot := by
  obtain ⟨hsize,halign,hword,hrest⟩ := hv
  have hpage := pageSize_pow2 h
  have hpos : 0 < Align.roundUp size d.pageSize := hsize.trans_le (le_roundUp hpage hword)
  have hne : size ≠ 0 := by omega
  unfold Domain.tegraIovmmCreateVm request
  by_cases hzero : iovmStart = 0
  · rw [if_pos hzero] at hrest ⊢
    rw [if_neg (not_not.mpr hzero),Domain.iovmmAllocBlock,if_neg hne]
    refine ⟨⟨hpos,?_,hrest⟩,rfl⟩
    have hle := pow2_le halign
    have hle' := pageSize_le h
    exact halign.pos.trans_le (le_roundUp hpage (by omega))
  rw [if_neg hzero] at hrest ⊢
  have hmod : ¬iovmStart%align ≠ 0 := not_not.mpr (mod_eq_zero_of_dvd hrest.1)
  rw [if_pos hzero,Domain.iovmmAllocateVm,if_neg hmod,if_neg hne]
  exact ⟨⟨hpos,hrest.2.2⟩,rfl⟩

/-- `tegra_iovmm_create_vm` takes one block more, or none, and the block it takes is as it was asked for. -/
lemma createVm_spec (h : d.Inv lo hi dropped) (hsplit : d.splitting = false) {live : List Area} {ok : Nat → Bool}
    {rot : Nat → Rotations} (hv : Valid ⟨d,live⟩ (.create size align iovmStart ok rot)) :
    ∃ d' best, d.tegraIovmmCreateVm size align iovmStart ok rot = some (d',best) ∧ d'.Inv lo hi dropped ∧
      Domain.Step d d' (.done none) (.done best) ∧ ∀ b, best = some b → d'.Used b ∧
        align ∣ (d'.block b).areaStart ∧ (iovmStart ≠ 0 → (d'.block b).areaStart = iovmStart) ∧
        size ≤ (d'.block b).areaLength := by
  obtain ⟨hwrap,hcall⟩ := Valid.noWrap h hv
  obtain ⟨d',best,halloc,hinv,hok,hstep⟩ := allocate_done h hwrap hsplit ok rot
  refine ⟨d',best,hcall.trans halloc,hinv,hstep,?_⟩
  rintro b rfl
  obtain ⟨hused,hmeets,hlen⟩ := hok
  obtain ⟨-,halign,hword,hrest⟩ := hv
  have hle := le_roundUp (pageSize_pow2 h) hword
  unfold request at hmeets hlen
  by_cases hzero : iovmStart = 0
  · rw [if_pos hzero] at hmeets hlen
    have hdvd := (dvd_roundUp halign (pageSize_pow2 h)).trans hmeets
    exact ⟨hused,hdvd,fun hne => absurd hzero hne,hlen ▸ hle⟩
  · rw [if_neg hzero] at hmeets hlen hrest
    have haddr : (d'.block b).areaStart = iovmStart := hmeets
    exact ⟨hused,haddr ▸ hrest.1,fun _ => haddr,hlen ▸ hle⟩

lemma Inv.create (h : s.Inv lo hi) {ok : Nat → Bool} {rot : Nat → Rotations}
    (hv : s.Valid (.create size align iovmStart ok rot)) :
    ∃ s', s.step (.create size align iovmStart ok rot) = some s' ∧ s'.Inv lo hi := by
  obtain ⟨d',best,hcall,hinv,hstep,hnew⟩ := createVm_spec h.domain h.splitting hv
  have hold : ∀ a ∈ s.live, d'.Used a.block ∧ d'.block a.block = s.domain.block a.block ∧ best ≠ some a.block := by
    intro a ha
    obtain ⟨hsame,hne⟩ := hstep.same a.block (h.met a ha).1 (by simp [Phase.taken])
    exact ⟨(hstep.used _).mpr (.inl (h.met a ha).1),hsame,hne⟩
  have hsep : d'.Separated := (hstep.quiet ⟨h.separated,fun _ _ he => nomatch he⟩).1
  have hmet : ∀ a ∈ s.live, d'.Used a.block ∧ a.align ∣ (d'.block a.block).areaStart ∧
      (a.iovmStart ≠ 0 → (d'.block a.block).areaStart = a.iovmStart) ∧
      a.size ≤ (d'.block a.block).areaLength := by
    intro a ha
    obtain ⟨hused,hsame,-⟩ := hold a ha
    rw [hsame]
    exact ⟨hused,(h.met a ha).2⟩
  rcases best with _ | b
  · exact ⟨{s with domain := d'},some_bind hcall rfl,hinv,hstep.splitting,hsep,h.own,hmet⟩
  refine ⟨⟨d',⟨b,size,align,iovmStart⟩::s.live⟩,some_bind hcall rfl,hinv,hstep.splitting,hsep,?_,?_⟩
  · refine pairwise_cons.mpr ⟨fun a ha he => ?_,h.own⟩
    exact (hold a ha).2.2 (congrArg some he)
  · intro a ha
    rcases mem_cons.mp ha with rfl | ha
    · exact hnew b rfl
    · exact hmet a ha

lemma freed_separated {d' : Domain} {b into : BlockId} {gone m1 m2 : List BlockId}
    (hf : Domain.Freed d d' b into gone m1 m2) (h : d.Inv lo hi dropped) (hsep : d.Separated) : d'.Separated := by
  have hnodup := h.nodup
  rw [hf.run] at hnodup
  have hflag : ∀ i ∈ m1++m2, (d'.block i).free = (d.block i).free := by
    intro i hi
    have hnotin : i ∉ into::gone := by
      grind
    rw [hf.same i hnotin]
  unfold Domain.Separated at hsep ⊢
  rw [hf.run,← cons_append,isChain_append,isChain_append] at hsep
  obtain ⟨hm1,⟨-,hm2,hrear⟩,hfront⟩ := hsep
  -- the blocks around the run are not free
  have hbefore : ∀ i ∈ m1.getLast?, (d.block i).free = false := by
    intro i hi
    by_cases hib : into = b
    · exact hf.front hib i hi
    refine Bool.eq_false_iff.mpr fun hfree => ?_
    exact hfront i hi into rfl ⟨hfree,hf.others into mem_cons_self hib⟩
  have hbehind : ∀ i ∈ m2.head?, (d.block i).free = false := by
    intro i hi
    obtain ⟨last,hlast⟩ : ∃ last, (into::gone).getLast? = some last :=
      ⟨_,getLast?_eq_some_getLast (cons_ne_nil into gone)⟩
    by_cases hib : last = b
    · exact hf.rear (hib ▸ hlast) i hi
    refine Bool.eq_false_iff.mpr fun hfree => ?_
    exact hrear last hlast i hi ⟨hf.others last (mem_of_getLast? hlast) hib,hfree⟩
  rw [hf.all,isChain_append,isChain_cons]
  refine ⟨?_,⟨?_,?_⟩,?_⟩
  · refine hm1.imp_of_mem_imp fun i j hi hj hij => ?_
    rw [hflag i (mem_append_left _ hi),hflag j (mem_append_left _ hj)]
    exact hij
  · intro j hj
    rw [hflag j (mem_append_right _ (mem_of_mem_head? hj)),hbehind j hj]
    simp
  · refine hm2.imp_of_mem_imp fun i j hi hj hij => ?_
    rw [hflag i (mem_append_right _ hi),hflag j (mem_append_right _ hj)]
    exact hij
  intro i hi j _
  rw [hflag i (mem_append_left _ (mem_of_getLast? hi)),hbefore i hi]
  simp

/-- `tegra_iovmm_free_vm` of a used block. -/
lemma freeVm_spec {b : BlockId} (h : d.Inv lo hi fun _ => False) (hb : d.Used b) (rot : Rotations) :
    ∃ d', d.tegraIovmmFreeVm b rot = some d' ∧ d'.Inv lo hi (fun _ => False) ∧ d'.splitting = d.splitting ∧
      d'.pgsizeBits = d.pgsizeBits ∧ (d.Separated → d'.Separated) ∧ (∀ i, d'.Used i ↔ d.Used i ∧ i ≠ b) ∧
      ∀ i, d.Used i → i ≠ b → d'.block i = d.block i := by
  obtain ⟨hall,hused⟩ := hb
  obtain ⟨d1,hput,hd1,h1⟩ := h.blockPut hall hused id
  obtain ⟨d2,into,gone,m1,m2,hfree,hf⟩ := h1.freeLocked (.inr rfl) rot
  have h2 := hf.inv h1 (.inr rfl)
  have hnone : (fun i => (False ∨ i = b) ∧ i ≠ b) = fun _ => False := by
    funext i
    simp
  rw [hnone] at h2
  have hall1 : d1.all = d.all := by rw [hd1]; rfl
  have hsame1 : ∀ i ≠ b, d1.block i = d.block i := by
    intro i hi
    rw [hd1]
    exact update_of_ne hi ..
  have hsame : ∀ i, i ∉ into::gone → d2.block i = d.block i := by
    intro i hi
    rw [hf.same i hi]
    exact hsame1 i fun hib => hi (hib ▸ hf.mem)
  have hkept : ∀ i, d.Used i → i ≠ b → i ∉ into::gone := by
    intro i hi hib
    exact hf.used (by rw [hsame1 i hib]; exact hi.2) hib
  refine ⟨d2,some_bind hput hfree,h2,hf.splitting.trans (by rw [hd1]; rfl),
    hf.pgsizeBits.trans (by rw [hd1]; rfl),fun hsep => freed_separated hf h1 ?_,fun i => ?_,
    fun i hi hib => hsame i (hkept i hi hib)⟩
  · refine hsep.mono hall1 fun i hi => ?_
    by_cases hib : i = b
    · rw [hib,hd1] at hi
      simpa [Domain.modify,hib] using hi
    · rwa [hsame1 i hib] at hi
  unfold Domain.Used
  rw [hf.mem_all h1,hall1]
  constructor
  · rintro ⟨⟨hmem,hgone⟩,hi⟩
    have hout : i ∉ into::gone := by
      intro hin
      rcases mem_cons.mp hin with rfl | hin
      · rw [hf.self] at hi
        cases hi
      · exact hgone hin
    rw [hsame i hout] at hi
    exact ⟨⟨hmem,hi⟩,fun hib => hout (hib ▸ hf.mem)⟩
  · rintro ⟨hi,hib⟩
    have hout := hkept i hi hib
    rw [hsame i hout]
    exact ⟨⟨hi.1,fun hg => hout (mem_cons_of_mem _ hg)⟩,hi.2⟩

lemma Inv.free (h : s.Inv lo hi) {b : BlockId} {rot : Rotations} (hv : s.Valid (.free b rot)) :
    ∃ s', s.step (.free b rot) = some s' ∧ s'.Inv lo hi := by
  obtain ⟨a0,ha0,rfl⟩ := hv
  obtain ⟨d',hfree,hinv,hsplit,-,hsep,hused,hsame⟩ := freeVm_spec h.domain (h.met a0 ha0).1 rot
  refine ⟨⟨d',s.live.filter fun a => decide (a.block ≠ a0.block)⟩,some_bind hfree rfl,hinv,
    hsplit.trans h.splitting,hsep h.separated,h.own.filter _,?_⟩
  intro a ha
  obtain ⟨ha,hne⟩ := mem_filter.mp ha
  rw [decide_eq_true_iff] at hne
  obtain ⟨hold,hmet⟩ := h.met a ha
  unfold areaStart
  rw [hsame _ hold hne]
  exact ⟨(hused _).mpr ⟨hold,hne⟩,hmet⟩

lemma Inv.step (h : s.Inv lo hi) {c : Call} (hv : s.Valid c) : ∃ s', s.step c = some s' ∧ s'.Inv lo hi := by
  cases c with
  | create size align iovmStart ok rot => exact h.create hv
  | free b rot => exact h.free hv

lemma Inv.run (h : s.Inv lo hi) {cs : List Call} (hv : s.AllValid cs) : ∃ s', s.run cs = some s' ∧ s'.Inv lo hi := by
  induction cs generalizing s with
  | nil => exact ⟨s,rfl,h⟩
  | cons c cs ih =>
    obtain ⟨s1,hstep,h1⟩ := h.step hv.1
    obtain ⟨s2,hrun,h2⟩ := ih h1 (hv.2 s1 hstep)
    exact ⟨s2,some_bind hstep hrun,h2⟩

def DomainOk (pgsizeBits start stop : Nat) : Prop :=
  pgsizeBits < 30 ∧ stop < 4294967296 ∧
    Align.roundUp start (2^pgsizeBits) < Align.down stop (2^pgsizeBits)

lemma init_inv {pgsizeBits start stop : Nat} (h : DomainOk pgsizeBits start stop) :
    (init pgsizeBits start stop).Inv (Align.roundUp start (2^pgsizeBits)) (Align.down stop (2^pgsizeBits)) := by
  obtain ⟨hbits,hstop,hlt⟩ := h
  have hpage : Align.IsPow2 (2^pgsizeBits) := ⟨pgsizeBits,by omega,rfl⟩
  have hword := (Align.down_le hstop hpage).trans_lt hstop
  refine ⟨⟨hword,hbits,?_,?_,?_,?_,?_,?_,?_,fun _ hd => hd.elim,?_⟩,rfl,?_,.nil, fun _ ha => nomatch ha⟩
  · simp only [init,domainInit,Domain.all,toList,nil_append,Tiles,update_self]
    exact ⟨trivial,Nat.sub_pos_of_lt hlt,Nat.add_sub_cancel' hlt.le⟩
  all_goals simp [init,domainInit,Domain.all,Domain.frees,Domain.Separated,toList]

/-- Whatever is created and freed, the blocks tile the domain, every live area lies in a used
block of its own, as it was asked for, the tree of free blocks holds those flagged free, and no two of them
are adjacent. -/
theorem run_good {pgsizeBits start stop : Nat} {calls : List Call} (hdomain : DomainOk pgsizeBits start stop)
    (hvalid : (init pgsizeBits start stop).AllValid calls) : ∃ s, (init pgsizeBits start stop).run calls = some s ∧
      s.Good (Align.roundUp start (2^pgsizeBits)) (Align.down stop (2^pgsizeBits)) := by
  obtain ⟨s,hrun,h⟩ := (init_inv hdomain).run hvalid
  exact ⟨s,hrun,h.good⟩

instance (s : Areas) : (c : Call) → Decidable (s.Valid c)
  | .create size align iovmStart _ _ => inferInstanceAs (Decidable
    (0 < size ∧ (∃ k, k < 32 ∧ align = 2^k) ∧ size+(s.domain.pageSize-1) < 4294967296 ∧
      ite (iovmStart = 0) _ _))
  | .free b _ => inferInstanceAs (Decidable (∃ a ∈ s.live, a.block = b))

instance decidableAllValid : (cs : List Call) → (s : Areas) → Decidable (s.AllValid cs)
  | [], _ => inferInstanceAs (Decidable True)
  | c::cs, s =>
    have : DecidablePred fun s' : Areas => s'.AllValid cs := decidableAllValid cs
    inferInstanceAs (Decidable (s.Valid c ∧ ∀ s' ∈ s.step c, s'.AllValid cs))

/-- An aligned area, one at a fixed address and a third one; the first is freed, and its place
is used again while no block can be allocated. -/
def reuse : List Call :=
  [.create 4096 65536 0 (fun _ => true) fun _ _ => [], .create 5000 4096 131072 (fun _ => true) fun _ _ => [],
    .create 16384 1 0 (fun _ => true) fun _ _ => [],
    .free 1 fun _ => [],
    .create 8192 32768 0 (fun _ => false) fun _ _ => []]

theorem run_good_reuse : DomainOk 12 4096 1048576 ∧ (init 12 4096 1048576).AllValid reuse ∧
    ∃ s, (init 12 4096 1048576).run reuse = some s ∧
      s.Good (Align.roundUp 4096 (2^12)) (Align.down 1048576 (2^12)) := by
  have hdomain : DomainOk 12 4096 1048576 := by
    unfold DomainOk
    decide
  have hvalid : (init 12 4096 1048576).AllValid reuse := by decide +kernel
  exact ⟨hdomain,hvalid,run_good hdomain hvalid⟩

end Areas

end LinuxToradex.Iovmm
