import LinuxToradex.Memblock.Runs
import Mathlib

/-! `memblock_enforce_memory_limit`. The loop over the reserved regions is without an end when it meets the
filler. -/
namespace LinuxToradex.Memblock
open List

def limitLoop : Nat → List Region → List Region
  | _,[] => []
  | limit,rgn::rest =>
    if rgn.size < limit then rgn::limitLoop (limit-rgn.size) rest else [⟨rgn.base,limit⟩]

def endOfDRAM (memory : List Region) : Nat :=
  let rgn := memory.getLastD filler
  (rgn.base+rgn.size)%word

/-- The second loop, from region `i` on. After a region is removed `i--` and `i++` leave `i` as it was. -/
def truncateLoop (limit : Nat) : Nat → List Region → Nat → Option (List Region)
  | 0,_,_ => none
  | fuel+1,regions,i =>
    match regions[i]? with
    | none => some regions
    | some p =>
      let size := if limit < p.base then 0 else if limit < (p.base+p.size)%word then limit-p.base else p.size
      if size = 0 then truncateLoop limit fuel (removeRegion (regions.set i ⟨p.base,size⟩) i) i
      else truncateLoop limit fuel (regions.set i ⟨p.base,size⟩) (i+1)

def Blocks.enforceMemoryLimit (fuel : Nat) (mb : Blocks) (memoryLimit : Nat) : Option Blocks :=
  if memoryLimit = 0 then some mb
  else
    let memory := limitLoop memoryLimit mb.memory.regions
    (truncateLoop (endOfDRAM memory) fuel mb.reserved.regions 0).map fun reserved =>
      (mb.write .memory memory).write .reserved reserved

def bytes (l : List Region) : Nat := (l.map Region.size).sum

/-- `l'` has the lowest bytes of `l`, as many as the limit allows. -/
structure Lowest (limit : Nat) (l l' : List Region) : Prop where
  total : bytes l' = min limit (bytes l)
  subset : ∀ a, Denotes l' a → Denotes l a
  lowest : ∀ a b, Denotes l' a → Denotes l b → b ≤ a → Denotes l' b

variable {l before after : List Region} {rgn : Region} {limit fuel : Nat}

lemma Sorted.above (hs : Sorted (rgn::l)) {a : Nat} (ha : Denotes l a) : rgn.base+rgn.size < a := by
  obtain ⟨y,hy,hle,-⟩ := ha
  exact lt_of_lt_of_le (rel_of_pairwise_cons hs hy) hle

lemma denotes_single {base size a : Nat} : Denotes [⟨base,size⟩] a ↔ base ≤ a ∧ a < base+size := by
  simp [Denotes]

lemma limitLoop_lowest (limit : Nat) (hs : Sorted l) : Lowest limit l (limitLoop limit l) := by
  induction l generalizing limit with
  | nil => exact ⟨(Nat.min_zero limit).symm,fun _ ha => ha,fun _ _ _ hb _ => hb⟩
  | cons rgn l ih =>
    have hrest := ih (limit-rgn.size) hs.of_cons
    rw [limitLoop]
    split
    · next hlt =>
      constructor
      · have htotal := hrest.total
        simp only [bytes,map_cons,sum_cons] at htotal ⊢
        omega
      · intro a ha
        rw [denotes_cons] at ha ⊢
        exact ha.imp_right (hrest.subset a)
      · intro a b ha hb hle
        rw [denotes_cons] at ha hb ⊢
        refine hb.imp_right fun hb => ?_
        rcases ha with ha | ha
        · have hb' := hs.above hb
          omega
        · exact hrest.lowest a b ha hb hle
    next hlt =>
    constructor
    · simp only [bytes,map_cons,map_nil,sum_cons,sum_nil]
      omega
    · intro a ha
      rw [denotes_single] at ha
      exact denotes_cons.mpr (.inl (by omega))
    · intro a b ha hb hle
      rw [denotes_single] at ha ⊢
      rcases denotes_cons.mp hb with hb | hb
      · omega
      · have hb' := hs.above hb
        omega

def clip (limit : Nat) (l : List Region) : List Region :=
  (l.filter fun rgn => rgn.base < limit).map fun rgn => ⟨rgn.base,min rgn.size (limit-rgn.base)⟩

lemma denotes_clip {a : Nat} : Denotes (clip limit l) a ↔ Denotes l a ∧ a < limit := by
  simp only [Denotes,clip,mem_map,mem_filter,decide_eq_true_eq]
  constructor
  · rintro ⟨_,⟨rgn,⟨hrgn,hlt⟩,rfl⟩,hin⟩
    simp only at hin
    exact ⟨⟨rgn,hrgn,by omega⟩,by omega⟩
  · rintro ⟨⟨rgn,hrgn,hin⟩,hlt⟩
    exact ⟨_,⟨rgn,⟨hrgn,by omega⟩,rfl⟩,by simp only; omega⟩

lemma truncateLoop_cons (before after : List Region) (hb : 0 < rgn.size ∧ rgn.base+rgn.size < word) :
    truncateLoop limit (fuel+1) (before++rgn::after) before.length =
      if rgn.base < limit then truncateLoop limit fuel
        (before++⟨rgn.base,min rgn.size (limit-rgn.base)⟩::after) (before.length+1)
      else truncateLoop limit fuel (refill (before++after)) before.length := by
  have hset : ∀ r, (before++rgn::after).set before.length r = before++r::after := by simp
  have herase : ∀ r, removeRegion (before++r::after) before.length = refill (before++after) := by
    intro r
    simp [removeRegion,eraseIdx_append_of_length_le]
  rw [truncateLoop,getElem?_append_right le_rfl,Nat.sub_self,getElem?_cons_zero]
  simp only [hset,herase,Nat.mod_eq_of_lt hb.2]
  by_cases hlt : rgn.base < limit
  · have hsize : (if limit < rgn.base then 0 else if limit < rgn.base+rgn.size then limit-rgn.base else rgn.size) =
        min rgn.size (limit-rgn.base) := by
      split_ifs <;> omega
    rw [hsize,if_neg (by omega),if_pos hlt]
  · rw [if_neg hlt,if_pos (by split_ifs <;> omega)]

lemma truncateLoop_filler : truncateLoop limit fuel [filler] 0 = none := by
  induction fuel with
  | zero => rfl
  | succ fuel ih =>
    rw [truncateLoop]
    simpa [filler,removeRegion,refill] using ih

lemma truncateLoop_returns (before : List Region) (hb : Bounded after)
    (hne : before ≠ [] ∨ ∃ rgn ∈ after, rgn.base < limit)
    (hfuel : after.length < fuel) :
    truncateLoop limit fuel (before++after) before.length = some (before++clip limit after) := by
  induction after generalizing before fuel with
  | nil =>
    obtain ⟨fuel,rfl⟩ := Nat.exists_eq_succ_of_ne_zero (Nat.ne_zero_of_lt hfuel)
    rw [truncateLoop,append_nil,getElem?_eq_none le_rfl]
    simp [clip]
  | cons rgn after ih =>
    obtain ⟨fuel,rfl⟩ := Nat.exists_eq_succ_of_ne_zero (Nat.ne_zero_of_lt hfuel)
    have hfuel' : after.length < fuel := by simpa using hfuel
    rw [truncateLoop_cons before after hb.head]
    by_cases hlt : rgn.base < limit
    · have hrest := ih (before++[⟨rgn.base,min rgn.size (limit-rgn.base)⟩]) hb.tail (.inl (by simp)) hfuel'
      rw [if_pos hlt]
      simpa [clip,hlt] using hrest
    have hne' : before ≠ [] ∨ ∃ rgn ∈ after, rgn.base < limit := by
      rcases hne with hne | ⟨r,hr,hr'⟩
      · exact .inl hne
      rcases mem_cons.mp hr with rfl | hr
      · exact absurd hr' hlt
      · exact .inr ⟨r,hr,hr'⟩
    have hfull : before++after ≠ [] := by
      rcases hne' with hne' | ⟨r,hr,-⟩
      · simp [hne']
      · simp [ne_nil_of_mem hr]
    rw [if_neg hlt,refill,if_neg hfull,ih before hb.tail hne' hfuel']
    simp [clip,hlt]

lemma truncateLoop_none (hb : Bounded l) (hne : l ≠ []) (hout : ∀ rgn ∈ l, limit ≤ rgn.base) :
    truncateLoop limit fuel l 0 = none := by
  induction l generalizing fuel with
  | nil => exact absurd rfl hne
  | cons rgn l ih =>
    rcases fuel with _ | fuel
    · rfl
    refine (truncateLoop_cons [] l hb.head).trans ?_
    rw [if_neg (not_lt.mpr (hout rgn mem_cons_self)),nil_append,refill]
    split_ifs with hnil
    · exact truncateLoop_filler
    · exact ih hb.tail hnil fun r hr => hout r (mem_cons_of_mem _ hr)

/-- The call returns, with the lowest bytes of the memory and what is reserved below its end, exactly when
something is reserved there. -/
theorem enforce_memory_limit_iff {mb : Blocks} (hmem : mb.memory.WellFormed) (hres : mb.reserved.WellFormed)
    (hlimit : limit ≠ 0) : (∃ fuel mb', mb.enforceMemoryLimit fuel limit = some mb' ∧
        Lowest limit mb.memory.regions mb'.memory.regions ∧ ∀ a, Denotes mb'.reserved.regions a ↔
          Denotes mb.reserved.regions a ∧ a < endOfDRAM mb'.memory.regions) ↔
      ∃ a, Denotes mb.reserved.regions a ∧ a < endOfDRAM (limitLoop limit mb.memory.regions) := by
  have hsorted : Sorted mb.memory.regions := by
    rcases hmem.regular with hfill | ⟨-,-,hs⟩
    · rw [hfill]
      exact pairwise_singleton _ _
    · exact hs
  simp only [Blocks.enforceMemoryLimit,if_neg hlimit,Option.map_eq_some_iff]
  rcases hres.regular with hfill | ⟨hne,hb,-⟩
  · rw [hfill]
    constructor
    · rintro ⟨fuel,mb',⟨reserved,hrun,-⟩,-⟩
      rw [truncateLoop_filler] at hrun
      cases hrun
    · rintro ⟨a,ha,-⟩
      exact absurd ha (not_denotes_filler a)
  constructor
  · rintro ⟨fuel,mb',⟨reserved,hrun,-⟩,-⟩
    by_contra hout
    have habove : ∀ rgn ∈ mb.reserved.regions, endOfDRAM (limitLoop limit mb.memory.regions) ≤ rgn.base := by
      intro rgn hrgn
      have hpos := (hb rgn hrgn).1
      by_contra hlt
      exact hout ⟨rgn.base,⟨rgn,hrgn,le_rfl,by omega⟩,by omega⟩
    rw [truncateLoop_none hb hne habove] at hrun
    cases hrun
  · rintro ⟨a,⟨rgn,hrgn,hin⟩,hlt⟩
    have hlow : rgn.base < endOfDRAM (limitLoop limit mb.memory.regions) := by omega
    have hrun := truncateLoop_returns [] hb (.inr ⟨rgn,hrgn,hlow⟩) (Nat.lt_succ_self _)
    refine ⟨_,_,⟨_,hrun,rfl⟩,limitLoop_lowest limit hsorted,fun a => ?_⟩
    exact denotes_clip

def machine : Blocks where
  memory := ⟨[⟨0,0x1000⟩,⟨0x2000,0x1000⟩],initMemblockRegions,none⟩
  reserved := ⟨[⟨0x100,0x100⟩,⟨0x2800,0x1000⟩],initMemblockRegions,none⟩
  currentLimit := word-1

theorem enforce_memory_limit_cut : ∃ fuel mb', machine.enforceMemoryLimit fuel 0x1900 = some mb' ∧
    Lowest 0x1900 machine.memory.regions mb'.memory.regions ∧ ∀ a, Denotes mb'.reserved.regions a ↔
      Denotes machine.reserved.regions a ∧ a < endOfDRAM mb'.memory.regions := by
  have hmem : machine.memory.WellFormed :=
    ⟨.inr ⟨by decide,by simp [machine,Bounded,word],by simp [machine,Sorted]⟩,by decide⟩
  have hres : machine.reserved.WellFormed :=
    ⟨.inr ⟨by decide,by simp [machine,Bounded,word],by simp [machine,Sorted]⟩,by decide⟩
  exact (enforce_memory_limit_iff hmem hres (by decide)).mpr ⟨0x100,by decide,by decide⟩

/-- The map as the kernel starts with it, with one region of memory and nothing reserved. -/
theorem enforce_memory_limit_without_reserved : Reaches 3 (init.write .memory [⟨0x2000,0x1000⟩]) ∧
    ∀ fuel, (init.write .memory [⟨0x2000,0x1000⟩]).enforceMemoryLimit fuel 0x800 = none := by
  refine ⟨Reaches.call ⟨.add,0x2000,0x1000,early⟩ Reaches.init (by decide) rfl,fun fuel => ?_⟩
  exact congrArg (Option.map _) truncateLoop_filler

end LinuxToradex.Memblock
