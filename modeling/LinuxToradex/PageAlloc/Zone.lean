import LinuxToradex.Foundation.BuddyTree

/-! `mm/page_alloc.c` with `MAX_ORDER` 11 and no huge pages. A page is its frame number. The zone is made up of
whole blocks of the largest order, so a buddy is a valid page of the zone. -/
namespace LinuxToradex.PageAlloc

open Function

def maxOrder : Nat := 11

def pageblockOrder : Nat := maxOrder-1

inductive MigrateType where
  | unmovable | reclaimable | movable | reserve | isolate
  deriving DecidableEq

def migrateTypes : List MigrateType := [.unmovable,.reclaimable,.movable,.reserve,.isolate]

def fallbacks : MigrateType → List MigrateType
  | .unmovable => [.reclaimable,.movable,.reserve,.unmovable]
  | .reclaimable => [.unmovable,.movable,.reserve,.unmovable]
  | .movable => [.reclaimable,.unmovable,.reserve,.unmovable]
  | .reserve => [.reserve,.reserve,.reserve,.unmovable]
  | .isolate => [.unmovable,.unmovable,.unmovable,.unmovable]

/-- `freeList (order, type)` and `nrFree order` are in `free_area[order]`; `buddy` is the `page_order` of a
page with `PageBuddy`; `pageblock` is the type of each pageblock. -/
structure Zone where
  freeList : Nat × MigrateType → List Nat
  nrFree : Nat → Nat
  buddy : Nat → Option Nat
  pageblock : Nat → MigrateType
  zoneStartPfn : Nat
  spannedPages : Nat
  pageGroupByMobilityDisabled : Bool

namespace Zone

def listAdd (z : Zone) (page : Nat) (area : Nat × MigrateType) : Zone :=
  {z with freeList := update z.freeList area (page::z.freeList area)}

def listAddTail (z : Zone) (page : Nat) (area : Nat × MigrateType) : Zone :=
  {z with freeList := update z.freeList area (z.freeList area++[page])}

def listDel (z : Zone) (page : Nat) : Zone :=
  {z with freeList := fun area => (z.freeList area).filter (· ≠ page)}

def listMove (z : Zone) (page : Nat) (area : Nat × MigrateType) : Zone :=
  (z.listDel page).listAdd page area

def setPageOrder (z : Zone) (page order : Nat) : Zone :=
  {z with buddy := update z.buddy page (some order)}

def rmvPageOrder (z : Zone) (page : Nat) : Zone :=
  {z with buddy := update z.buddy page none}

def incNrFree (z : Zone) (order : Nat) : Zone :=
  {z with nrFree := update z.nrFree order (z.nrFree order+1)}

def decNrFree (z : Zone) (order : Nat) : Zone :=
  {z with nrFree := update z.nrFree order (z.nrFree order - 1)}

def findBuddyIndex (pageIdx order : Nat) : Nat := pageIdx ^^^ 2^order

def pageIsBuddy (z : Zone) (buddy order : Nat) : Bool := z.buddy buddy = some order

/-- The loop of `__free_one_page`, with the number of orders below `MAX_ORDER - 1` that are left. It ends with
the page, its index and its order. -/
def mergeBuddies (z : Zone) (page pageIdx order : Nat) : Nat → Zone × Nat × Nat × Nat
  | 0 => (z,page,pageIdx,order)
  | n+1 =>
    let buddyIdx := findBuddyIndex pageIdx order
    let buddy := page+buddyIdx-pageIdx
    if z.pageIsBuddy buddy order then
      let combinedIdx := buddyIdx &&& pageIdx
      mergeBuddies (((z.listDel buddy).decNrFree order).rmvPageOrder buddy)
        (page+combinedIdx-pageIdx) combinedIdx (order+1) n
    else (z,page,pageIdx,order)

/-- The test for the tail of the list. The source looks for the next higher buddy from `page`, not from
`higher_page`. -/
def higherIsBuddy (z : Zone) (page pageIdx order : Nat) : Bool :=
  let combinedIdx := findBuddyIndex pageIdx order &&& pageIdx
  z.pageIsBuddy (page+findBuddyIndex combinedIdx (order+1)-combinedIdx) (order+1)

def freeOnePage (z : Zone) (page order : Nat) (migratetype : MigrateType) (bad : Bool) : Zone :=
  if bad then z
  else
    match z.mergeBuddies page (page%2^maxOrder) order (maxOrder - 1 - order) with
    | (z,page,pageIdx,order) =>
      let z := z.setPageOrder page order
      if order < maxOrder-2 ∧ z.higherIsBuddy page pageIdx order then
        (z.listAddTail page (order,migratetype)).incNrFree order
      else (z.listAdd page (order,migratetype)).incNrFree order

def expand (z : Zone) (page low : Nat) (migratetype : MigrateType) : Nat → Zone
  | 0 => z
  | high+1 =>
    if high+1 > low then
      expand (((z.listAdd (page+2^high) (high,migratetype)).incNrFree high).setPageOrder
        (page+2^high) high) page low migratetype high
    else z

def rmqueueSmallest (z : Zone) (order : Nat) (migratetype : MigrateType) : Option (Zone × Nat) :=
  (List.range' order (maxOrder-order)).findSome? fun current =>
    (z.freeList (current,migratetype)).head?.map fun page =>
      ((((z.listDel page).rmvPageOrder page).decNrFree current).expand page order migratetype current,page)

def setPageblockMigratetype (z : Zone) (page : Nat) (migratetype : MigrateType) : Zone :=
  let migratetype := if z.pageGroupByMobilityDisabled then .unmovable else migratetype
  {z with pageblock := update z.pageblock (page/2^pageblockOrder) migratetype}

def moveFreepages (z : Zone) (page endPage : Nat) (migratetype : MigrateType) (pagesMoved : Nat) : Zone × Nat :=
  if page ≤ endPage then
    match z.buddy page with
    | none => z.moveFreepages (page+1) endPage migratetype pagesMoved
    | some order => (z.listMove page (order,migratetype)).moveFreepages (page+2^order) endPage migratetype
        (pagesMoved+2^order)
  else (z,pagesMoved)
termination_by endPage+1-page
decreasing_by
  · omega
  have := Nat.two_pow_pos order
  omega

def moveFreepagesBlock (z : Zone) (page : Nat) (migratetype : MigrateType) : Zone × Nat :=
  let startPfn := page/2^pageblockOrder*2^pageblockOrder
  let endPfn := startPfn+2^pageblockOrder-1
  if endPfn ≥ z.zoneStartPfn+z.spannedPages then (z,0)
  else z.moveFreepages (if startPfn < z.zoneStartPfn then page else startPfn) endPfn migratetype 0

def changePageblockRange (z : Zone) (page startOrder : Nat) (migratetype : MigrateType) : Zone :=
  (List.range (2^(startOrder-pageblockOrder))).foldl
    (fun z i => z.setPageblockMigratetype (page+i*2^pageblockOrder) migratetype) z

def claimBlock (z : Zone) (page : Nat) (start : MigrateType) : Zone :=
  match z.moveFreepagesBlock page start with
  | (z,pages) =>
    if 2^(pageblockOrder-1) ≤ pages ∨ z.pageGroupByMobilityDisabled then z.setPageblockMigratetype page start
    else z

def takeFallback (z : Zone) (order current page : Nat) (start migratetype : MigrateType) : Zone :=
  let claims := pageblockOrder/2 ≤ current ∨ start = .reclaimable ∨ z.pageGroupByMobilityDisabled
  let z := z.decNrFree current
  let z := if claims then z.claimBlock page start else z
  let z := (z.listDel page).rmvPageOrder page
  let z := if pageblockOrder ≤ current then z.changePageblockRange page current start else z
  z.expand page order (if claims then start else migratetype) current

def rmqueueFallback (z : Zone) (order : Nat) (start : MigrateType) : Option (Zone × Nat) :=
  (List.range' order (maxOrder-order)).reverse.findSome? fun current =>
    (fallbacks start).findSome? fun migratetype =>
      if migratetype = .reserve then none
      else (z.freeList (current,migratetype)).head?.map fun page =>
        (z.takeFallback order current page start migratetype,page)

def blocks (z : Zone) : List Buddy.Block :=
  (List.range maxOrder).flatMap fun k => migrateTypes.flatMap fun t => (z.freeList (k,t)).map (k,·)

structure Fresh (z : Zone) (tops : List Nat) : Prop where
  lists : ∀ k t, k+1 < maxOrder → z.freeList (k,t) = []
  top : migrateTypes.flatMap (fun t => z.freeList (maxOrder-1,t)) = tops
  nrFree : ∀ k, z.nrFree k = if k+1 = maxOrder then tops.length else 0
  buddy : ∀ k i, z.buddy i = some k ↔ k+1 = maxOrder ∧ i ∈ tops
  aligned : ∀ i ∈ tops, 2^(maxOrder-1) ∣ i
  nodup : tops.Nodup

end Zone

inductive Reaches (z₀ : Zone) : Zone → List Buddy.Block → Prop where
  | init : Reaches z₀ z₀ []
  | smallest {z z' : Zone} {held : List Buddy.Block} {order page : Nat} {migratetype : MigrateType}
      (h : Reaches z₀ z held) (horder : order < maxOrder)
      (hcall : z.rmqueueSmallest order migratetype = some (z',page)) : Reaches z₀ z' ((order,page)::held)
  | fallback {z z' : Zone} {held : List Buddy.Block} {order page : Nat} {start : MigrateType}
      (h : Reaches z₀ z held) (horder : order < maxOrder)
      (hcall : z.rmqueueFallback order start = some (z',page)) : Reaches z₀ z' ((order,page)::held)
  | free {z : Zone} {held : List Buddy.Block} {order page : Nat} (migratetype : MigrateType) (bad : Bool)
      (h : Reaches z₀ z held) (hheld : (order,page) ∈ held) :
      Reaches z₀ (z.freeOnePage page order migratetype bad) (if bad then held else held.erase (order,page))

open List

open Function Buddy

variable {z z' : Zone} {F held : List Block} {zone : List Nat} {k i page : Nat} {t : MigrateType}

lemma mem_migrateTypes (t : MigrateType) : t ∈ migrateTypes := by
  cases t <;> decide

lemma mem_blocks : (k,i) ∈ z.blocks ↔ k < maxOrder ∧ ∃ t, i ∈ z.freeList (k,t) := by
  simp only [Zone.blocks,mem_flatMap,mem_range,mem_map,Prod.mk.injEq]
  constructor
  · rintro ⟨_,hk,t,-,_,hi,rfl,rfl⟩
    exact ⟨hk,t,hi⟩
  rintro ⟨hk,t,hi⟩
  exact ⟨k,hk,t,mem_migrateTypes t,i,hi,rfl,rfl⟩

lemma flatMap_perm_cons {ι α : Type} {l : List ι} {f g : ι → List α} {a : ι} {x : α} (hl : l.Nodup) (ha : a ∈ l)
    (hga : (g a).Perm (x::f a)) (hother : ∀ b ≠ a, g b = f b) : (l.flatMap g).Perm (x::l.flatMap f) := by
  induction l with
  | nil => exact absurd ha not_mem_nil
  | cons b l ih =>
    obtain ⟨hb,hl⟩ := nodup_cons.mp hl
    rw [flatMap_cons,flatMap_cons]
    rcases mem_cons.mp ha with rfl | ha
    · have hsame : l.flatMap g = l.flatMap f := flatMap_congr fun c hc => hother c fun heq => hb (heq ▸ hc)
      rw [hsame]
      exact hga.append_right _
    rw [hother b fun heq => hb (heq ▸ ha)]
    exact ((ih hl ha).append_left _).trans perm_middle

variable {l tops : List Nat} {order n : Nat}

lemma blocks_put (hz : z'.freeList = update z.freeList (k,t) l) (hk : k < maxOrder)
    (hl : l.Perm (i::z.freeList (k,t))) : z'.blocks.Perm ((k,i)::z.blocks) := by
  refine flatMap_perm_cons nodup_range (mem_range.mpr hk) ?_ fun k' hk' => ?_
  · refine flatMap_perm_cons (by decide) (mem_migrateTypes t) ?_ fun t' ht' => ?_
    · rw [hz,update_self]
      exact hl.map _
    · rw [hz,update_of_ne fun heq => ht' (Prod.mk.inj heq).2]
  refine flatMap_congr fun t' _ => ?_
  rw [hz,update_of_ne fun heq => hk' (Prod.mk.inj heq).1]

lemma blocks_listDel : (z.listDel i).blocks = z.blocks.filter (·.2 ≠ i) := by
  simp only [Zone.blocks,Zone.listDel,filter_flatMap,filter_map]
  rfl

structure Holds (z : Zone) (F : List Block) : Prop where
  lists : z.blocks.Perm F
  counts : ∀ k, z.nrFree k = F.countP (·.1 = k)
  marks : ∀ k i, z.buddy i = some k ↔ (k,i) ∈ F

lemma Holds.perm {F' : List Block} (h : Holds z F) (hF : F.Perm F') : Holds z F' :=
  ⟨h.lists.trans hF,fun k => (h.counts k).trans (hF.countP_eq _),fun k i => (h.marks k i).trans hF.mem_iff⟩

lemma blocks_listDel_perm (h : z.blocks.Perm ((k,i)::F)) (hi : ∀ o, (o,i) ∉ F) : (z.listDel i).blocks.Perm F := by
  have hfilter : ((k,i)::F).filter (·.2 ≠ i) = F := by
    rw [filter_cons_of_neg (by simp),filter_eq_self]
    rintro ⟨o,j⟩ hb
    simpa using fun heq : j = i => hi o (heq ▸ hb)
  have hperm := h.filter (·.2 ≠ i)
  rwa [hfilter,← blocks_listDel] at hperm

structure Same (z z' : Zone) : Prop where
  blocks : z'.blocks.Perm z.blocks
  nrFree : z'.nrFree = z.nrFree
  buddy : z'.buddy = z.buddy

lemma Same.refl (z : Zone) : Same z z := ⟨.refl _,rfl,rfl⟩

lemma Same.trans {z'' : Zone} (h : Same z z') (h' : Same z' z'') : Same z z'' :=
  ⟨h'.blocks.trans h.blocks,h'.nrFree.trans h.nrFree,h'.buddy.trans h.buddy⟩

/-- A free block is taken. The counter is lowered first, and other blocks may be moved before it goes. -/
theorem Holds.del (h : Holds z ((k,i)::F)) (hi : ∀ o, (o,i) ∉ F) (hsame : Same (z.decNrFree k) z') :
    Holds ((z'.listDel i).rmvPageOrder i) F := by
  refine ⟨blocks_listDel_perm (hsame.blocks.trans h.lists) hi,fun o => ?_,fun o j => ?_⟩
  · have hcount := h.counts o
    show z'.nrFree o = _
    rw [hsame.nrFree]
    show update z.nrFree k (z.nrFree k-1) o = _
    by_cases ho : o = k
    · rw [ho,countP_cons_of_pos (by simp)] at hcount
      rw [ho,update_self,hcount,Nat.add_sub_cancel]
    rw [countP_cons_of_neg (by simp [Ne.symm ho])] at hcount
    rw [update_of_ne ho,hcount]
  show update z'.buddy i none j = some o ↔ _
  by_cases hj : j = i
  · rw [hj,update_self]
    exact ⟨nofun,fun hmem => absurd hmem (hi o)⟩
  rw [update_of_ne hj,hsame.buddy]
  exact ((h.marks o j).trans mem_cons).trans (or_iff_right fun heq => hj (Prod.mk.inj heq).2)

lemma Holds.put (h : Holds z F) (hk : k < maxOrder) (hi : ∀ o, (o,i) ∉ F) (hl : l.Perm (i::z.freeList (k,t))) :
    Holds (({z with freeList := update z.freeList (k,t) l}.incNrFree k).setPageOrder i k) ((k,i)::F) := by
  refine ⟨(blocks_put rfl hk hl).trans (h.lists.cons _),fun o => ?_,fun o j => ?_⟩
  · show update z.nrFree k (z.nrFree k+1) o = _
    by_cases ho : o = k
    · rw [ho,update_self,countP_cons_of_pos (by simp),h.counts]
    · rw [update_of_ne ho,countP_cons_of_neg (by simp [Ne.symm ho]),h.counts]
  show update z.buddy i (some k) j = some o ↔ _
  by_cases hj : j = i
  · rw [hj,update_self,mem_cons]
    constructor
    · exact fun heq => .inl (by rw [Option.some.inj heq])
    rintro (heq | hmem)
    · rw [(Prod.mk.inj heq).1]
    · exact absurd hmem (hi o)
  rw [update_of_ne hj,h.marks,mem_cons]
  exact (or_iff_right fun heq => hj (Prod.mk.inj heq).2).symm

def Inv (zone : List Nat) (z : Zone) (held : List Block) : Prop :=
  ∃ F, Holds z F ∧ System maxOrder zone F held

lemma expand_inv {low high : Nat} (h : Inv zone z ((high,page)::held)) (hlow : low ≤ high) :
    Inv zone (z.expand page low t high) ((low,page)::held) := by
  induction high generalizing z with
  | zero =>
    obtain rfl := Nat.le_zero.mp hlow
    exact h
  | succ high ih =>
    rw [Zone.expand]
    split
    · next hgt =>
      obtain ⟨F,hholds,hsystem⟩ := h
      have hpages : page+2^high ∈ pages (high+1,page) := by
        rw [mem_pages,pow_succ]
        have := Nat.two_pow_pos high
        omega
      have hlt : high < maxOrder :=
        Nat.lt_of_succ_lt (hsystem.tiled.sound (high+1,page) (by simp)).1
      exact ih ⟨_,hholds.put hlt (hsystem.outside mem_cons_self hpages) (.refl _),hsystem.split⟩
        (Nat.lt_succ_iff.mp hgt)
    next hgt =>
    obtain rfl : low = high+1 := hlow.antisymm (not_lt.mp hgt)
    exact h

/-- A free block with its order and the other free blocks. -/
theorem Inv.exists_free (h : Inv zone z held) (hblock : (k,i) ∈ z.blocks) : ∃ F, Holds z ((k,i)::F) ∧
    System maxOrder zone F ((k,i)::held) ∧ ∀ o, (o,i) ∉ F := by
  obtain ⟨F,hholds,hsystem⟩ := h
  have hperm := perm_cons_erase (hholds.lists.mem_iff.mp hblock)
  have htake := (hsystem.of_perm hperm (.refl _)).take
  exact ⟨_,hholds.perm hperm,htake,htake.outside mem_cons_self (first_mem_pages (k,i))⟩

lemma rmqueueSmallest_inv (h : Inv zone z held)
    (hcall : z.rmqueueSmallest order t = some (z',page)) : Inv zone z' ((order,page)::held) := by
  obtain ⟨current,hcurrent,hpage⟩ := exists_of_findSome?_eq_some hcall
  obtain ⟨p,hhead,heq⟩ := Option.map_eq_some_iff.mp hpage
  obtain ⟨rfl,rfl⟩ := Prod.mk.inj heq
  have hrange := mem_range'_1.mp hcurrent
  obtain ⟨F,hholds,hsystem,hne⟩ :=
    h.exists_free (mem_blocks.mpr ⟨by omega,t,mem_of_mem_head? hhead⟩)
  exact expand_inv ⟨F,hholds.del hne (.refl _),hsystem⟩ hrange.1

def Marked (z : Zone) : Prop :=
  ∀ k i, z.buddy i = some k → k < maxOrder ∧ ∃ F, z.blocks.Perm ((k,i)::F) ∧ ∀ o, (o,i) ∉ F

lemma Inv.marked (h : Inv zone z held) : Marked z := by
  intro k i hk
  obtain ⟨F,hholds,hsystem⟩ := h
  have hblock : (k,i) ∈ z.blocks := hholds.lists.mem_iff.mpr ((hholds.marks k i).mp hk)
  obtain ⟨F',hholds',-,hne⟩ := Inv.exists_free ⟨F,hholds,hsystem⟩ hblock
  exact ⟨(mem_blocks.mp hblock).1,F',hholds'.lists,hne⟩

lemma Marked.of_same (h : Marked z) (hsame : Same z z') : Marked z' := by
  intro k i hk
  obtain ⟨hlt,F,hperm,hne⟩ := h k i (hsame.buddy ▸ hk)
  exact ⟨hlt,F,hsame.blocks.trans hperm,hne⟩

lemma listMove_same (h : Marked z) (hk : z.buddy i = some k) : Same z (z.listMove i (k,t)) := by
  obtain ⟨hlt,F,hperm,hne⟩ := h k i hk
  have hput : (z.listMove i (k,t)).blocks.Perm ((k,i)::(z.listDel i).blocks) :=
    blocks_put rfl hlt (.refl _)
  exact ⟨hput.trans (((blocks_listDel_perm hperm hne).cons _).trans hperm.symm),rfl,rfl⟩

lemma moveFreepages_same {endPage : Nat} (h : Marked z) : Same z (z.moveFreepages page endPage t n).1 := by
  fun_induction Zone.moveFreepages z page endPage t n with
  | case1 z page n hle hnone ih => exact ih h
  | case2 z page n hle order hsome ih =>
    have hsame := listMove_same (t := t) h hsome
    exact hsame.trans (ih (h.of_same hsame))
  | case3 z page n hgt => exact .refl z

lemma claimBlock_same (h : Marked z) : Same z (z.claimBlock page t) := by
  have hmove : Same z (z.moveFreepagesBlock page t).1 := by
    rw [Zone.moveFreepagesBlock]
    split
    · exact .refl z
    · exact moveFreepages_same h
  rw [Zone.claimBlock]
  dsimp only
  split
  · exact ⟨hmove.blocks,hmove.nrFree,hmove.buddy⟩
  · exact hmove

lemma changePageblockRange_inv (h : Inv zone z held) : Inv zone (z.changePageblockRange page order t) held := by
  rw [Zone.changePageblockRange]
  induction List.range (2^(order - pageblockOrder)) generalizing z with
  | nil => exact h
  | cons i l ih =>
    obtain ⟨F,hholds,hsystem⟩ := h
    exact ih ⟨F,⟨hholds.lists,hholds.counts,hholds.marks⟩,hsystem⟩

lemma takeFallback_inv {current : Nat} {start : MigrateType} (h : Inv zone z held)
    (hblock : (current,page) ∈ z.blocks) (horder : order ≤ current) :
    Inv zone (z.takeFallback order current page start t) ((order,page)::held) := by
  obtain ⟨F,hholds,hsystem,hne⟩ := h.exists_free hblock
  have hmarked : Marked (z.decNrFree current) := h.marked
  rw [Zone.takeFallback]
  refine expand_inv ?_ horder
  have htaken : ∀ w, Same (z.decNrFree current) w →
      Inv zone ((w.listDel page).rmvPageOrder page) ((current,page)::held) := fun w hw =>
    ⟨F,hholds.del hne hw,hsystem⟩
  have hclaim : Inv zone (((if pageblockOrder/2 ≤ current ∨ start = .reclaimable ∨ z.pageGroupByMobilityDisabled then
      (z.decNrFree current).claimBlock page start else z.decNrFree current).listDel page).rmvPageOrder page)
      ((current,page)::held) := by
    split
    · exact htaken _ (claimBlock_same hmarked)
    · exact htaken _ (.refl _)
  split
  · exact changePageblockRange_inv hclaim
  · exact hclaim

lemma rmqueueFallback_inv (h : Inv zone z held)
    (hcall : z.rmqueueFallback order t = some (z',page)) : Inv zone z' ((order,page)::held) := by
  obtain ⟨current,hcurrent,hrow⟩ := exists_of_findSome?_eq_some hcall
  obtain ⟨s,-,hpage⟩ := exists_of_findSome?_eq_some hrow
  split at hpage
  · next hreserve => cases hpage
  next hreserve =>
  obtain ⟨p,hhead,heq⟩ := Option.map_eq_some_iff.mp hpage
  obtain ⟨rfl,rfl⟩ := Prod.mk.inj heq
  have hrange := mem_range'_1.mp (mem_reverse.mp hcurrent)
  exact takeFallback_inv h (mem_blocks.mpr ⟨by omega,s,mem_of_mem_head? hhead⟩) hrange.1

/-- Merging ends with a block whose buddy is not free, or of the largest order. -/
theorem mergeBuddies_inv {base idx : Nat} (h : Inv zone z ((k,base+idx)::held)) (hbase : 2^maxOrder ∣ base)
    (hn : k+n+1 = maxOrder) :
    ∃ z' page' idx' k' F, z.mergeBuddies (base+idx) idx k n = (z',page',idx',k') ∧ Holds z' F ∧
      System maxOrder zone F ((k',page')::held) ∧ (k'+1 = maxOrder ∨ (k',page' ^^^ 2^k') ∉ F) := by
  induction n generalizing z idx k with
  | zero =>
    obtain ⟨F,hholds,hsystem⟩ := h
    exact ⟨z,base+idx,idx,k,F,rfl,hholds,hsystem,.inl hn⟩
  | succ n ih =>
    obtain ⟨F,hholds,hsystem⟩ := h
    have hbase' : 2^(k+1) ∣ base := (Nat.pow_dvd_pow 2 (by omega)).trans hbase
    have hdvd : 2^k ∣ base+idx := (hsystem.tiled.sound (k,base+idx) (by simp)).2
    have hidx : 2^k ∣ idx := (Nat.dvd_add_right ((Nat.pow_dvd_pow 2 (Nat.le_succ k)).trans hbase')).mp hdvd
    obtain ⟨q,hq,hand,hpair⟩ := exists_pair hidx
    have hq' : 2^(k+1) ∣ base+q := Nat.dvd_add hbase' hq
    have hxor : (base+idx) ^^^ 2^k = base+(idx ^^^ 2^k) := by
      rcases hpair with ⟨rfl,hx⟩ | ⟨rfl,hx⟩
      · rw [hx,xor_left hq',Nat.add_assoc]
      · rw [hx,← Nat.add_assoc,xor_right hq']
    have hsub : ∀ x, base+idx+x-idx = base+x := fun x => by omega
    simp only [Zone.mergeBuddies,Zone.findBuddyIndex,hsub,hand]
    split
    · next hbuddy =>
      have hblock := hholds.lists.mem_iff.mpr ((hholds.marks _ _).mp (of_decide_eq_true hbuddy))
      obtain ⟨F',hholds',hsystem',hne⟩ := Inv.exists_free ⟨F,hholds,hsystem⟩ hblock
      have hmerged : System maxOrder zone F' ((k+1,base+q)::held) :=
        hsystem'.merge (by omega) hq' (by omega)
      exact ih ⟨F',hholds'.del hne (.refl _),hmerged⟩ (by omega)
    next hbuddy =>
    refine ⟨_,_,_,_,F,rfl,hholds,hsystem,.inr fun hmem => hbuddy (decide_eq_true ?_)⟩
    rw [hxor] at hmem
    exact (hholds.marks _ _).mpr hmem

lemma freeOnePage_inv (h : Inv zone z held) (hheld : (order,page) ∈ held) (bad : Bool) :
    Inv zone (z.freeOnePage page order t bad) (if bad then held else held.erase (order,page)) := by
  cases bad with
  | true => exact h
  | false =>
    obtain ⟨F,hholds,hsystem⟩ := h
    have hsystem' := hsystem.of_perm (.refl _) (perm_cons_erase hheld)
    have horder := (hsystem'.tiled.sound (order,page) (by simp)).1
    have hpage := Nat.div_add_mod page (2^maxOrder)
    have hinv : Inv zone z ((order,2^maxOrder*(page/2^maxOrder)+page%2^maxOrder) :: held.erase (order,page)) := by
      rw [hpage]
      exact ⟨F,hholds,hsystem'⟩
    obtain ⟨z',page',idx',k,F',heq,hholds',hmerged,hbuddy⟩ :=
      mergeBuddies_inv (n := maxOrder-1-order) hinv (dvd_mul_right _ _) (by omega)
    rw [hpage] at heq
    have hk := (hmerged.tiled.sound (k,page') (by simp)).1
    have hne := hmerged.outside mem_cons_self (first_mem_pages (k,page'))
    rw [Zone.freeOnePage,if_neg Bool.false_ne_true,if_neg Bool.false_ne_true,heq]
    dsimp only
    split
    · exact ⟨_,hholds'.put hk hne (perm_append_singleton _ _),hmerged.give hbuddy⟩
    · exact ⟨_,hholds'.put hk hne (.refl _),hmerged.give hbuddy⟩

lemma Zone.Fresh.inv (h : z.Fresh tops) : Inv (tops.flatMap fun i => pages (maxOrder-1,i)) z [] := by
  have hlists : z.blocks = tops.map (maxOrder-1,·) := by
    have hlow : (List.range (maxOrder-1)).flatMap
        (fun k => migrateTypes.flatMap fun t => (z.freeList (k,t)).map (k,·)) = [] := by
      simp only [flatMap_eq_nil_iff,mem_range]
      intro k hk t _
      rw [h.lists k t (by omega),map_nil]
    rw [Zone.blocks,show maxOrder = maxOrder-1+1 from rfl,range_succ,flatMap_append,hlow,
      nil_append,flatMap_singleton,← h.top,map_flatMap]
    rfl
  refine ⟨_,⟨.refl _,fun k => ?_,fun k i => ?_⟩,⟨⟨?_,?_⟩,?_,?_⟩⟩
  · rw [h.nrFree,hlists,countP_map]
    split
    · next hk =>
      rw [countP_eq_length.mpr]
      exact fun i _ => decide_eq_true (Nat.succ.inj hk).symm
    next hk =>
    rw [countP_eq_zero.mpr]
    exact fun i _ hdec => hk (congrArg (· + 1) (of_decide_eq_true hdec).symm)
  · rw [h.buddy,hlists,mem_map]
    constructor
    · rintro ⟨hk,hi⟩
      exact ⟨i,hi,by rw [← hk,Nat.add_sub_cancel]⟩
    rintro ⟨i,hi,heq⟩
    obtain ⟨rfl,rfl⟩ := Prod.mk.inj heq
    exact ⟨rfl,hi⟩
  · rw [append_nil,hlists]
    simp only [forall_mem_map]
    exact fun i hi => ⟨by decide,h.aligned i hi⟩
  · rw [append_nil,hlists,flatMap_map]
  · rw [hlists]
    intro k i hi _
    obtain ⟨j,-,heq⟩ := mem_map.mp hi
    rw [← (Prod.mk.inj heq).1]
    rfl
  rw [nodup_flatMap]
  refine ⟨fun i _ => nodup_range',?_⟩
  exact h.nodup.imp_of_mem fun hi hj hne => disjoint_pages (h.aligned _ hi) (h.aligned _ hj) hne

lemma Reaches.inv {z0 : Zone} (h : Reaches z0 z held) (hfresh : z0.Fresh tops) :
    Inv (tops.flatMap fun i => pages (maxOrder-1,i)) z held := by
  induction h with
  | init => exact hfresh.inv
  | smallest _ _ hcall ih => exact rmqueueSmallest_inv ih hcall
  | fallback _ _ hcall ih => exact rmqueueFallback_inv ih hcall
  | free t bad _ hheld ih => exact freeOnePage_inv ih hheld bad

lemma countP_blocks (hk : k < maxOrder) :
    z.blocks.countP (·.1 = k) = (migrateTypes.map fun t => (z.freeList (k,t)).length).sum := by
  have hperm := (perm_cons_erase (mem_range.mpr hk)).flatMap_right
    fun k => migrateTypes.flatMap fun t => (z.freeList (k,t)).map (k,·)
  rw [Zone.blocks,hperm.countP_eq,flatMap_cons,countP_append,countP_eq_length.mpr,
    countP_eq_zero.mpr,add_zero,length_flatMap]
  · simp only [length_map]
  · rintro ⟨o,i⟩ hb
    simp only [mem_flatMap,nodup_range.mem_erase_iff,mem_map] at hb
    obtain ⟨k',⟨hne,-⟩,t,-,j,-,heq⟩ := hb
    simpa [← (Prod.mk.inj heq).1] using hne
  rintro ⟨o,i⟩ hb
  simp only [mem_flatMap,mem_map] at hb
  obtain ⟨t,-,j,-,heq⟩ := hb
  exact decide_eq_true (Prod.mk.inj heq).1.symm

/-- In every state that allocations and frees lead to: free blocks are aligned, free and allocated blocks are
disjoint and make up the zone, the counters are right, and no two buddies are free. -/
theorem free_blocks_conserved {z₀ : Zone} {tops : List Nat} (hfresh : z₀.Fresh tops) (h : Reaches z₀ z held) :
    (∀ k t i, k < maxOrder → i ∈ z.freeList (k,t) → 2^k ∣ i) ∧
    (z.blocks++held).Pairwise (fun b c => (pages b).Disjoint (pages c)) ∧
    (∀ x, (∃ b ∈ z.blocks++held, x ∈ pages b) ↔ ∃ i ∈ tops, x ∈ pages (maxOrder-1,i)) ∧
    (∀ k < maxOrder, z.nrFree k = (migrateTypes.map fun t => (z.freeList (k,t)).length).sum) ∧
    ∀ k i, k+1 < maxOrder → (k,i) ∈ z.blocks → (k,Zone.findBuddyIndex i k) ∉ z.blocks := by
  obtain ⟨F,hholds,hsystem⟩ := h.inv hfresh
  have hsystem := hsystem.of_perm hholds.lists.symm (.refl _)
  refine ⟨fun k t i hk hi => ?_,hsystem.tiled.disjoint hsystem.nodup,fun x => ?_,
    fun k hk => ?_,fun k i hk hi hb => ?_⟩
  · exact (hsystem.tiled.sound (k,i) (mem_append_left _ (mem_blocks.mpr ⟨hk,t,hi⟩))).2
  · rw [← mem_flatMap,hsystem.tiled.perm.mem_iff,mem_flatMap]
  · rw [hholds.counts,← hholds.lists.countP_eq,countP_blocks hk]
  · exact hk.ne (hsystem.apart k i hi hb)

def oneBlock : Zone where
  freeList area := if area = (10,.movable) then [1024] else []
  nrFree k := if k = 10 then 1 else 0
  buddy page := if page = 1024 then some 10 else none
  pageblock _ := .movable
  zoneStartPfn := 1024
  spannedPages := 1024
  pageGroupByMobilityDisabled := false

theorem free_blocks_conserved_oneBlock : ∃ z, Reaches oneBlock z [(0,1024)] ∧ z.nrFree 3 = 1 ∧
    ∀ k i, k+1 < maxOrder → (k,i) ∈ z.blocks → (k,Zone.findBuddyIndex i k) ∉ z.blocks := by
  have hfresh : oneBlock.Fresh [1024] := by
    refine ⟨fun k t hk => if_neg fun heq => ?_,by decide,fun k => ?_,fun k i => ?_,by decide,by decide⟩
    · rw [(Prod.mk.inj heq).1] at hk
      exact absurd hk (by decide)
    · simp [oneBlock,maxOrder]
    simp only [oneBlock,maxOrder,mem_singleton]
    split <;> simp_all
    omega
  have hreaches : Reaches oneBlock _ [(0,1024)] :=
    .smallest .init (by decide) (rfl : oneBlock.rmqueueSmallest 0 .movable = some (_,1024))
  exact ⟨_,hreaches,by decide,(free_blocks_conserved hfresh hreaches).2.2.2.2⟩

/-- When everything that was allocated has been freed, the blocks have all been merged again. -/
theorem all_freed_merges {z₀ : Zone} (hfresh : z₀.Fresh tops) (h : Reaches z₀ z []) :
    ∀ b ∈ z.blocks, b.1+1 = maxOrder := by
  obtain ⟨F,hholds,hsystem⟩ := h.inv hfresh
  intro b hb
  refine hsystem.whole (fun x hx y hy => ?_) (hholds.lists.mem_iff.mp hb)
  obtain ⟨i,hi,hx⟩ := mem_flatMap.mp hx
  rw [mem_pages_iff_div (hfresh.aligned i hi),← hy] at hx
  exact mem_flatMap.mpr ⟨i,hi,(mem_pages_iff_div (hfresh.aligned i hi)).mpr hx⟩

theorem all_freed_merges_oneBlock : ∃ z z', Reaches oneBlock z [(0,1024)] ∧ z.nrFree 3 = 1 ∧
    Reaches oneBlock z' [] ∧ ∀ b ∈ z'.blocks, b.1+1 = maxOrder := by
  have hfresh : oneBlock.Fresh [1024] := by
    refine ⟨fun k t hk => if_neg fun heq => ?_,by decide,fun k => ?_,fun k i => ?_,by decide,by decide⟩
    · rw [(Prod.mk.inj heq).1] at hk
      exact absurd hk (by decide)
    · simp [oneBlock,maxOrder]
    simp only [oneBlock,maxOrder,mem_singleton]
    split <;> simp_all
    omega
  have hheld : Reaches oneBlock _ [(0,1024)] :=
    .smallest .init (by decide) (rfl : oneBlock.rmqueueSmallest 0 .movable = some (_,1024))
  have hfreed : Reaches oneBlock _ [] := hheld.free .movable false (show (0,1024) ∈ [(0,1024)] by decide)
  exact ⟨_,_,hheld,by decide,hfreed,all_freed_merges hfresh hfreed⟩

end LinuxToradex.PageAlloc
