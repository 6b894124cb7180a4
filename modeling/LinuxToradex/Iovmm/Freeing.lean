import LinuxToradex.Iovmm.Blocks

/-! `iovmm_free_block` merges a block with its free neighbours: a run of blocks becomes the first one of them. -/
namespace LinuxToradex.Iovmm
open List SearchTree Tiling

lemma some_bind {α β : Type} {x : Option α} {a : α} {f : α → Option β} {y : Option β}
    (hx : x = some a) (hf : f a = y) : (x >>= f) = y := by
  rw [hx]
  exact hf

namespace Domain

variable {d d' : Domain} {lo hi : Nat} {dropped : BlockId → Prop} {b : BlockId}
variable {i p s : BlockId}

lemma eraseFree_filter (hb : b ∈ d.frees) (hnodup : d.frees.Nodup) (rot : List (Bool × List Bool)) :
    ∃ t, d.eraseFree b rot = some {d with freeBlocks := t} ∧
      toList t = d.frees.filter (· ≠ b) := by
  refine ⟨_,if_pos hb,?_⟩
  rw [toList_balance]
  exact toList_unlink b hnodup

lemma blockPut_last (halive : (d.block b).poison = false) (href : (d.block b).ref = 1) :
    d.blockPut b = some (d.modify b fun blk => {blk with ref := 0, poison := true}) := by
  unfold Domain.blockPut modify
  rw [halive,href]
  simp [href]

/-- The blocks `gone` are merged into the one in front of them; `m₁` and `m₂` are the blocks
around the run. -/
structure Merged (d d' : Domain) (b into : BlockId) (gone m₁ m₂ : List BlockId) : Prop where
  run : d.all = m₁++into::(gone++m₂)
  all : d'.all = m₁++into::m₂
  frees : d'.frees = d.frees.filter fun i => decide (i ∉ into::gone)
  self : d'.block into = {d.block into with
    length := (d.block into).length+(gone.map fun i => (d.block i).length).sum}
  same : ∀ i, i ∉ into::gone → d'.block i = d.block i
  next : d'.next = d.next
  splitting : d'.splitting = d.splitting
  pgsizeBits : d'.pgsizeBits = d.pgsizeBits
  mem : b ∈ into::gone
  others : ∀ i ∈ into::gone, i ≠ b → (d.block i).free = true
  front : into = b → ∀ i ∈ m₁.getLast?, (d.block i).free = false
  rear : (into::gone).getLast? = some b → ∀ i ∈ m₂.head?, (d.block i).free = false
  succ : ∀ i ∈ gone, i ≠ b → Neighbours.nextIn d.all b = some i

variable {l1 l2 : List BlockId}

section
variable (h : d.Inv lo hi dropped)
include h

lemma Inv.merge_alone (hdrop : dropped b) (hall : d.all = l1++b::l2)
    (hfront : ∀ i ∈ l1.getLast?, (d.block i).free = false)
    (hrear : ∀ i ∈ l2.head?, (d.block i).free = false) : Merged d d b b [] l1 l2 where
  run := hall
  all := hall
  frees := by
    refine (filter_eq_self.mpr fun i hi => ?_).symm
    refine decide_eq_true fun hmem => ?_
    rw [mem_singleton.mp hmem] at hi
    exact nomatch (h.droppedRef b hdrop).2.1.symm.trans ((h.free_iff b).mp hi).2
  self := by simp
  same := fun _ _ => rfl
  next := rfl
  splitting := rfl
  pgsizeBits := rfl
  mem := mem_singleton.mpr rfl
  others := fun i hi hne => absurd (mem_singleton.mp hi) hne
  front := fun _ => hfront
  rear := fun _ => hrear
  succ := fun _ hi => nomatch hi

lemma Inv.ne_of_free (hdrop : dropped b) (hi : (d.block i).free = true) : i ≠ b := by
  rintro rfl
  exact nomatch (h.droppedRef i hdrop).2.1.symm.trans hi

lemma Inv.notMem (hall : d.all = l1++b::l2) : b ∉ l1++l2 :=
  (nodup_cons.mp (nodup_middle.mp (hall ▸ h.nodup))).1

lemma Inv.nextIn (hall : d.all = l1++b::l2) : Neighbours.nextIn d.all b = l2.head? := by
  rw [hall]
  exact Neighbours.nextIn_append fun hin => h.notMem hall (mem_append_left _ hin)

lemma Inv.prevIn (hall : d.all = l1++b::l2) : Neighbours.prevIn d.all b = l1.getLast? := by
  rw [hall]
  exact Neighbours.prevIn_append fun hin => h.notMem hall (mem_append_right _ hin)

end

lemma filter_ne_middle (h : (l1++b::l2).Nodup) : (l1++b::l2).filter (· ≠ b) = l1++l2 := by
  have hmem := (nodup_cons.mp (nodup_middle.mp h)).1
  rw [filter_append,filter_cons_of_neg (by simp),← filter_append]
  refine filter_eq_self.mpr fun i hi => decide_eq_true ?_
  rintro rfl
  exact hmem hi

lemma eraseAll_append (hall : d.all = l1++b::l2) (hnodup : d.all.Nodup) (rot : List (Bool × List Bool)) :
    ∃ t, d.eraseAll b rot = some {d with allBlocks := t} ∧ toList t = l1++l2 := by
  refine ⟨_,if_pos (by simp [hall]),?_⟩
  rw [toList_balance,toList_unlink b hnodup]
  change d.all.filter _ = _
  rw [hall] at hnodup ⊢
  exact filter_ne_middle hnodup

section
variable (h : d.Inv lo hi dropped) (hdrop : dropped b)
include h hdrop

/-- The free block in front takes over the block and the free one behind it. -/
theorem Inv.merge_both (hall : d.all = l1++p::b::s::l2) (hp : (d.block p).free = true)
    (hs : (d.block s).free = true) (rot : Rotations) :
    ∃ d', d.merge b (some p) (some s) rot = some (d',p) ∧ Merged d d' b p [b,s] l1 l2 := by
  have hnodup := h.nodup
  rw [hall] at hnodup
  have hmem : ∀ i ∈ [p,b,s], i ∈ d.all := by
    rw [hall]
    simp
  have hpfree : p ∈ d.frees := (h.free_iff p).mpr ⟨hmem p (by simp),hp⟩
  have hsfree : s ∈ d.frees := (h.free_iff s).mpr ⟨hmem s (by simp),hs⟩
  have hpb : p ≠ b := h.ne_of_free hdrop hp
  have hsb : s ≠ b := h.ne_of_free hdrop hs
  have hps : p ≠ s := by
    rintro rfl
    simp [nodup_append,nodup_cons] at hnodup
  -- the tree by address loses the block and the one behind it
  have hall' : d.all = (l1++[p])++b::s::l2 := by rw [hall]; simp
  let grown := d.modify p fun blk => {blk with length := blk.length+(d.block b).length+(d.block s).length}
  obtain ⟨t1,ht1,hlist1⟩ := eraseAll_append (d := grown) hall' h.nodup (rot 0)
  have hnodup1 : (toList t1).Nodup := by
    rw [hlist1,append_assoc]
    exact hnodup.sublist (by simp)
  obtain ⟨t2,ht2,hlist2⟩ := eraseAll_append (d := {grown with allBlocks := t1}) hlist1 hnodup1 (rot 1)
  rw [append_assoc] at hlist2
  -- the tree of free blocks loses both neighbours
  obtain ⟨t3,ht3,hl3⟩ := eraseFree_filter (d := {grown with allBlocks := t2}) hsfree h.freeNodup (rot 2)
  have hnodup3 : (toList t3).Nodup := by
    rw [hl3]
    exact h.freeNodup.filter _
  have hpt3 : p ∈ toList t3 := by
    rw [hl3]
    exact mem_filter.mpr ⟨hpfree,decide_eq_true hps⟩
  obtain ⟨t4,ht4,hl4⟩ := eraseFree_filter (d := {grown with allBlocks := t2, freeBlocks := t3}) hpt3 hnodup3 (rot 3)
  have hput1 := blockPut_last (d := {grown with allBlocks := t2, freeBlocks := t4}) (b := b)
    (by simp [grown,modify,hpb.symm,h.alive b (hmem b (by simp))])
    (by simp [grown,modify,hpb.symm,(h.droppedRef b hdrop).2.2])
  have hput2 := blockPut_last (d := ({grown with allBlocks := t2, freeBlocks := t4} : Domain).modify b fun blk =>
        {blk with ref := 0, poison := true}) (b := s)
    (by simp [grown,modify,hps.symm,hsb,h.alive s (hmem s (by simp))])
    (by simp [grown,modify,hps.symm,hsb,h.freeRef s hsfree])
  refine ⟨_,some_bind ht1 (some_bind ht2 (some_bind ht3 (some_bind ht4 (some_bind hput1 (some_bind hput2 rfl))))),?_⟩
  refine ⟨hall,hlist2,?_,?_,?_,rfl,rfl,rfl,by simp,?_,fun hpb' => absurd hpb' hpb,?_,?_⟩
  · change toList t4 = _
    rw [hl4]
    change (toList t3).filter _ = _
    rw [hl3,filter_filter]
    refine filter_congr fun i hi => ?_
    simp [h.ne_of_free hdrop ((h.free_iff i).mp hi).2]
  · simp [grown,modify,hpb,hps,add_assoc]
  · intro i hi
    simp only [mem_cons,not_mem_nil,or_false,not_or] at hi
    simp [grown,modify,hi]
  · intro i hi hib
    simp only [mem_cons,not_mem_nil,or_false] at hi
    rcases hi with rfl | rfl | rfl
    · exact hp
    · exact absurd rfl hib
    · exact hs
  · intro hlast
    exact absurd (Option.some.inj hlast) hsb
  intro i hi hib
  simp only [mem_cons,not_mem_nil,or_false] at hi
  rw [hi.resolve_left hib,h.nextIn hall',head?_cons]

/-- Of the neighbours `x` and `y` one is free and the other is the block; `x` takes over `y`. -/
lemma Inv.absorb {x y f : BlockId} (hall : d.all = l1++x::y::l2) (hf : (d.block f).free = true)
    (hpair : x = f ∧ y = b ∨ x = b ∧ y = f) (hfront : x = b → ∀ i ∈ l1.getLast?, (d.block i).free = false)
    (hrear : y = b → ∀ i ∈ l2.head?, (d.block i).free = false) (rot : Rotations) :
    ∃ d', (do
      let d := d.modify x fun blk => {blk with length := blk.length+(d.block y).length}
      let d ← d.eraseAll y (rot 0)
      let d ← d.eraseFree f (rot 1)
      let d ← d.blockPut y
      pure (d,x)) = some (d',x) ∧ Merged d d' b x [y] l1 l2 := by
  have hfb : f ≠ b := h.ne_of_free hdrop hf
  have hymem : y ∈ d.all := by simp [hall]
  have hfree : f ∈ d.frees := by
    refine (h.free_iff f).mpr ⟨?_,hf⟩
    rcases hpair with ⟨rfl,rfl⟩ | ⟨rfl,rfl⟩ <;> simp [hall]
  obtain ⟨hyx,href⟩ : y ≠ x ∧ (d.block y).ref = 1 := by
    rcases hpair with ⟨rfl,rfl⟩ | ⟨rfl,rfl⟩
    · exact ⟨hfb.symm,(h.droppedRef y hdrop).2.2⟩
    · exact ⟨hfb,h.freeRef y hfree⟩
  have hall' : d.all = (l1++[x])++y::l2 := by rw [hall]; simp
  let grown := d.modify x fun blk => {blk with length := blk.length+(d.block y).length}
  obtain ⟨t1,ht1,hlist1⟩ := eraseAll_append (d := grown) hall' h.nodup (rot 0)
  rw [append_assoc] at hlist1
  obtain ⟨t2,ht2,hl2⟩ := eraseFree_filter (d := {grown with allBlocks := t1}) hfree h.freeNodup (rot 1)
  have hput := blockPut_last (d := {grown with allBlocks := t1, freeBlocks := t2}) (b := y)
    (by simp [grown,modify,hyx,h.alive y hymem]) (by simp [grown,modify,hyx,href])
  refine ⟨_,some_bind ht1 (some_bind ht2 (some_bind hput rfl)),?_⟩
  refine ⟨hall,hlist1,?_,?_,?_,rfl,rfl,rfl,by grind,?_,hfront,fun hlast => hrear (Option.some.inj hlast),?_⟩
  · change toList t2 = _
    rw [hl2]
    refine filter_congr fun i hi => ?_
    have hib := h.ne_of_free hdrop ((h.free_iff i).mp hi).2
    rcases hpair with ⟨rfl,rfl⟩ | ⟨rfl,rfl⟩ <;> simp [hib]
  · simp [grown,modify,hyx.symm]
  · intro i hi
    simp only [mem_cons,not_mem_nil,or_false,not_or] at hi
    simp [grown,modify,hi]
  · intro i hi hib
    obtain rfl : i = f := by grind
    exact hf
  · intro i hi hib
    rw [mem_singleton.mp hi] at hib ⊢
    obtain ⟨rfl,-⟩ := hpair.resolve_left fun hp => hib hp.2
    rw [h.nextIn hall,head?_cons]

end

structure Freed (d d' : Domain) (b into : BlockId) (gone m₁ m₂ : List BlockId) : Prop where
  run : d.all = m₁++into::(gone++m₂)
  all : d'.all = m₁++into::m₂
  frees : d'.frees.Perm (into::d.frees.filter fun i => decide (i ∉ into::gone))
  self : d'.block into = {d.block into with
    length := (d.block into).length+(gone.map fun i => (d.block i).length).sum, free := true}
  same : ∀ i, i ∉ into::gone → d'.block i = d.block i
  next : d'.next = d.next
  splitting : d'.splitting = d.splitting
  pgsizeBits : d'.pgsizeBits = d.pgsizeBits
  mem : b ∈ into::gone
  others : ∀ i ∈ into::gone, i ≠ b → (d.block i).free = true
  front : into = b → ∀ i ∈ m₁.getLast?, (d.block i).free = false
  rear : (into::gone).getLast? = some b → ∀ i ∈ m₂.head?, (d.block i).free = false
  succ : ∀ i ∈ gone, i ≠ b → Neighbours.nextIn d.all b = some i

lemma freeNeighbour_cases (d : Domain) (o : Option BlockId) :
    (d.freeNeighbour o = none ∧ ∀ i ∈ o, (d.block i).free = false) ∨
      ∃ i, o = some i ∧ d.freeNeighbour o = some i ∧ (d.block i).free = true := by
  rcases o with _ | i
  · exact .inl ⟨rfl,fun _ hi => nomatch hi⟩
  cases hfree : (d.block i).free with
  | false => exact .inl ⟨by simp [freeNeighbour,hfree],fun j hj => Option.some.inj hj ▸ hfree⟩
  | true => exact .inr ⟨i,rfl,by simp [freeNeighbour,hfree],hfree⟩

lemma Inv.merge (h : d.Inv lo hi dropped) (hdrop : dropped b) (rot : Rotations) :
    ∃ d' into gone m₁ m₂, d.merge b (d.freeNeighbour (Neighbours.prevIn d.all b))
        (d.freeNeighbour (Neighbours.nextIn d.all b)) rot = some (d',into) ∧ Merged d d' b into gone m₁ m₂ := by
  obtain ⟨l1,l2,hall⟩ := append_of_mem (h.droppedRef b hdrop).1
  rw [h.prevIn hall,h.nextIn hall]
  rcases d.freeNeighbour_cases l1.getLast? with ⟨hn,hpred⟩ | ⟨p,hp,hn,hpfree⟩
  · rcases d.freeNeighbour_cases l2.head? with ⟨hn',hsucc⟩ | ⟨s,hs,hn',hsfree⟩
    · rw [hn,hn']
      exact ⟨d,b,[],l1,l2,rfl,h.merge_alone hdrop hall hpred hsucc⟩
    obtain ⟨l3,rfl⟩ := head?_eq_some_iff.mp hs
    rw [hn,hn']
    obtain ⟨d',hmerge,hm⟩ := h.absorb hdrop hall hsfree (.inr ⟨rfl,rfl⟩) (fun _ => hpred)
      (absurd · (h.ne_of_free hdrop hsfree)) rot
    exact ⟨d',b,[s],l1,l3,hmerge,hm⟩
  obtain ⟨l0,rfl⟩ := getLast?_eq_some_iff.mp hp
  rw [append_assoc,singleton_append] at hall
  rcases d.freeNeighbour_cases l2.head? with ⟨hn',hsucc⟩ | ⟨s,hs,hn',hsfree⟩
  · rw [hn,hn']
    obtain ⟨d',hmerge,hm⟩ := h.absorb hdrop hall hpfree (.inl ⟨rfl,rfl⟩)
      (absurd · (h.ne_of_free hdrop hpfree)) (fun _ => hsucc) rot
    exact ⟨d',p,[b],l0,l2,hmerge,hm⟩
  obtain ⟨l3,rfl⟩ := head?_eq_some_iff.mp hs
  rw [hn,hn']
  obtain ⟨d',hmerge,hm⟩ := h.merge_both hdrop hall hpfree hsfree rot
  exact ⟨d',p,[b,s],l0,l3,hmerge,hm⟩

lemma Inv.freeLocked (h : d.Inv lo hi dropped) (hdrop : dropped b) (rot : Rotations) :
    ∃ d' into gone m₁ m₂, d.freeLocked b rot = some d' ∧ Freed d d' b into gone m₁ m₂ := by
  obtain ⟨d1,into,gone,m₁,m₂,hmerge,hm⟩ := h.merge hdrop rot
  have hread : d1.Readable d1.freeBlocks := by
    intro i hi
    have hi' : i ∈ d1.frees := hi
    rw [hm.frees,mem_filter,decide_eq_true_iff] at hi'
    rw [hm.same i hi'.2]
    exact h.readable_free i hi'.1
  obtain ⟨t,ht,hperm⟩ := insertFree_perm hread into (rot 4)
  refine ⟨({d1 with freeBlocks := t} : Domain).modify into fun blk => {blk with free := true},
    into,gone,m₁,m₂,?_,hm.run,hm.all,?_,?_,?_,hm.next,hm.splitting,hm.pgsizeBits,
    hm.mem,hm.others,hm.front,hm.rear,hm.succ⟩
  · unfold Domain.freeLocked
    rw [if_pos ⟨(h.droppedRef b hdrop).1,h.readable_all⟩]
    exact some_bind hmerge (some_bind ht rfl)
  · rw [← hm.frees]
    exact hperm
  · simp [modify,hm.self]
  intro i hi
  have hne : i ≠ into := fun he => hi (he ▸ mem_cons_self)
  simp [modify,hne,hm.same i hi]

section Freed

variable {into : BlockId} {gone m₁ m₂ : List BlockId}

section
variable (hf : Freed d d' b into gone m₁ m₂)
include hf

lemma Freed.mem_all (h : d.Inv lo hi dropped) (i : BlockId) : i ∈ d'.all ↔ i ∈ d.all ∧ i ∉ gone := by
  have hnodup := h.nodup
  rw [hf.run] at hnodup
  rw [hf.run,hf.all]
  grind

lemma Freed.into_mem : into ∈ d.all ∧ into ∈ d'.all := by
  rw [hf.run,hf.all]
  simp

lemma Freed.used (hu : (d.block i).free = false) (hib : i ≠ b) : i ∉ into::gone := by
  intro hin
  exact nomatch hu.symm.trans (hf.others i hin hib)

lemma Freed.free_stays (h : d.Inv lo hi dropped) (hdrop : dropped b) (hi : i ∈ d.frees)
    (hsucc : Neighbours.nextIn d.all b ≠ some i) :
    i ∈ d'.all ∧ (d'.block i).free = true ∧ (d'.block i).start = (d.block i).start ∧
      (d.block i).length ≤ (d'.block i).length := by
  obtain ⟨hall,hfree⟩ := (h.free_iff i).mp hi
  have hib := h.ne_of_free hdrop hfree
  have hgone : i ∉ gone := fun hg => hsucc (hf.succ i hg hib)
  refine ⟨(hf.mem_all h i).mpr ⟨hall,hgone⟩,?_⟩
  by_cases hinto : i = into
  · rw [hinto,hf.self]
    exact ⟨rfl,rfl,Nat.le_add_right _ _⟩
  rw [hf.same i (by simp [hinto,hgone])]
  exact ⟨hfree,rfl,le_rfl⟩

lemma Freed.inv (h : d.Inv lo hi dropped) (hdrop : dropped b) : d'.Inv lo hi (fun i => dropped i ∧ i ≠ b) := by
  have hdropped : ∀ i, dropped i → i ≠ b → i ∉ into::gone := fun i hi hib =>
    hf.used (h.droppedRef i hi).2.1 hib
  have hold : ∀ i ∈ d'.all, i ≠ into → i ∈ d.all ∧ d'.block i = d.block i := by
    intro i hi hinto
    obtain ⟨hall,hgone⟩ := (hf.mem_all h i).mp hi
    exact ⟨hall,hf.same i (by simp [hinto,hgone])⟩
  have hfrees : ∀ i, i ∈ d'.frees ↔ i = into ∨ i ∈ d.frees ∧ i ∉ into::gone := by
    intro i
    rw [hf.frees.mem_iff,mem_cons,mem_filter,decide_eq_true_iff]
  have hinto := hf.into_mem
  refine ⟨h.word,hf.pgsizeBits ▸ h.pages,?_,?_,?_,?_,?_,?_,?_,?_,?_⟩
  · have htiles := h.tiles
    rw [hf.run] at htiles
    rw [hf.all]
    refine htiles.collapse ?_ ?_ ?_
    · intro i hi
      have hnotin : i ∉ into::gone := by
        have hnodup := htiles.nodup
        grind
      rw [hf.same i hnotin]
      exact ⟨rfl,rfl⟩
    · rw [hf.self]
    · rw [hf.self]
  · intro i hi
    by_cases hii : i = into
    · rw [hii,hf.self]
      exact h.alive into hinto.1
    rw [(hold i hi hii).2]
    exact h.alive i (hold i hi hii).1
  · intro i hi
    rw [hf.next]
    exact h.below i ((hf.mem_all h i).mp hi).1
  · refine hf.frees.nodup_iff.mpr (nodup_cons.mpr ⟨?_,h.freeNodup.filter _⟩)
    simp
  · intro i
    rw [hfrees,hf.mem_all h]
    by_cases hii : i = into
    · subst hii
      rw [hf.self]
      simpa using (hf.mem_all h i).mp hinto.2
    by_cases hgone : i ∈ gone
    · simp [hii,hgone]
    rw [hf.same i (by simp [hii,hgone]),h.free_iff]
    simp [hii,hgone]
  · intro i hi
    rcases (hfrees i).mp hi with rfl | ⟨hi,hnotin⟩
    · rw [hf.self]
      by_cases hib : i = b
      · exact hib ▸ (h.droppedRef b hdrop).2.2
      · exact h.freeRef i ((h.free_iff i).mpr ⟨hinto.1,hf.others i mem_cons_self hib⟩)
    rw [hf.same i hnotin]
    exact h.freeRef i hi
  · intro i hi hu hnd
    have hii : i ≠ into := by
      rintro rfl
      rw [hf.self] at hu
      cases hu
    obtain ⟨hall,hsame⟩ := hold i hi hii
    rw [hsame] at hu ⊢
    refine h.usedRef i hall hu fun hd => hnd ⟨hd,?_⟩
    rintro rfl
    have hgone := mem_of_ne_of_mem hii hf.mem
    exact ((hf.mem_all h i).mp hi).2 hgone
  · rintro i ⟨hd,hib⟩
    have hnotin := hdropped i hd hib
    obtain ⟨hall,hu,href⟩ := h.droppedRef i hd
    rw [hf.same i hnotin,hf.mem_all h]
    exact ⟨⟨hall,fun hg => hnotin (mem_cons_of_mem _ hg)⟩,hu,href⟩
  intro i hi hu
  have hii : i ≠ into := by
    rintro rfl
    rw [hf.self] at hu
    cases hu
  obtain ⟨hall,hsame⟩ := hold i hi hii
  rw [hsame] at hu ⊢
  exact h.area i hall hu

end

end Freed

end Domain

end LinuxToradex.Iovmm
