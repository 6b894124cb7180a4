import LinuxToradex.Iovmm.Freeing

/-! An allocation searches a free block, may split off the front, takes the block and may split off the rear. -/
namespace LinuxToradex.Iovmm
open List SearchTree Tiling

def Request.Meets : Request → Nat → Prop
  | .floating _ align, addr => align ∣ addr
  | .fixed _ start, addr => addr = start

def Phase.taken : Phase → Option BlockId
  | .front .. => none
  | .rear best _ => some best
  | .done best => best

def Phase.splitting : Phase → Bool
  | .done _ => false
  | _ => true

namespace Domain

variable {d d' : Domain} {lo hi : Nat} {dropped : BlockId → Prop} {b : BlockId} {r : Request}

def resume (d : Domain) (r : Request) (ph : Phase) (ok : Bool) (rot : Rotations) :
    Option (Domain × Phase) :=
  match ph with
  | .front b cut => d.afterFront r b cut ok rot
  | .rear best cut => d.afterRear best cut ok rot
  | .done best => some (d,.done best)

def PathFits (d : Domain) (size align : Nat) : BinaryTree BlockId → Prop
  | .nil => True
  | .node b l r =>
    (d.block b).start+d.simAlign b align+size < 4294967296 ∧
    if (d.block b).start+(d.block b).length ≥ (d.block b).start+d.simAlign b align+size then
      ¬(¬d.DoSplit (d.simAlign b align) ∧ ¬d.DoSplit ((d.block b).start+(d.block b).length -
        ((d.block b).start+d.simAlign b align+size))) → d.PathFits size align l
    else d.PathFits size align r

instance decidablePathFits (d : Domain) (size align : Nat) : (t : BinaryTree BlockId) →
    Decidable (d.PathFits size align t)
  | .nil => inferInstanceAs (Decidable True)
  | .node _ l r =>
    have := decidablePathFits d size align l
    have := decidablePathFits d size align r
    inferInstanceAs (Decidable (_ ∧ ite _ _ _))

def NoWrap (d : Domain) : Request → Prop
  | .floating size align => 0 < size ∧ 0 < align ∧ d.PathFits size align d.freeBlocks
  | .fixed size start => 0 < size ∧ start+size < 4294967296

instance (d : Domain) : (r : Request) → Decidable (d.NoWrap r)
  | .floating size align => inferInstanceAs (Decidable
      (0 < size ∧ 0 < align ∧ d.PathFits size align d.freeBlocks))
  | .fixed size start => inferInstanceAs (Decidable (0 < size ∧ start+size < 4294967296))

lemma NoWrap.pos (h : d.NoWrap r) : 0 < r.size := by
  cases r with
  | floating size align => exact h.1
  | fixed size start => exact h.1

variable {size areaStart cut align : Nat} {d1 : Domain}

lemma dvd_start_add_simAlign (hpos : 0 < align) (b : BlockId) : align ∣ (d.block b).start+d.simAlign b align := by
  have hlt := Nat.mod_lt (d.block b).start hpos
  unfold simAlign
  by_cases h : (d.block b).start%align = 0
  · rw [if_neg (not_not.mpr h)]
    exact Nat.dvd_of_mod_eq_zero h
  rw [if_pos h]
  refine ⟨(d.block b).start/align+1,?_⟩
  have hdiv := Nat.div_add_mod (d.block b).start align
  rw [mul_add]
  omega

lemma bestFit_fits {t : BinaryTree BlockId} {best : Option BlockId}
    (hceil : ∀ i ∈ toList t, (d.block i).start+(d.block i).length < 4294967296)
    (hpath : d.PathFits size align t) (h : d.bestFit size align t best = some b) :
    (b ∈ toList t ∧ d.simAlign b align+size ≤ (d.block b).length) ∨ best = some b := by
  induction t generalizing best with
  | nil => exact .inr h
  | node i l r ihl ihr =>
    have hceil' := hceil i (by simp [toList])
    obtain ⟨hword,hrest⟩ := hpath
    have hstart : (d.block i).start+d.simAlign i align < 4294967296 := by omega
    unfold bestFit at h
    dsimp only at h
    rw [Nat.mod_eq_of_lt hstart,Nat.mod_eq_of_lt hword,Nat.mod_eq_of_lt hceil'] at h
    by_cases hfit : (d.block i).start+(d.block i).length ≥ (d.block i).start+d.simAlign i align+size
    · rw [if_pos hfit] at h hrest
      have hroom : i ∈ toList (.node i l r) ∧ d.simAlign i align+size ≤ (d.block i).length :=
        ⟨by simp [toList],by omega⟩
      by_cases hend : ¬d.DoSplit (d.simAlign i align) ∧ ¬d.DoSplit ((d.block i).start+(d.block i).length -
            ((d.block i).start+d.simAlign i align+size))
      · rw [if_pos hend] at h
        exact .inl (Option.some.inj h ▸ hroom)
      rw [if_neg hend] at h
      rcases ihl (fun j hj => hceil j (by simp [toList,hj])) (hrest hend) h with hb | hb
      · exact .inl ⟨by simp [toList,hb.1],hb.2⟩
      · exact .inl (Option.some.inj hb ▸ hroom)
    rw [if_neg hfit] at h hrest
    rcases ihr (fun j hj => hceil j (by simp [toList,hj])) hrest h with hb | hb
    · exact .inl ⟨by simp [toList,hb.1],hb.2⟩
    · exact .inr hb

lemma Inv.ceil_lt (h : d.Inv lo hi dropped) (hb : b ∈ d.all) : (d.block b).start+(d.block b).length < 4294967296 :=
  (h.tiles.bounds hb).2.1.trans_lt h.word

lemma Inv.bestFit (h : d.Inv lo hi dropped) (hwrap : d.NoWrap (.floating size align))
    (hbest : d.bestFit size align d.freeBlocks none = some b) :
    b ∈ d.frees ∧ d.simAlign b align+size ≤ (d.block b).length := by
  have hceil := fun i hi => h.ceil_lt ((h.free_iff i).mp hi).1
  rcases bestFit_fits hceil hwrap.2.2 hbest with hb | hb
  · exact hb
  · cases hb

lemma Inv.findFixed (h : d.Inv lo hi dropped) {start : Nat}
    (hwrap : d.NoWrap (.fixed size start)) (hfind : d.findFixed size start = some b) :
    b ∈ d.frees ∧ (d.block b).start ≤ start ∧ start+size ≤ (d.block b).start+(d.block b).length := by
  have hmem : b ∈ d.frees := mem_of_find?_eq_some hfind
  have hp := find?_some hfind
  rw [decide_eq_true_iff,Nat.mod_eq_of_lt hwrap.2, Nat.mod_eq_of_lt (h.ceil_lt ((h.free_iff b).mp hmem).1)] at hp
  exact ⟨hmem,hp⟩

def Used (d : Domain) (i : BlockId) : Prop := i ∈ d.all ∧ (d.block i).free = false

def PhaseOk (d : Domain) (r : Request) : Phase → Prop
  | .front b cut => b ∈ d.frees ∧ 0 < cut ∧ cut+r.size ≤ (d.block b).length ∧
      r.Meets ((d.block b).start+cut)
  | .rear b cut => d.Used b ∧ r.Meets (d.block b).areaStart ∧ (d.block b).areaLength = r.size ∧
      0 < cut ∧ cut < (d.block b).length ∧
      (d.block b).areaStart+r.size = (d.block b).start+cut
  | .done (some b) => d.Used b ∧ r.Meets (d.block b).areaStart ∧ (d.block b).areaLength = r.size
  | .done none => True

def Separated (d : Domain) : Prop :=
  d.all.IsChain fun i j => ¬((d.block i).free = true ∧ (d.block j).free = true)

instance (d : Domain) : Decidable d.Separated :=
  inferInstanceAs (Decidable (d.all.IsChain _))

/-- Without other threads, what is behind a block that is about to lose its rear is used. -/
def Quiet (d : Domain) (ph : Phase) : Prop :=
  d.Separated ∧ ∀ best cut, ph = .rear best cut →
    ∀ j ∈ Neighbours.nextIn d.all best, (d.block j).free = false

/-- What a part of an allocation does to the used blocks: it takes at most one, and changes at
most the length of the one it has taken before. -/
structure Step (d d' : Domain) (old new : Phase) : Prop where
  used : ∀ i, d'.Used i ↔ d.Used i ∨ new.taken = some i
  same : ∀ i, d.Used i → old.taken ≠ some i → d'.block i = d.block i ∧ new.taken ≠ some i
  kept : ∀ i, old.taken = some i → new.taken = some i
  quiet : d.Quiet old → d'.Quiet new
  splitting : d'.splitting = new.splitting
  pgsizeBits : d'.pgsizeBits = d.pgsizeBits

lemma Step.trans {d2 : Domain} {old mid new : Phase} (h1 : Step d d1 old mid)
    (h2 : Step d1 d2 mid new) : Step d d2 old new where
  used i := by
    rw [h2.used,h1.used,or_assoc]
    exact or_congr_right ⟨fun h => h.elim (h2.kept i) id,.inr⟩
  same i hi hold := by
    obtain ⟨heq1,hmid⟩ := h1.same i hi hold
    obtain ⟨heq2,hnew⟩ := h2.same i ((h1.used i).mpr (.inl hi)) hmid
    exact ⟨heq2.trans heq1,hnew⟩
  kept i hi := h2.kept i (h1.kept i hi)
  quiet hq := h2.quiet (h1.quiet hq)
  splitting := h2.splitting
  pgsizeBits := h2.pgsizeBits.trans h1.pgsizeBits

lemma Separated.next (h : d.Separated) {l1 l2 : List BlockId} (hall : d.all = l1++b::l2)
    (hb : (d.block b).free = true) : ∀ j ∈ l2.head?, (d.block j).free = false := by
  intro j hj
  unfold Separated at h
  rw [hall] at h
  exact Bool.eq_false_iff.mpr fun hfree => h.right_of_append.rel_head? hj ⟨hb,hfree⟩

lemma Separated.mono (h : d.Separated) (hall : d'.all = d.all)
    (hfree : ∀ i, (d'.block i).free = true → (d.block i).free = true) : d'.Separated := by
  unfold Separated
  rw [hall]
  exact h.imp fun i j hij hfree' => hij ⟨hfree i hfree'.1,hfree j hfree'.2⟩

lemma Claimed.used (hc : Claimed d d' b areaStart size) (hb : b ∈ d.all) (i : BlockId) :
    d'.Used i ↔ d.Used i ∨ some b = some i := by
  unfold Used
  rw [hc.all]
  by_cases hib : i = b
  · subst hib
    rw [hc.self]
    simp [hb]
  rw [hc.same i hib]
  simp [Ne.symm hib]

lemma Claimed.free (hc : Claimed d d' b areaStart size) (i : BlockId)
    (hi : (d'.block i).free = true) : i ≠ b ∧ (d.block i).free = true := by
  by_cases hib : i = b
  · rw [hib,hc.self] at hi
    cases hi
  rw [hc.same i hib] at hi
  exact ⟨hib,hi⟩

lemma Inv.setSplitting (h : d.Inv lo hi dropped) (f : Bool) : ({d with splitting := f} : Domain).Inv lo hi dropped :=
  ⟨h.word,h.pages,h.tiles,h.alive,h.below,h.freeNodup,h.free_iff,h.freeRef,h.usedRef, h.droppedRef,h.area⟩

lemma Inv.claim_phase (h : d.Inv lo hi dropped) (hb : b ∈ d.frees) (r : Request)
    {iovmStart : Nat} (hpos : 0 < r.size) (hmeets : r.Meets iovmStart) (hstart : (d.block b).start ≤ iovmStart)
    (hfit : iovmStart+r.size ≤ (d.block b).start+(d.block b).length) (rot : List (Bool × List Bool)) :
    ∃ d' ph d1, d.claim b r iovmStart rot = some (d',ph) ∧ d'.Inv lo hi dropped ∧
      d'.PhaseOk r ph ∧ Claimed d d1 b iovmStart r.size ∧
      d' = {d1 with splitting := ph.splitting} ∧ ph.taken = some b := by
  obtain ⟨d1,hc,hclaim⟩ := h.claim hb r hstart hfit rot
  have hinv := hc.inv h hb hstart hfit
  have hused : d1.Used b := (hc.used ((h.free_iff b).mp hb).1 b).mpr (.inr rfl)
  have hself := hc.self
  by_cases hsplit : d.DoSplit ((d.block b).start+(d.block b).length-(iovmStart+r.size))
  · have hrest := h.pos_of_doSplit hsplit
    rw [if_pos hsplit] at hclaim
    refine ⟨_,_,d1,hclaim,hinv.setSplitting true,⟨hused,?_⟩,hc,rfl,rfl⟩
    rw [hself]
    refine ⟨hmeets,rfl,?_,?_,?_⟩
    · omega
    · change iovmStart-(d.block b).start+r.size < (d.block b).length
      omega
    change iovmStart+r.size = (d.block b).start+(iovmStart-(d.block b).start+r.size)
    omega
  rw [if_neg hsplit] at hclaim
  refine ⟨_,_,d1,hclaim,hinv.setSplitting false,⟨hused,?_⟩,hc,rfl,rfl⟩
  rw [hself]
  exact ⟨hmeets,rfl⟩

lemma Claimed.step {old ph : Phase} (hold : old.taken = none)
    (hc : Claimed d d1 b areaStart size) (h : d.Inv lo hi dropped) (hb : b ∈ d.frees)
    (htaken : ph.taken = some b) (hd' : d' = {d1 with splitting := ph.splitting}) :
    Step d d' old ph := by
  subst hd'
  obtain ⟨hball,hbfree⟩ := (h.free_iff b).mp hb
  refine ⟨?_,?_,fun i hi => (nomatch hold.symm.trans hi),?_,rfl,hc.pgsizeBits⟩
  · intro i
    rw [htaken]
    exact hc.used hball i
  · intro i hi _
    have hib : i ≠ b := by
      rintro rfl
      exact nomatch hi.2.symm.trans hbfree
    exact ⟨hc.same i hib,htaken ▸ fun he => hib (Option.some.inj he).symm⟩
  rintro ⟨hsep,-⟩
  refine ⟨hsep.mono hc.all fun i hi => (hc.free i hi).2,?_⟩
  rintro best cut rfl j hj
  obtain rfl : best = b := Option.some.inj htaken
  obtain ⟨l1,l2,hall⟩ := append_of_mem hball
  have hj' : j ∈ l2.head? := by
    rw [← h.nextIn hall]
    exact hc.all ▸ hj
  refine Bool.eq_false_iff.mpr fun hfree => ?_
  exact nomatch (hsep.next hall hbfree j hj').symm.trans (hc.free j hfree).2

lemma Split.used (hs : Split d d' b cut) (h : d.Inv lo hi dropped) (i : BlockId) : d'.Used i ↔ d.Used i := by
  obtain ⟨l1,l2,hall,hall'⟩ := hs.all
  have hold : d.next ∉ d.all := fun hin => (h.below _ hin).false
  unfold Used
  by_cases hin : i = d.next
  · rw [hin,hs.rem]
    simp [hold]
  have hmem : i ∈ d'.all ↔ i ∈ d.all := by
    rw [hall,hall']
    simp [hin]
  have hfree : (d'.block i).free = (d.block i).free := by
    by_cases hib : i = b
    · rw [hib,hs.self]
    · rw [hs.same i hib hin]
  rw [hmem,hfree]

lemma Split.rem_free (hs : Split d d' b cut) : d.next ∈ d'.frees :=
  hs.frees.mem_iff.mpr mem_cons_self

lemma Split.separated (hs : Split d d' b cut) (h : d.Inv lo hi dropped)
    (hused : (d.block b).free = false) (hsep : d.Separated)
    (hnext : ∀ j ∈ Neighbours.nextIn d.all b, (d.block j).free = false) : d'.Separated := by
  obtain ⟨l1,l2,hall,hall'⟩ := hs.all
  rw [h.nextIn hall] at hnext
  have hflag : ∀ i ∈ d.all, (d'.block i).free = (d.block i).free := by
    intro i hi
    by_cases hib : i = b
    · rw [hib,hs.self]
    · rw [hs.same i hib ((h.below i hi).ne)]
  unfold Separated
  rw [hall']
  refine Neighbours.isChain_insert ?_ ?_ ?_
  · rw [← hall]
    refine hsep.imp_of_mem_imp fun i j hi hj hij => ?_
    rw [hflag i hi,hflag j hj]
    exact hij
  · rw [hs.self]
    simp [hused]
  intro j hj
  have hjall : j ∈ d.all := by
    rw [hall]
    simp [mem_of_mem_head? hj]
  rw [hflag j hjall,hnext j hj]
  simp

lemma Split.quiet_claimed {ph : Phase} (hs : Split d d1 b cut) (h1 : d1.Inv lo hi dropped)
    (hb : (d.block b).free = true) (hc : Claimed d1 d' d.next areaStart size)
    (htaken : ph.taken = some d.next) (hsep : d.Separated) : d'.Quiet ph := by
  obtain ⟨l1,l2,hall,hall'⟩ := hs.all
  have hfree : ∀ i, (d'.block i).free = true → (d.block i).free = true := by
    intro i hi
    obtain ⟨hin,hi⟩ := hc.free i hi
    by_cases hib : i = b
    · rw [hib]
      exact hb
    rw [hs.same i hib hin] at hi
    exact hi
  have hrem : (d'.block d.next).free = false := by rw [hc.self]
  refine ⟨?_,?_⟩
  · unfold Separated
    rw [hc.all,hall']
    refine Neighbours.isChain_insert ?_ (by simp [hrem]) (by simp [hrem])
    rw [← hall]
    exact hsep.imp fun i j hij hfree' => hij ⟨hfree i hfree'.1,hfree j hfree'.2⟩
  rintro best c rfl j hj
  obtain rfl : best = d.next := Option.some.inj htaken
  have hmid : d1.all = (l1++[b])++d.next::l2 := by rw [hall']; simp
  rw [hc.all,h1.nextIn hmid] at hj
  refine Bool.eq_false_iff.mpr fun hj' => ?_
  exact nomatch (hsep.next hall hb j hj).symm.trans (hfree j hj')

end Domain

def Phase.left : Phase → Nat
  | .front .. => 2
  | .rear .. => 1
  | .done _ => 0

namespace Domain

variable {d d' : Domain} {lo hi : Nat} {dropped : BlockId → Prop} {b : BlockId} {r : Request}

lemma step_of_flag {old ph : Phase} {f : Bool} (hold : old.taken = none) (hph : ph.taken = none)
    (hf : f = ph.splitting) : Step d {d with splitting := f} old ph := by
  refine ⟨fun i => ?_,fun i hi _ => ⟨rfl,?_⟩,fun i hi => (nomatch hold.symm.trans hi), fun hq => ⟨hq.1,?_⟩,hf,rfl⟩
  · rw [hph]
    simp [Used]
  · rw [hph]
    exact Option.some_ne_none i |>.symm
  rintro best cut rfl
  cases hph

section
variable (h : d.Inv lo hi dropped)
include h

lemma Inv.search (hwrap : d.NoWrap r) (hsplit : d.splitting = false) (rot : Rotations) :
    ∃ d' ph, d.search r rot = some (d',ph) ∧ d'.Inv lo hi dropped ∧ d'.PhaseOk r ph ∧ Step d d' (.done none) ph := by
  -- once a block is found, its front is split off, or it is taken
  have hfound : ∀ b iovmStart rot, b ∈ d.frees → r.Meets iovmStart → (d.block b).start ≤ iovmStart →
      iovmStart+r.size ≤ (d.block b).start+(d.block b).length →
      ∃ d' ph, (if d.DoSplit (iovmStart-(d.block b).start) then
          some ({d with splitting := true},Phase.front b (iovmStart - (d.block b).start))
        else d.claim b r iovmStart rot) = some (d',ph) ∧
        d'.Inv lo hi dropped ∧ d'.PhaseOk r ph ∧ Step d d' (.done none) ph := by
    intro b iovmStart rot hb hmeets hstart hfit
    split
    · next hcut =>
      refine ⟨_,_,rfl,h.setSplitting true,⟨hb,h.pos_of_doSplit hcut,?_,?_⟩, step_of_flag rfl rfl rfl⟩
      · change iovmStart-(d.block b).start+r.size ≤ (d.block b).length
        omega
      change r.Meets ((d.block b).start+(iovmStart-(d.block b).start))
      rw [Nat.add_sub_cancel' hstart]
      exact hmeets
    next hcut =>
    obtain ⟨d',ph,d1,hclaim,hinv,hok,hc,hd',htaken⟩ :=
      h.claim_phase hb r hwrap.pos hmeets hstart hfit rot
    exact ⟨d',ph,hclaim,hinv,hok,Claimed.step rfl hc h hb htaken hd'⟩
  have hnone : Step d d (.done none) (.done none) := by
    have hflag : d = {d with splitting := false} := by rw [← hsplit]
    have hstep : Step d {d with splitting := false} (.done none) (.done none) :=
      step_of_flag rfl rfl rfl
    rw [← hflag] at hstep
    exact hstep
  unfold Domain.search
  rw [if_pos h.readable_free]
  rcases r with ⟨size,align⟩ | ⟨size,start⟩
  · dsimp only
    rcases hbest : d.bestFit size align d.freeBlocks none with _ | b
    · exact ⟨d,_,rfl,h,trivial,hnone⟩
    obtain ⟨hb,hfit⟩ := h.bestFit hwrap hbest
    have hres := hfound b ((d.block b).start+d.simAlign b align) (rot 0) hb
      (dvd_start_add_simAlign hwrap.2.1 b) (Nat.le_add_right _ _)
      (by change _+size ≤ _; omega)
    rw [Nat.add_sub_cancel_left] at hres
    exact hres
  dsimp only
  cases hfind : d.findFixed size start with
  | none => exact ⟨_,_,rfl,h.setSplitting false,trivial,step_of_flag rfl rfl rfl⟩
  | some b =>
    obtain ⟨hb,hstart,hfit⟩ := h.findFixed hwrap hfind
    exact hfound b start (rot 0) hb rfl hstart hfit

lemma Inv.afterFront (hpos : 0 < r.size) {cut : Nat} (hok : d.PhaseOk r (.front b cut))
    (ok : Bool) (rot : Rotations) : ∃ d' ph, d.afterFront r b cut ok rot = some (d',ph) ∧ d'.Inv lo hi dropped ∧
      d'.PhaseOk r ph ∧ Step d d' (.front b cut) ph ∧ ph.left ≤ 1 := by
  obtain ⟨hb,hcut,hfit,hmeets⟩ := hok
  obtain ⟨hball,hbfree⟩ := (h.free_iff b).mp hb
  have hleft : ∀ {ph : Phase} {i}, ph.taken = some i → ph.left ≤ 1 := by
    intro ph i htaken
    cases ph with
    | front => cases htaken
    | rear => exact Nat.le_refl 1
    | done => exact Nat.zero_le 1
  rcases ok with _ | _
  · have hfail : d.splitFreeBlock b cut false rot = some (d,none) := rfl
    cases r with
    | floating size align =>
      obtain ⟨d',ph,d1,hclaim,hinv,hph,hc,hd',htaken⟩ :=
        h.claim_phase hb (.floating size align) hpos hmeets (Nat.le_add_right _ _)
          (by rw [Nat.add_assoc]; exact Nat.add_le_add_left hfit _) (rot 2)
      exact ⟨d',ph,some_bind hfail hclaim,hinv,hph,Claimed.step rfl hc h hb htaken hd',hleft htaken⟩
    | fixed size start =>
      exact ⟨_,_,some_bind hfail rfl,h.setSplitting false,trivial,step_of_flag rfl rfl rfl, Nat.zero_le 1⟩
  obtain ⟨d1,hsplit,hs⟩ := h.splitFreeBlock hball hcut (by omega) rot
  have h1 := hs.inv h hcut (by omega) fun hused => nomatch hbfree.symm.trans hused
  have hrem := hs.rem
  obtain ⟨d',ph,d2,hclaim,hinv,hph,hc,hd',htaken⟩ :=
    h1.claim_phase hs.rem_free r hpos hmeets
      (by rw [hrem]) (by rw [hrem]; dsimp only; omega) (rot 2)
  refine ⟨d',ph,some_bind hsplit ?_,hinv,hph,?_,hleft htaken⟩
  · rcases r with ⟨size,align⟩ | ⟨size,start⟩
    · dsimp only
      rw [hrem]
      exact hclaim
    have haddr : (d.block b).start+cut = start := hmeets
    rw [haddr] at hclaim
    exact hclaim
  have hall : d.next ∈ d1.all := ((h1.free_iff _).mp hs.rem_free).1
  subst hd'
  refine ⟨?_,?_,fun i hi => (nomatch hi),?_,rfl,hc.pgsizeBits.trans hs.pgsizeBits⟩
  · intro i
    rw [htaken,← hs.used h]
    exact hc.used hall i
  · intro i hi _
    have hin : i ≠ d.next := (h.below i hi.1).ne
    have hib : i ≠ b := by
      rintro rfl
      exact nomatch hi.2.symm.trans hbfree
    refine ⟨(hc.same i hin).trans (hs.same i hib hin),?_⟩
    rw [htaken]
    exact fun he => hin (Option.some.inj he).symm
  intro hq
  have hquiet : d2.Quiet ph := hs.quiet_claimed h1 hbfree hc htaken hq.1
  exact hquiet

lemma Inv.afterRear {cut : Nat} (hok : d.PhaseOk r (.rear b cut)) (ok : Bool) (rot : Rotations) :
    ∃ d', d.afterRear b cut ok rot = some (d',.done (some b)) ∧ d'.Inv lo hi dropped ∧
      d'.PhaseOk r (.done (some b)) ∧ Step d d' (.rear b cut) (.done (some b)) := by
  obtain ⟨hused,hmeets,hlen,hcut,hlt,harea⟩ := hok
  rcases ok with _ | _
  · have hfail : d.splitFreeBlock b cut false rot = some (d,none) := rfl
    refine ⟨_,some_bind hfail rfl,h.setSplitting false,⟨hused,hmeets,hlen⟩,?_⟩
    refine ⟨fun i => ?_,fun i hi hne => ⟨rfl,hne⟩,fun _ => id,fun hq => ⟨hq.1,?_⟩,rfl,rfl⟩
    · constructor
      · exact .inl
      rintro (hi | hi)
      · exact hi
      · exact Option.some.inj hi ▸ hused
    rintro best c hph
    cases hph
  obtain ⟨d1,hsplit,hs⟩ := h.splitFreeBlock hused.1 hcut hlt rot
  have hself := hs.self
  have h1 := hs.inv h hcut hlt fun _ => by rw [hlen,harea]
  have hused1 := (hs.used h b).mpr hused
  refine ⟨_,some_bind hsplit rfl,h1.setSplitting false,⟨hused1,?_⟩,?_⟩
  · change r.Meets (d1.block b).areaStart ∧ (d1.block b).areaLength = r.size
    rw [hself]
    exact ⟨hmeets,hlen⟩
  refine ⟨fun i => ?_,fun i hi hne => ⟨?_,hne⟩,fun _ => id,fun hq => ⟨?_,?_⟩,rfl, hs.pgsizeBits⟩
  · constructor
    · exact fun hi => .inl ((hs.used h i).mp hi)
    rintro (hi | hi)
    · exact (hs.used h i).mpr hi
    · exact Option.some.inj hi ▸ hused1
  · exact hs.same i (fun hib => hne (hib ▸ rfl)) ((h.below i hi.1).ne)
  · exact hs.separated h hused.2 hq.1 (hq.2 b cut rfl)
  rintro best c hph
  cases hph

lemma Inv.resume (hpos : 0 < r.size) {ph : Phase} (hok : d.PhaseOk r ph)
    (hsplit : d.splitting = ph.splitting) (ok : Bool) (rot : Rotations) :
    ∃ d' ph', d.resume r ph ok rot = some (d',ph') ∧ d'.Inv lo hi dropped ∧ d'.PhaseOk r ph' ∧
      Step d d' ph ph' ∧ ph'.left ≤ ph.left-1 := by
  cases ph with
  | front b cut => exact h.afterFront hpos hok ok rot
  | rear b cut =>
    obtain ⟨d',hrear,hinv,hph,hstep⟩ := h.afterRear hok ok rot
    exact ⟨d',_,hrear,hinv,hph,hstep,le_refl 0⟩
  | done best =>
    refine ⟨d,_,rfl,h,hok,⟨fun i => ?_,fun i _ hne => ⟨rfl,hne⟩,fun _ => id,id,hsplit,rfl⟩, le_refl 0⟩
    constructor
    · exact .inl
    rintro (hi | hi)
    · exact hi
    subst hi
    exact hok.1

end

end Domain

end LinuxToradex.Iovmm
