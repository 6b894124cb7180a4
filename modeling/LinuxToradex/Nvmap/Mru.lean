import LinuxToradex.Iovmm.Areas

/-! `nvmap_mru.c`: an unpinned handle keeps its area until another handle needs one. The areas are those of the
domain that `iovmm.c` manages. A `BUG_ON` and a read through a null pointer are `none`. -/
namespace LinuxToradex.Nvmap.Mru
open Function List Iovmm

structure Handle where
  size : Nat
  align : Nat
  iovmAddr : Nat
  pin : Nat
  area : Option Iovmm.BlockId

/-- What the memory allocator and the search trees do in one round of calls to the domain. -/
structure Choices where
  ok : Nat → Bool
  rot : Nat → Rotations
  freeRot : Rotations

/-- The share, with the number of areas asked of the domain so far. -/
structure Share (H : Type) where
  handle : H → Handle
  lists : Nat → List H
  domain : Domain
  asked : Nat

def mruCutoff : List Nat := [262144,393216,786432,1048576,1572864]

def mruList (size : Nat) : Nat := mruCutoff.findIdx (size ≤ ·)

def nrMru : Nat := mruCutoff.length+1

variable {H : Type} {s s' : Share H} {q : Handle} {e h : H} {lo hi : Nat}

namespace Share

variable [DecidableEq H]

def unlink (s : Share H) (e : H) : Share H := {s with lists := fun i => (s.lists i).erase e}

def dropArea (s : Share H) (e : H) : Share H :=
  {s.unlink e with handle := update s.handle e {s.handle e with area := none}}

omit [DecidableEq H] in
def createVm (s : Share H) (env : Nat → Choices) (q : Handle) : Option (Option Iovmm.BlockId × Share H) :=
  (s.domain.tegraIovmmCreateVm q.size q.align q.iovmAddr (env s.asked).ok (env s.asked).rot).map fun r =>
    (r.2,{s with domain := r.1, asked := s.asked+1})

def evictVm (s : Share H) (env : Nat → Choices) (e : H) (b : Iovmm.BlockId) : Option (Share H) :=
  (s.domain.tegraIovmmFreeVm b (env s.asked).freeRot).map fun d => {s.dropArea e with domain := d}

def evictList (env : Nat → Choices) (q : Handle) : List H → Share H → Option (Option Iovmm.BlockId × Share H)
  | [], s => some (none,s)
  | e::mru, s =>
    if (s.handle e).pin ≠ 0 then none
    else
      match (s.handle e).area with
      | none => none
      | some b =>
        match (s.evictVm env e b).bind fun s => s.createVm env q with
        | some (none,s) => s.evictList env q mru
        | r => r

def evictLoop (env : Nat → Choices) (q : Handle) : Nat → Nat → Share H → Option (Option Iovmm.BlockId × Share H)
  | 0, _, s => some (none,s)
  | n+1, idx, s =>
    let idx := if idx ≥ nrMru then 0 else idx
    match s.evictList env q (s.lists idx) with
    | some (none,s) => s.evictLoop env q n (idx+1)
    | r => r

def nvmapHandleIovmmLocked (s : Share H) (env : Nat → Choices) (h : H) : Option (Option Iovmm.BlockId × Share H) :=
  let q := s.handle h
  match q.area with
  | some b => if ∀ i < nrMru, h ∉ s.lists i then none else some (some b,s.unlink h)
  | none =>
    match s.createVm env q with
    | some (none,s) =>
      if q.iovmAddr ≠ 0 then some (none,s)
      else
        match s.lists (mruList q.size) with
        | [] => s.evictLoop env q nrMru (mruList q.size)
        | e::_ =>
          match (s.handle e).area with
          | none => none
          | some b =>
            if (s.domain.block b).areaLength ≥ q.size then some (some b,s.dropArea e)
            else s.evictLoop env q nrMru (mruList q.size)
    | r => r

end Share

def Handle.Fits (q : Handle) (d : Domain) (b : Iovmm.BlockId) : Prop :=
  q.size ≤ (d.block b).areaLength ∧ q.align ∣ (d.block b).areaStart

/-- Something is asked for, anywhere and at a power of two, and no address overflows behind the domain. -/
structure Handle.Askable (q : Handle) (pgsizeBits hi : Nat) : Prop where
  addr : q.iovmAddr = 0
  pos : 0 < q.size
  align : Align.IsPow2 q.align
  rounds : q.size+(2^pgsizeBits-1) < 4294967296
  ends : hi+Align.roundUp q.align (2^pgsizeBits)+Align.roundUp q.size (2^pgsizeBits) ≤ 4294967296

/-- The lists hold exactly the unpinned handles that own an area, by its length, and no two handles own the same. -/
structure Ready (lo hi : Nat) (s : Share H) : Prop where
  domain : s.domain.Inv lo hi fun _ => False
  splitting : s.domain.splitting = false
  listed : ∀ i e, e ∈ s.lists i ↔ (s.handle e).pin = 0 ∧ ∃ b, (s.handle e).area = some b ∧
    mruList (s.domain.block b).areaLength = i
  nodup : ∀ i, (s.lists i).Nodup
  owned : ∀ e b, (s.handle e).area = some b → s.domain.Used b
  apart : ∀ e e' b, (s.handle e).area = some b → (s.handle e').area = some b → e = e'

structure Evicted (lo hi : Nat) (s s' : Share H) : Prop where
  ready : Ready lo hi s'
  keeps : ∀ e, s'.handle e = s.handle e ∨
    (s'.handle e).area = none ∧ ∀ b, (s.handle e).area = some b → ¬s'.domain.Used b
  used : ∀ i, s'.domain.Used i → s.domain.Used i ∧ s'.domain.block i = s.domain.block i
  pages : s'.domain.pgsizeBits = s.domain.pgsizeBits

/-- An area was created that nobody owns, or there is none and all of these handles lost theirs. -/
def Ends (lo hi : Nat) (s : Share H) (q : Handle) (gone : H → Prop)
    (r : Option (Option Iovmm.BlockId × Share H)) : Prop :=
  (∃ b s', r = some (some b,s') ∧ q.Fits s'.domain b ∧ s'.domain.Used b ∧ ∀ e, (s'.handle e).area ≠ some b) ∨
    ∃ s', r = some (none,s') ∧ Evicted lo hi s s' ∧ ∀ e, gone e → (s'.handle e).area = none

lemma Evicted.lost (h : Evicted lo hi s s') (he : (s.handle e).area = none) : (s'.handle e).area = none := by
  rcases h.keeps e with heq | ⟨hnone,-⟩
  · rwa [heq]
  · exact hnone

lemma Evicted.trans {s2 : Share H} (h1 : Evicted lo hi s s') (h2 : Evicted lo hi s' s2) : Evicted lo hi s s2 := by
  refine ⟨h2.ready,fun e => ?_,fun i hi2 => ?_,h2.pages.trans h1.pages⟩
  · rcases h1.keeps e with heq | ⟨hlost,hused⟩
    · rw [← heq]
      exact h2.keeps e
    · exact .inr ⟨h2.lost hlost,fun b hb hb2 => hused b hb (h2.used b hb2).1⟩
  · obtain ⟨hmid,hsame⟩ := h2.used i hi2
    obtain ⟨hold,hsame'⟩ := h1.used i hmid
    exact ⟨hold,hsame.trans hsame'⟩

lemma Evicted.refl (hr : Ready lo hi s) : Evicted lo hi s s := ⟨hr,fun _ => .inl rfl,fun _ hi => ⟨hi,rfl⟩,rfl⟩

lemma Evicted.ends {g g' : H → Prop} {r : Option (Option Iovmm.BlockId × Share H)} (h1 : Evicted lo hi s s')
    (h2 : Ends lo hi s' q g' r) (hg : ∀ e, g e → (s'.handle e).area = none ∨ g' e) : Ends lo hi s q g r := by
  rcases h2 with hsome | ⟨s2,rfl,h2,hgone⟩
  · exact .inl hsome
  refine .inr ⟨s2,rfl,h1.trans h2,fun e he => ?_⟩
  rcases hg e he with hnone | hlater
  · exact h2.lost hnone
  · exact hgone e hlater

/-- Only the blocks of the handles' areas matter to the lists. -/
lemma Ready.of_domain (hr : Ready lo hi s) {d : Domain} (n : Nat) (hd : d.Inv lo hi fun _ => False)
    (hsplit : d.splitting = false) (hsame : ∀ e b, (s.handle e).area = some b →
      d.Used b ∧ d.block b = s.domain.block b) : Ready lo hi {s with domain := d, asked := n} := by
  refine ⟨hd,hsplit,fun i e => ?_,hr.nodup,fun e b hb => (hsame e b hb).1,hr.apart⟩
  rw [hr.listed]
  refine and_congr_right fun _ => exists_congr fun b => and_congr_right fun hb => ?_
  rw [(hsame e b hb).2]

/-- An area is created that nobody owns, or none, and the lists are as they were. -/
lemma Ready.createVm (hr : Ready lo hi s) (hq : q.Askable s.domain.pgsizeBits hi) (env : Nat → Choices) :
    (∃ b s', s.createVm env q = some (some b,s') ∧ q.Fits s'.domain b ∧ s'.domain.Used b ∧
      ∀ e, (s'.handle e).area ≠ some b) ∨
    ∃ s', s.createVm env q = some (none,s') ∧ Evicted lo hi s s' ∧ s'.handle = s.handle ∧ s'.lists = s.lists := by
  have hpath := Areas.pathFits_of_le hr.domain hq.ends s.domain.freeBlocks
    fun i hi => ((hr.domain.free_iff i).mp hi).1
  have hvalid : Areas.Valid ⟨s.domain,[]⟩ (.create q.size q.align 0 (env s.asked).ok (env s.asked).rot) :=
    ⟨hq.pos,hq.align,hq.rounds,hpath⟩
  obtain ⟨d,best,hcall,hinv,hstep,hnew⟩ := Areas.createVm_spec hr.domain hr.splitting hvalid
  have hsame : ∀ i, s.domain.Used i → d.Used i ∧ d.block i = s.domain.block i ∧ best ≠ some i := by
    intro i hi
    obtain ⟨heq,hne⟩ := hstep.same i hi (by simp [Phase.taken])
    exact ⟨(hstep.used i).mpr (.inl hi),heq,hne⟩
  unfold Share.createVm
  rw [hq.addr,hcall]
  rcases best with _ | b
  · have hready := hr.of_domain (s.asked+1) hinv hstep.splitting fun e b hb =>
      ⟨(hsame b (hr.owned e b hb)).1,(hsame b (hr.owned e b hb)).2.1⟩
    refine .inr ⟨_,rfl,⟨hready,fun _ => .inl rfl,fun i hi => ?_,hstep.pgsizeBits⟩,rfl,rfl⟩
    have hold : s.domain.Used i := ((hstep.used i).mp hi).resolve_right fun hnone => by cases hnone
    exact ⟨hold,(hsame i hold).2.1⟩
  · obtain ⟨hused,hdvd,-,hlen⟩ := hnew b rfl
    exact .inl ⟨b,_,rfl,⟨hlen,hdvd⟩,hused,fun e hb => (hsame b (hr.owned e b hb)).2.2 rfl⟩

variable [DecidableEq H]

@[simp] lemma area_dropArea {e' : H} {b : Iovmm.BlockId} (s : Share H) :
    ((s.dropArea e).handle e').area = some b ↔ e' ≠ e ∧ (s.handle e').area = some b := by
  by_cases hne : e' = e
  · subst hne
    simp [Share.dropArea]
  · simp [Share.dropArea,hne]

@[simp] lemma pin_dropArea (s : Share H) (e e' : H) : ((s.dropArea e).handle e').pin = (s.handle e').pin := by
  by_cases hne : e' = e
  · subst hne
    simp [Share.dropArea]
  · simp [Share.dropArea,hne]

lemma Ready.dropArea (hr : Ready lo hi s) (e : H) : Ready lo hi (s.dropArea e) := by
  refine ⟨hr.domain,hr.splitting,fun i e' => ?_,fun i => (hr.nodup i).erase e,fun e' b hb => ?_,
    fun e1 e2 b h1 h2 => ?_⟩
  · have hmem : e' ∈ (s.dropArea e).lists i ↔ e' ≠ e ∧ e' ∈ s.lists i := (hr.nodup i).mem_erase_iff
    rw [hmem,hr.listed]
    simp only [pin_dropArea,area_dropArea]
    change _ ↔ _ ∧ ∃ b, _ ∧ mruList (s.domain.block b).areaLength = i
    grind
  · exact hr.owned e' b ((area_dropArea s).mp hb).2
  · exact hr.apart _ _ _ ((area_dropArea s).mp h1).2 ((area_dropArea s).mp h2).2

/-- The area of a handle is released, and the others keep theirs. -/
lemma Ready.evictVm (hr : Ready lo hi s) {b : Iovmm.BlockId} (hb : (s.handle e).area = some b) (env : Nat → Choices) :
    ∃ s', s.evictVm env e b = some s' ∧ Evicted lo hi s s' ∧ (s'.handle e).area = none ∧
      s'.lists = fun i => (s.lists i).erase e := by
  obtain ⟨d,hfree,hinv,hsplit,hpages,-,hused,hsame⟩ :=
    Areas.freeVm_spec hr.domain (hr.owned e b hb) (env s.asked).freeRot
  have hother : ∀ e' b', e' ≠ e → (s.handle e').area = some b' → b' ≠ b := by
    rintro e' b' hne hb' rfl
    exact hne (hr.apart _ _ _ hb' hb)
  have hready : Ready lo hi {s.dropArea e with domain := d} := by
    refine (hr.dropArea e).of_domain s.asked hinv (hsplit.trans hr.splitting) fun e' b' hb' => ?_
    obtain ⟨hne,hb'⟩ := (area_dropArea s).mp hb'
    have hold := hr.owned e' b' hb'
    exact ⟨(hused b').mpr ⟨hold,hother e' b' hne hb'⟩,hsame b' hold (hother e' b' hne hb')⟩
  refine ⟨_,by rw [Share.evictVm,hfree]; rfl,⟨hready,fun e' => ?_,fun i hi => ?_,hpages⟩,?_,rfl⟩
  · by_cases hne : e' = e
    · subst hne
      refine .inr ⟨by simp [Share.dropArea],fun b' hb' hlive => ?_⟩
      obtain rfl := Option.some.inj (hb.symm.trans hb')
      exact ((hused b).mp hlive).2 rfl
    · exact .inl (update_of_ne hne _ _)
  · obtain ⟨hold,hne⟩ := (hused i).mp hi
    exact ⟨hold,hsame i hold hne⟩
  · simp [Share.dropArea]

lemma ends_evictList (env : Nat → Choices) (hr : Ready lo hi s) (hq : q.Askable s.domain.pgsizeBits hi) (i : Nat)
    (mru : List H) (hmru : s.lists i = mru) : Ends lo hi s q (· ∈ mru) (s.evictList env q mru) := by
  induction mru generalizing s with
  | nil => exact .inr ⟨s,rfl,.refl hr,fun e he => by cases he⟩
  | cons e mru ih =>
    obtain ⟨hpin,b,hb,-⟩ := (hr.listed i e).mp (by simp [hmru])
    obtain ⟨s1,hevict,hstep1,hlost,hlists1⟩ := hr.evictVm hb env
    rw [Share.evictList,if_neg (not_not.mpr hpin),hb]
    dsimp only
    rw [hevict,Option.bind_some]
    have hq1 : q.Askable s1.domain.pgsizeBits hi := by rwa [hstep1.pages]
    rcases hstep1.ready.createVm hq1 env with ⟨x,s2,hcall,hnew⟩ | ⟨s2,hcall,hstep2,hhandle,hlists2⟩
    · rw [hcall]
      exact .inl ⟨x,s2,rfl,hnew⟩
    · rw [hcall]
      have hq2 : q.Askable s2.domain.pgsizeBits hi := by rwa [hstep2.pages]
      refine (hstep1.trans hstep2).ends (ih hstep2.ready hq2 (by simp [hlists2,hlists1,hmru])) fun e' he' => ?_
      rcases mem_cons.mp he' with rfl | he'
      · exact .inl (by rw [hhandle]; exact hlost)
      · exact .inr he'

lemma ends_evictLoop (env : Nat → Choices) (hr : Ready lo hi s) (hq : q.Askable s.domain.pgsizeBits hi)
    (n idx : Nat) (hidx : idx ≤ nrMru) :
    Ends lo hi s q (fun e => ∃ k < n, e ∈ s.lists ((idx+k) % nrMru)) (s.evictLoop env q n idx) := by
  induction n generalizing s idx with
  | zero => exact .inr ⟨s,rfl,.refl hr,fun e ⟨k,hk,_⟩ => absurd hk (Nat.not_lt_zero k)⟩
  | succ n ih =>
    have hwrap : (if idx ≥ nrMru then 0 else idx) = idx % nrMru := by
      split
      · next hge => rw [le_antisymm hidx hge,Nat.mod_self]
      · next hlt => rw [Nat.mod_eq_of_lt (not_le.mp hlt)]
    have hlt : idx % nrMru < nrMru := Nat.mod_lt _ (by decide)
    rw [Share.evictLoop,hwrap]
    rcases ends_evictList env hr hq (idx % nrMru) _ rfl with ⟨x,s',heq,hx⟩ | ⟨s1,heq,hev,hgone⟩
    · rw [heq]
      exact .inl ⟨x,s',rfl,hx⟩
    rw [heq]
    refine hev.ends (ih hev.ready (by rwa [hev.pages]) _ hlt) ?_
    rintro e ⟨k,hk,he⟩
    rcases k with _ | k
    · exact .inl (hgone e he)
    rcases hev.keeps e with hsame | ⟨hnone,-⟩
    · obtain ⟨hpin,b,hb,hclass⟩ := (hr.listed _ e).mp he
      have hb1 : (s1.handle e).area = some b := by rw [hsame]; exact hb
      have hblock := (hev.used b (hev.ready.owned e b hb1)).2
      have hnext : (idx % 6+1+k) % 6 = (idx+(k+1)) % 6 := by omega
      refine .inr ⟨k,Nat.lt_of_succ_lt_succ hk,(hev.ready.listed _ e).mpr ⟨by rw [hsame]; exact hpin,b,hb1,?_⟩⟩
      rw [hblock,hclass]
      exact hnext.symm
    · exact .inl hnone

/-- What a handle is given: an area that fits it and that no other handle owns; or none, when all areas on the
lists have been released. -/
def Served (s : Share H) (h : H) (s' : Share H) : Option Iovmm.BlockId → Prop
  | some b => (s.handle h).Fits s'.domain b ∧ s'.domain.Used b ∧ ∀ e ≠ h, (s'.handle e).area ≠ some b
  | none => ∀ i, ∀ e ∈ s.lists i, (s'.handle e).area = none ∧
      ∀ b, (s.handle e).area = some b → ¬s'.domain.Used b

/-- The area an unpinned handle has fits it; or the one it would take over is aligned for it. -/
def Suits (s : Share H) (h : H) : Prop :=
  match (s.handle h).area with
  | some b => (s.handle h).pin = 0 → (s.handle h).Fits s.domain b
  | none => ∀ e ∈ (s.lists (mruList (s.handle h).size)).head?, ∀ b ∈ (s.handle e).area,
      (s.handle h).size ≤ (s.domain.block b).areaLength → (s.handle h).align ∣ (s.domain.block b).areaStart

lemma mruList_lt (size : Nat) : mruList size < nrMru := Nat.lt_succ_of_le findIdx_le_length

/-- When nothing is taken over, evicting in turn serves the handle. -/
lemma served_evictLoop (env : Nat → Choices) (hev : Evicted lo hi s s')
    (hq : (s.handle h).Askable s.domain.pgsizeBits hi) (hr : Ready lo hi s) (hlists : s'.lists = s.lists) :
    ∃ r s2, s'.evictLoop env (s.handle h) nrMru (mruList (s.handle h).size) = some (r,s2) ∧ Served s h s2 r := by
  have hq' : (s.handle h).Askable s'.domain.pgsizeBits hi := by rwa [hev.pages]
  rcases ends_evictLoop env hev.ready hq' nrMru _ (mruList_lt (s.handle h).size).le with
    ⟨x,s2,heq,hfits,hused,hnone⟩ | ⟨s2,heq,hev',hgone⟩
  · exact ⟨_,s2,heq,hfits,hused,fun e _ => hnone e⟩
  refine ⟨_,s2,heq,fun i e he => ?_⟩
  obtain ⟨-,b,-,rfl⟩ := (hr.listed i e).mp he
  have hturn : ∀ i < 6, ∀ j < 6, ∃ k < 6, (i+k) % 6 = j := by decide
  obtain ⟨k,hk,hidx⟩ := hturn _ (mruList_lt (s.handle h).size) _ (mruList_lt (s.domain.block b).areaLength)
  have hnone := hgone e ⟨k,hk,by rw [hlists]; exact hidx ▸ he⟩
  rcases (hev.trans hev').keeps e with hsame | hlost
  · exact ⟨hnone,fun b' hb' => absurd ((congrArg Handle.area hsame).trans hb') (by simp [hnone])⟩
  · exact hlost

/-- The call returns, unless it is for a pinned handle that has an area. -/
lemma returns (env : Nat → Choices) (hr : Ready lo hi s) (hq : (s.handle h).Askable s.domain.pgsizeBits hi)
    (hpin : (s.handle h).area ≠ none → (s.handle h).pin = 0) :
    ∃ r s', s.nvmapHandleIovmmLocked env h = some (r,s') ∧ (Suits s h → Served s h s' r) ∧
      ((s.handle h).area ≠ none ∨ (∃ s1, s.createVm env (s.handle h) = some (none,s1)) →
        Served s h s' r → Suits s h) := by
  unfold Share.nvmapHandleIovmmLocked Suits
  dsimp only
  rcases harea : (s.handle h).area with _ | b
  · dsimp only
    rcases hr.createVm hq env with ⟨x,s1,hcall,hfits,hused,hnew⟩ | ⟨s1,hcall,hev,hhandle,hlists⟩
    · rw [hcall]
      refine ⟨_,_,rfl,fun _ => ⟨hfits,hused,fun e _ => hnew e⟩,?_⟩
      rintro (hne | ⟨s2,hs2⟩)
      · exact absurd rfl hne
      · cases hs2
    rw [hcall]
    dsimp only
    rw [if_neg (not_not.mpr hq.addr),hlists]
    obtain ⟨r,s2,hloop,hserved⟩ := served_evictLoop env hev hq hr hlists
    rcases hlist : s.lists (mruList (s.handle h).size) with _ | ⟨e,es⟩
    · exact ⟨r,s2,hloop,fun _ => hserved,fun _ _ => by simp⟩
    obtain ⟨-,b,hb,-⟩ := (hr.listed _ e).mp (by rw [hlist]; exact mem_cons_self)
    have hb1 : (s1.handle e).area = some b := by rw [hhandle]; exact hb
    obtain ⟨-,hblock⟩ := hev.used b (hev.ready.owned e b hb1)
    dsimp only
    rw [hb1]
    dsimp only
    rw [hblock]
    split
    · next hlen =>
      refine ⟨_,_,rfl,fun hsuits => ⟨⟨?_,?_⟩,hev.ready.owned e b hb1,fun e' _ he' => ?_⟩,fun _ hserved => ?_⟩
      · change _ ≤ (s1.domain.block b).areaLength
        rwa [hblock]
      · change _ ∣ (s1.domain.block b).areaStart
        rw [hblock]
        exact hsuits e rfl b hb hlen
      · obtain ⟨hne,hb'⟩ := (area_dropArea _).mp he'
        exact hne (hev.ready.apart e' e b hb' hb1)
      · rintro _ ⟨⟩ b' hb' -
        obtain rfl := Option.some.inj (hb.symm.trans hb')
        have hdvd : _ ∣ (s1.domain.block b).areaStart := hserved.1.2
        rwa [hblock] at hdvd
    · next hlen =>
      refine ⟨r,s2,hloop,fun _ => hserved,fun _ _ => ?_⟩
      rintro _ ⟨⟩ b' hb' hlen'
      obtain rfl := Option.some.inj (hb.symm.trans hb')
      exact absurd hlen' hlen
  · have hpin := hpin (by simp [harea])
    have hmem := (hr.listed _ h).mpr ⟨hpin,b,harea,rfl⟩
    dsimp only
    rw [if_neg fun hall => hall _ (mruList_lt _) hmem]
    exact ⟨_,_,rfl,fun hfits => ⟨hfits hpin,hr.owned h b harea,fun e hne he => hne (hr.apart e h b he harea)⟩,
      fun _ hserved _ => hserved.1⟩

def plain : Choices := ⟨fun _ => true,fun _ _ => [],fun _ => []⟩

def firstArea : List Call := [.create 4096 4096 0 plain.ok plain.rot]

/-- A domain of two pages, of which one area has all. -/
def twoPages : Domain := (((Areas.init 12 0x1000 0x3000).run firstArea).getD (Areas.init 12 0x1000 0x3000)).domain

def demo : Share Nat where
  handle e := if e = 0 then ⟨4096,8192,0,0,none⟩ else if e = 1 then ⟨4096,4096,0,0,none⟩ else
    if e = 2 then ⟨4096,4096,0,0,some 0⟩ else if e = 3 then ⟨8192,4096,0,0,none⟩ else ⟨16384,4096,0,0,none⟩
  lists i := if i = 0 then [2] else []
  domain := twoPages
  asked := 0

lemma twoPages_inv : twoPages.Inv 0x1000 0x3000 (fun _ => False) ∧ twoPages.splitting = false := by
  have hdomain : Areas.DomainOk 12 0x1000 0x3000 := by
    unfold Areas.DomainOk
    decide
  have hvalid : (Areas.init 12 0x1000 0x3000).AllValid firstArea := by decide +kernel
  obtain ⟨s,hrun,hinv⟩ := (Areas.init_inv hdomain).run hvalid
  have hdom : twoPages = s.domain := by rw [twoPages,hrun]; rfl
  rw [hdom]
  exact ⟨hinv.domain,hinv.splitting⟩

lemma area_demo {e b : Nat} : (demo.handle e).area = some b ↔ e = 2 ∧ b = 0 := by
  simp only [demo]
  grind

lemma ready_demo : Ready 0x1000 0x3000 demo := by
  have hused : twoPages.Used 0 ∧ (twoPages.block 0).areaLength = 4096 := by
    unfold Domain.Used
    decide +kernel
  refine ⟨twoPages_inv.1,twoPages_inv.2,fun i e => ?_,fun i => ?_,fun e b hb => (area_demo.mp hb).2 ▸ hused.1,
    fun e e' b h h' => (area_demo.mp h).1.trans (area_demo.mp h').1.symm⟩
  · have hclass : mruList (twoPages.block 0).areaLength = 0 := by
      rw [hused.2]
      rfl
    simp only [area_demo]
    simp only [demo]
    grind
  · simp only [demo]
    split <;> simp

lemma askable_demo {e : Nat} (he : e ∈ [0,1,3,4]) : (demo.handle e).Askable demo.domain.pgsizeBits 0x3000 := by
  have hall : ∀ e ∈ [0,1,3,4], (demo.handle e).iovmAddr = 0 ∧ 0 < (demo.handle e).size ∧
      (∃ k < 32, (demo.handle e).align = 2^k) ∧ (demo.handle e).size+(2^demo.domain.pgsizeBits-1) < 4294967296 ∧
      0x3000+Align.roundUp (demo.handle e).align (2^demo.domain.pgsizeBits) +
        Align.roundUp (demo.handle e).size (2^demo.domain.pgsizeBits) ≤ 4294967296 := by decide +kernel
  obtain ⟨haddr,hpos,halign,hrounds,hends⟩ := hall e he
  exact ⟨haddr,hpos,halign,hrounds,hends⟩

end LinuxToradex.Nvmap.Mru
