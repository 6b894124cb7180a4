import LinuxToradex.Foundation.Bitmap

/-! The reorder buffer of an aggregation session: `ieee80211_sta_manage_reorder_buf` and what it calls. Sequence
numbers have 12 bits. Loops of the source take fuel, and `none` is a loop that has not ended. -/
namespace LinuxToradex.Mac80211
open Nat

def seqModulo : Nat := 4096

def seqSub (sq1 sq2 : Nat) : Nat := (sq1+65536-sq2)%seqModulo

def seqLess (sq1 sq2 : Nat) : Prop := seqSub sq1 sq2 > seqModulo/2

instance (sq1 sq2 : Nat) : Decidable (seqLess sq1 sq2) := inferInstanceAs (Decidable (_ > _))

def seqInc (sq : Nat) : Nat := (sq+1)%seqModulo

def timeAfter (a b : BitVec 32) : Prop := (b-a).slt 0#32 = true

instance (a b : BitVec 32) : Decidable (timeAfter a b) := inferInstanceAs (Decidable (_ = _))

/-- A frame with its sequence number. No function reads `number`; runs write there which frame of the
sender it is. -/
structure Frame where
  seq : Nat
  number : Nat
deriving DecidableEq

structure TidAmpduRx where
  reorderBuf : Nat → Option Frame
  reorderTime : Nat → BitVec 32
  reorderTimer : Option (BitVec 32)
  headSeqNum : Nat
  storedMpduNum : Nat
  ssn : Nat
  bufSize : Nat
  rxSkbQueue : List Frame

inductive Outcome
  | outOfDate | duplicate | direct | buffered
deriving DecidableEq

namespace TidAmpduRx

/-- As `ieee80211_process_addba_request` sets it up. -/
def start (bufSize ssn : Nat) : TidAmpduRx where
  reorderBuf := fun _ => none
  reorderTime := fun _ => 0#32
  reorderTimer := none
  headSeqNum := ssn
  storedMpduNum := 0
  ssn := ssn
  bufSize := bufSize
  rxSkbQueue := []

def index (t : TidAmpduRx) (seq : Nat) : Nat := seqSub seq t.ssn%t.bufSize

def releaseReorderFrame (t : TidAmpduRx) (index : Nat) : TidAmpduRx :=
  let t :=
    match t.reorderBuf index with
    | none => t
    | some skb =>
      {t with
        storedMpduNum := t.storedMpduNum-1
        reorderBuf := Function.update t.reorderBuf index none
        rxSkbQueue := t.rxSkbQueue++[skb]}
  {t with headSeqNum := seqInc t.headSeqNum}

def releaseReorderFrames : Nat → TidAmpduRx → Nat → Option TidAmpduRx
  | 0, _, _ => none
  | fuel+1, t, headSeqNum =>
    if seqLess t.headSeqNum headSeqNum then
      (t.releaseReorderFrame (t.index t.headSeqNum)).releaseReorderFrames fuel headSeqNum
    else some t

/-- The first loop of `ieee80211_sta_reorder_release`, over the frames after a gap. It also returns the
slot of the frame that has not timed out, where it goes to `set_release_timer`. -/
def releaseTimedOut (timeout jiffies : BitVec 32) (index : Nat) :
    Nat → TidAmpduRx → Nat → Nat → Option (TidAmpduRx × Option Nat)
  | 0, _, _, _ => none
  | fuel+1, t, j, skipped =>
    if j = index then some (t,none)
    else
      match t.reorderBuf j with
      | none => t.releaseTimedOut timeout jiffies index fuel ((j+1)%t.bufSize) (skipped+1)
      | some _ =>
        if skipped ≠ 0 ∧ ¬timeAfter jiffies (t.reorderTime j+timeout) then some (t,some j)
        else
          let t := t.releaseReorderFrame j
          -- the head also passes the skipped slots
          let t := {t with headSeqNum := (t.headSeqNum+skipped)%seqModulo}
          t.releaseTimedOut timeout jiffies index fuel ((j+1)%t.bufSize) 0

def releaseReady : Nat → TidAmpduRx → Nat → Option TidAmpduRx
  | 0, _, _ => none
  | fuel+1, t, index =>
    match t.reorderBuf index with
    | none => some t
    | some _ =>
      let t := t.releaseReorderFrame index
      t.releaseReady fuel (t.index t.headSeqNum)

def firstStored (stop : Int) : Nat → TidAmpduRx → Nat → Option Nat
  | 0, _, _ => none
  | fuel+1, t, j =>
    if (j : Int) = stop then some j
    else if (t.reorderBuf j).isSome then some j
    else t.firstStored stop fuel ((j+1)%t.bufSize)

def setReleaseTimer (timeout : BitVec 32) (t : TidAmpduRx) (j : Nat) : TidAmpduRx :=
  {t with reorderTimer := some (t.reorderTime j+1+timeout)}

/-- The end of `ieee80211_sta_reorder_release`; `(index - 1) % buf_size` is signed. -/
def armTimer (timeout : BitVec 32) (t : TidAmpduRx) : Option TidAmpduRx :=
  if t.storedMpduNum ≠ 0 then
    let index := t.index t.headSeqNum
    (t.firstStored (Int.tmod (index-1) t.bufSize) (t.bufSize+1) index).map (t.setReleaseTimer timeout)
  else some {t with reorderTimer := none}

/-- `ieee80211_sta_reorder_release`; `timeout` is `HT_RX_REORDER_BUF_TIMEOUT`. -/
def staReorderRelease (timeout jiffies : BitVec 32) (t : TidAmpduRx) : Option TidAmpduRx :=
  let index := t.index t.headSeqNum
  if t.reorderBuf index = none ∧ t.storedMpduNum > 1 then
    match t.releaseTimedOut timeout jiffies index (t.bufSize+1) ((index+1)%t.bufSize) 1 with
    | none => none
    | some (t,none) => t.armTimer timeout
    | some (t,some j) => some (t.setReleaseTimer timeout j)
  else
    (t.releaseReady (t.bufSize+1) index).bind (armTimer timeout)

/-- What `ieee80211_sta_manage_reorder_buf` does once the frame is in the range of the buffer. -/
def placeFrame (timeout jiffies : BitVec 32) (t : TidAmpduRx) (skb : Frame) : Option (TidAmpduRx × Outcome) :=
  let index := t.index skb.seq
  if (t.reorderBuf index).isSome then some (t,.duplicate)
  else if skb.seq = t.headSeqNum ∧ t.storedMpduNum = 0 then
    some ({t with headSeqNum := seqInc t.headSeqNum},.direct)
  else
    let t :=
      {t with
        reorderBuf := Function.update t.reorderBuf index (some skb)
        reorderTime := Function.update t.reorderTime index jiffies
        storedMpduNum := t.storedMpduNum+1}
    (t.staReorderRelease timeout jiffies).map fun t => (t,.buffered)

/-- `ieee80211_sta_manage_reorder_buf`; it returns false exactly in the outcome `direct`. -/
def staManageReorderBuf (timeout jiffies : BitVec 32) (t : TidAmpduRx) (skb : Frame) :
    Option (TidAmpduRx × Outcome) :=
  if seqLess skb.seq t.headSeqNum then some (t,.outOfDate)
  else if ¬seqLess skb.seq (t.headSeqNum+t.bufSize) then
    (t.releaseReorderFrames seqModulo (seqInc (seqSub skb.seq t.bufSize))).bind
      fun t => t.placeFrame timeout jiffies skb
  else t.placeFrame timeout jiffies skb

/-- The end of `ieee80211_rx_reorder_ampdu`: a frame that was not consumed goes to the queue. -/
def queueDirect (skb : Frame) (r : TidAmpduRx × Outcome) : TidAmpduRx × Outcome :=
  if r.2 = .direct then ({r.1 with rxSkbQueue := r.1.rxSkbQueue++[skb]},r.2) else r

lemma queueDirect_snd (skb : Frame) (r : TidAmpduRx × Outcome) : (queueDirect skb r).2 = r.2 := by
  unfold queueDirect
  split <;> rfl

def rxReorderAmpdu (timeout jiffies : BitVec 32) (t : TidAmpduRx) (skb : Frame) :
    Option (TidAmpduRx × Outcome) :=
  (t.staManageReorderBuf timeout jiffies skb).map (queueDirect skb)

end TidAmpduRx

open List Function

open BitRow

/-- The sizes for which the slots follow the numbers, and a first sequence number. -/
structure Session (size ssn : Nat) : Prop where
  pos : 0 < size
  le : size ≤ 64
  dvd : size ∣ seqModulo
  ssn_lt : ssn < seqModulo

def place (size ssn n : Nat) : Nat := (n-ssn)%size

def occupied (t : TidAmpduRx) (i : Nat) : Bool := (t.reorderBuf i).isSome

/-- The stored frames have numbers from `lo` to below `hi`, each in its slot; those released before were
released in the order of their numbers and are below `lo`. -/
structure Buffered (size ssn : Nat) (t : TidAmpduRx) (lo hi : Nat) : Prop where
  bufSize : t.bufSize = size
  first : t.ssn = ssn
  base : ssn ≤ lo
  placed : ∀ i f, t.reorderBuf i = some f →
    lo ≤ f.number ∧ f.number < hi ∧ f.seq = f.number%seqModulo ∧ i = place size ssn f.number
  count : t.storedMpduNum = tally (occupied t) size
  queue : t.rxSkbQueue.Pairwise (·.number < ·.number)
  below : ∀ f ∈ t.rxSkbQueue, f.number < lo

section
variable {size ssn n m lo hi : Nat} {t : TidAmpduRx}

lemma place_inj (hbase : ssn ≤ n) (hle : n ≤ m) (hlt : m < n+size)
    (h : place size ssn m = place size ssn n) : m = n := by
  have hdvd := sub_mod_eq_zero_of_mod_eq h
  rw [mod_eq_of_lt (by omega)] at hdvd
  omega

lemma place_lt (hs : Session size ssn) (n : Nat) : place size ssn n < size := mod_lt _ hs.pos

lemma place_succ (hbase : ssn ≤ n) : (place size ssn n+1)%size = place size ssn (n+1) := by
  rw [place,mod_add_mod,place,Nat.sub_add_comm hbase]

lemma seqSub_mod (hle : m ≤ n) (hm : m%seqModulo ≤ 65536) :
    seqSub (n%seqModulo) (m%seqModulo) = (n-m)%seqModulo := by
  simp only [seqSub,seqModulo] at *
  omega

lemma seqInc_mod (n : Nat) : seqInc (n%seqModulo) = (n+1)%seqModulo := mod_add_mod _ _ _

namespace Buffered

section
variable (h : Buffered size ssn t lo hi)
include h

lemma index_eq (hs : Session size ssn) (hbase : ssn ≤ n) : t.index (n%seqModulo) = place size ssn n := by
  have hssn : ssn%seqModulo = ssn := mod_eq_of_lt hs.ssn_lt
  have hsub := seqSub_mod hbase (by rw [hssn]; exact Nat.le_of_lt (Nat.lt_trans hs.ssn_lt (by decide)))
  rw [hssn] at hsub
  rw [TidAmpduRx.index,h.first,hsub,h.bufSize,mod_mod_of_dvd _ hs.dvd,place]

lemma mono {hi' : Nat} (hle : hi ≤ hi') : Buffered size ssn t lo hi' := by
  refine ⟨h.bufSize,h.first,h.base,fun i f hf => ?_,h.count,h.queue,h.below⟩
  obtain ⟨hlo,hhi,hrest⟩ := h.placed i f hf
  exact ⟨hlo,by omega,hrest⟩

lemma congr (head : Nat) (timer : Option (BitVec 32)) :
    Buffered size ssn {t with headSeqNum := head, reorderTimer := timer} lo hi :=
  ⟨h.bufSize,h.first,h.base,h.placed,h.count,h.queue,h.below⟩

lemma number_eq (hhi : hi ≤ lo+size) (hn : lo ≤ n) (hlt : n < lo+size) {f : Frame}
    (hf : t.reorderBuf (place size ssn n) = some f) : f.number = n := by
  obtain ⟨hlo,hfhi,-,hplace⟩ := h.placed _ f hf
  have hbase := h.base
  rcases Nat.le_total n f.number with hle | hle
  · exact place_inj (by omega) hle (by omega) hplace.symm
  · exact (place_inj (by omega) hle (by omega) hplace).symm

lemma raise (hle : lo ≤ n) (hgap : ∀ i f, t.reorderBuf i = some f → n ≤ f.number) : Buffered size ssn t n hi := by
  refine ⟨h.bufSize,h.first,Nat.le_trans h.base hle,fun i f hf => ?_,h.count,h.queue,
    fun f hf => Nat.lt_of_lt_of_le (h.below f hf) hle⟩
  obtain ⟨-,hrest⟩ := h.placed i f hf
  exact ⟨hgap i f hf,hrest⟩

lemma gap_succ (hgap : ∀ i f, t.reorderBuf i = some f → n ≤ f.number)
    (hempty : t.reorderBuf (place size ssn n) = none) : ∀ i f, t.reorderBuf i = some f → n+1 ≤ f.number := by
  intro i f hf
  obtain ⟨-,-,-,hplace⟩ := h.placed i f hf
  refine Nat.lt_of_le_of_ne (hgap i f hf) fun heq => ?_
  rw [hplace,← heq,hempty] at hf
  cases hf

lemma skip (hempty : t.reorderBuf (place size ssn lo) = none) : Buffered size ssn t (lo+1) hi :=
  h.raise (le_succ lo) (h.gap_succ (fun i f hf => (h.placed i f hf).1) hempty)

end

lemma tally_release (hs : Session size ssn) (n : Nat) {f : Frame}
    (hf : t.reorderBuf (place size ssn n) = some f) : tally (occupied t) size =
      tally (occupied {t with reorderBuf := Function.update t.reorderBuf (place size ssn n) none}) size+1 := by
  refine tally_add (place_lt hs n) ?_ ?_ fun i _ hne => ?_
  · simp [occupied]
  · simp [occupied,hf]
  · simp [occupied,hne]

section
variable (h : Buffered size ssn t lo hi)
include h

lemma queue_append {f : Frame} (hf : f.number = lo) :
    (t.rxSkbQueue++[f]).Pairwise (·.number < ·.number) ∧ ∀ g ∈ t.rxSkbQueue++[f], g.number < lo+1 := by
  constructor
  · refine pairwise_append.mpr ⟨h.queue,pairwise_singleton _ _,fun g hg f' hf' => ?_⟩
    rw [mem_singleton.mp hf',hf]
    exact h.below g hg
  refine forall_mem_append.mpr ⟨fun g hg => lt_succ_of_lt (h.below g hg),forall_mem_singleton.mpr ?_⟩
  exact hf.trans_lt (lt_succ_self lo)

lemma direct (hempty : t.reorderBuf (place size ssn lo) = none) {f : Frame} (hf : f.number = lo) :
    Buffered size ssn {t with rxSkbQueue := t.rxSkbQueue++[f]} (lo+1) hi := by
  have hskip := h.skip hempty
  obtain ⟨hqueue,hbelow⟩ := h.queue_append hf
  exact ⟨hskip.bufSize,hskip.first,hskip.base,hskip.placed,hskip.count,hqueue,hbelow⟩

lemma release (hs : Session size ssn) (hhi : hi ≤ lo+size) :
    Buffered size ssn (t.releaseReorderFrame (place size ssn lo)) (lo+1) hi := by
  unfold TidAmpduRx.releaseReorderFrame
  rcases hf : t.reorderBuf (place size ssn lo) with _ | f
  · exact (h.skip hf).congr _ _
  have hnum : f.number = lo := h.number_eq hhi le_rfl (by have := hs.pos; omega) hf
  obtain ⟨hqueue,hbelow⟩ := h.queue_append hnum
  refine ⟨h.bufSize,h.first,le_succ_of_le h.base,fun i g hg => ?_,?_,hqueue,hbelow⟩
  · by_cases hi : i = place size ssn lo
    · simp [hi] at hg
    simp only [update_of_ne hi] at hg
    obtain ⟨hlo,hghi,hseq,hplace⟩ := h.placed i g hg
    refine ⟨Nat.lt_of_le_of_ne hlo fun heq => hi ?_,hghi,hseq,hplace⟩
    rw [hplace,← heq]
  have hcount := h.count
  rw [tally_release hs lo hf] at hcount
  exact Nat.sub_eq_of_eq_add hcount

lemma store (hs : Session size ssn) (hn : lo ≤ n) (hlt : n < hi)
    (hempty : t.reorderBuf (place size ssn n) = none) (time : Nat → BitVec 32) : Buffered size ssn {t with
        reorderBuf := Function.update t.reorderBuf (place size ssn n) (some ⟨n%seqModulo,n⟩)
        reorderTime := time
        storedMpduNum := t.storedMpduNum+1} lo hi := by
  refine ⟨h.bufSize,h.first,h.base,fun i f hf => ?_,?_,h.queue,h.below⟩
  · by_cases hi : i = place size ssn n
    · subst hi
      simp only [update_self,Option.some.injEq] at hf
      subst hf
      exact ⟨hn,hlt,rfl,rfl⟩
    simp only [update_of_ne hi] at hf
    exact h.placed i f hf
  rw [h.count]
  symm
  refine tally_add (place_lt hs n) ?_ ?_ fun i _ hne => ?_
  · simp [occupied,hempty]
  · simp [occupied]
  · simp [occupied,hne]

end

end Buffered

lemma releaseReorderFrame_head (t : TidAmpduRx) (i : Nat) :
    (t.releaseReorderFrame i).headSeqNum = seqInc t.headSeqNum := by
  unfold TidAmpduRx.releaseReorderFrame
  cases t.reorderBuf i <;> rfl

structure Waiting (size ssn : Nat) (t : TidAmpduRx) (head : Nat) : Prop where
  buffered : Buffered size ssn t head (head+size)
  headSeqNum : t.headSeqNum = head%seqModulo

namespace Waiting
variable {head : Nat}

lemma index_head (h : Waiting size ssn t head) (hs : Session size ssn) :
    t.index t.headSeqNum = place size ssn head := by
  rw [h.headSeqNum]
  exact h.buffered.index_eq hs h.buffered.base

lemma release (h : Waiting size ssn t head) (hs : Session size ssn) :
    Waiting size ssn (t.releaseReorderFrame (place size ssn head)) (head+1) := by
  refine ⟨(h.buffered.release hs le_rfl).mono (by omega),?_⟩
  rw [releaseReorderFrame_head,h.headSeqNum,seqInc_mod]

lemma seqLess_iff {k : Nat} (n : Nat) (hk : k < seqModulo/2) :
    seqLess (n%seqModulo) ((n+k)%seqModulo) ↔ 0 < k := by
  simp only [seqLess,seqSub,seqModulo] at *
  omega

lemma releaseReorderFrames {k : Nat} (hs : Session size ssn) (hk : k < seqModulo/2) {fuel : Nat}
    (h : Waiting size ssn t head) (hfuel : k < fuel) :
    ∃ t', t.releaseReorderFrames fuel ((head+k)%seqModulo) = some t' ∧ Waiting size ssn t' (head+k) := by
  induction k generalizing t head fuel with
  | zero =>
    obtain ⟨fuel,rfl⟩ := exists_eq_succ_of_ne_zero (Nat.ne_of_gt hfuel)
    have hnot : ¬seqLess t.headSeqNum ((head+0)%seqModulo) := by
      rw [h.headSeqNum,seqLess_iff head hk]
      exact Nat.lt_irrefl 0
    refine ⟨t,?_,h⟩
    rw [TidAmpduRx.releaseReorderFrames,if_neg hnot]
  | succ k ih =>
    obtain ⟨fuel,rfl⟩ := exists_eq_succ_of_ne_zero (Nat.ne_of_gt (zero_lt_of_lt hfuel))
    have hless : seqLess t.headSeqNum ((head+(k+1))%seqModulo) := by
      rw [h.headSeqNum,seqLess_iff head hk]
      exact succ_pos k
    rw [TidAmpduRx.releaseReorderFrames,if_pos hless,h.index_head hs]
    have hnext := ih (by omega) (h.release hs) (by omega : k < fuel)
    rw [show head+1+k = head+(k+1) by omega] at hnext
    exact hnext

lemma releaseReady (hs : Session size ssn) {fuel : Nat} (h : Waiting size ssn t head)
    (hfuel : t.storedMpduNum < fuel) :
    ∃ t' head', t.releaseReady fuel (place size ssn head) = some t' ∧ head ≤ head' ∧
      head' ≤ head+t.storedMpduNum ∧ Waiting size ssn t' head' := by
  induction fuel generalizing t head with
  | zero => omega
  | succ fuel ih =>
    rw [TidAmpduRx.releaseReady]
    rcases hf : t.reorderBuf (place size ssn head) with _ | f
    · exact ⟨t,head,rfl,le_rfl,Nat.le_add_right _ _,h⟩
    have hcount := h.buffered.count
    rw [Buffered.tally_release hs head hf] at hcount
    have hstored : (t.releaseReorderFrame (place size ssn head)).storedMpduNum = t.storedMpduNum-1 := by
      unfold TidAmpduRx.releaseReorderFrame
      rw [hf]
    have hnext := h.release hs
    obtain ⟨t',head',heq,hge,hle,hwait⟩ := ih hnext (by omega)
    refine ⟨t',head',?_,by omega,by omega,hwait⟩
    dsimp only
    rw [hnext.index_head hs]
    exact heq

/-- The loop over the frames after a gap. It is at the frame `head + skipped`, and `k` frames are left
up to the end of the window it started with. -/
theorem releaseTimedOut (hs : Session size ssn) (timeout jiffies : BitVec 32) {start k fuel skipped : Nat}
    (h : Buffered size ssn t head (head+skipped+k)) (hhead : t.headSeqNum = head%seqModulo)
    (hgap : ∀ i f, t.reorderBuf i = some f → head+skipped ≤ f.number) (hstart : start ≤ head)
    (hend : head+skipped+k = start+size) (hbase : ssn ≤ start) (hk : k < size) (hfuel : k < fuel) :
    ∃ t' w head', t.releaseTimedOut timeout jiffies (place size ssn start) fuel
        (place size ssn (head+skipped)) skipped = some (t',w) ∧
      head ≤ head' ∧ head' ≤ start+size ∧ Waiting size ssn t' head' := by
  have hwait : Waiting size ssn t head := ⟨h.mono (by omega),hhead⟩
  induction k generalizing t head fuel skipped with
  | zero =>
    obtain ⟨fuel,rfl⟩ := exists_eq_succ_of_ne_zero (Nat.ne_of_gt hfuel)
    have hplace : place size ssn (head+skipped) = place size ssn start := by
      rw [show head+skipped = start+size by omega,place,place,Nat.sub_add_comm hbase,add_mod_right]
    rw [TidAmpduRx.releaseTimedOut,if_pos hplace]
    exact ⟨t,none,head,rfl,le_rfl,by omega,hwait⟩
  | succ k ih =>
    obtain ⟨fuel,rfl⟩ := exists_eq_succ_of_ne_zero (Nat.ne_of_gt (zero_lt_of_lt hfuel))
    have hne : place size ssn (head+skipped) ≠ place size ssn start := fun heq => by
      have := place_inj hbase (by omega) (by omega) heq
      omega
    have hnext : (place size ssn (head+skipped)+1)%size = place size ssn (head+skipped+1) :=
      place_succ (by omega)
    rw [TidAmpduRx.releaseTimedOut,if_neg hne]
    rcases hf : t.reorderBuf (place size ssn (head+skipped)) with _ | f
    · rw [h.bufSize,hnext]
      have hgap' : ∀ i f, t.reorderBuf i = some f → head+(skipped+1) ≤ f.number := h.gap_succ hgap hf
      refine ih ?_ hhead hgap' hstart (by omega) (by omega) (by omega) hwait
      rw [show head+(skipped+1)+k = head+skipped+(k+1) by omega]
      exact h
    dsimp only
    split
    · exact ⟨t,_,head,rfl,le_rfl,by omega,hwait⟩
    have hrel := (h.raise (Nat.le_add_right head skipped) hgap).release hs (by omega)
    have hhead' : ((t.releaseReorderFrame (place size ssn (head+skipped))).headSeqNum+skipped)
        % seqModulo = (head+skipped+1)%seqModulo := by
      rw [releaseReorderFrame_head,hhead,seqInc_mod,mod_add_mod]
      congr 1
      omega
    generalize t.releaseReorderFrame (place size ssn (head+skipped)) = u at hrel hhead'
    have hbuf : Buffered size ssn {u with headSeqNum := (u.headSeqNum+skipped)%seqModulo}
        (head+skipped+1) (head+skipped+1+0+k) :=
      (hrel.congr _ _).mono (by omega)
    have hgap' : ∀ i f, u.reorderBuf i = some f → head+skipped+1+0 ≤ f.number :=
      fun i f hf => (hrel.placed i f hf).1
    have hslot : (place size ssn (head+skipped)+1)%u.bufSize = place size ssn (head+skipped+1+0) := by
      rw [hrel.bufSize]
      exact hnext
    rw [hslot]
    obtain ⟨t',w,head',heq,hge,hle,hw⟩ := ih hbuf hhead' hgap' (by omega) (by omega) (by omega)
      (by omega : k < fuel) ⟨hbuf.mono (by omega),hhead'⟩
    exact ⟨t',w,head',heq,by omega,hle,hw⟩

end Waiting

end

end LinuxToradex.Mac80211
