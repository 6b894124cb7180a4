import LinuxToradex.Mac80211.Reorder

/-! Sessions of received frames and expired timers. Every call ends with the buffer in its window again. -/
namespace LinuxToradex.Mac80211
open Option Nat List

open BitRow

section
variable {size ssn n head : Nat} {t : TidAmpduRx}

lemma firstStored_isSome (hs : 0 < t.bufSize) (stop : Int) {j k fuel : Nat} (hj : j < t.bufSize)
    (hk : t.reorderBuf ((j+k)%t.bufSize) ≠ none) (hfuel : k < fuel) : ∃ i, t.firstStored stop fuel j = some i := by
  induction k generalizing j fuel with
  | zero =>
    obtain ⟨fuel,rfl⟩ := exists_eq_succ_of_ne_zero (Nat.ne_of_gt hfuel)
    rw [Nat.add_zero,mod_eq_of_lt hj] at hk
    rw [TidAmpduRx.firstStored,if_pos (isSome_iff_ne_none.mpr hk)]
    split <;> exact ⟨j,rfl⟩
  | succ k ih =>
    obtain ⟨fuel,rfl⟩ := exists_eq_succ_of_ne_zero (Nat.ne_of_gt (zero_lt_of_lt hfuel))
    rw [TidAmpduRx.firstStored]
    split
    · exact ⟨j,rfl⟩
    split
    · exact ⟨j,rfl⟩
    refine ih (mod_lt _ hs) ?_ (by omega)
    rw [mod_add_mod,Nat.add_right_comm]
    exact hk

section
variable (h : Waiting size ssn t head) (hs : Session size ssn)
include h hs

/-- The timer is set or deleted. The loop for its slot ends because a frame is stored. -/
theorem Waiting.armTimer (timeout : BitVec 32) : ∃ t', t.armTimer timeout = some t' ∧ Waiting size ssn t' head := by
  have htimer (timer : Option (BitVec 32)) : Waiting size ssn {t with reorderTimer := timer} head :=
    ⟨h.buffered.congr _ _,h.headSeqNum⟩
  rw [TidAmpduRx.armTimer]
  split
  · rename_i hstored
    rw [h.buffered.count] at hstored
    have hex : ∃ i < size, occupied t i = true := by
      by_contra hnone
      push Not at hnone
      exact hstored (tally_eq_zero.mpr fun i hi => Bool.eq_false_iff.mpr (hnone i hi))
    obtain ⟨i,hi,hocc⟩ := hex
    have hsize := h.buffered.bufSize
    have hindex : t.index t.headSeqNum < t.bufSize := by
      rw [h.index_head hs,hsize]
      exact place_lt hs head
    have hreach : (t.index t.headSeqNum+(i+t.bufSize-t.index t.headSeqNum)%t.bufSize)%t.bufSize = i := by
      rw [add_mod_mod,show t.index t.headSeqNum+(i+t.bufSize-t.index t.headSeqNum) = i+t.bufSize by omega,
        add_mod_right,mod_eq_of_lt (by omega)]
    have hpos : 0 < t.bufSize := by omega
    have hsome : t.reorderBuf ((t.index t.headSeqNum+(i+t.bufSize-t.index t.headSeqNum)%t.bufSize)
        % t.bufSize) ≠ none := by
      rw [hreach]
      exact isSome_iff_ne_none.mp hocc
    obtain ⟨j,hj⟩ := firstStored_isSome hpos (Int.tmod (t.index t.headSeqNum-1) t.bufSize) hindex hsome
      (lt_succ_of_lt (mod_lt _ hpos))
    refine ⟨t.setReleaseTimer timeout j,?_,htimer _⟩
    dsimp only
    rw [hj]
    rfl
  · exact ⟨_,rfl,htimer none⟩

lemma Waiting.staReorderRelease (timeout jiffies : BitVec 32) :
    ∃ t' head', t.staReorderRelease timeout jiffies = some t' ∧ head ≤ head' ∧ head' ≤ head+size ∧
      Waiting size ssn t' head' := by
  have hsize := h.buffered.bufSize
  rw [TidAmpduRx.staReorderRelease,h.index_head hs,hsize]
  split
  · rename_i hgap
    rw [place_succ h.buffered.base]
    have hpos := hs.pos
    have hbuf : Buffered size ssn t head (head+1+(size-1)) := h.buffered.mono (by omega)
    have hgap' : ∀ i f, t.reorderBuf i = some f → head+1 ≤ f.number :=
      h.buffered.gap_succ (fun i f hf => (h.buffered.placed i f hf).1) hgap.1
    obtain ⟨t',w,head',heq,hge,hle,hwait⟩ := Waiting.releaseTimedOut hs timeout jiffies hbuf h.headSeqNum
      hgap' (Nat.le_refl head) (by omega) h.buffered.base (by omega) (by omega : size-1 < size+1)
    rw [heq]
    cases w with
    | none =>
      obtain ⟨u,hu,hwait'⟩ := hwait.armTimer hs timeout
      exact ⟨u,head',hu,hge,hle,hwait'⟩
    | some j => exact ⟨_,head',rfl,hge,hle,hwait.buffered.congr _ _,hwait.headSeqNum⟩
  have hcount : t.storedMpduNum ≤ size := by
    rw [h.buffered.count]
    exact tally_le _ _
  obtain ⟨t',head',heq,hge,hle,hwait⟩ := h.releaseReady hs (lt_succ_of_le hcount)
  obtain ⟨u,hu,hwait'⟩ := hwait.armTimer hs timeout
  refine ⟨u,head',?_,hge,by omega,hwait'⟩
  rw [heq]
  exact hu

/-- A frame of the window is taken unless it is stored already. -/
theorem Waiting.placeFrame (timeout jiffies : BitVec 32) (hn : head ≤ n) (hlt : n < head+size) :
    ∃ r head', t.placeFrame timeout jiffies ⟨n%seqModulo,n⟩ = some r ∧ head ≤ head' ∧ head' ≤ head+size ∧
      Waiting size ssn (TidAmpduRx.queueDirect ⟨n%seqModulo,n⟩ r).1 head' ∧ r.2 ≠ .outOfDate ∧
      (r.2 = .duplicate → ∃ i < size, ∃ f, t.reorderBuf i = some f ∧ f.seq = n%seqModulo) := by
  have hb := h.buffered
  have hindex : t.index (n%seqModulo) = place size ssn n := hb.index_eq hs (Nat.le_trans hb.base hn)
  rw [TidAmpduRx.placeFrame]
  dsimp only
  rw [hindex]
  cases hf : t.reorderBuf (place size ssn n) with
  | some f =>
    refine ⟨(t,.duplicate),head,rfl,le_rfl,Nat.le_add_right _ _,h,by simp, fun _ => ⟨_,place_lt hs n,f,hf,?_⟩⟩
    obtain ⟨-,-,hseq,-⟩ := hb.placed _ f hf
    rw [hseq,hb.number_eq le_rfl hn hlt hf]
  | none =>
    rw [if_neg (by simp)]
    split
    · rename_i hdirect
      obtain ⟨hhead,hzero⟩ := hdirect
      rw [h.headSeqNum] at hhead
      have hnh : n = head := by
        have hsize := hs.le
        simp only [seqModulo] at hhead
        omega
      subst hnh
      refine ⟨_,n+1,rfl,le_succ _,by omega,⟨?_,?_⟩,by simp,by simp⟩
      · exact ((hb.direct hf rfl).congr _ _).mono (by omega)
      show seqInc t.headSeqNum = _
      rw [h.headSeqNum,seqInc_mod]
    have hstored := hb.store hs hn hlt hf (Function.update t.reorderTime (place size ssn n) jiffies)
    obtain ⟨t',head',heq,hge,hle,hwait⟩ :=
      Waiting.staReorderRelease ⟨hstored,h.headSeqNum⟩ hs timeout jiffies
    rw [heq]
    exact ⟨_,head',rfl,hge,hle,hwait,by simp,by simp⟩

/-- The head moves on by less than 4096, over frames that are then released in their order; the frame
`head + seqSub seq t.headSeqNum` of the sender was received. -/
theorem Waiting.rxReorderAmpdu (timeout jiffies : BitVec 32) {seq : Nat} (hseq : seq < seqModulo)
    (hhalf : size = 1 → seqSub seq t.headSeqNum ≠ seqModulo/2) :
    ∃ r head', t.rxReorderAmpdu timeout jiffies ⟨seq,head+seqSub seq t.headSeqNum⟩ = some r ∧
      head ≤ head' ∧ head' < head+seqModulo ∧ Waiting size ssn r.1 head' ∧
      (seqSub seq t.headSeqNum < size → (∀ i < size, ∀ f, t.reorderBuf i = some f → f.seq ≠ seq) →
        r.2 = .direct ∨ r.2 = .buffered) := by
  have hpos := hs.pos
  have hle := hs.le
  have hnum : seq = (head+seqSub seq t.headSeqNum)%seqModulo := by
    rw [h.headSeqNum]
    simp only [seqSub,seqModulo] at *
    omega
  have hless : seqLess seq t.headSeqNum ↔ seqModulo/2 < seqSub seq t.headSeqNum := Iff.rfl
  have hbeyond : seqSub seq t.headSeqNum ≤ seqModulo/2 →
      (¬seqLess seq (t.headSeqNum+t.bufSize) ↔ size ≤ seqSub seq t.headSeqNum) := by
    rw [h.headSeqNum,h.buffered.bufSize]
    simp only [seqLess,seqSub,seqModulo] at *
    omega
  have hnewHead : size ≤ seqSub seq t.headSeqNum →
      seqInc (seqSub seq t.bufSize) = (head+(seqSub seq t.headSeqNum+1-size))%seqModulo := by
    rw [h.headSeqNum,h.buffered.bufSize]
    simp only [seqInc,seqSub,seqModulo] at *
    omega
  generalize seqSub seq t.headSeqNum = d at *
  have hhalf' : seqModulo/2 = 2048 := rfl
  rw [TidAmpduRx.rxReorderAmpdu,TidAmpduRx.staManageReorderBuf]
  by_cases hold : seqModulo/2 < d
  · rw [if_pos (hless.mpr hold)]
    exact ⟨_,head,rfl,le_rfl,Nat.lt_add_of_pos_right (by decide),h,fun hd => by omega⟩
  rw [if_neg (fun hl => hold (hless.mp hl))]
  by_cases hin : d < size
  · rw [if_neg (by rw [hbeyond (by omega)]; omega)]
    obtain ⟨r,head',heq,hge,hle',hwait,hdate,hdup⟩ :=
      h.placeFrame hs timeout jiffies (Nat.le_add_right head d) (by omega)
    rw [← hnum] at heq hwait hdup
    refine ⟨_,head',by rw [heq]; rfl,hge,by simp only [seqModulo]; omega,hwait,fun _ hnot => ?_⟩
    rw [TidAmpduRx.queueDirect_snd]
    cases hr : r.2 with
    | outOfDate => exact absurd hr hdate
    | duplicate =>
      obtain ⟨i,hi,f,hf,hfseq⟩ := hdup hr
      exact absurd hfseq (hnot i hi f hf)
    | direct => exact .inl rfl
    | buffered => exact .inr rfl
  rw [if_pos ((hbeyond (by omega)).mpr (by omega)),hnewHead (by omega)]
  obtain ⟨t',heq',hwait'⟩ := h.releaseReorderFrames hs (by omega : d+1-size < seqModulo/2)
    (by simp only [seqModulo]; omega : d+1-size < seqModulo)
  obtain ⟨r,head',heq,hge,hle',hwait,-,-⟩ :=
    hwait'.placeFrame hs timeout jiffies (by omega : head+(d+1-size) ≤ head+d) (by omega)
  rw [← hnum] at heq hwait
  refine ⟨_,head',by rw [heq',bind_some,heq]; rfl,by omega,by simp only [seqModulo]; omega,hwait,
    fun hd => absurd hd hin⟩

end

end

structure Stream where
  rx : TidAmpduRx
  head : Nat

inductive Event
  | receive (seq : Fin seqModulo) (jiffies : BitVec 32)
  | expire (jiffies : BitVec 32)
deriving DecidableEq

namespace Stream

def start (size ssn : Nat) : Stream := ⟨.start size ssn,ssn⟩

def frame (s : Stream) (seq : Nat) : Frame := ⟨seq,s.head+seqSub seq s.rx.headSeqNum⟩

def moved (s : Stream) (t : TidAmpduRx) : Stream := ⟨t,s.head+seqSub t.headSeqNum s.rx.headSeqNum⟩

def step (timeout : BitVec 32) (s : Stream) : Event → Option Stream
  | .receive seq jiffies =>
    (s.rx.rxReorderAmpdu timeout jiffies (s.frame seq)).map fun r => s.moved r.1
  | .expire jiffies => (s.rx.staReorderRelease timeout jiffies).map s.moved

/-- A buffer of one slot does not receive a frame exactly 2048 ahead of the head. -/
def NotHalfway (s : Stream) : Event → Prop
  | .receive seq _ => s.rx.bufSize = 1 → seqSub seq s.rx.headSeqNum ≠ seqModulo/2
  | .expire _ => True

inductive Reaches (timeout : BitVec 32) (size ssn : Nat) (allowed : Stream → Event → Prop) : Stream → Prop
  | start : Reaches timeout size ssn allowed (start size ssn)
  | step {s s' : Stream} {e : Event} (h : Reaches timeout size ssn allowed s) (he : allowed s e)
      (hs : s.step timeout e = some s') : Reaches timeout size ssn allowed s'

/-- The counter is right, the stored frames are in the window, the released ones were released in the
order of their numbers, and a frame of the window that is not stored is taken. -/
structure Ordered (timeout : BitVec 32) (size : Nat) (s : Stream) : Prop where
  count : s.rx.storedMpduNum = tally (occupied s.rx) size
  window : ∀ i < size, ∀ f, s.rx.reorderBuf i = some f → seqSub f.seq s.rx.headSeqNum < size
  order : s.rx.rxSkbQueue.Pairwise (·.number < ·.number)
  taken : ∀ (seq : Fin seqModulo) (jiffies : BitVec 32), seqSub seq s.rx.headSeqNum < size →
    (∀ i < size, ∀ f, s.rx.reorderBuf i = some f → f.seq ≠ seq) →
    ∃ r, s.rx.rxReorderAmpdu timeout jiffies (s.frame seq) = some r ∧ (r.2 = .direct ∨ r.2 = .buffered)

section
variable {timeout : BitVec 32} {size ssn : Nat} {s s' : Stream} {e : Event}

lemma moved_head (h : Waiting size ssn s.rx s.head) {t : TidAmpduRx} {head : Nat}
    (ht : Waiting size ssn t head) (hge : s.head ≤ head) (hlt : head < s.head+seqModulo) : s.moved t = ⟨t,head⟩ := by
  have hsub : seqSub t.headSeqNum s.rx.headSeqNum = head-s.head := by
    rw [h.headSeqNum,ht.headSeqNum]
    simp only [seqSub,seqModulo] at *
    omega
  rw [moved,hsub,Nat.add_sub_cancel' hge]

lemma step_waiting (h : Waiting size ssn s.rx s.head) (hs : Session size ssn) (timeout : BitVec 32)
    (he : NotHalfway s e) : ∃ s', s.step timeout e = some s' ∧ Waiting size ssn s'.rx s'.head := by
  rcases e with ⟨seq,jiffies⟩ | jiffies
  · obtain ⟨r,head,heq,hge,hlt,hwait,-⟩ := h.rxReorderAmpdu hs timeout jiffies seq.isLt
      (fun hone => he (h.buffered.bufSize.trans hone))
    refine ⟨⟨r.1,head⟩,?_,hwait⟩
    rw [step,frame,heq,map_some,moved_head h hwait hge hlt]
  have hle := hs.le
  obtain ⟨t,head,heq,hge,hlt,hwait⟩ := h.staReorderRelease hs timeout jiffies
  refine ⟨⟨t,head⟩,?_,hwait⟩
  rw [step,heq,map_some,moved_head h hwait hge (by simp only [seqModulo]; omega)]

lemma start_waiting (hs : Session size ssn) : Waiting size ssn (start size ssn).rx (start size ssn).head := by
  refine ⟨⟨rfl,rfl,le_rfl,nofun,?_,List.Pairwise.nil,nofun⟩,(mod_eq_of_lt hs.ssn_lt).symm⟩
  exact (tally_eq_zero.mpr fun _ _ => rfl).symm

lemma Reaches.waiting (h : Reaches timeout size ssn NotHalfway s) (hs : Session size ssn) :
    Waiting size ssn s.rx s.head := by
  induction h with
  | start => exact start_waiting hs
  | step _ he hstep ih =>
    obtain ⟨s'',heq,hwait⟩ := step_waiting ih hs timeout he
    rw [hstep] at heq
    cases heq
    exact hwait

lemma ordered_of_waiting (h : Waiting size ssn s.rx s.head) (hs : Session size ssn) (timeout : BitVec 32) :
    Ordered timeout size s := by
  refine ⟨h.buffered.count,fun i _ f hf => ?_,h.buffered.queue,fun seq jiffies hin hnot => ?_⟩
  · obtain ⟨hge,hlt,hseq,-⟩ := h.buffered.placed i f hf
    rw [hseq,h.headSeqNum]
    simp only [seqSub,seqModulo]
    omega
  obtain ⟨r,-,heq,-,-,-,htaken⟩ := h.rxReorderAmpdu hs timeout jiffies seq.isLt
    (fun hone hd => by rw [hd,hone] at hin; exact absurd hin (by decide))
  exact ⟨r,heq,htaken hin hnot⟩

end

/-- In a session whose buffer size divides 4096 the buffer stays ordered and every event is taken to its
end. -/
theorem reorder_window (timeout : BitVec 32) {size ssn : Nat} (hpos : 1 ≤ size) (hle : size ≤ 64)
    (hdvd : size ∣ seqModulo) (hssn : ssn < seqModulo) (s : Stream) (h : Reaches timeout size ssn NotHalfway s) :
    Ordered timeout size s ∧ ∀ e, NotHalfway s e → ∃ s', s.step timeout e = some s' := by
  have hs : Session size ssn := ⟨hpos,hle,hdvd,hssn⟩
  have hwait := h.waiting hs
  refine ⟨ordered_of_waiting hwait hs timeout,fun e he => ?_⟩
  obtain ⟨s',heq,-⟩ := step_waiting hwait hs timeout he
  exact ⟨s',heq⟩

def run (timeout : BitVec 32) (s : Stream) : List Event → Option Stream
  | [] => some s
  | e::events => (s.step timeout e).bind fun s => s.run timeout events

lemma Reaches.run {timeout : BitVec 32} {size ssn : Nat} {allowed : Stream → Event → Prop} {s s' : Stream}
    {events : List Event} (h : Reaches timeout size ssn allowed s)
    (hall : ∀ u e, Reaches timeout size ssn allowed u → allowed u e) (hrun : s.run timeout events = some s') :
    Reaches timeout size ssn allowed s' := by
  induction events generalizing s with
  | nil => exact some.inj hrun ▸ h
  | cons e events ih =>
    obtain ⟨u,hu,hrest⟩ := bind_eq_some_iff.mp hrun
    exact ih (h.step (hall s e h) hu) hrest

/-- Two frames in the wrong order where the sequence numbers wrap. -/
theorem reorder_window_two : ∃ s, Reaches 10#32 2 4095 NotHalfway s ∧
    s.rx.rxSkbQueue.map (·.seq) = [4095,0] ∧ Ordered 10#32 2 s := by
  have hs : Session 2 4095 := ⟨by decide,by decide,by decide,by decide⟩
  have hall : ∀ u e, Reaches 10#32 2 4095 NotHalfway u → NotHalfway u e := by
    intro u e hu
    have hsize := (hu.waiting hs).buffered.bufSize
    cases e with
    | receive seq jiffies => exact fun hone => absurd (hsize.symm.trans hone) (by decide)
    | expire jiffies => trivial
  have hqueue : ((start 2 4095).run 10#32 [.receive ⟨0,by decide⟩ 5#32,.receive ⟨4095,by decide⟩ 6#32]).map
      (fun s => s.rx.rxSkbQueue.map (·.seq)) = some [4095,0] := by decide +kernel
  obtain ⟨s,hrun,hq⟩ := map_eq_some_iff.mp hqueue
  have hreach := Reaches.start.run hall hrun
  exact ⟨s,hreach,hq,(reorder_window 10#32 (by decide) (by decide) (by decide) (by decide) s hreach).1⟩

/-- With one slot, a frame 2048 ahead of the head is released at once and the head moves on by one. -/
example : ((start 1 0).run 10#32 [.receive ⟨2048,by decide⟩ 0#32,.receive ⟨1,by decide⟩ 0#32]).map
    (fun s => s.rx.rxSkbQueue.map (·.number)) = some [2048,1] := by decide +kernel

def inOrder (size n : Nat) : Stream where
  rx := {TidAmpduRx.start size 0 with
    headSeqNum := n
    rxSkbQueue := (List.range n).map fun i => ⟨i,i⟩}
  head := n

lemma step_inOrder (timeout : BitVec 32) {size n : Nat} (hpos : 0 < size) (hle : size ≤ 64) (hn : n+1 < seqModulo) :
    (inOrder size n).step timeout (.receive ⟨n,lt_of_succ_lt hn⟩ 0#32) = some (inOrder size (n+1)) := by
  have hself : seqSub n n = 0 := by simp only [seqSub,seqModulo]; omega
  have hnot : ¬seqLess n n := by rw [seqLess,hself]; decide
  have hin : seqLess n (n+size) := by
    simp only [seqLess,seqSub,seqModulo] at *
    omega
  have hinc : seqInc n = n+1 := mod_eq_of_lt hn
  have hsub : seqSub (n+1) n = 1 := by
    simp only [seqSub,seqModulo] at *
    omega
  simp [step,frame,inOrder,TidAmpduRx.rxReorderAmpdu,TidAmpduRx.staManageReorderBuf,hself,hnot,hin,
    TidAmpduRx.placeFrame,TidAmpduRx.start,TidAmpduRx.queueDirect,moved,hinc,hsub,range_succ]

lemma reaches_inOrder (timeout : BitVec 32) {size n : Nat} (hpos : 0 < size) (hle : size ≤ 64)
    (hn : n < seqModulo) : Reaches timeout size 0 (fun _ _ => True) (inOrder size n) := by
  induction n with
  | zero => exact Reaches.start
  | succ n ih => exact (ih (lt_of_succ_lt hn)).step trivial (step_inOrder timeout hpos hle hn)

/-- With three slots, the frames 4095 and 4096 of a session that started at 0 share a slot: the second
one is dropped as a duplicate of the first. -/
theorem window_of_three_drops : ∃ s, Reaches 10#32 3 0 (fun _ _ => True) s ∧ ¬Ordered 10#32 3 s := by
  have hstart : Reaches 10#32 3 0 (fun _ _ => True) (inOrder 3 4094) :=
    reaches_inOrder 10#32 (by decide) (by decide) (by decide)
  have hlost : ((inOrder 3 4094).step 10#32 (.receive ⟨4095,by decide⟩ 0#32)).map (fun s =>
        (seqSub 0 s.rx.headSeqNum,(List.range 3).map (fun i => (s.rx.reorderBuf i).map (·.seq)),
          (s.rx.rxReorderAmpdu 10#32 0#32 (s.frame 0)).map (·.2))) =
      some (2,[some 4095,none,none],some .duplicate) := by decide +kernel
  obtain ⟨s,hstep,hs⟩ := map_eq_some_iff.mp hlost
  obtain ⟨hin,hrest⟩ := Prod.mk.inj hs
  obtain ⟨hbuf,hdup⟩ := Prod.mk.inj hrest
  refine ⟨s,hstart.step trivial hstep,fun hord => ?_⟩
  have hnot : ∀ i < 3, ∀ f, s.rx.reorderBuf i = some f → f.seq ≠ 0 := by
    intro i hi f hf hzero
    have hslot : (s.rx.reorderBuf i).map (·.seq) = some 0 := by rw [hf,← hzero]; rfl
    have hmem : some 0 ∈ (List.range 3).map (fun i => (s.rx.reorderBuf i).map (·.seq)) :=
      mem_map.mpr ⟨i,mem_range.mpr hi,hslot⟩
    rw [hbuf] at hmem
    exact absurd hmem (by decide)
  obtain ⟨r,heq,htaken⟩ := hord.taken ⟨0,by decide⟩ 0#32 (by rw [hin]; decide) hnot
  rw [heq] at hdup
  have hr : r.2 = .duplicate := some.inj hdup
  rw [hr] at htaken
  exact absurd htaken (by decide)

end Stream

end LinuxToradex.Mac80211
