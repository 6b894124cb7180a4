import LinuxToradex.Foundation.Align
import LinuxToradex.Foundation.Bitmap

/-! `xfrm_replay_check_bmp`, `xfrm_replay_advance_bmp` and their counterparts for extended sequence
numbers. Words of 32 bits are natural numbers below `word`. The bitmap is a ring with one bit for each
number of the window. -/
namespace LinuxToradex.Xfrm
open List Nat Bool

def word : Nat := 4294967296

def sub32 (a b : Nat) : Nat := (a+word-b)%word

/-- What the functions use of `struct xfrm_replay_state_esn`. -/
structure ReplayEsn where
  seq : Nat
  seqHi : Nat
  replayWindow : Nat
  bmp : Nat → BitVec 32

/-- What a check says; the two last ones are counted in the statistics of the state. -/
inductive Verdict
  | accepted | zero | outside | replayed
deriving DecidableEq

def bitBelow (window pos diff : Nat) : Nat :=
  if pos ≥ diff then (pos-diff)%window else sub32 window (diff-pos)

/-- Clearing the bits between the old and the new top and setting that of the new one, `diff` above
`pos`. -/
def moveTop (window pos diff : Nat) (bmp : Nat → BitVec 32) : Nat → BitVec 32 :=
  let cleared :=
    if diff < window then
      (range' 1 (diff-1)).foldl (fun bmp i => Bitmap.clear bmp ((pos+i)%word%window)) bmp
    else fun i => if i ≤ (window-1) >>> 5 then 0#32 else bmp i
  Bitmap.set cleared ((pos+diff)%word%window)

namespace ReplayEsn

variable {window T n d : Nat}

def init (window : Nat) : ReplayEsn := ⟨0,0,window,fun _ => 0#32⟩

def checkBmp (x : ReplayEsn) (seq : Nat) : Verdict :=
  let diff := sub32 x.seq seq
  if x.replayWindow = 0 then .accepted
  else
    let pos := sub32 x.seq 1%x.replayWindow
    if seq = 0 then .zero
    else if seq > x.seq then .accepted
    else if diff ≥ x.replayWindow then .outside
    else if Bitmap.test x.bmp (bitBelow x.replayWindow pos diff) then .replayed
    else .accepted

def advanceBmp (x : ReplayEsn) (seq : Nat) : ReplayEsn :=
  let pos := sub32 x.seq 1%x.replayWindow
  if x.replayWindow = 0 then x
  else if seq > x.seq then
    {x with bmp := moveTop x.replayWindow pos (sub32 seq x.seq) x.bmp, seq := seq}
  else {x with bmp := Bitmap.set x.bmp (bitBelow x.replayWindow pos (sub32 x.seq seq))}

def seqhi (x : ReplayEsn) (seq : Nat) : Nat :=
  let bottom := (sub32 x.seq x.replayWindow+1)%word
  if x.seq ≥ sub32 x.replayWindow 1 then
    -- A. same subspace
    if seq < bottom then (x.seqHi+1)%word else x.seqHi
  else
    -- B. window spans two subspaces
    if seq ≥ bottom then sub32 x.seqHi 1 else x.seqHi

def checkEsn (x : ReplayEsn) (seq : Nat) : Verdict :=
  let wsize := x.replayWindow
  let top := x.seq
  let bottom := (sub32 top wsize+1)%word
  if wsize = 0 then .accepted
  else
    let pos := sub32 x.seq 1%x.replayWindow
    -- the end of the function, once the number is known not to be above the window
    let inWindow (diff : Nat) : Verdict :=
      if diff ≥ x.replayWindow then .outside
      else if Bitmap.test x.bmp (bitBelow x.replayWindow pos diff) then .replayed
      else .accepted
    if seq = 0 ∧ x.seqHi = 0 ∧ x.seq < sub32 x.replayWindow 1 then .zero
    else if top ≥ sub32 wsize 1 then
      if seq > top ∨ seq < bottom then .accepted else inWindow (sub32 top seq)
    else if seq > top ∧ seq < bottom then .accepted
    else if seq ≥ bottom then inWindow ((word-1-seq+top+1)%word)
    else inWindow (sub32 top seq)

def advanceEsn (x : ReplayEsn) (seq : Nat) : ReplayEsn :=
  if x.replayWindow = 0 then x
  else
    let pos := sub32 x.seq 1%x.replayWindow
    let wrap := sub32 (x.seqhi seq) x.seqHi
    let positive := 0 < wrap ∧ wrap < 2147483648
    if (wrap = 0 ∧ seq > x.seq) ∨ positive then
      let diff := if wrap = 0 then sub32 seq x.seq else (word-1-x.seq+seq+1)%word
      {x with
        bmp := moveTop x.replayWindow pos diff x.bmp, seq := seq,
        seqHi := if positive then (x.seqHi+1)%word else x.seqHi}
    else {x with bmp := Bitmap.set x.bmp (bitBelow x.replayWindow pos (sub32 x.seq seq))}

end ReplayEsn

def place (window n : Nat) : Nat := (n+window-1)%window

section Ring
lemma place_of_pos (hn : 0 < n) : place window n = (n-1)%window := by
  rw [place,show n+window-1 = n-1+window by omega,add_mod_right]

lemma place_add (hw : 0 < window) (n d : Nat) : (place window n+d)%window = place window (n+d) := by
  rw [place,mod_add_mod,place]
  congr 1
  omega

lemma pos_eq (hw : 0 < window) (hdvd : window ∣ word) (T : Nat) : sub32 (T%word) 1%window = place window T := by
  obtain ⟨k,hk⟩ := hdvd
  have hword : 0 < word := by decide
  have hkpos : 0 < k := Nat.pos_of_ne_zero fun hzero => by rw [hzero,Nat.mul_zero] at hk; omega
  obtain ⟨k,rfl⟩ : ∃ m, k = m+1 := ⟨k-1,by omega⟩
  rw [sub32,mod_mod_of_dvd _ ⟨k+1,hk⟩,place]
  have hT := div_add_mod T word
  have hleft : T%word+word-1 = T%word+window-1+window*k := by
    rw [Nat.mul_add,Nat.mul_one] at hk
    omega
  have hright : T+window-1 = T%word+window-1+window*((k+1)*(T/word)) := by
    rw [← Nat.mul_assoc,← hk]
    omega
  rw [hleft,hright,add_mul_mod_self_left,add_mul_mod_self_left]

lemma place_inj {m : Nat} (hn : 0 < n) (hnm : n ≤ m) (hlt : m < n+window)
    (h : place window n = place window m) : n = m := by
  have hdvd := dvd_of_mod_eq_zero (sub_mod_eq_zero_of_mod_eq h.symm)
  have hzero := eq_zero_of_dvd_of_lt hdvd (by omega)
  omega

lemma bitBelow_eq (hw : window < word) (hn : 0 < n) (hle : n ≤ T) (hlt : T < n+window) :
    bitBelow window (place window T) (T-n) = place window n := by
  have hwpos : 0 < window := by omega
  rw [place_of_pos (by omega),place_of_pos hn,bitBelow]
  have hT := div_add_mod (T-1) window
  have hmod := mod_lt (T-1) hwpos
  generalize (T-1)/window = q at hT
  generalize (T-1)%window = p at hT hmod
  split
  · next hge =>
    rw [mod_eq_of_lt (by omega)]
    rw [show n-1 = p-(T-n)+window*q by omega,add_mul_mod_self_left,mod_eq_of_lt (by omega)]
  next hge =>
  rw [sub32,Align.wrap_sub (by omega) (by omega)]
  obtain ⟨q,rfl⟩ : ∃ m, q = m+1 := by
    refine ⟨q-1,?_⟩
    by_contra hzero
    obtain rfl : q = 0 := by omega
    omega
  rw [Nat.mul_add,Nat.mul_one] at hT
  rw [show n-1 = window-(T-n-p)+window*q by omega,add_mul_mod_self_left, mod_eq_of_lt (by omega)]

end Ring

/-- A number of the window that ends with the top has its bit set if and only if it was accepted. -/
def Reflects (bmp : Nat → BitVec 32) (window T : Nat) (accepted : List Nat) : Prop :=
  ∀ n, 0 < n → n ≤ T → T < n+window → (Bitmap.test bmp (place window n) = true ↔ n ∈ accepted)

section Reflects
variable {bmp : Nat → BitVec 32} {accepted : List Nat}

lemma test_foldl_clear (f : Nat → Nat) (l : List Nat) (bmp : Nat → BitVec 32) (j : Nat) :
    Bitmap.test (l.foldl (fun bmp i => Bitmap.clear bmp (f i)) bmp) j = true ↔
      Bitmap.test bmp j = true ∧ ∀ i ∈ l, j ≠ f i := by
  induction l generalizing bmp with
  | nil => simp
  | cons i l ih =>
    rw [foldl_cons,ih,Bitmap.test_clear,and_eq_true,forall_mem_cons]
    constructor
    · rintro ⟨⟨hne,htest⟩,hrest⟩
      exact ⟨htest,by simpa using hne,hrest⟩
    rintro ⟨htest,hne,hrest⟩
    exact ⟨⟨by simpa using hne,htest⟩,hrest⟩

lemma Reflects.mark (h : Reflects bmp window T accepted) (hn : 0 < n) (hle : n ≤ T) (hlt : T < n+window) :
    Reflects (Bitmap.set bmp (place window n)) window T (n::accepted) := by
  intro m hm hmle hmlt
  rw [Bitmap.test_set,or_eq_true,decide_eq_true_eq,h m hm hmle hmlt,mem_cons]
  refine or_congr_left ⟨fun heq => ?_,fun heq => by rw [heq]⟩
  rcases Nat.le_total m n with hmn | hnm
  · exact place_inj hm hmn (by omega) heq
  · exact (place_inj hn hnm (by omega) heq.symm).symm

/-- The bits between the old and the new top are cleared. -/
theorem moveTop_test (hdvd : window ∣ word) (hw : 0 < window) (hn : 0 < n) (hle : n ≤ T+d)
    (hlt : T+d < n+window) : Bitmap.test (moveTop window (place window T) d bmp) (place window n) = true ↔
      n = T+d ∨ (n ≤ T ∧ Bitmap.test bmp (place window n) = true) := by
  have hplace : ∀ i, (place window T+i)%word%window = place window (T+i) := by
    intro i
    rw [mod_mod_of_dvd _ hdvd,place_add hw]
  have hsame : ∀ i, T+i ≤ T+d → T+d < T+i+window → 0 < T+i → (place window n = place window (T+i) ↔ n = T+i) := by
    intro i hi hi' hpos
    refine ⟨fun heq => ?_,fun heq => by rw [heq]⟩
    rcases Nat.le_total n (T+i) with hni | hin
    · exact place_inj hn hni (by omega) heq
    · exact (place_inj hpos hin (by omega) heq.symm).symm
  unfold moveTop
  rw [Bitmap.test_set,or_eq_true,decide_eq_true_eq,hplace,hsame d le_rfl (by omega) (by omega)]
  refine or_congr_right' fun hne => ?_
  split
  · next hd =>
    rw [test_foldl_clear]
    constructor
    · rintro ⟨htest,hcleared⟩
      refine ⟨?_,htest⟩
      by_contra hgt
      refine hcleared (n-T) (mem_range'_1.mpr ⟨by omega,by omega⟩) ?_
      rw [hplace,show T+(n-T) = n by omega]
    rintro ⟨hold,htest⟩
    refine ⟨htest,fun i hi heq => ?_⟩
    obtain ⟨hi1,hi2⟩ := mem_range'_1.mp hi
    rw [hplace] at heq
    have heq' := (hsame i (by omega) (by omega) (by omega)).mp heq
    omega
  next hd =>
  have hzero : ¬n ≤ T := by omega
  have hword : place window n < window := mod_lt _ hw
  rw [Bitmap.test_zero]
  · simp [hzero]
  rw [if_pos]
  rw [shiftRight_eq_div_pow]
  exact Nat.div_le_div_right (by omega)

lemma Reflects.moveTop (h : Reflects bmp window T accepted) (hdvd : window ∣ word) (hw : 0 < window)
    (hd : 0 < d) (hacc : ∀ a ∈ accepted, a ≤ T) :
    Reflects (moveTop window (place window T) d bmp) window (T+d) ((T+d)::accepted) := by
  intro n hn hle hlt
  rw [moveTop_test hdvd hw hn hle hlt,mem_cons]
  refine or_congr_right' fun hne => ?_
  constructor
  · rintro ⟨hnT,htest⟩
    exact (h n hn hnT (by omega)).mp htest
  intro hmem
  have hnT := hacc n hmem
  exact ⟨hnT,(h n hn hnT (by omega)).mpr hmem⟩

structure RingInv (bmp : Nat → BitVec 32) (window T : Nat) (accepted : List Nat) : Prop where
  reflects : Reflects bmp window T accepted
  range : ∀ a ∈ accepted, 0 < a ∧ a ≤ T
  top : T = 0 ∨ T ∈ accepted
  nodup : accepted.Nodup

lemma RingInv.init (window : Nat) : RingInv (fun _ => 0#32) window 0 [] :=
  ⟨fun _ hn hle => absurd hle (Nat.not_le_of_gt hn),nofun,.inl rfl,nodup_nil⟩

lemma RingInv.above (h : RingInv bmp window T accepted) (hdvd : window ∣ word) (hw : 0 < window) (hn : T < n) :
    RingInv (Xfrm.moveTop window (place window T) (n-T) bmp) window n (n::accepted) := by
  have hmove := h.reflects.moveTop hdvd hw (show 0 < n-T by omega) fun a ha => (h.range a ha).2
  rw [show T+(n-T) = n by omega] at hmove
  refine ⟨hmove,?_,.inr mem_cons_self,nodup_cons.mpr ⟨fun hmem => ?_,h.nodup⟩⟩
  · intro a ha
    rcases mem_cons.mp ha with rfl | ha
    · exact ⟨by omega,le_rfl⟩
    have hrange := h.range a ha
    omega
  have hrange := h.range n hmem
  omega

lemma RingInv.inside (h : RingInv bmp window T accepted) (hn : 0 < n) (hle : n ≤ T) (hlt : T < n+window)
    (hnot : n ∉ accepted) : RingInv (Bitmap.set bmp (place window n)) window T (n::accepted) := by
  refine ⟨h.reflects.mark hn hle hlt,?_,h.top.imp id (mem_cons_of_mem n), nodup_cons.mpr ⟨hnot,h.nodup⟩⟩
  exact forall_mem_cons.mpr ⟨⟨hn,hle⟩,h.range⟩

end Reflects

def receiveBmp (r : ReplayEsn × List Nat) (seq : Nat) : ReplayEsn × List Nat :=
  if r.1.checkBmp seq = .accepted then (r.1.advanceBmp seq,seq::r.2) else r

def runBmp (window : Nat) (received : List Nat) : ReplayEsn × List Nat :=
  received.foldl receiveBmp (ReplayEsn.init window,[])

/-- No number was accepted twice; and a number that is larger than all accepted ones, or that is one of
the last `window` numbers up to the largest one and was not accepted, will be accepted. -/
def WindowOk (window : Nat) (r : ReplayEsn × List Nat) : Prop :=
  r.2.Nodup ∧ ∀ s, 0 < s → s < word →
    (∀ a ∈ r.2, a < s) ∨ (s ∉ r.2 ∧ ∃ top ∈ r.2, (∀ a ∈ r.2, a ≤ top) ∧ s ≤ top ∧ top < s+window) →
    r.1.checkBmp s = .accepted

structure BmpInv (window : Nat) (r : ReplayEsn × List Nat) : Prop where
  size : r.1.replayWindow = window
  lt : r.1.seq < word
  ring : RingInv r.1.bmp window r.1.seq r.2

section Dividing
variable {r : ReplayEsn × List Nat} {seq : Nat}

lemma sub32_of_le {a b : Nat} (hba : b ≤ a) (ha : a < word) : sub32 a b = a-b := Align.wrap_sub hba (by omega)

lemma BmpInv.pos_eq (h : BmpInv window r) (hw : 0 < window) (hdvd : window ∣ word) :
    sub32 r.1.seq 1%window = place window r.1.seq := by
  have hpos := Xfrm.pos_eq hw hdvd r.1.seq
  rw [mod_eq_of_lt h.lt] at hpos
  exact hpos

lemma BmpInv.check_iff (h : BmpInv window r) (hw : 0 < window) (hlt : window < word) (hdvd : window ∣ word)
    (hseq : 0 < seq) :
    r.1.checkBmp seq = .accepted ↔ r.1.seq < seq ∨ (seq ≤ r.1.seq ∧ r.1.seq < seq+window ∧ seq ∉ r.2) := by
  have hposeq := h.pos_eq hw hdvd
  unfold ReplayEsn.checkBmp
  rw [h.size,if_neg (Nat.ne_of_gt hw),if_neg (Nat.ne_of_gt hseq),hposeq]
  by_cases habove : seq > r.1.seq
  · rw [if_pos habove]
    exact ⟨fun _ => .inl habove,fun _ => rfl⟩
  have hle : seq ≤ r.1.seq := Nat.le_of_not_gt habove
  rw [if_neg habove,sub32_of_le hle h.lt]
  split
  · next hfar =>
    refine ⟨nofun,fun hor => ?_⟩
    rcases hor with hgt | ⟨-,hin,-⟩
    · exact absurd hgt habove
    · omega
  next hfar =>
  rw [bitBelow_eq hlt hseq hle (by omega)]
  have hbit := h.ring.reflects seq hseq hle (by omega)
  by_cases hmem : seq ∈ r.2
  · rw [if_pos (hbit.mpr hmem)]
    refine ⟨nofun,fun hor => ?_⟩
    rcases hor with hgt | ⟨-,-,hnot⟩
    · exact absurd hgt habove
    · exact absurd hmem hnot
  rw [if_neg (fun htest => hmem (hbit.mp htest))]
  exact ⟨fun _ => .inr ⟨hle,by omega,hmem⟩,fun _ => rfl⟩

lemma check_zero (hw : r.1.replayWindow ≠ 0) : r.1.checkBmp 0 ≠ .accepted := by
  unfold ReplayEsn.checkBmp
  rw [if_neg hw,if_pos rfl]
  exact nofun

lemma BmpInv.receive (h : BmpInv window r) (hw : 0 < window) (hlt : window < word) (hdvd : window ∣ word)
    (hseq : seq < word) : BmpInv window (receiveBmp r seq) := by
  unfold receiveBmp
  split
  · next hcheck =>
    have hpos : 0 < seq := by
      rcases Nat.eq_zero_or_pos seq with rfl | hpos
      · exact absurd hcheck (check_zero (by rw [h.size]; omega))
      · exact hpos
    have hcases := (h.check_iff hw hlt hdvd hpos).mp hcheck
    have hposeq := h.pos_eq hw hdvd
    unfold ReplayEsn.advanceBmp
    rw [h.size,if_neg (Nat.ne_of_gt hw),hposeq]
    split
    · next habove =>
      rw [sub32_of_le (Nat.le_of_lt habove) hseq]
      exact ⟨rfl,hseq,h.ring.above hdvd hw habove⟩
    next habove =>
    have hle : seq ≤ r.1.seq := Nat.le_of_not_gt habove
    obtain ⟨-,hin,hnot⟩ := hcases.resolve_left habove
    rw [sub32_of_le hle h.lt,bitBelow_eq hlt hpos hle hin]
    exact ⟨rfl,h.lt,h.ring.inside hpos hle hin hnot⟩
  next hcheck =>
  exact h

lemma BmpInv.run (hw : 0 < window) (hlt : window < word) (hdvd : window ∣ word) (received : List Nat)
    (hrange : ∀ s ∈ received, s < word) : BmpInv window (runBmp window received) := by
  have hinit : BmpInv window (ReplayEsn.init window,[]) := ⟨rfl,zero_lt_succ _,RingInv.init window⟩
  unfold runBmp
  generalize (ReplayEsn.init window,[]) = r at hinit
  induction received generalizing r with
  | nil => exact hinit
  | cons s received ih =>
    obtain ⟨hs,hrange⟩ := List.forall_mem_cons.mp hrange
    exact ih hrange _ (hinit.receive hw hlt hdvd hs)

lemma BmpInv.windowOk (h : BmpInv window r) (hw : 0 < window) (hlt : window < word) (hdvd : window ∣ word) :
    WindowOk window r := by
  refine ⟨h.ring.nodup,fun s hs _ hor => (h.check_iff hw hlt hdvd hs).mpr ?_⟩
  rcases hor with hall | ⟨hnot,top,htop,hmax,hle,hin⟩
  · rcases h.ring.top with hzero | hmem
    · exact .inl (by omega)
    · exact .inl (hall _ hmem)
  have htopeq : r.1.seq = top := by
    have hupper := (h.ring.range top htop).2
    rcases h.ring.top with hzero | hmem
    · have hpos := (h.ring.range top htop).1
      omega
    · exact Nat.le_antisymm (hmax _ hmem) hupper
  exact .inr ⟨by omega,by omega,hnot⟩

end Dividing

lemma checkBmp_first (hw : 0 < window) : (ReplayEsn.init window).checkBmp 1 = .accepted := by
  unfold ReplayEsn.checkBmp ReplayEsn.init
  rw [if_neg (Nat.ne_of_gt hw),if_neg Nat.one_ne_zero,if_pos Nat.zero_lt_one]

lemma advanceBmp_first (hw : 1 < window) : (ReplayEsn.init window).advanceBmp 1 =
    ⟨1,0,window,Bitmap.set (fun _ => 0#32) ((sub32 0 1%window+1)%word%window)⟩ := by
  unfold ReplayEsn.advanceBmp ReplayEsn.init moveTop
  dsimp only
  rw [if_neg (by omega),if_pos Nat.zero_lt_one,show sub32 1 0 = 1 from rfl,if_pos hw]
  rfl

/-- With a window that does not divide 2³², the first packet is accepted twice. -/
theorem one_accepted_twice (hw : 0 < window) (hlt : window < word) (hdvd : ¬window ∣ word) :
    (runBmp window [1,1]).2 = [1,1] := by
  have hone : 1 < window := by
    by_contra hle
    obtain rfl : window = 1 := by omega
    exact hdvd (Nat.one_dvd word)
  -- the bit that is set is not the one that will be read
  have hbit : (sub32 0 1%window+1)%word%window ≠ 0 := by
    intro heq
    have hmod := mod_lt (sub32 0 1) hw
    have hdiv := div_add_mod (sub32 0 1) window
    rw [mod_eq_of_lt (show sub32 0 1%window+1 < word by omega)] at heq
    have hfull : sub32 0 1%window+1 = window := by
      by_contra hne
      rw [mod_eq_of_lt (show sub32 0 1%window+1 < window by omega)] at heq
      omega
    refine hdvd ⟨sub32 0 1/window+1,?_⟩
    rw [Nat.mul_add,Nat.mul_one]
    have hword : sub32 0 1+1 = word := rfl
    omega
  have hsecond : ((ReplayEsn.init window).advanceBmp 1).checkBmp 1 = .accepted := by
    rw [advanceBmp_first hone]
    unfold ReplayEsn.checkBmp
    dsimp only
    rw [if_neg (Nat.ne_of_gt hw),if_neg Nat.one_ne_zero,if_neg (Nat.lt_irrefl 1),show sub32 1 1 = 0 from rfl,
      if_neg (by omega),zero_mod,show bitBelow window 0 0 = 0 from zero_mod window,if_neg]
    rw [Bitmap.test_set,or_eq_true,decide_eq_true_eq]
    rintro (heq | htest)
    · exact hbit heq.symm
    · exact absurd htest (by decide)
  unfold runBmp
  rw [List.foldl_cons,List.foldl_cons,List.foldl_nil,receiveBmp,receiveBmp]
  rw [if_pos (checkBmp_first hw)]
  rw [if_pos hsecond]

/-- The window works for every sequence of packets if and only if its size divides 2³². -/
theorem window_ok_iff_dvd (window : Nat) (hw : 0 < window) (hlt : window < word) :
    (∀ received : List Nat, (∀ s ∈ received, s < word) → WindowOk window (runBmp window received)) ↔
      window ∣ word := by
  constructor
  · intro h
    by_contra hdvd
    have hok := (h [1,1] (by decide)).1
    rw [one_accepted_twice hw hlt hdvd] at hok
    exact absurd hok (by decide)
  intro hdvd received hrange
  exact (BmpInv.run hw hlt hdvd received hrange).windowOk hw hlt hdvd

theorem window_ok_iff_dvd_sixty_four :
    (∀ received : List Nat, (∀ s ∈ received, s < word) → WindowOk 64 (runBmp 64 received)) ↔ 64 ∣ word :=
  window_ok_iff_dvd 64 (by decide) (by decide)

/-- A window of 33 numbers in a bitmap of two words. -/
theorem window_of_33_accepts_twice : ¬WindowOk 33 (runBmp 33 [1,1]) := by
  intro h
  have hok := h.1
  exact absurd hok (by decide)

end LinuxToradex.Xfrm
