import LinuxToradex.Foundation.Align
import LinuxToradex.Xfrm.Replay

/-! Only the low half of a number is received. Its high half is reconstructed from the top of the window,
for the 2³² numbers that begin with the bottom of the window. -/
namespace LinuxToradex.Xfrm
open Nat

def ReplayEsn.top (x : ReplayEsn) : Nat := x.seqHi*word+x.seq

/-- The low half of a number is checked, and the window is advanced if it was accepted. -/
def receiveEsn (r : ReplayEsn × List Nat) (s : Nat) : ReplayEsn × List Nat :=
  if r.1.checkEsn (s%word) = .accepted then (r.1.advanceEsn (s%word),s::r.2) else r

def Near (window T s : Nat) : Prop := 0 < s ∧ s < word*word ∧ s+window ≤ T+word ∧ T < s+window

instance (window T s : Nat) : Decidable (Near window T s) := inferInstanceAs (Decidable (_ ∧ _))

def AllNear (window : Nat) : ReplayEsn × List Nat → List Nat → Prop
  | _, [] => True
  | r, s::received => Near window r.1.top s ∧ AllNear window (receiveEsn r s) received

instance decidableAllNear (window : Nat) : ∀ (r : ReplayEsn × List Nat) (received : List Nat),
    Decidable (AllNear window r received)
  | _, [] => isTrue trivial
  | r, s::received =>
    have : Decidable (AllNear window (receiveEsn r s) received) := decidableAllNear window (receiveEsn r s) received
    inferInstanceAs (Decidable (_ ∧ _))

structure EsnInv (window : Nat) (r : ReplayEsn × List Nat) : Prop where
  size : r.1.replayWindow = window
  seq : r.1.seq < word
  seqHi : r.1.seqHi < word
  ring : RingInv r.1.bmp window r.1.top r.2

section Step
variable {window : Nat} {r : ReplayEsn × List Nat} {s : Nat}

lemma EsnInv.seqhi_eq (h : EsnInv window r) (hw : 0 < window) (hlt : window < word)
    (hs : Near window r.1.top s) : r.1.seqhi (s%word) = s/word := by
  obtain ⟨hpos,hmax,hupper,hlower⟩ := hs
  have hseq := h.seq
  unfold ReplayEsn.seqhi sub32
  rw [h.size]
  unfold ReplayEsn.top at hupper hlower
  unfold word at *
  dsimp only
  split
  · split <;> omega
  · split <;> omega

lemma Near.diff_eq (hw : 0 < window) (hlt : window < word)
    (hs : Near window r.1.top s) (hle : s ≤ r.1.top) : sub32 r.1.seq (s%word) = r.1.top-s ∧
      (word-1-s%word+r.1.seq+1)%word = r.1.top-s := by
  obtain ⟨hpos,hmax,hupper,hlower⟩ := hs
  unfold sub32 ReplayEsn.top at *
  unfold word at *
  omega

lemma EsnInv.above_iff (h : EsnInv window r) (hw : 0 < window) (hlt : window < word)
    (hs : Near window r.1.top s) : (r.1.seq ≥ sub32 window 1 →
      (s%word > r.1.seq ∨ s%word < (sub32 r.1.seq window+1)%word ↔ r.1.top < s)) ∧ (¬r.1.seq ≥ sub32 window 1 →
      (s%word > r.1.seq ∧ s%word < (sub32 r.1.seq window+1)%word ↔ r.1.top < s)) := by
  obtain ⟨hpos,hmax,hupper,hlower⟩ := hs
  have hseq := h.seq
  unfold sub32 ReplayEsn.top at *
  unfold word at *
  constructor
  · intro hsame
    omega
  intro hspan
  omega

lemma Near.not_zero (hw : 0 < window) (hlt : window < word)
    (hs : Near window r.1.top s) : ¬(s%word = 0 ∧ r.1.seqHi = 0 ∧ r.1.seq < sub32 window 1) := by
  obtain ⟨hpos,hmax,hupper,hlower⟩ := hs
  unfold sub32 ReplayEsn.top at *
  unfold word at *
  rintro ⟨hzero,hhi,hspan⟩
  omega

section
variable (h : EsnInv window r) (hw : 0 < window)
include h hw

lemma EsnInv.pos_eq (hdvd : window ∣ word) : sub32 r.1.seq 1%window = place window r.1.top := by
  rw [← Xfrm.pos_eq hw hdvd,ReplayEsn.top,mul_comm,mul_add_mod,mod_eq_of_lt h.seq]

/-- A number is accepted if and only if it is above the top or was not accepted before. -/
theorem EsnInv.check_iff (hlt : window < word) (hdvd : window ∣ word) (hs : Near window r.1.top s) :
    r.1.checkEsn (s%word) = .accepted ↔ r.1.top < s ∨ (s ≤ r.1.top ∧ s ∉ r.2) := by
  obtain ⟨hsame,hspan⟩ := h.above_iff hw hlt hs
  have hpos := hs.1
  have hlower := hs.2.2.2
  -- the end of the check, for a number that is not above the top
  have hend : s ≤ r.1.top → ∀ diff, diff = r.1.top-s → ((if diff ≥ window then Verdict.outside
        else if Bitmap.test r.1.bmp (bitBelow window (place window r.1.top) diff) then .replayed
        else .accepted) = .accepted ↔ r.1.top < s ∨ (s ≤ r.1.top ∧ s ∉ r.2)) := by
    rintro hle diff rfl
    rw [if_neg (by omega),bitBelow_eq hlt hpos hle hlower]
    have hbit := h.ring.reflects s hpos hle hlower
    by_cases hmem : s ∈ r.2
    · rw [if_pos (hbit.mpr hmem)]
      refine ⟨nofun,fun hor => ?_⟩
      rcases hor with hgt | ⟨-,hnot⟩
      · omega
      · exact absurd hmem hnot
    rw [if_neg (fun htest => hmem (hbit.mp htest))]
    exact ⟨fun _ => .inr ⟨hle,hmem⟩,fun _ => rfl⟩
  unfold ReplayEsn.checkEsn
  rw [h.size,if_neg hw.ne',h.pos_eq hw hdvd,if_neg (hs.not_zero hw hlt)]
  split
  · next hsub =>
    by_cases habove : r.1.top < s
    · rw [if_pos ((hsame hsub).mpr habove)]
      exact ⟨fun _ => .inl habove,fun _ => rfl⟩
    rw [if_neg (fun hor => habove ((hsame hsub).mp hor))]
    have hle : s ≤ r.1.top := Nat.le_of_not_gt habove
    exact hend hle _ (hs.diff_eq hw hlt hle).1
  next hsub =>
  by_cases habove : r.1.top < s
  · rw [if_pos ((hspan hsub).mpr habove)]
    exact ⟨fun _ => .inl habove,fun _ => rfl⟩
  rw [if_neg (fun hand => habove ((hspan hsub).mp hand))]
  have hle : s ≤ r.1.top := Nat.le_of_not_gt habove
  obtain ⟨hdiff,hdiff'⟩ := hs.diff_eq hw hlt hle
  split
  · exact hend hle _ hdiff'
  · exact hend hle _ hdiff

lemma EsnInv.wrap_iff (hlt : window < word) (hs : Near window r.1.top s) :
    ((sub32 (s/word) r.1.seqHi = 0 ∧ s%word > r.1.seq) ∨
      (0 < sub32 (s/word) r.1.seqHi ∧ sub32 (s/word) r.1.seqHi < 2147483648) ↔ r.1.top < s) ∧
    (r.1.top < s → (if sub32 (s/word) r.1.seqHi = 0 then sub32 (s%word) r.1.seq
        else (word-1-r.1.seq+s%word+1)%word) = s-r.1.top ∧
      (if 0 < sub32 (s/word) r.1.seqHi ∧ sub32 (s/word) r.1.seqHi < 2147483648 then (r.1.seqHi+1)%word
        else r.1.seqHi) = s/word) := by
  obtain ⟨hpos,hmax,hupper,hlower⟩ := hs
  have hseq := h.seq
  unfold sub32 ReplayEsn.top at *
  unfold word at *
  constructor
  · omega
  intro habove
  constructor
  · split <;> omega
  · split <;> omega

lemma EsnInv.receive (hlt : window < word) (hdvd : window ∣ word) (hs : Near window r.1.top s) :
    EsnInv window (receiveEsn r s) := by
  unfold receiveEsn
  split
  · next hcheck =>
    have hcases := (h.check_iff hw hlt hdvd hs).mp hcheck
    obtain ⟨hiff,hvalues⟩ := h.wrap_iff hw hlt hs
    have hmod : s%word < word := mod_lt s (by decide)
    unfold ReplayEsn.advanceEsn
    rw [h.size,if_neg hw.ne',h.pos_eq hw hdvd,h.seqhi_eq hw hlt hs]
    by_cases habove : r.1.top < s
    · obtain ⟨hdiff,hhi⟩ := hvalues habove
      rw [if_pos (hiff.mpr habove),hdiff,hhi]
      have htop : s/word*word+s%word = s := by rw [mul_comm]; exact div_add_mod s word
      have hring := h.ring.above hdvd hw habove
      refine ⟨rfl,hmod,Nat.div_lt_of_lt_mul hs.2.1,?_⟩
      unfold ReplayEsn.top at hring ⊢
      rw [htop]
      exact hring
    rw [if_neg (fun hor => habove (hiff.mp hor))]
    have hle : s ≤ r.1.top := Nat.le_of_not_gt habove
    obtain ⟨-,hnot⟩ := hcases.resolve_left habove
    rw [(hs.diff_eq hw hlt hle).1,bitBelow_eq hlt hs.1 hle hs.2.2.2]
    exact ⟨rfl,h.seq,h.seqHi,h.ring.inside hs.1 hle hs.2.2.2 hnot⟩
  next hcheck =>
  exact h

end

end Step

lemma EsnInv.run {window : Nat} {r : ReplayEsn × List Nat} (h : EsnInv window r) (hw : 0 < window)
    (hlt : window < word) (hdvd : window ∣ word) (received : List Nat) (hnear : AllNear window r received) :
    EsnInv window (received.foldl receiveEsn r) := by
  induction received generalizing r with
  | nil => exact h
  | cons s received ih => exact ih (h.receive hw hlt hdvd hnear.1) hnear.2

/-- For a window that is a power of two, and numbers that are near the top when they are received: the high
half of the next number is reconstructed, no number is accepted twice, and the state holds the largest
accepted number. -/
theorem esn_reconstructs (window : Nat) (hw : Align.IsPow2 window) (received : List Nat)
    (hnear : AllNear window (ReplayEsn.init window,[]) received) :
    let r := received.foldl receiveEsn (ReplayEsn.init window,[])
    (∀ s, Near window r.1.top s → r.1.seqhi (s%word) = s/word) ∧ r.2.Nodup ∧
      (∀ a ∈ r.2, a ≤ r.1.top) ∧ (r.1.top = 0 ∨ r.1.top ∈ r.2) := by
  intro r
  have hpos := hw.pos
  have hlt : window < word := hw.lt
  have hdvd : window ∣ word := by
    obtain ⟨k,hk,rfl⟩ := hw
    have hword : word = 2^32 := by decide
    rw [hword]
    exact pow_dvd_pow 2 hk.le
  have htop : (ReplayEsn.init window).top = 0 := by simp [ReplayEsn.top,ReplayEsn.init]
  have hinit : EsnInv window (ReplayEsn.init window,[]) :=
    ⟨rfl,zero_lt_succ _,zero_lt_succ _,by rw [htop]; exact RingInv.init window⟩
  have hinv : EsnInv window r := hinit.run hpos hlt hdvd received hnear
  exact ⟨fun s hs => hinv.seqhi_eq hpos hlt hs,hinv.ring.nodup,fun a ha => (hinv.ring.range a ha).2, hinv.ring.top⟩

/-- Across a wrap of the low half, with a late number and a repeated one. -/
theorem esn_reconstructs_across_wrap :
    let r := [4294967200,4294967310,4294967290,4294967290].foldl receiveEsn (ReplayEsn.init 64,[])
    r.2 = [4294967290,4294967310,4294967200] ∧ r.1.top = 4294967310 ∧ r.2.Nodup := by
  refine ⟨by decide +kernel,by decide +kernel,?_⟩
  exact (esn_reconstructs 64 ⟨6,by decide,rfl⟩ [4294967200,4294967310,4294967290,4294967290] (by decide +kernel)).2.1

/-- A number that is exactly the window below the top has the low half of one above it. -/
theorem window_below_is_not_reconstructed :
    let r := [100].foldl receiveEsn (ReplayEsn.init 32,[])
    r.1.top = 68+32 ∧ r.1.seqhi (68%word) = 1 ∧ 68/word = 0 := by
  decide +kernel

end LinuxToradex.Xfrm
