import Mathlib

/-! `fs/jffs2/compr_rtime.c`. A buffer gives a byte to every offset; `positions` holds numbers of type
`short`. -/
namespace LinuxToradex.Jffs2.Rtime

open Function Nat

abbrev Buf := Int → UInt8

def toShort (n : Int) : Int := n.bmod 65536

def runLength (data : Buf) (sourcelen pos backpos : Int) : Nat → Nat
  | 0 => 0
  | n+1 =>
    if backpos < pos ∧ pos < sourcelen ∧ data pos = data backpos then
      runLength data sourcelen (pos+1) (backpos+1) n+1
    else 0

structure Progress where
  pos : Int
  outpos : Int
  positions : UInt8 → Int
  out : Buf

def Progress.round (c : Progress) (data : Buf) (sourcelen : Int) : Progress :=
  let value := data c.pos
  let runlen := runLength data sourcelen (c.pos+1) (c.positions value) 255
  { pos := c.pos+1+runlen
    outpos := c.outpos+2
    positions := update c.positions value (toShort (c.pos+1))
    out := update (update c.out c.outpos value) (c.outpos+1) (UInt8.ofNat runlen) }

def compressLoop (data : Buf) (sourcelen dstlen : Int) (c : Progress) : Progress :=
  if c.pos < sourcelen ∧ c.outpos ≤ (dstlen-2)%2^32 then
    compressLoop data sourcelen dstlen (c.round data sourcelen)
  else c
termination_by (sourcelen-c.pos).toNat
decreasing_by
  dsimp only [Progress.round]
  omega

/-- The bytes consumed, the bytes produced and the output, or `none` for `-1`. -/
def compress (data out : Buf) (sourcelen dstlen : Int) : Option (Int × Int × Buf) :=
  let c := compressLoop data sourcelen dstlen ⟨0,0,fun _ => 0,out⟩
  if c.outpos ≥ c.pos then none else some (c.pos,c.outpos,c.out)

def copyBytes (out : Buf) (outpos backoffs : Int) : Nat → Buf
  | 0 => out
  | n+1 => copyBytes (update out outpos (out backoffs)) (outpos+1) (backoffs+1) n

def memcpy (out : Buf) (dest src : Int) (n : Nat) : Buf := fun i =>
  if dest ≤ i ∧ i < dest+n then out (src+(i-dest)) else out i

def copyRun (out : Buf) (outpos backoffs : Int) (n : Nat) : Buf :=
  if n = 0 then out
  else if backoffs+n ≥ outpos then copyBytes out outpos backoffs n
  else memcpy out outpos backoffs n

def decompressLoop (data : Buf) (destlen pos outpos : Int) (positions : UInt8 → Int) (out : Buf) : Buf :=
  if outpos < destlen then
    let value := data pos
    let n := (data (pos+1)).toNat
    decompressLoop data destlen (pos+2) (outpos+1+n) (update positions value (toShort (outpos+1)))
      (copyRun (update out outpos value) (outpos+1) (positions value) n)
  else out
termination_by (destlen-outpos).toNat

def decompress (data out : Buf) (destlen : Int) : Buf := decompressLoop data destlen 0 0 (fun _ => 0) out

variable {data out src : Buf} {sourcelen dstlen pos back outpos s d : Int} {n m : Nat} {c : Progress}

lemma toShort_of_lt (h0 : 0 ≤ pos) (h : pos < 32768) : toShort pos = pos :=
  Int.bmod_eq_of_le (by omega) (by omega)

lemma runLength_le : runLength data sourcelen pos back m ≤ m := by
  induction m generalizing pos back with
  | zero => exact le_refl 0
  | succ m ih =>
    rw [runLength]
    split
    · exact succ_le_succ ih
    · exact zero_le _

lemma runLength_spec (hpos : pos ≤ sourcelen) (hn : runLength data sourcelen pos back m = n) :
    pos+n ≤ sourcelen ∧ ∀ j : Nat, j < n → data (pos+j) = data (back+j) := by
  induction m generalizing pos back n with
  | zero =>
    subst hn
    exact ⟨by simpa [runLength] using hpos,fun j hj => absurd hj (Nat.not_lt_zero j)⟩
  | succ m ih =>
    rw [runLength] at hn
    split at hn
    · next hgo =>
      obtain ⟨hle,heq⟩ := @ih (pos+1) (back+1) _ (by omega) rfl
      refine ⟨by omega,fun j hj => ?_⟩
      cases j with
      | zero => simpa using hgo.2.2
      | succ j =>
        have hstep := heq j (by omega)
        rwa [Int.add_assoc,Int.add_assoc,Int.add_comm 1] at hstep
    next hgo =>
    subst hn
    exact ⟨by omega,fun j hj => absurd hj (Nat.not_lt_zero j)⟩

def Agrees (data out : Buf) (n : Int) : Prop := ∀ i, 0 ≤ i → i < n → out i = data i

lemma Agrees.snoc {b : UInt8} (h : Agrees data out pos) (hb : b = data pos) :
    Agrees data (update out pos b) (pos+1) := by
  intro i h0 hi
  by_cases heq : i = pos
  · rw [heq,update_self,hb]
  rw [update_of_ne heq]
  exact h i h0 (by omega)

lemma copyBytes_agrees (h : Agrees data out pos) (h0 : 0 ≤ back) (hback : back < pos)
    (hrun : ∀ j : Nat, j < n → data (pos+j) = data (back+j)) : Agrees data (copyBytes out pos back n) (pos+n) := by
  induction n generalizing out pos back with
  | zero => simpa [copyBytes] using h
  | succ n ih =>
    have hfirst : out back = data pos := by
      rw [h back h0 hback]
      simpa using (hrun 0 (succ_pos n)).symm
    have hrest := @ih _ _ (back+1) (h.snoc hfirst) (by omega) (by omega) fun j hj => by
      have hstep := hrun (j+1) (by omega)
      rwa [Int.natCast_succ,Int.add_comm (j : Int),← Int.add_assoc,← Int.add_assoc] at hstep
    rwa [Int.natCast_succ,Int.add_comm (n : Int),← Int.add_assoc]

lemma copyRun_agrees (h : Agrees data out pos) (h0 : 0 ≤ back) (hback : back < pos)
    (hrun : ∀ j : Nat, j < n → data (pos+j) = data (back+j)) : Agrees data (copyRun out pos back n) (pos+n) := by
  rw [copyRun]
  split
  · next hn => simpa [hn] using h
  split
  · exact copyBytes_agrees h h0 hback hrun
  intro i hi0 hi
  rw [memcpy]
  split
  · obtain ⟨j,hj⟩ := Int.eq_ofNat_of_zero_le (show 0 ≤ i-pos by omega)
    rw [hj,h _ (by omega) (by omega),← hrun j (by omega),← hj,show pos+(i-pos) = i by omega]
  · exact h i hi0 (by omega)

lemma compressLoop_frame (data : Buf) (sourcelen : Int) (c : Progress) (hdst : 2 ≤ dstlen) (hword : dstlen < 2^32) :
    c.pos ≤ (compressLoop data sourcelen dstlen c).pos ∧ c.outpos ≤ (compressLoop data sourcelen dstlen c).outpos ∧
    (c.outpos ≤ dstlen → (compressLoop data sourcelen dstlen c).outpos ≤ dstlen) ∧
    ∀ i, i < c.outpos ∨ dstlen ≤ i → (compressLoop data sourcelen dstlen c).out i = c.out i := by
  fun_induction compressLoop data sourcelen dstlen c with
  | case1 c hgo ih =>
    generalize compressLoop data sourcelen dstlen (c.round data sourcelen) = r at ih ⊢
    obtain ⟨hpos,hout,hle,hsame⟩ := ih
    dsimp only [Progress.round] at hpos hout hle hsame
    refine ⟨by omega,by omega,fun _ => hle (by omega),fun i hi => ?_⟩
    rw [hsame i (by omega),update_of_ne (by omega),update_of_ne (by omega)]
  | case2 c hstop => exact ⟨le_rfl,le_rfl,id,fun i _ => rfl⟩

/-- The decompressor keeps in step with the compressor. -/
theorem decompressLoop_compressLoop (hshort : sourcelen < 32768) (hdst : 2 ≤ dstlen) (hword : dstlen < 2^32)
    (h0 : 0 ≤ c.pos) (hpos : c.pos ≤ sourcelen) (hback : ∀ v, 0 ≤ c.positions v ∧ c.positions v ≤ c.pos)
    (hsrc : ∀ i, c.outpos ≤ i → i < (compressLoop data sourcelen dstlen c).outpos →
      src i = (compressLoop data sourcelen dstlen c).out i) (hout : Agrees data out c.pos) :
    Agrees data (decompressLoop src (compressLoop data sourcelen dstlen c).pos c.outpos c.pos c.positions out)
      (compressLoop data sourcelen dstlen c).pos := by
  fun_induction compressLoop data sourcelen dstlen c generalizing out with
  | case1 c hgo ih =>
    obtain ⟨hle,hroom,-,hsame⟩ := compressLoop_frame data sourcelen (c.round data sourcelen) hdst hword
    generalize compressLoop data sourcelen dstlen (c.round data sourcelen) = r at *
    dsimp only [Progress.round] at hle hroom hsame ih
    generalize hrunlen : runLength data sourcelen (c.pos+1) (c.positions (data c.pos)) 255 = runlen at *
    have hvalue : src c.outpos = data c.pos := by
      rw [hsrc _ le_rfl (by omega),hsame _ (by omega),update_of_ne (by omega),update_self]
    have hlength : (src (c.outpos+1)).toNat = runlen := by
      rw [hsrc _ (by omega) (by omega),hsame _ (by omega),update_self,← hrunlen]
      exact UInt8.toNat_ofNat_of_lt' (lt_succ_of_le runLength_le)
    obtain ⟨hend,hrun⟩ := runLength_spec (by omega) hrunlen
    obtain ⟨hb0,hb⟩ := hback (data c.pos)
    rw [decompressLoop,if_pos (by omega),hvalue,hlength]
    refine ih (by omega) (by omega) (fun v => ?_) (fun i hi hlt => hsrc i (by omega) hlt) ?_
    · rw [toShort_of_lt (by omega) (by omega)]
      by_cases hv : v = data c.pos
      · rw [hv,update_self]
        omega
      rw [update_of_ne hv]
      have hv' := hback v
      omega
    · exact copyRun_agrees (hout.snoc rfl) hb0 (by omega) hrun
  | case2 c hstop =>
    rw [decompressLoop,if_neg (Int.lt_irrefl _)]
    exact hout

end LinuxToradex.Jffs2.Rtime
