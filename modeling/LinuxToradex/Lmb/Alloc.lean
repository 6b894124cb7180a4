import LinuxToradex.Lmb.Runs

/-! `__lmb_alloc_base` looks for a free block from the top of the memory down, below each reserved region
that is in the way. -/
namespace LinuxToradex.Lmb
open Slots Align Nat

namespace Table

def overlapsLoop (rgn : Table) (base size : Nat) : Nat → Nat → Option Nat
  | 0, _ => none
  | k+1, i =>
    if addrsOverlap base size (rgn.region i).base (rgn.region i).size then some i
    else overlapsLoop rgn base size k (i+1)

def overlapsRegion (rgn : Table) (base size : Nat) : Option Nat := rgn.overlapsLoop base size rgn.cnt 0

/-- The inner loop of `__lmb_alloc_base`: the block that is found, if any; `none` if there are not
enough rounds. -/
def hopLoop (reserved : Table) (size align lmbbase : Nat) : Nat → Nat → Option (Option Nat)
  | 0, _ => none
  | k+1, base =>
    if base ≠ 0 ∧ lmbbase ≤ base then
      match reserved.overlapsRegion base size with
      | none => some (some base)
      | some j =>
        let resBase := (reserved.region j).base
        if resBase < size then some none
        else hopLoop reserved size align lmbbase k (down ((resBase+word-size)%word) align)
    else some none

end Table

namespace Blocks

def firstBase (r : Region) (size align maxAddr : Nat) : Option Nat :=
  if r.size < size then none
  else if maxAddr = 0 then some (down ((r.base+r.size+word-size)%word) align)
  else if r.base < maxAddr then
    some (down ((min ((r.base+r.size)%word) maxAddr+word-size)%word) align)
  else none

/-- The outer loop of `__lmb_alloc_base`; `i` is one more than in the source. -/
def findBase (lmb : Blocks) (size align maxAddr : Nat) : Nat → Option (Option Nat)
  | 0 => some none
  | i+1 =>
    let r := lmb.memory.region i
    match firstBase r size align maxAddr with
    | none => findBase lmb size align maxAddr i
    | some base =>
      match lmb.reserved.hopLoop size align r.base (base+1) base with
      | none => none
      | some none => findBase lmb size align maxAddr i
      | some (some b) => some (some b)

def allocBase (lmb : Blocks) (size align maxAddr : Nat) : Option (Nat × Blocks) :=
  match lmb.findBase size align maxAddr lmb.memory.cnt with
  | none => none
  | some none => some (0,lmb)
  | some (some b) => (lmb.reserved.addRegion b (up size align)).map fun r =>
      (if r.1 < 0 then 0 else b,{lmb with reserved := r.2})

end Blocks

namespace Table

/-- The table is sorted and disjoint, or it is as it was made; no region wraps. -/
def Apart (t : Table) : Prop :=
  t.cnt ≤ maxLmbRegions ∧ ((t.Dummy ∧ (t.region 0).base < word) ∨
    (∀ i < t.cnt, (t.region i).Valid) ∧ t.Sorted 0)

variable {t : Table} {base size align i : Nat}

lemma Apart.lt (h : t.Apart) (hi : i < t.cnt) : (t.region i).base+(t.region i).size < word := by
  rcases h.2 with ⟨⟨hcnt,hsize⟩,hbase⟩ | ⟨hvalid,-⟩
  · obtain rfl : i = 0 := by omega
    omega
  · exact (hvalid i hi).lt

lemma Apart.below {j : Nat} (h : t.Apart) (hij : i < j) (hj : j < t.cnt) :
    (t.region i).base+(t.region i).size ≤ (t.region j).base := by
  rcases h.2 with ⟨⟨hcnt,-⟩,-⟩ | ⟨-,hsorted⟩
  · omega
  · exact hsorted i j hij hj

lemma addrsOverlap_iff {base1 size1 base2 size2 : Nat} (h1 : base1+size1 < word)
    (h2 : base2+size2 < word) : addrsOverlap base1 size1 base2 size2 = true ↔
      base1 < base2+size2 ∧ base2 < base1+size1 := by
  unfold addrsOverlap
  rw [mod_eq_of_lt h1,mod_eq_of_lt h2,Bool.and_eq_true,decide_eq_true_eq,decide_eq_true_eq]

lemma overlapsLoop_spec (h : t.Apart) (hlt : base+size < word) : ∀ k i, i+k = t.cnt →
    (t.overlapsLoop base size k i = none ∧ ∀ j, i ≤ j → j < t.cnt →
      base+size ≤ (t.region j).base ∨ (t.region j).base+(t.region j).size ≤ base) ∨
    ∃ j < t.cnt, t.overlapsLoop base size k i = some j ∧
      base < (t.region j).base+(t.region j).size ∧ (t.region j).base < base+size := by
  intro k
  induction k with
  | zero => exact fun i hi => .inl ⟨rfl,fun j hij hj => by omega⟩
  | succ k ih =>
    intro i hi
    have hiff := addrsOverlap_iff hlt (h.lt (i := i) (by omega))
    rw [overlapsLoop]
    split
    · next hover => exact .inr ⟨i,by omega,rfl,hiff.mp hover⟩
    next hover =>
    rcases ih (i+1) (by omega) with ⟨heq,hall⟩ | hfound
    · refine .inl ⟨heq,fun j hij hj => ?_⟩
      rcases lt_or_eq_of_le hij with hij | rfl
      · exact hall j hij hj
      have hnot := mt hiff.mpr hover
      omega
    · exact .inr hfound

structure Candidate (reserved : Table) (size align lmbbase b : Nat) : Prop where
  nonzero : b ≠ 0
  aligned : align ∣ b
  above : lmbbase ≤ b
  free : reserved.Free ⟨b,size⟩

/-- The search finds the highest candidate that is not above its start. -/
theorem hopLoop_spec (h : t.Apart) (hsize : 0 < size) (halign : IsPow2 align) (lmbbase : Nat) :
    ∀ k base, base < k → align ∣ base → base+size < word →
      (∃ b ≤ base, t.hopLoop size align lmbbase k base = some (some b) ∧ t.Candidate size align lmbbase b ∧
        ∀ b' ≤ base, t.Candidate size align lmbbase b' → b' ≤ b) ∨ (t.hopLoop size align lmbbase k base = some none ∧
        ∀ b ≤ base, ¬t.Candidate size align lmbbase b) := by
  intro k
  induction k with
  | zero => exact fun base hlt => absurd hlt (Nat.not_lt_zero base)
  | succ k ih =>
    intro base hk hdvd hlt
    have hword : word = 4294967296 := rfl
    rw [hopLoop]
    split
    · next hgo =>
      rcases overlapsLoop_spec h hlt t.cnt 0 (zero_add _) with ⟨hnone,hfree⟩ | ⟨j,hj,hsome,hover⟩
      · have heq : t.overlapsRegion base size = none := hnone
        rw [heq]
        refine .inl ⟨base,le_refl base,rfl,⟨hgo.1,hdvd,hgo.2,fun j hj => hfree j (zero_le j) hj⟩,?_⟩
        exact fun b' hb' _ => hb'
      have heq : t.overlapsRegion base size = some j := hsome
      rw [heq]
      dsimp only
      -- a candidate is not between the region and the block that overlaps it
      have hbelow : ∀ b ≤ base, t.Candidate size align lmbbase b → b+size ≤ (t.region j).base := by
        intro b hb hcand
        rcases hcand.free j hj with hlow | hhigh
        · exact hlow
        dsimp only at hhigh
        omega
      split
      · next hsmall =>
        refine .inr ⟨rfl,fun b hb hcand => ?_⟩
        have hle := hbelow b hb hcand
        omega
      next hsmall =>
      rw [Align.wrap_sub (by omega) (by omega)]
      have hdown := down_le (show (t.region j).base-size < 4294967296 by omega) halign
      have hdvd' := dvd_down (show (t.region j).base-size < 4294967296 by omega) halign
      have hnext : ∀ b ≤ base, t.Candidate size align lmbbase b → b ≤ down ((t.region j).base-size) align := by
        intro b hb hcand
        have hle := hbelow b hb hcand
        exact le_down (by omega) halign (by omega) hcand.aligned
      rcases ih _ (by omega) hdvd' (by omega) with ⟨b,hb,hloop,hcand,hbest⟩ | ⟨hloop,hnone⟩
      · exact .inl ⟨b,by omega,hloop,hcand,fun b' hb' hcand' => hbest b' (hnext b' hb' hcand') hcand'⟩
      · exact .inr ⟨hloop,fun b hb hcand => hnone b (hnext b hb hcand) hcand⟩
    next hgo =>
    refine .inr ⟨rfl,fun b hb hcand => hgo ⟨?_,hcand.above.trans hb⟩⟩
    have hne := hcand.nonzero
    omega

lemma Proper.apart {t : Table} (h : t.Proper 0) : t.Apart :=
  ⟨h.cnt_le,.inr ⟨fun i hi => h.valid i (.inl hi),h.sorted⟩⟩

lemma Apart.addRegion {r : Region} (h : t.Apart) (hr : r.Valid) (hfree : t.Free r)
    (hfits : t.cnt = 0 → t.FitsEmptied r) : ∃ ret t', t.addRegion r.base r.size = some (ret,t') ∧ t'.Apart ∧
      (ret < 0 → t.cnt = maxLmbRegions) ∧ (0 ≤ ret → ∀ a, r.Has a → t'.Holds a) := by
  rcases h.2 with ⟨hdummy,-⟩ | ⟨hvalid,hsorted⟩
  · obtain ⟨t',hadd,hproper,hholds⟩ := hdummy.addRegion 0 hr
    exact ⟨0,t',hadd,hproper.apart,fun hneg => absurd hneg (Int.lt_irrefl 0), fun _ a => (hholds a).mpr⟩
  by_cases hcnt : t.cnt = 0
  · obtain ⟨t',hadd,hproper,hholds⟩ := addRegion_emptied 0 hcnt hr (hfits hcnt)
    exact ⟨0,t',hadd,hproper.apart,fun hneg => absurd hneg (Int.lt_irrefl 0), fun _ a => (hholds a).mpr⟩
  have hpos := Nat.pos_of_ne_zero hcnt
  have hproper : t.Proper 0 := by
    refine ⟨h.1,?_,hsorted⟩
    rintro i (hi | rfl)
    · exact hvalid i hi
    · exact hvalid 0 hpos
  obtain ⟨ret,t',hadd,hproper',hneg,-,hholds⟩ :=
    hproper.addRegion (zero_le 1) hpos hr hfree
  exact ⟨ret,t',hadd,hproper'.apart,fun hlt => (hneg.mp hlt).1, fun hle a hhas => (hholds hle a).mpr (.inl hhas)⟩

end Table

namespace Blocks
variable {lmb : Blocks} {size align maxAddr : Nat}

/-- What a caller may be given: an aligned block of one memory region, below the limit and apart
from what is reserved. -/
structure Suitable (lmb : Blocks) (size align maxAddr b : Nat) : Prop where
  nonzero : b ≠ 0
  aligned : align ∣ b
  inside : ∃ i < lmb.memory.cnt, (lmb.memory.region i).base ≤ b ∧
    b+size ≤ (lmb.memory.region i).base+(lmb.memory.region i).size
  below : maxAddr ≠ 0 → b+size ≤ maxAddr
  free : lmb.reserved.Free ⟨b,size⟩

/-- The first candidate is the highest aligned block of the region below the limit. -/
theorem firstBase_spec {r : Region} (hr : r.base+r.size < word) (halign : IsPow2 align)
    (hmax : maxAddr = 0 ∨ size ≤ maxAddr ∨ r.size < size ∨ maxAddr ≤ r.base) :
    (firstBase r size align maxAddr = none ∧
      ∀ b, r.base ≤ b → b+size ≤ r.base+r.size → (maxAddr ≠ 0 → b+size ≤ maxAddr) → size = 0) ∨
    ∃ base, firstBase r size align maxAddr = some base ∧ align ∣ base ∧
      base+size ≤ r.base+r.size ∧ (maxAddr ≠ 0 → base+size ≤ maxAddr) ∧
      ∀ b, align ∣ b → b+size ≤ r.base+r.size → (maxAddr ≠ 0 → b+size ≤ maxAddr) → b ≤ base := by
  have hword : word = 4294967296 := rfl
  have hcandidate : ∀ top, size ≤ top → top < word → align ∣ down ((top+word-size)%word) align ∧
      down ((top+word-size)%word) align+size ≤ top ∧
      ∀ b, align ∣ b → b+size ≤ top → b ≤ down ((top+word-size)%word) align := by
    intro top hle hlt
    have hsmall : top-size < 4294967296 := by omega
    rw [show (top+word-size)%word = top-size from Align.wrap_sub hle hsmall]
    have hdown := down_le hsmall halign
    exact ⟨dvd_down hsmall halign,by omega,fun b hb hble => le_down hsmall halign (by omega) hb⟩
  unfold firstBase
  split
  · next hshort => exact .inl ⟨rfl,fun b hb hle _ => by omega⟩
  next hshort =>
  split
  · next hzero =>
    obtain ⟨hdvd,hle,hbest⟩ := hcandidate (r.base+r.size) (by omega) hr
    exact .inr ⟨_,rfl,hdvd,hle,fun hne => absurd hzero hne,fun b hb hble _ => hbest b hb hble⟩
  next hzero =>
  split
  · next hbelow =>
    rw [mod_eq_of_lt hr]
    obtain ⟨hdvd,hle,hbest⟩ := hcandidate (min (r.base+r.size) maxAddr)
      (Nat.le_min.mpr ⟨by omega,by omega⟩) ((Nat.min_le_left _ _).trans_lt hr)
    exact .inr ⟨_,rfl,hdvd,hle.trans (Nat.min_le_left _ _), fun _ => hle.trans (Nat.min_le_right _ _),
      fun b hb hble hbmax => hbest b hb (Nat.le_min.mpr ⟨hble,hbmax hzero⟩)⟩
  next hbelow =>
  refine .inl ⟨rfl,fun b hb _ hbmax => ?_⟩
  omega

/-- The limit is none, or there is room below it, or every region is too small or not below it. -/
def LimitOk (lmb : Blocks) (size maxAddr : Nat) : Prop :=
  maxAddr = 0 ∨ size ≤ maxAddr ∨
    ∀ i < lmb.memory.cnt, (lmb.memory.region i).size < size ∨ maxAddr ≤ (lmb.memory.region i).base

/-- A suitable block of the first `n` regions. -/
def SuitableIn (lmb : Blocks) (size align maxAddr n b : Nat) : Prop :=
  lmb.Suitable size align maxAddr b ∧ ∃ i < n, (lmb.memory.region i).base ≤ b ∧
    b+size ≤ (lmb.memory.region i).base+(lmb.memory.region i).size

/-- The loop over the memory finds the highest suitable block of the regions it has looked at. -/
theorem findBase_spec (hmem : lmb.memory.Apart) (hres : lmb.reserved.Apart) (hsize : 0 < size)
    (halign : IsPow2 align) (hmax : lmb.LimitOk size maxAddr) : ∀ n ≤ lmb.memory.cnt,
      (∃ b, lmb.findBase size align maxAddr n = some (some b) ∧ lmb.Suitable size align maxAddr b ∧
        ∀ b', lmb.SuitableIn size align maxAddr n b' → b' ≤ b) ∨
      (lmb.findBase size align maxAddr n = some none ∧ ∀ b, ¬lmb.SuitableIn size align maxAddr n b) := by
  intro n
  induction n with
  | zero => exact fun _ => .inr ⟨rfl,fun b ⟨_,i,hi,_⟩ => absurd hi (Nat.not_lt_zero i)⟩
  | succ n ih =>
    intro hn
    have hlt := hmem.lt (i := n) (by omega)
    -- a suitable block is in the last region or in one of the others
    have hsplit : ∀ b, lmb.SuitableIn size align maxAddr (n+1) b → lmb.SuitableIn size align maxAddr n b ∨
        (lmb.memory.region n).base ≤ b ∧ b+size ≤ (lmb.memory.region n).base+(lmb.memory.region n).size := by
      rintro b ⟨hsuit,i,hi,hin⟩
      rcases Nat.lt_succ_iff_lt_or_eq.mp hi with hi | rfl
      · exact .inl ⟨hsuit,i,hi,hin⟩
      · exact .inr hin
    -- if the last region has none, the others decide
    have hrest : (∀ b, (lmb.memory.region n).base ≤ b →
          b+size ≤ (lmb.memory.region n).base+(lmb.memory.region n).size → ¬lmb.Suitable size align maxAddr b) →
        lmb.findBase size align maxAddr (n+1) = lmb.findBase size align maxAddr n →
        (∃ b, lmb.findBase size align maxAddr (n+1) = some (some b) ∧ lmb.Suitable size align maxAddr b ∧
          ∀ b', lmb.SuitableIn size align maxAddr (n+1) b' → b' ≤ b) ∨
        (lmb.findBase size align maxAddr (n+1) = some none ∧ ∀ b, ¬lmb.SuitableIn size align maxAddr (n+1) b) := by
      intro hnone heq
      have hback : ∀ b, lmb.SuitableIn size align maxAddr (n+1) b → lmb.SuitableIn size align maxAddr n b :=
        fun b hb => (hsplit b hb).resolve_right fun hin => hnone b hin.1 hin.2 hb.1
      rw [heq]
      rcases ih (by omega) with ⟨b,hfind,hsuit,hbest⟩ | ⟨hfind,hall⟩
      · exact .inl ⟨b,hfind,hsuit,fun b' hb' => hbest b' (hback b' hb')⟩
      · exact .inr ⟨hfind,fun b hb => hall b (hback b hb)⟩
    have hfirstMax : maxAddr = 0 ∨ size ≤ maxAddr ∨ (lmb.memory.region n).size < size ∨
        maxAddr ≤ (lmb.memory.region n).base := hmax.imp_right (Or.imp_right fun hall => hall n (by omega))
    rcases firstBase_spec hlt halign hfirstMax with ⟨hfirst,hnone⟩ | ⟨base,hfirst,hdvd,hle,hbelow,hbest⟩
    · refine hrest (fun b hb hble hsuit => ?_) (by rw [findBase,hfirst])
      have hzero := hnone b hb hble hsuit.below
      omega
    rcases Table.hopLoop_spec hres hsize halign (lmb.memory.region n).base (base+1) base
        (lt_succ_self base) hdvd (by omega) with ⟨b,hb,hhop,hcand,hhigh⟩ | ⟨hhop,hnone⟩
    · refine .inl ⟨b,by rw [findBase,hfirst]; dsimp only; rw [hhop],
        ⟨hcand.nonzero,hcand.aligned,⟨n,by omega,hcand.above,by omega⟩,fun hne => ?_,hcand.free⟩,fun b' hb' => ?_⟩
      · omega
      have hsuit := hb'.1
      rcases hsplit b' hb' with ⟨-,i,hi,-,hend⟩ | ⟨hlow,hend⟩
      · have hbelow := hmem.below hi (by omega)
        have habove := hcand.above
        omega
      · exact hhigh b' (hbest b' hsuit.aligned hend hsuit.below) ⟨hsuit.nonzero,hsuit.aligned,hlow,hsuit.free⟩
    · refine hrest (fun b hb hble hsuit => ?_) (by rw [findBase,hfirst]; dsimp only; rw [hhop])
      exact hnone b (hbest b hsuit.aligned hble hsuit.below) ⟨hsuit.nonzero,hsuit.aligned,hb,hsuit.free⟩

def AllocOk (lmb : Blocks) (size align maxAddr : Nat) : Prop :=
  ∃ b lmb', lmb.allocBase size align maxAddr = some (b,lmb') ∧
    (b ≠ 0 → lmb.Suitable size align maxAddr b ∧
      ∀ a, b ≤ a → a < b+size → lmb'.reserved.Holds a) ∧
    (b = 0 → (∀ b', ¬lmb.Suitable size align maxAddr b') ∨ lmb.reserved.cnt = maxLmbRegions) ∧
    lmb'.reserved.Apart

/-- The block with its size rounded up may be reserved: it does not wrap, it is as free as the block
itself, and a table without regions does not hold something that joins it. -/
def Roundable (lmb : Blocks) (size align b : Nat) : Prop :=
  Region.Valid ⟨b,up size align⟩ ∧ lmb.reserved.Free ⟨b,up size align⟩ ∧
    (lmb.reserved.cnt = 0 → lmb.reserved.FitsEmptied ⟨b,up size align⟩)

def ofTwo (memory reserved : Region) : Blocks := ⟨⟨1,fun _ => memory⟩,⟨1,fun _ => reserved⟩⟩

lemma ofTwo_apart {memory reserved : Region} (hmemory : memory.Valid) (hreserved : reserved.Valid) :
    (ofTwo memory reserved).memory.Apart ∧ (ofTwo memory reserved).reserved.Apart :=
  ⟨(Table.proper_single 0 rfl rfl hmemory).1.apart,(Table.proper_single 0 rfl rfl hreserved).1.apart⟩

end Blocks

end LinuxToradex.Lmb
