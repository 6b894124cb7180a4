import LinuxToradex.Memblock.Runs
import Mathlib

/-! `memblock_find_base` gives the greatest base that fits, or zero, which is `MEMBLOCK_ERROR`. -/
namespace LinuxToradex.Memblock
open List

def Greatest (P : Nat → Prop) (r : Nat) : Prop := (r = 0 ∧ ∀ b, ¬P b) ∨ (r ≠ 0 ∧ P r ∧ ∀ b, P b → b ≤ r)

lemma Greatest.congr {P Q : Nat → Prop} {r : Nat} (h : Greatest P r) (hiff : ∀ b, P b ↔ Q b) : Greatest Q r := by
  rwa [← show P = Q from funext fun b => propext (hiff b)]

def Free (reserved : List Region) (size b : Nat) : Prop :=
  ∀ rgn ∈ reserved, rgn.base+rgn.size ≤ b ∨ b+size ≤ rgn.base

/-- Where the search in a region ends. Only a search down to address zero stays out of the first page. -/
def lowest (rgn : Region) (start : Nat) : Nat := if max rgn.base start = 0 then 4096 else max rgn.base start

def Fits (reserved : List Region) (size align start stop : Nat) (rgn : Region) (b : Nat) : Prop :=
  align ∣ b ∧ lowest rgn start ≤ b ∧ b+size ≤ min (rgn.base+rgn.size) stop ∧ Free reserved size b

variable {reserved l : List Region} {size align start stop base : Nat}

lemma le_lowest (rgn : Region) (start : Nat) : rgn.base ≤ lowest rgn start ∧ start ≤ lowest rgn start := by
  unfold lowest
  split_ifs <;> omega

section
variable (hres : ∀ rgn ∈ reserved, rgn.base+rgn.size < word)
include hres

lemma addrsOverlap_iff {rgn : Region} (hrgn : rgn ∈ reserved) (hword : base+size < word) :
    addrsOverlap base size rgn.base rgn.size = true ↔ base < rgn.base+rgn.size ∧ rgn.base < base+size := by
  rw [addrsOverlap,Bool.and_eq_true,decide_eq_true_eq,decide_eq_true_eq,Nat.mod_eq_of_lt (hres rgn hrgn),
    Nat.mod_eq_of_lt hword]

variable (halign : Align.IsPow2 align)
include halign

/-- No aligned base is left out between one base and the next below a reserved region. -/
lemma findLoop_greatest (k : Nat) (hpos : 0 < start) (hk : base < k) (hdvd : align ∣ base)
    (hword : base+size < word) :
    Greatest (fun b => align ∣ b ∧ start ≤ b ∧ b ≤ base ∧ Free reserved size b)
      (findLoop reserved size align start k base) := by
  induction k generalizing base with
  | zero => cases hk
  | succ k ih =>
    rw [findLoop]
    split
    · next hle =>
      rcases hover : overlapsRegion reserved base size with _ | rgn
      · dsimp only
        refine .inr ⟨by omega,⟨hdvd,hle,le_rfl,fun rgn hrgn => ?_⟩,fun b hb => hb.2.2.1⟩
        have hnot := find?_eq_none.mp hover rgn hrgn
        rw [addrsOverlap_iff hres hrgn hword] at hnot
        omega
      have hrgn := mem_of_find?_eq_some hover
      have htrue := find?_some hover
      obtain ⟨hlow,hhigh⟩ := (addrsOverlap_iff hres hrgn hword).mp htrue
      have hend := hres rgn hrgn
      dsimp only
      split_ifs with hsize
      · refine .inl ⟨rfl,fun b hb => ?_⟩
        have hfree := hb.2.2.2 rgn hrgn
        omega
      have hx : rgn.base-size < 4294967296 := by
        unfold word at hend
        omega
      have hdown := Align.down_le hx halign
      refine (ih (by omega) (Align.dvd_down hx halign) (by omega)).congr fun b => ?_
      refine and_congr_right fun hb => and_congr_right fun _ => and_congr_left fun hfree => ?_
      refine ⟨fun h => by omega,fun h => Align.le_down hx halign ?_ hb⟩
      have hfree := hfree rgn hrgn
      omega
    · next hle =>
      exact .inl ⟨rfl,fun b hb => by omega⟩

lemma findRegion_greatest (hstop : stop < word) :
    Greatest (fun b => align ∣ b ∧ (if start = 0 then 4096 else start) ≤ b ∧ b+size ≤ stop ∧ Free reserved size b)
      (findRegion reserved start stop size align) := by
  unfold findRegion
  by_cases hlt : stop < size
  · rw [if_pos hlt]
    exact .inl ⟨rfl,fun b hb => by omega⟩
  rw [if_neg hlt]
  have hx : stop-size < 4294967296 := by
    unfold word at hstop
    omega
  have hdown := Align.down_le hx halign
  have hpos : 0 < if start = 0 then 4096 else start := by split_ifs <;> omega
  refine (findLoop_greatest hres halign _ hpos (Nat.lt_succ_self _) (Align.dvd_down hx halign) (by omega)).congr
    fun b => ?_
  refine and_congr_right fun hb => and_congr_right fun _ => and_congr_left fun _ => ?_
  exact ⟨fun h => by omega,fun h => Align.le_down hx halign (by omega) hb⟩

lemma findBaseLoop_greatest (hsize : 0 < size) (hstop : stop < word) (hmem : ∀ rgn ∈ l, rgn.base+rgn.size < word)
    (hs : l.Pairwise fun x y => y.base+y.size ≤ x.base) :
    Greatest (fun b => ∃ rgn ∈ l, Fits reserved size align start stop rgn b)
      (findBaseLoop reserved size align start stop l) := by
  induction l with
  | nil => exact .inl ⟨rfl,by simp⟩
  | cons rgn l ih =>
    obtain ⟨hbelow,hs⟩ := pairwise_cons.mp hs
    have hrest := ih (fun r hr => hmem r (mem_cons_of_mem _ hr)) hs
    obtain ⟨hbase,hstart⟩ := le_lowest rgn start
    -- without a base in `rgn` the search goes on
    have hskip : (∀ b, ¬Fits reserved size align start stop rgn b) →
        Greatest (fun b => ∃ r ∈ rgn::l, Fits reserved size align start stop r b)
          (findBaseLoop reserved size align start stop l) := by
      intro hnone
      refine hrest.congr fun b => ?_
      simp only [mem_cons,exists_eq_or_imp,hnone b,false_or]
    have hregion : Greatest (Fits reserved size align start stop rgn) (findRegion reserved (max rgn.base start)
        (min (rgn.base+rgn.size) stop) size align) :=
      findRegion_greatest hres halign (by omega)
    rw [findBaseLoop,Nat.mod_eq_of_lt (hmem rgn mem_cons_self)]
    dsimp only
    split_ifs with hsmall hbreak hempty hfound
    · exact hskip fun b hb => by have := hb.2.1; have := hb.2.2.1; omega
    · refine .inl ⟨rfl,?_⟩
      rintro b ⟨r,hr,-,hlow,hhigh,-⟩
      have hlow' := (le_lowest r start).2
      rcases mem_cons.mp hr with rfl | hr
      · omega
      · have hend := hbelow r hr
        omega
    · exact hskip fun b hb => by have := hb.2.1; have := hb.2.2.1; omega
    · refine hregion.imp (fun hnone => absurd hnone.1 hfound) fun ⟨hne,hfit,hmax⟩ => ⟨hne,⟨rgn,mem_cons_self,hfit⟩,?_⟩
      rintro b ⟨r,hr,hb⟩
      rcases mem_cons.mp hr with rfl | hr
      · exact hmax b hb
      · have hend := hbelow r hr
        have hlow := hfit.2.1
        have hhigh := hb.2.2.1
        omega
    · rcases hregion with ⟨-,hnone⟩ | ⟨hne,-⟩
      · exact hskip hnone
      · omega

end

/-- The bounds that `memblock_find_base` keeps to: the end is the current limit if it is given as zero. -/
theorem find_base_greatest {mb : Blocks} (hsize : 0 < size) (halign : Align.IsPow2 align) (hstop : stop < word)
    (hlimit : mb.currentLimit < word) (hmem : ∀ rgn ∈ mb.memory.regions, rgn.base+rgn.size < word)
    (hres : ∀ rgn ∈ mb.reserved.regions, rgn.base+rgn.size < word)
    (hs : mb.memory.regions.Pairwise fun x y => x.base+x.size ≤ y.base) :
    Greatest (fun b => ∃ rgn ∈ mb.memory.regions, Fits mb.reserved.regions size align start
      (if stop = 0 then mb.currentLimit else stop) rgn b) (findBase mb size align start stop) := by
  refine (findBaseLoop_greatest hres halign hsize (by split_ifs <;> assumption) ?_ (pairwise_reverse.mpr hs)).congr ?_
  · intro rgn hrgn
    exact hmem rgn (mem_reverse.mp hrgn)
  · intro b
    simp only [mem_reverse]

def twoBanks : Blocks :=
  (init.write .memory [⟨0x10000,0x4000⟩,⟨0x20000,0x2000⟩]).write .reserved [⟨0x13000,0x800⟩,⟨0x20000,0x1f00⟩]

/-- The free end of the upper bank is too small, and the end of the lower one is partly reserved. -/
theorem find_base_greatest_two_banks : findBase twoBanks 0x1000 0x1000 0 0 = 0x12000 ∧
    Greatest (fun b => ∃ rgn ∈ twoBanks.memory.regions,
      Fits twoBanks.reserved.regions 0x1000 0x1000 0 (word-1) rgn b) 0x12000 := by
  have hfind : findBase twoBanks 0x1000 0x1000 0 0 = 0x12000 := by decide
  refine ⟨hfind,?_⟩
  rw [← hfind]
  exact find_base_greatest (by decide) ⟨12,by decide,rfl⟩ (by decide) (by decide) (by decide) (by decide) (by decide)

def firstPage : Blocks := init.write .memory [⟨0x100,0x200⟩]

/-- A base in the first page, though the search starts at zero. -/
theorem find_base_below_page : Reaches 3 firstPage ∧ findBase firstPage 0x10 1 0 0 = 0x2f0 ∧ 0x2f0 < 4096 :=
  ⟨Reaches.call ⟨.add,0x100,0x200,early⟩ Reaches.init (by decide) rfl,by decide,by decide⟩

end LinuxToradex.Memblock
