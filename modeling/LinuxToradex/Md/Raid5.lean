import LinuxToradex.Foundation.Align
import Mathlib.Tactic.Ring

/-! `raid5_compute_sector` and `compute_blocknr` of `drivers/md/raid5.c`, without overflow. A `BUG` is
`none`. -/
namespace LinuxToradex.Md.Raid5
open Align Nat Option

inductive Level where
  | four | five | six
  deriving DecidableEq

inductive Algorithm where
  | leftAsymmetric | rightAsymmetric | leftSymmetric | rightSymmetric | parity0 | parityN
  | rotatingZeroRestart | rotatingNRestart | rotatingNContinue
  | leftAsymmetric6 | rightAsymmetric6 | leftSymmetric6 | rightSymmetric6 | parity06

def Level.maxDegraded : Level → Nat
  | .six => 2
  | _ => 1

structure Conf where
  level : Level
  algorithm : Algorithm
  chunkSectors : Nat
  raidDisks : Nat

def Conf.dataDisks (conf : Conf) : Nat := conf.raidDisks-conf.level.maxDegraded

structure Place where
  ddIdx : Int
  pdIdx : Int
  qdIdx : Int
  ddfLayout : Bool
  deriving DecidableEq

def skipParity (pd dd : Int) : Int := if dd ≥ pd then dd+1 else dd

/-- `Q D D D P` or `D D P Q D`. -/
def skipBoth (raidDisks pd dd : Int) (ddf : Bool) : Place :=
  if pd = raidDisks-1 then ⟨dd+1,pd,0,ddf⟩
  else ⟨if dd ≥ pd then dd+2 else dd,pd,pd+1,ddf⟩

def place (level : Level) (algorithm : Algorithm) (raidDisks stripe : Nat) (dd : Int) : Option Place :=
  let r : Int := raidDisks
  let d : Int := r-level.maxDegraded
  let m : Int := (stripe%raidDisks : Nat)
  let m' : Int := (stripe%(raidDisks-1) : Nat)
  match level, algorithm with
  | .four, _ => some ⟨dd,d,-1,false⟩
  | .five, .leftAsymmetric => some ⟨skipParity (d-m) dd,d-m,-1,false⟩
  | .five, .rightAsymmetric => some ⟨skipParity m dd,m,-1,false⟩
  | .five, .leftSymmetric => some ⟨(d-m+1+dd)%r,d-m,-1,false⟩
  | .five, .rightSymmetric => some ⟨(m+1+dd)%r,m,-1,false⟩
  | .five, .parity0 => some ⟨dd+1,0,-1,false⟩
  | .five, .parityN => some ⟨dd,d,-1,false⟩
  | .five, _ => none
  | .six, .leftAsymmetric => some (skipBoth r (r-1-m) dd false)
  | .six, .rightAsymmetric => some (skipBoth r m dd false)
  | .six, .leftSymmetric => some ⟨(r-1-m+2+dd)%r,r-1-m,(r-1-m+1)%r,false⟩
  | .six, .rightSymmetric => some ⟨(m+2+dd)%r,m,(m+1)%r,false⟩
  | .six, .parity0 => some ⟨dd+2,0,1,false⟩
  | .six, .parityN => some ⟨dd,d,d+1,false⟩
  | .six, .rotatingZeroRestart => some (skipBoth r m dd true)
  | .six, .rotatingNRestart => some (skipBoth r (r-1-((stripe+1)%raidDisks : Nat)) dd true)
  | .six, .rotatingNContinue => some ⟨(r-1-m+1+dd)%r,r-1-m,(r-1-m+r-1)%r,true⟩
  | .six, .leftAsymmetric6 => some ⟨skipParity (d-m') dd,d-m',r-1,false⟩
  | .six, .rightAsymmetric6 => some ⟨skipParity m' dd,m',r-1,false⟩
  | .six, .leftSymmetric6 => some ⟨(d-m'+1+dd)%(r-1),d-m',r-1,false⟩
  | .six, .rightSymmetric6 => some ⟨(m'+1+dd)%(r-1),m',r-1,false⟩
  | .six, .parity06 => some ⟨dd+1,0,r-1,false⟩

def dataIndex (level : Level) (algorithm : Algorithm) (raidDisks : Nat) (pd i : Int) : Option Int :=
  let r : Int := raidDisks
  match level, algorithm with
  | .four, _ => some i
  | .five, .leftAsymmetric | .five, .rightAsymmetric => some (if i > pd then i-1 else i)
  | .five, .leftSymmetric | .five, .rightSymmetric => some ((if i < pd then i+r else i)-(pd+1))
  | .five, .parity0 => some (i-1)
  | .five, .parityN => some i
  | .five, _ => none
  | .six, .leftAsymmetric | .six, .rightAsymmetric | .six, .rotatingZeroRestart | .six, .rotatingNRestart =>
    some (if pd = r-1 then i-1 else if i > pd then i-2 else i)
  | .six, .leftSymmetric | .six, .rightSymmetric =>
    some (if pd = r-1 then i-1 else (if i < pd then i+r else i)-(pd+2))
  | .six, .parity0 => some (i-2)
  | .six, .parityN => some i
  | .six, .rotatingNContinue => some (if pd = 0 then i-1 else (if i < pd then i+r else i)-(pd+1))
  | .six, .leftAsymmetric6 | .six, .rightAsymmetric6 => some (if i > pd then i-1 else i)
  | .six, .leftSymmetric6 | .six, .rightSymmetric6 => some ((if i < pd then i+(r-2+1) else i)-(pd+1))
  | .six, .parity06 => some (i-1)

def computeSector (conf : Conf) (rSector : Nat) : Option (Nat × Place) :=
  let chunkNumber := rSector/conf.chunkSectors
  let stripe := chunkNumber/conf.dataDisks
  (place conf.level conf.algorithm conf.raidDisks stripe (chunkNumber%conf.dataDisks : Nat)).map fun pl =>
    (stripe*conf.chunkSectors+rSector%conf.chunkSectors,pl)

structure StripeHead where
  sector : Nat
  pdIdx : Int
  qdIdx : Int

def stripeSetIdx (conf : Conf) (sector : Nat) : Option StripeHead :=
  let stripe := sector/conf.chunkSectors
  (computeSector conf (stripe*conf.dataDisks*conf.chunkSectors+sector%conf.chunkSectors)).map fun x =>
    ⟨sector,x.2.pdIdx,x.2.qdIdx⟩

/-- The logical sector, and whether the map is reported as not correct. -/
def computeBlocknr (conf : Conf) (sh : StripeHead) (i : Int) : Option (Nat × Bool) :=
  if i = sh.pdIdx then some (0,false)
  else if conf.level = .six ∧ i = sh.qdIdx then some (0,false)
  else do
    let dd ← dataIndex conf.level conf.algorithm conf.raidDisks sh.pdIdx i
    let chunkNumber := (sh.sector/conf.chunkSectors : Nat)*conf.dataDisks+dd
    let rSector := (chunkNumber*conf.chunkSectors+(sh.sector%conf.chunkSectors : Nat)).toNat
    let (check,pl) ← computeSector conf rSector
    if check ≠ sh.sector ∨ pl.ddIdx ≠ i ∨ pl.pdIdx ≠ sh.pdIdx ∨ pl.qdIdx ≠ sh.qdIdx then some (0,true)
    else some (rSector,false)

variable {level : Level} {algorithm : Algorithm} {R stripe : Nat} {dd i : Int} {pl : Place}

lemma emod_wrap {x r : Int} (h0 : 0 ≤ x) (h : x < 2*r) : x%r = if x < r then x else x-r := by
  split
  · next hlt => exact Int.emod_eq_of_lt h0 hlt
  rw [← Int.sub_emod_right]
  exact Int.emod_eq_of_lt (by omega) (by omega)

/-- The disk `i` holds data in a stripe with its parity on `pd`, and on `qd` at level 6. -/
def IsData (level : Level) (R : Nat) (pd qd i : Int) : Prop :=
  0 ≤ i ∧ i < R ∧ i ≠ pd ∧ (level = .six → i ≠ qd)

def Algorithm.validRaid5 : Algorithm → Prop
  | .leftAsymmetric | .rightAsymmetric | .leftSymmetric | .rightSymmetric | .parity0 | .parityN => True
  | _ => False

structure Conf.Valid (conf : Conf) : Prop where
  disks : conf.level.maxDegraded < conf.raidDisks
  chunk : 1 ≤ conf.chunkSectors
  supported : conf.level = .five → conf.algorithm.validRaid5

lemma Level.maxDegraded_pos (level : Level) : 1 ≤ level.maxDegraded := by
  cases level <;> decide

lemma stripe_lt (hR : level.maxDegraded < R) (stripe : Nat) :
    stripe%R < R ∧ (stripe+1)%R < R ∧ stripe%(R-1) < R-1 := by
  have h := level.maxDegraded_pos
  exact ⟨mod_lt _ (by omega),mod_lt _ (by omega),mod_lt _ (by omega)⟩

lemma place_total (h : level = .five → algorithm.validRaid5) (R stripe : Nat) (dd : Int) :
    ∃ pl, place level algorithm R stripe dd = some pl := by
  cases level <;> cases algorithm <;> simp [place,Algorithm.validRaid5] at h ⊢

/-- The parity disks depend on the stripe only. -/
theorem place_parity {dd' : Int} {pl' : Place} (h : place level algorithm R stripe dd = some pl)
    (h' : place level algorithm R stripe dd' = some pl') : pl.pdIdx = pl'.pdIdx ∧ pl.qdIdx = pl'.qdIdx := by
  cases level <;> cases algorithm <;> simp only [place,skipBoth] at h h' <;> cases h <;> cases h' <;> grind

lemma place_spec (hR : level.maxDegraded < R) (h0 : 0 ≤ dd) (hdd : dd < R-level.maxDegraded)
    (h : place level algorithm R stripe dd = some pl) :
    IsData level R pl.pdIdx pl.qdIdx pl.ddIdx ∧ dataIndex level algorithm R pl.pdIdx pl.ddIdx = some dd := by
  obtain ⟨hm,hm1,hm2⟩ := stripe_lt hR stripe
  unfold IsData
  cases level <;> cases algorithm <;> simp only [Level.maxDegraded,place,skipBoth,skipParity] at * <;>
    cases h <;> simp (disch := omega) only [dataIndex,emod_wrap] <;> grind

/-- Every data disk of a stripe belongs to a data index. -/
theorem exists_place (hR : level.maxDegraded < R) (h : place level algorithm R stripe 0 = some pl)
    (hi : IsData level R pl.pdIdx pl.qdIdx i) :
    ∃ dd : Int, dataIndex level algorithm R pl.pdIdx i = some dd ∧ 0 ≤ dd ∧ dd < R-level.maxDegraded ∧
      place level algorithm R stripe dd = some {pl with ddIdx := i} := by
  obtain ⟨hm,hm1,hm2⟩ := stripe_lt hR stripe
  unfold IsData at hi
  cases level <;> cases algorithm <;> simp only [Level.maxDegraded,place,skipBoth,skipParity] at * <;>
    cases h <;> refine ⟨_,rfl,?_⟩ <;> try simp (disch := omega) only [emod_wrap] at hi ⊢
  all_goals grind

section

variable {conf : Conf} {r s : Nat} (hv : conf.Valid)

lemma computeSector_compose {d o : Nat} (hd : d < conf.dataDisks) (ho : o < conf.chunkSectors) (stripe : Nat) :
    computeSector conf ((stripe*conf.dataDisks+d)*conf.chunkSectors+o)
      = (place conf.level conf.algorithm conf.raidDisks stripe d).map fun pl => (stripe*conf.chunkSectors+o,pl) := by
  unfold computeSector
  dsimp only
  rw [(mul_add_div_mod ho).1,(mul_add_div_mod ho).2,(mul_add_div_mod hd).1,(mul_add_div_mod hd).2]

include hv

/-- The sector of a data index of a stripe, and every sector is one. -/
theorem sector_decompose (r : Nat) : ∃ stripe d o, d < conf.dataDisks ∧ o < conf.chunkSectors ∧
    r = (stripe*conf.dataDisks+d)*conf.chunkSectors+o := by
  refine ⟨r/conf.chunkSectors/conf.dataDisks,r/conf.chunkSectors%conf.dataDisks,r%conf.chunkSectors,
    mod_lt _ (Nat.sub_pos_of_lt hv.disks),mod_lt _ hv.chunk,?_⟩
  rw [div_add_mod',div_add_mod']

lemma computeSector_spec (r : Nat) : ∃ s pl, computeSector conf r = some (s,pl) ∧
    IsData conf.level conf.raidDisks pl.pdIdx pl.qdIdx pl.ddIdx ∧
    computeBlocknr conf ⟨s,pl.pdIdx,pl.qdIdx⟩ pl.ddIdx = some (r,false) := by
  obtain ⟨stripe,d,o,hd,ho,rfl⟩ := sector_decompose hv r
  obtain ⟨pl,hpl⟩ := place_total hv.supported conf.raidDisks stripe d
  have hsec := computeSector_compose hd ho stripe
  rw [hpl] at hsec
  have hlt : (d : Int) < conf.raidDisks-conf.level.maxDegraded := by
    unfold Conf.dataDisks at hd
    omega
  obtain ⟨hdata,hdi⟩ := place_spec hv.disks (Int.natCast_nonneg d) hlt hpl
  refine ⟨_,pl,hsec,hdata,?_⟩
  unfold computeBlocknr
  rw [if_neg hdata.2.2.1,if_neg fun h => hdata.2.2.2 h.1 h.2]
  rw [hdi,(mul_add_div_mod ho).1,(mul_add_div_mod ho).2]
  dsimp only [bind_eq_bind,bind_some]
  have hnat : (((stripe : Int)*conf.dataDisks+d)*conf.chunkSectors+o).toNat =
      (stripe*conf.dataDisks+d)*conf.chunkSectors+o := Int.toNat_natCast (_*_+_)
  rw [hnat,hsec]
  simp

/-- Two sectors at one disk and sector are in one stripe, with the same parity disks. -/
theorem parity_eq {r r' : Nat} {pl pl' : Place} (h : computeSector conf r = some (s,pl))
    (h' : computeSector conf r' = some (s,pl')) : pl.pdIdx = pl'.pdIdx ∧ pl.qdIdx = pl'.qdIdx := by
  obtain ⟨stripe,d,o,hd,ho,rfl⟩ := sector_decompose hv r
  obtain ⟨stripe',d',o',hd',ho',rfl⟩ := sector_decompose hv r'
  rw [computeSector_compose hd ho] at h
  rw [computeSector_compose hd' ho'] at h'
  obtain ⟨_,hpl,heq⟩ := map_eq_some_iff.mp h
  obtain ⟨_,hpl',heq'⟩ := map_eq_some_iff.mp h'
  cases heq
  injection heq' with hs hpl1
  subst hpl1
  have hstripe := (mul_add_div_mod (a := stripe) ho).1
  rw [← hs,(mul_add_div_mod ho').1] at hstripe
  subst hstripe
  exact place_parity hpl hpl'

theorem layout_invertible : (∀ r, ∃ s pl, computeSector conf r = some (s,pl) ∧
      IsData conf.level conf.raidDisks pl.pdIdx pl.qdIdx pl.ddIdx ∧
      computeBlocknr conf ⟨s,pl.pdIdx,pl.qdIdx⟩ pl.ddIdx = some (r,false)) ∧
    (∀ r r' s pl pl', computeSector conf r = some (s,pl) → computeSector conf r' = some (s,pl') →
      pl.ddIdx = pl'.ddIdx → r = r') ∧ ∀ s, ∃ sh, stripeSetIdx conf s = some sh ∧
      ∀ i, IsData conf.level conf.raidDisks sh.pdIdx sh.qdIdx i →
        ∃ r pl, computeSector conf r = some (s,pl) ∧ pl.ddIdx = i ∧ computeBlocknr conf sh i = some (r,false) := by
  refine ⟨computeSector_spec hv,?_,?_⟩
  · intro r r' s pl pl' h h' hdd
    obtain ⟨_,_,h1,-,hback⟩ := computeSector_spec hv r
    obtain ⟨_,_,h1',-,hback'⟩ := computeSector_spec hv r'
    cases h1.symm.trans h
    cases h1'.symm.trans h'
    obtain ⟨hp,hq⟩ := parity_eq hv h h'
    rw [hp,hq,hdd,hback'] at hback
    injection hback with heq
    exact (congrArg Prod.fst heq).symm
  intro s
  have ho : s%conf.chunkSectors < conf.chunkSectors := mod_lt _ hv.chunk
  obtain ⟨pl0,hpl0⟩ := place_total hv.supported conf.raidDisks (s/conf.chunkSectors) 0
  have hset := computeSector_compose (Nat.sub_pos_of_lt hv.disks) ho (s/conf.chunkSectors)
  rw [add_zero,Int.natCast_zero,hpl0] at hset
  refine ⟨⟨s,pl0.pdIdx,pl0.qdIdx⟩,by unfold stripeSetIdx; dsimp only; rw [hset]; rfl,fun i hi => ?_⟩
  obtain ⟨dd,-,h0,hdd,hpl⟩ := exists_place hv.disks hpl0 hi
  lift dd to Nat using h0
  have hd : dd < conf.dataDisks := by
    unfold Conf.dataDisks
    omega
  have hsec := computeSector_compose hd ho (s/conf.chunkSectors)
  rw [hpl,div_add_mod'] at hsec
  obtain ⟨_,_,h1,-,hback⟩ := computeSector_spec hv _
  cases h1.symm.trans hsec
  exact ⟨_,_,hsec,rfl,hback⟩

end

theorem layout_invertible_six : computeSector ⟨.six,.rotatingNContinue,2,5⟩ 27 = some (9,⟨2,0,4,true⟩) ∧
    ∀ r r' s pl pl', computeSector ⟨.six,.rotatingNContinue,2,5⟩ r = some (s,pl) →
      computeSector ⟨.six,.rotatingNContinue,2,5⟩ r' = some (s,pl') → pl.ddIdx = pl'.ddIdx → r = r' :=
  ⟨by decide,(@layout_invertible ⟨.six,.rotatingNContinue,2,5⟩ ⟨by decide,by decide,fun h => by cases h⟩).2.1⟩

end LinuxToradex.Md.Raid5
