import LinuxToradex.Sctp.TsnMap
import Mathlib

/-! The gap ack blocks of a map. Offsets are from the cumulative ack point, which is one behind the first bit. -/
namespace LinuxToradex.Sctp.TsnMap
open BitRow List

/-- `sctp_tsnmap_find_gap_ack`. Zero says that there is no start, or no end. -/
def findGapAck (map : Nat → Bool) (off len : Nat) : Nat × Nat :=
  let i := firstClear (fun i => !map i) (len-off) off
  let start := if i < len then i else 0
  if start = 0 then (0,0)
  else
    let i := firstClear map (len-i) i
    (start,if i < len then i-1 else 0)

/-- `sctp_tsnmap_next_gap_ack`: the block, and where the iterator goes. -/
def nextGapAck (map : TsnMap) (iter : UInt32) : Option ((Nat × Nat) × UInt32) :=
  if tsnLte map.maxTsnSeen iter then none
  else
    let found := findGapAck map.tsnMap ((iter-map.baseTsn).toNat%2^16) map.len
    let stop := if found.1 ≠ 0 ∧ found.2 = 0 then map.len-1 else found.2
    if stop = 0 then none
    else
      let last := (stop+1)%2^16
      some (((found.1+1)%2^16,last),map.cumulativeTsnAckPoint + .ofNat last+1)

def gapAcks (map : TsnMap) : Nat → UInt32 → Option (List (Nat × Nat))
  | 0, _ => none
  | fuel+1, iter =>
    match map.nextGapAck iter with
    | none => some []
    | some (block,iter) => (gapAcks map fuel iter).map (block::·)

structure Block (map : TsnMap) (b : Nat × Nat) : Prop where
  pos : 0 < b.1 ∧ b.1 ≤ b.2
  set : ∀ i, b.1 ≤ i+1 → i+1 ≤ b.2 → map.tsnMap i = true
  before : ∀ i, i+2 = b.1 → map.tsnMap i = false
  after : map.tsnMap b.2 = false

section
variable {map : TsnMap} {off : Nat}

lemma clear_of_le (hwithin : ∀ i, map.tsnMap i = true → i < map.width) {i : Nat} (hi : map.width ≤ i) :
    map.tsnMap i = false := by
  by_contra hset
  have hlt := hwithin i (Bool.eq_true_of_not_eq_false hset)
  omega

lemma iter_offset (hlen : map.len < 2^16) (hoff : off ≤ map.len) :
    (map.baseTsn + .ofNat off-map.baseTsn).toNat%2^16 = off := by
  have hb := map.baseTsn.toNat_lt
  rw [UInt32.toNat_sub,UInt32.toNat_add,ofNat_toNat_lt (by omega)]
  omega

variable (hcum : map.cumulativeTsnAckPoint = map.baseTsn-1) (hlen : map.len < 2^16)
  (hwidth : map.width ≤ map.len) (hwithin : ∀ i, map.tsnMap i = true → i < map.width)
include hcum hlen hwidth

lemma tsnLte_iter (hoff : off ≤ map.len) :
    tsnLte map.maxTsnSeen (map.baseTsn + .ofNat off) = true ↔ map.width ≤ off+1 := by
  have hb := map.baseTsn.toNat_lt
  have hm := map.maxTsnSeen.toNat_lt
  rw [width,hcum,UInt32.toNat_sub,UInt32.toNat_sub,UInt32.toNat_one] at *
  rw [tsnLte,tsnLt,Bool.or_eq_true,decide_eq_true_eq,decide_eq_true_eq,← UInt32.toNat_inj,UInt32.toNat_sub,
    UInt32.toNat_add,ofNat_toNat_lt (by omega)]
  omega

include hwithin

lemma nextGapAck_spec (hoff : off ≤ map.len) (hclear : map.tsnMap off = false) :
    (map.nextGapAck (map.baseTsn + .ofNat off) = none ∧ ∀ i, off ≤ i → map.tsnMap i = false) ∨ ∃ s e,
      map.nextGapAck (map.baseTsn + .ofNat off) = some ((s+1,e+1),map.baseTsn + .ofNat (e+1)) ∧ off < s ∧ s ≤ e ∧
        e < map.len ∧ (∀ i, off ≤ i → i < s → map.tsnMap i = false) ∧
        (∀ i, s ≤ i → i ≤ e → map.tsnMap i = true) ∧ map.tsnMap (e+1) = false := by
  have hbeyond : ∀ i, map.width ≤ i → map.tsnMap i = false := fun i => clear_of_le hwithin
  rw [nextGapAck,iter_offset hlen hoff]
  by_cases hmax : map.width ≤ off+1
  · rw [if_pos ((tsnLte_iter hcum hlen hwidth hoff).mpr hmax)]
    refine .inl ⟨rfl,fun i hi => ?_⟩
    rcases Nat.eq_or_lt_of_le hi with rfl | hlt
    · exact hclear
    · exact hbeyond i (by omega)
  rw [if_neg (mt (tsnLte_iter hcum hlen hwidth hoff).mp hmax),findGapAck]
  obtain ⟨hge,hle,hskip,hfound⟩ := firstClear_spec (fun i => !map.tsnMap i) (map.len-off) off
  generalize firstClear (fun i => !map.tsnMap i) (map.len-off) off = s at *
  have hskip' : ∀ i, off ≤ i → i < s → map.tsnMap i = false := fun i h1 h2 => by simpa using hskip i h1 h2
  by_cases hs : s < map.len
  · have hset : map.tsnMap s = true := by simpa using hfound (by omega)
    have hne : s ≠ off := by
      rintro rfl
      rw [hclear] at hset
      cases hset
    obtain ⟨hge',hle',hrun,hend⟩ := firstClear_spec map.tsnMap (map.len-s) s
    generalize firstClear map.tsnMap (map.len-s) s = e at *
    have hafter : map.tsnMap e = false := by
      by_cases he : e < map.len
      · exact hend (by omega)
      · exact hbeyond e (by omega)
    have hlt : s ≠ e := by
      rintro rfl
      rw [hafter] at hset
      cases hset
    obtain ⟨e,rfl⟩ := Nat.exists_eq_succ_of_ne_zero (show e ≠ 0 by omega)
    refine .inr ⟨s,e,?_,by omega,by omega,by omega,hskip',fun i h1 h2 => hrun i h1 (by omega),hafter⟩
    have hstop : (if s ≠ 0 ∧ (if e+1 < map.len then e+1-1 else 0) = 0 then map.len-1
        else if e+1 < map.len then e+1-1 else 0) = e := by
      split_ifs <;> omega
    have hs0 : s ≠ 0 := by omega
    simp only [if_pos hs,if_neg hs0]
    rw [hstop,if_neg (by omega),Nat.mod_eq_of_lt (by omega),Nat.mod_eq_of_lt (by omega),hcum,sub_one_add,
      UInt32.sub_add_cancel]
  · dsimp only
    rw [if_neg hs,if_pos rfl]
    refine .inl ⟨rfl,fun i hi => ?_⟩
    by_cases his : i < s
    · exact hskip' i hi his
    · exact hbeyond i (by omega)

lemma gapAcks_spec (fuel : Nat) (hoff : off ≤ map.len) (hclear : map.tsnMap off = false)
    (hfuel : map.len-off < fuel) :
    ∃ l, map.gapAcks fuel (map.baseTsn + .ofNat off) = some l ∧ l.Pairwise (fun x y => x.2 < y.1) ∧
      ∀ b, b ∈ l ↔ Block map b ∧ off < b.1 := by
  induction fuel generalizing off with
  | zero => cases hfuel
  | succ fuel ih =>
    rw [gapAcks]
    rcases nextGapAck_spec hcum hlen hwidth hwithin hoff hclear with
      ⟨hnext,hrest⟩ | ⟨s,e,hnext,hs,hse,he,hskip,hrun,hafter⟩
    · rw [hnext]
      refine ⟨[],rfl,Pairwise.nil,fun b => ⟨fun hb => absurd hb not_mem_nil,fun ⟨hb,hlt⟩ => ?_⟩⟩
      obtain ⟨hpos,hle⟩ := hb.pos
      have hset := hb.set (b.1-1) (by omega) (by omega)
      rw [hrest _ (by omega)] at hset
      cases hset
    obtain ⟨l,hl,hsorted,hmem⟩ := ih (show e+1 ≤ map.len by omega) hafter (by omega)
    rw [hnext]
    dsimp only
    rw [hl]
    refine ⟨(s+1,e+1)::l,rfl,pairwise_cons.mpr ⟨fun y hy => ((hmem y).mp hy).2,hsorted⟩,fun b => ?_⟩
    rw [mem_cons,hmem]
    constructor
    · rintro (rfl | ⟨hb,hlt⟩)
      · refine ⟨⟨by simp; omega,fun i h1 h2 => hrun i (by simpa using h1) (by simpa using h2),
          fun i hi => ?_,hafter⟩,?_⟩
        · exact hskip i (by simp only at hi; omega) (by simp only at hi; omega)
        · exact Nat.lt_succ_of_lt hs
      · exact ⟨hb,by omega⟩
    rintro ⟨hb,hlt⟩
    obtain ⟨hpos,hle⟩ := hb.pos
    obtain ⟨a,c⟩ := b
    obtain ⟨t,rfl⟩ := Nat.exists_eq_succ_of_ne_zero (Nat.ne_of_gt hpos)
    dsimp only at hlt hle
    have hset := hb.set t le_rfl hle
    have hst : s ≤ t := by
      by_contra h
      rw [hskip t (by omega) (by omega)] at hset
      cases hset
    by_cases hts : t = s
    · subst hts
      have hc : ¬c < e+1 := fun h => absurd ((hrun c (by omega) (by omega)).symm.trans hb.after) (by simp)
      have hc' : ¬e+1 < c := fun h => absurd ((hb.set (e+1) (by simp only; omega) h).symm.trans hafter) (by simp)
      exact .inl (Prod.ext rfl (by simp only; omega))
    · refine .inr ⟨hb,?_⟩
      by_contra h
      have hprev := hb.before (t-1) (by simp only; omega)
      rw [hrun (t-1) (by omega) (by simp only at h; omega)] at hprev
      cases hprev

end

/-- `sctp_tsnmap_iter_init` and all calls that follow. -/
theorem gap_acks_exact {map : TsnMap} (hcum : map.cumulativeTsnAckPoint = map.baseTsn-1) (hlen : map.len < 2^16)
    (hwidth : map.width ≤ map.len) (hwithin : ∀ i, map.tsnMap i = true → i < map.width)
    (hfirst : map.tsnMap 0 = false) : ∃ fuel l, map.gapAcks fuel (map.cumulativeTsnAckPoint+1) = some l ∧
      l.Pairwise (fun x y => x.2 < y.1) ∧ ∀ b, b ∈ l ↔ Block map b := by
  obtain ⟨l,hl,hsorted,hmem⟩ := gapAcks_spec hcum hlen hwidth hwithin (map.len+1) (Nat.zero_le _) hfirst (by omega)
  have hiter : map.cumulativeTsnAckPoint+1 = map.baseTsn + .ofNat 0 := by
    rw [hcum,UInt32.sub_add_cancel]
    exact (UInt32.add_zero _).symm
  refine ⟨map.len+1,l,by rw [hiter,hl],hsorted,fun b => ?_⟩
  rw [hmem]
  exact and_iff_left_of_imp fun hb => hb.pos.1

/-- The maps that the calls have built are such maps. -/
theorem Reaches.listed {map : TsnMap} {len : Nat} {initial : UInt32} {g : Ghost} (hlen : len < 2^16)
    (hreach : Reaches (fun map op => Legal map op ∧ Kept map op) len initial map g) :
    map.cumulativeTsnAckPoint = map.baseTsn-1 ∧ map.len < 2^16 ∧ map.width ≤ map.len ∧
      (∀ i, map.tsnMap i = true → i < map.width) ∧ map.tsnMap 0 = false := by
  obtain ⟨htracks,hlen'⟩ := hreach.tracks hlen
  exact ⟨htracks.agrees.cum,hlen',htracks.agrees.width_le.1,htracks.agrees.within,htracks.first⟩

/-- TSNs 5, 40 and 41 are beyond a gap. -/
theorem gap_acks_exact_grown : grown.gapAcks 3 (grown.cumulativeTsnAckPoint+1) = some [(4,4),(39,40)] ∧
    ∃ fuel l, grown.gapAcks fuel (grown.cumulativeTsnAckPoint+1) = some l ∧ l.Pairwise (fun x y => x.2 < y.1) ∧
      ∀ b, b ∈ l ↔ Block grown b := by
  obtain ⟨g,hreach,_⟩ := grown_reaches
  obtain ⟨hcum,hlen,hwidth,hwithin,hfirst⟩ := hreach.listed (by decide)
  exact ⟨by decide +kernel,gap_acks_exact hcum hlen hwidth hwithin hfirst⟩

end LinuxToradex.Sctp.TsnMap
