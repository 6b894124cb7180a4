import LinuxToradex.Foundation.Bitmap

/-! `net/sctp/tsnmap.c`: the transmission sequence numbers received beyond the cumulative ack point are bits
of a map that starts at `base_tsn` and grows up to `SCTP_TSN_MAP_SIZE` = 4096 bits. `BITS_PER_LONG` is 32. -/
namespace LinuxToradex.Sctp

open BitRow Nat Bool UInt32

/-- `struct sctp_tsnmap`. A bit from `len` on is not in the map, and is clear. -/
structure TsnMap where
  tsnMap : Nat → Bool
  len : Nat
  baseTsn : UInt32
  cumulativeTsnAckPoint : UInt32
  maxTsnSeen : UInt32

def tsnLt (s t : UInt32) : Bool := decide (2^31 ≤ (s-t).toNat)

def tsnLte (s t : UInt32) : Bool := decide (s = t) || tsnLt s t

namespace TsnMap

/-- `sctp_tsnmap_init`, with a new map of `len` bits or the cleared old one of that length. -/
def init (len : Nat) (initialTsn : UInt32) : TsnMap where
  tsnMap := fun _ => false
  len := len
  baseTsn := initialTsn
  cumulativeTsnAckPoint := initialTsn-1
  maxTsnSeen := initialTsn-1

def check (map : TsnMap) (tsn : UInt32) : Int :=
  if tsnLte tsn map.cumulativeTsnAckPoint then 1
  else if !tsnLt tsn (map.baseTsn+4096) then -1
  else
    let gap := (tsn-map.baseTsn).toNat
    if gap < map.len ∧ map.tsnMap gap then 1 else 0

def hasGap (map : TsnMap) : Bool := map.cumulativeTsnAckPoint != map.maxTsnSeen

def shiftRight (map : TsnMap) (shift i : Nat) : Bool := decide (i+shift < map.len) && map.tsnMap (i+shift)

def update (map : TsnMap) : TsnMap :=
  let len := (map.maxTsnSeen-map.cumulativeTsnAckPoint).toNat%2^16
  let zeroBit := firstClear map.tsnMap len 0
  if zeroBit = 0 then map
  else {map with
    baseTsn := map.baseTsn + .ofNat zeroBit
    cumulativeTsnAckPoint := map.cumulativeTsnAckPoint + .ofNat zeroBit
    tsnMap := map.shiftRight zeroBit}

def bitsToLongs (nbits : Nat) : Nat := (nbits+31)%2^32/32

/-- `sctp_tsnmap_grow`, when memory is there; `gap` is not below the length of the map. -/
def grow (map : TsnMap) (gap : Nat) (memory : Bool) : Option TsnMap :=
  if 4096 ≤ gap then none
  else
    let inc := (gap-map.len+31)/32*32+32
    let len := min ((map.len+inc)%2^16) 4096
    if !memory then none
    else
      let nbits := (map.maxTsnSeen-map.baseTsn).toNat
      some {map with
        tsnMap := fun i => decide (i < 32*bitsToLongs nbits) && map.tsnMap i
        len := len}

def record (map : TsnMap) (tsn : UInt32) (gap : Nat) : TsnMap :=
  if !map.hasGap && decide (gap = 0) then
    {map with
      maxTsnSeen := map.maxTsnSeen+1
      cumulativeTsnAckPoint := map.cumulativeTsnAckPoint+1
      baseTsn := map.baseTsn+1}
  else
    update {map with
      maxTsnSeen := if tsnLt map.maxTsnSeen tsn then tsn else map.maxTsnSeen
      tsnMap := Function.update map.tsnMap gap true}

def mark (map : TsnMap) (tsn : UInt32) (memory : Bool) : TsnMap × Bool :=
  if tsnLt tsn map.baseTsn then (map,true)
  else
    let gap := (tsn-map.baseTsn).toNat%2^16
    if map.len ≤ gap then
      match map.grow gap memory with
      | none => (map,false)
      | some map => (map.record tsn gap,true)
    else (map.record tsn gap,true)

def skip (map : TsnMap) (tsn : UInt32) : TsnMap :=
  if tsnLt tsn map.baseTsn then map
  else if !tsnLt tsn (map.baseTsn+4096) then map
  else
    let gap := tsn-map.baseTsn+1
    let moved := {map with
      maxTsnSeen := if tsnLt map.maxTsnSeen tsn then tsn else map.maxTsnSeen
      baseTsn := map.baseTsn+gap
      cumulativeTsnAckPoint := map.cumulativeTsnAckPoint+gap}
    if map.len ≤ gap.toNat then {moved with tsnMap := fun _ => false}
    else update {moved with tsnMap := map.shiftRight gap.toNat}

def renege (map : TsnMap) (tsn : UInt32) : TsnMap :=
  if tsnLt tsn map.baseTsn then map
  else if !tsnLt tsn (map.baseTsn + .ofNat map.len) then map
  else {map with tsnMap := Function.update map.tsnMap (tsn - map.baseTsn).toNat false}

end TsnMap

open Function

open BitRow

namespace TsnMap

variable {map map' : TsnMap} {tsn initial : UInt32} {gap z : Nat}

def width (map : TsnMap) : Nat := (map.maxTsnSeen-map.cumulativeTsnAckPoint).toNat

def offset (map : TsnMap) (tsn : UInt32) : Nat := (tsn-map.baseTsn).toNat

/-- What the calls were about: the TSNs up to the cumulative ack point, those marked and not reneged
since, and those skipped, all counted from the initial TSN. -/
structure Ghost where
  base : Nat
  marked : Nat → Bool
  skipped : Nat

/-- The map agrees with the calls, except that bits may be set at its start. -/
structure Agrees (initial : UInt32) (map : TsnMap) (g : Ghost) : Prop where
  base : map.baseTsn = initial + .ofNat g.base
  cum : map.cumulativeTsnAckPoint = map.baseTsn-1
  width_le : map.width ≤ map.len ∧ map.width ≤ 4096
  within : ∀ i, map.tsnMap i = true → i < map.width
  bits : ∀ i, map.tsnMap i = g.marked (g.base+i)
  acked : ∀ j < g.base, g.marked j = true ∨ j < g.skipped
  skipped_le : g.skipped ≤ g.base

structure Tracks (initial : UInt32) (map : TsnMap) (g : Ghost) : Prop where
  agrees : Agrees initial map g
  first : map.tsnMap 0 = false

lemma ofNat_toNat_lt {n : Nat} (hn : n < 2^32) : (UInt32.ofNat n).toNat = n := by
  rw [toNat_ofNat']
  exact mod_eq_of_lt hn

lemma sub_one_add (b x : UInt32) : b-1+x = b+x-1 := by
  apply UInt32.toNat_inj.mp
  rw [UInt32.toNat_add,UInt32.toNat_sub,UInt32.toNat_sub,UInt32.toNat_add]
  omega

@[simp] lemma update_len (map : TsnMap) : map.update.len = map.len := by
  rw [update]
  split <;> rfl

variable {g : Ghost}

/-- `sctp_tsnmap_update` moves the base to the first TSN that is missing. -/
theorem Agrees.update (h : Agrees initial map g) :
    Tracks initial map.update {g with base := g.base+firstClear map.tsnMap map.width 0} ∧
      (map.update.baseTsn-map.baseTsn).toNat = firstClear map.tsnMap map.width 0 := by
  obtain ⟨hlen,h4096⟩ := h.width_le
  have hmod : (map.maxTsnSeen-map.cumulativeTsnAckPoint).toNat%2^16 = map.width :=
    mod_eq_of_lt (Nat.lt_of_le_of_lt h4096 (by decide))
  obtain ⟨-,hle,hset,hclear⟩ := firstClear_spec map.tsnMap map.width 0
  rw [TsnMap.update,hmod]
  generalize firstClear map.tsnMap map.width 0 = z at hle hset hclear ⊢
  have hz : map.tsnMap z = false := by
    by_cases hlt : z < map.width
    · exact hclear (by omega)
    rw [← not_eq_true]
    intro hbit
    exact hlt (h.within z hbit)
  by_cases hzero : z = 0
  · subst hzero
    rw [if_pos rfl]
    exact ⟨⟨h,hz⟩,by rw [UInt32.sub_self]; rfl⟩
  rw [if_neg hzero]
  have hofNat : (UInt32.ofNat z).toNat = z := ofNat_toNat_lt (by omega)
  have hbits : ∀ i, map.shiftRight z i = map.tsnMap (z+i) := by
    intro i
    rw [shiftRight,Nat.add_comm i z]
    by_cases hbit : map.tsnMap (z+i) = true
    · have := h.within _ hbit
      simp [hbit]
      omega
    rw [not_eq_true] at hbit
    rw [hbit,Bool.and_false]
  have hwidth : (map.maxTsnSeen-(map.cumulativeTsnAckPoint + .ofNat z)).toNat = map.width-z := by
    rw [width] at hle ⊢
    have hcum := map.cumulativeTsnAckPoint.toNat_lt
    rw [UInt32.toNat_sub] at hle ⊢
    rw [UInt32.toNat_sub,UInt32.toNat_add,hofNat]
    omega
  refine ⟨⟨⟨?_,?_,?_,?_,?_,?_,?_⟩,?_⟩,?_⟩
  · dsimp only
    rw [h.base,UInt32.add_assoc,← ofNat_add]
  · dsimp only
    rw [h.cum,sub_one_add]
  · rw [width]
    dsimp only
    rw [hwidth]
    omega
  · intro i hi
    rw [width]
    dsimp only at hi ⊢
    rw [hbits] at hi
    have := h.within _ hi
    rw [hwidth]
    omega
  · intro i
    dsimp only
    rw [hbits,h.bits,Nat.add_assoc]
  · intro j hj
    dsimp only at hj ⊢
    by_cases hjb : j < g.base
    · exact h.acked j hjb
    left
    have := hset (j-g.base) (Nat.zero_le _) (by omega)
    rw [h.bits,show g.base+(j-g.base) = j by omega] at this
    exact this
  · dsimp only
    have := h.skipped_le
    omega
  · dsimp only
    rw [hbits,Nat.add_zero,hz]
  dsimp only
  rw [UInt32.toNat_sub,UInt32.toNat_add,hofNat]
  have := map.baseTsn.toNat_lt
  omega

lemma Agrees.max_eq (h : Agrees initial map g) :
    map.maxTsnSeen.toNat = (map.baseTsn.toNat+map.width+(2^32-1))%2^32 := by
  have hmax := map.maxTsnSeen.toNat_lt
  have hone : (1 : UInt32).toNat = 1 := rfl
  rw [width,h.cum,UInt32.toNat_sub,UInt32.toNat_sub,hone]
  omega

lemma tsn_eq (map : TsnMap) (tsn : UInt32) : tsn.toNat = (map.baseTsn.toNat+map.offset tsn)%2^32 := by
  have htsn := tsn.toNat_lt
  have hbase := map.baseTsn.toNat_lt
  rw [offset,UInt32.toNat_sub]
  omega

lemma Agrees.seen (h : Agrees initial map g) (hgap : map.offset tsn < 4096) :
    ((if tsnLt map.maxTsnSeen tsn then tsn else map.maxTsnSeen)-map.cumulativeTsnAckPoint).toNat =
      max map.width (map.offset tsn+1) := by
  have hmax := h.max_eq
  have htsn := tsn_eq map tsn
  obtain ⟨-,hwidth⟩ := h.width_le
  have hone : (1 : UInt32).toNat = 1 := rfl
  have hcum : map.cumulativeTsnAckPoint.toNat = (map.baseTsn.toNat+(2^32-1))%2^32 := by
    rw [h.cum,UInt32.toNat_sub,hone]
    omega
  rw [tsnLt]
  by_cases hlt : 2^31 ≤ (map.maxTsnSeen-tsn).toNat
  · rw [if_pos (decide_eq_true hlt)]
    rw [UInt32.toNat_sub] at hlt ⊢
    omega
  rw [if_neg (by simpa using hlt)]
  rw [UInt32.toNat_sub] at hlt ⊢
  omega

lemma tsnLt_base (map : TsnMap) (tsn : UInt32) : tsnLt tsn map.baseTsn = decide (2^31 ≤ map.offset tsn) :=
  rfl

lemma tsnLt_end {n : Nat} (hn : n < 2^16) (hoff : map.offset tsn < 2^31) :
    tsnLt tsn (map.baseTsn + .ofNat n) = decide (map.offset tsn < n) := by
  have htsn := tsn_eq map tsn
  rw [tsnLt,decide_eq_decide,UInt32.toNat_sub,UInt32.toNat_add,ofNat_toNat_lt (by omega)]
  omega

/-- A TSN with a place in the map is recorded. -/
theorem Tracks.record (tsn : UInt32) (h : Tracks initial map g) (hgap : map.offset tsn < 4096)
    (hlen : map.offset tsn < map.len) : Tracks initial (map.record tsn (map.offset tsn)) {g with
      base := g.base+((map.record tsn (map.offset tsn)).baseTsn-map.baseTsn).toNat
      marked := Function.update g.marked (g.base+map.offset tsn) true} := by
  have ha := h.agrees
  obtain ⟨hwl,hwidth⟩ := ha.width_le
  have hone : (1 : UInt32).toNat = 1 := rfl
  rw [TsnMap.record]
  split
  · next hnext =>
    rw [and_eq_true,not_eq_true',decide_eq_true_eq] at hnext
    obtain ⟨hnogap,hzero⟩ := hnext
    have heq : map.cumulativeTsnAckPoint = map.maxTsnSeen := by simpa [hasGap] using hnogap
    have hw : map.width = 0 := by
      rw [width,heq,UInt32.sub_self]
      rfl
    have hempty : ∀ i, map.tsnMap i = false := by
      intro i
      rw [← not_eq_true]
      intro hbit
      have := ha.within i hbit
      omega
    have hstep : (map.baseTsn+1-map.baseTsn).toNat = 1 := by
      rw [UInt32.toNat_sub,UInt32.toNat_add,hone]
      have := map.baseTsn.toNat_lt
      omega
    have hwidth' : (map.maxTsnSeen+1-(map.cumulativeTsnAckPoint+1)).toNat = 0 := by
      rw [heq,UInt32.sub_self]
      rfl
    rw [hstep,hzero,Nat.add_zero]
    refine ⟨⟨?_,?_,?_,?_,?_,?_,?_⟩,hempty 0⟩
    · dsimp only
      rw [ha.base,ofNat_add,← UInt32.add_assoc]
      rfl
    · dsimp only
      rw [ha.cum,UInt32.sub_add_cancel,UInt32.add_sub_cancel]
    · rw [width]
      dsimp only
      omega
    · intro i hi
      rw [hempty] at hi
      cases hi
    · intro i
      dsimp only
      rw [hempty,update_of_ne (by omega),show g.base+1+i = g.base+(1+i) by omega,← ha.bits, hempty]
    · intro j hj
      dsimp only at hj ⊢
      rw [Nat.add_zero]
      by_cases hjb : j = g.base
      · rw [hjb,update_self]
        exact .inl rfl
      rw [update_of_ne hjb]
      exact ha.acked j (by omega)
    have := ha.skipped_le
    dsimp only
    omega
  next hnext =>
  have hseen := ha.seen hgap
  have hmarked : Agrees initial {map with
      maxTsnSeen := if tsnLt map.maxTsnSeen tsn then tsn else map.maxTsnSeen
      tsnMap := Function.update map.tsnMap (map.offset tsn) true}
      {g with marked := Function.update g.marked (g.base+map.offset tsn) true} := by
    refine ⟨ha.base,ha.cum,?_,?_,?_,?_,ha.skipped_le⟩
    · rw [width]
      dsimp only
      rw [hseen]
      omega
    · intro i hi
      rw [width]
      dsimp only at hi ⊢
      rw [hseen]
      rw [update_apply] at hi
      split at hi
      · omega
      have := ha.within i hi
      omega
    · intro i
      dsimp only
      rw [update_apply,update_apply,ha.bits]
      refine if_congr ⟨fun h => by omega,fun h => by omega⟩ rfl rfl
    intro j hj
    dsimp only at hj ⊢
    rw [update_of_ne (by omega)]
    exact ha.acked j hj
  obtain ⟨htracks,hbase⟩ := hmarked.update
  rw [hbase]
  exact htracks

/-- The bit of the highest TSN seen that `sctp_tsnmap_grow` would not copy. -/
def TopKept (map : TsnMap) : Prop :=
  (map.maxTsnSeen-map.baseTsn).toNat%32 ≠ 0 ∨ map.tsnMap (map.maxTsnSeen-map.baseTsn).toNat = false

section
variable (h : Tracks initial map g)
include h

/-- The map is longer afterwards, and otherwise as it was. -/
theorem Tracks.grow (hgap : gap < 4096) (hlen : map.len ≤ gap) (hkept : TopKept map) :
    ∃ map', map.grow gap true = some map' ∧ Tracks initial map' g ∧ gap < map'.len ∧ map'.baseTsn = map.baseTsn := by
  have ha := h.agrees
  obtain ⟨hwl,hwidth⟩ := ha.width_le
  have hmax := ha.max_eq
  have hbase := map.baseTsn.toNat_lt
  have hsame : ∀ i, (decide (i < 32*bitsToLongs (map.maxTsnSeen-map.baseTsn).toNat) && map.tsnMap i) =
      map.tsnMap i := by
    intro i
    by_cases hbit : map.tsnMap i = true
    · have hi := ha.within i hbit
      have hn : (map.maxTsnSeen-map.baseTsn).toNat = map.width-1 := by
        rw [UInt32.toNat_sub]
        omega
      have hcopied : i < 32*bitsToLongs (map.width-1) := by
        rw [bitsToLongs]
        rw [TopKept,hn] at hkept
        rcases hkept with hmod | hclear
        · omega
        have hne : i ≠ map.width-1 := by
          intro heq
          rw [heq,hclear] at hbit
          cases hbit
        omega
      rw [hn,decide_eq_true hcopied,Bool.true_and]
    rw [not_eq_true] at hbit
    rw [hbit,Bool.and_false]
  have hnewlen : gap < min ((map.len+((gap-map.len+31)/32*32+32))%2^16) 4096 := by omega
  rw [TsnMap.grow,if_neg (by omega)]
  refine ⟨_,rfl,⟨⟨ha.base,ha.cum,?_,?_,?_,ha.acked,ha.skipped_le⟩,?_⟩,hnewlen,rfl⟩
  · exact ⟨Nat.le_trans hwl (Nat.le_trans hlen (Nat.le_of_lt hnewlen)),hwidth⟩
  · intro i hi
    dsimp only at hi
    rw [hsame] at hi
    exact ha.within i hi
  · intro i
    dsimp only
    rw [hsame,ha.bits]
  dsimp only
  rw [hsame,h.first]

/-- TSNs are skipped, up to one near the base. -/
theorem Tracks.skip (hgap : map.offset tsn < 4096) : ∃ k, ((map.skip tsn).baseTsn-map.baseTsn).toNat = k ∧
      Tracks initial (map.skip tsn) {g with base := g.base+k, skipped := g.base+map.offset tsn+1} := by
  have ha := h.agrees
  obtain ⟨hwl,hwidth⟩ := ha.width_le
  have hbase := map.baseTsn.toNat_lt
  have hone : (1 : UInt32).toNat = 1 := rfl
  have hmoved : (tsn-map.baseTsn+1).toNat = map.offset tsn+1 := by
    rw [UInt32.toNat_add,hone,← offset]
    omega
  have hgapEq : tsn-map.baseTsn+1 = .ofNat (map.offset tsn+1) :=
    UInt32.toNat_inj.mp (by rw [hmoved,ofNat_toNat_lt (by omega)])
  have hseen := ha.seen hgap
  have hend : tsnLt tsn (map.baseTsn+4096) = true := by
    rw [show (4096 : UInt32) = .ofNat 4096 by rfl,tsnLt_end (by decide) (by omega)]
    exact decide_eq_true hgap
  have hbits : ∀ i, map.shiftRight (map.offset tsn+1) i = map.tsnMap (map.offset tsn+1+i) := by
    intro i
    rw [shiftRight,Nat.add_comm i]
    by_cases hbit : map.tsnMap (map.offset tsn+1+i) = true
    · have := ha.within _ hbit
      simp [hbit]
      omega
    rw [not_eq_true] at hbit
    rw [hbit,Bool.and_false]
  -- the map that is moved up, with the bits that the code gives it
  have hagrees : ∀ bits : Nat → Bool, (∀ i, bits i = map.tsnMap (map.offset tsn+1+i)) → Agrees initial {map with
        maxTsnSeen := if tsnLt map.maxTsnSeen tsn then tsn else map.maxTsnSeen
        baseTsn := map.baseTsn+(tsn-map.baseTsn+1)
        cumulativeTsnAckPoint := map.cumulativeTsnAckPoint+(tsn-map.baseTsn+1)
        tsnMap := bits}
        {g with base := g.base+(map.offset tsn+1), skipped := g.base+map.offset tsn+1} := by
    intro bits hb
    have hw : ((if tsnLt map.maxTsnSeen tsn then tsn else map.maxTsnSeen) -
        (map.cumulativeTsnAckPoint+(tsn-map.baseTsn+1))).toNat =
          max map.width (map.offset tsn+1)-(map.offset tsn+1) := by
      have hcum := map.cumulativeTsnAckPoint.toNat_lt
      rw [UInt32.toNat_sub] at hseen
      rw [UInt32.toNat_sub,UInt32.toNat_add,hmoved]
      omega
    refine ⟨?_,?_,?_,?_,?_,?_,?_⟩
    · dsimp only
      rw [hgapEq,ha.base,UInt32.add_assoc,← ofNat_add]
    · dsimp only
      rw [ha.cum,sub_one_add]
    · rw [width]
      dsimp only
      rw [hw]
      omega
    · intro i hi
      rw [width]
      dsimp only at hi ⊢
      rw [hb] at hi
      rw [hw]
      have := ha.within _ hi
      omega
    · intro i
      dsimp only
      rw [hb,ha.bits,← Nat.add_assoc g.base]
    · intro j hj
      right
      omega
    dsimp only
    omega
  rw [TsnMap.skip,tsnLt_base,decide_eq_false (by omega),if_neg (by decide),hend]
  rw [if_neg (by decide)]
  by_cases hlen : map.len ≤ map.offset tsn+1
  · rw [if_pos (by rw [hmoved]; exact hlen)]
    refine ⟨map.offset tsn+1,?_,hagrees (fun _ => false) ?_,rfl⟩
    · dsimp only
      rw [UInt32.toNat_sub,UInt32.toNat_add,hmoved]
      omega
    intro i
    symm
    rw [← not_eq_true]
    intro hbit
    have := ha.within _ hbit
    omega
  rw [if_neg (by rw [hmoved]; exact hlen),hmoved]
  have hT := hagrees _ hbits
  obtain ⟨htracks,hstep⟩ := hT.update
  have hlimit := hT.width_le.2
  generalize ({map with
    maxTsnSeen := if tsnLt map.maxTsnSeen tsn then tsn else map.maxTsnSeen
    baseTsn := map.baseTsn+(tsn-map.baseTsn+1)
    cumulativeTsnAckPoint := map.cumulativeTsnAckPoint+(tsn-map.baseTsn+1)
    tsnMap := map.shiftRight (map.offset tsn+1)} : TsnMap).update = U at htracks hstep ⊢
  dsimp only [width] at hlimit htracks hstep
  have hz := (firstClear_spec (map.shiftRight (map.offset tsn+1))
    ((if tsnLt map.maxTsnSeen tsn then tsn else map.maxTsnSeen) -
      (map.cumulativeTsnAckPoint+(tsn-map.baseTsn+1))).toNat 0).2.1
  generalize firstClear (map.shiftRight (map.offset tsn+1)) _ 0 = z at hz htracks hstep
  refine ⟨map.offset tsn+1+z,?_,?_⟩
  · have hU := U.baseTsn.toNat_lt
    rw [UInt32.toNat_sub,UInt32.toNat_add,hmoved] at hstep
    rw [UInt32.toNat_sub]
    omega
  rw [← Nat.add_assoc]
  exact htracks

/-- A TSN is reneged, unless it is at or below the cumulative ack point. -/
theorem Tracks.renege (hlen : map.len < 2^16) (hgap : map.offset tsn < 2^31) : Tracks initial (map.renege tsn) {g with
      marked := Function.update g.marked (g.base+map.offset tsn) false} := by
  have ha := h.agrees
  rw [TsnMap.renege,tsnLt_base,decide_eq_false (by omega),if_neg (by decide),tsnLt_end hlen hgap]
  by_cases hin : map.offset tsn < map.len
  · rw [decide_eq_true hin,if_neg (by decide),← offset]
    refine ⟨⟨ha.base,ha.cum,ha.width_le,?_,?_,?_,ha.skipped_le⟩,?_⟩
    · intro i hi
      dsimp only at hi
      rw [update_apply] at hi
      split at hi
      · cases hi
      · exact ha.within i hi
    · intro i
      dsimp only
      rw [update_apply,update_apply,ha.bits]
      refine if_congr ⟨fun h => by omega,fun h => by omega⟩ rfl rfl
    · intro j hj
      dsimp only at hj ⊢
      rw [update_of_ne (by omega)]
      exact ha.acked j hj
    dsimp only
    rw [update_apply]
    split
    · rfl
    · exact h.first
  rw [decide_eq_false hin,if_pos (by decide)]
  have hclear : g.marked (g.base+map.offset tsn) = false := by
    rw [← ha.bits,← not_eq_true]
    intro hbit
    have := ha.within _ hbit
    have := ha.width_le.1
    omega
  rw [← hclear,update_eq_self]
  exact h

/-- `sctp_tsnmap_check` tells what is at or below the ack point, and what is marked above it. -/
theorem Tracks.check_pos (htracked : tsnLte tsn map.cumulativeTsnAckPoint = true ∨ map.offset tsn < 4096) :
    0 < map.check tsn ↔ tsnLte tsn map.cumulativeTsnAckPoint = true ∨ g.marked (g.base+map.offset tsn) = true := by
  have ha := h.agrees
  rw [check]
  by_cases hold : tsnLte tsn map.cumulativeTsnAckPoint = true
  · rw [if_pos hold]
    exact ⟨fun _ => .inl hold,fun _ => by decide⟩
  have hoff : map.offset tsn < 4096 := htracked.resolve_left hold
  have hend : tsnLt tsn (map.baseTsn+4096) = true := by
    rw [show (4096 : UInt32) = .ofNat 4096 by rfl,tsnLt_end (by decide) (by omega)]
    exact decide_eq_true hoff
  rw [if_neg hold,hend,if_neg (by decide),← offset]
  dsimp only
  rw [ha.bits]
  constructor
  · intro hpos
    split at hpos
    · rename_i hin
      exact .inr hin.2
    · exact absurd hpos (by decide)
  intro hor
  have hmarked := hor.resolve_left hold
  have hin : map.offset tsn < map.len := by
    rw [← ha.bits] at hmarked
    have := ha.within _ hmarked
    have := ha.width_le.1
    omega
  rw [if_pos ⟨hin,hmarked⟩]
  decide

lemma offset_of_check (hcheck : map.check tsn = 0) : map.offset tsn < 4096 := by
  have ha := h.agrees
  rw [check] at hcheck
  split at hcheck
  · next hold => cases hcheck
  next hold =>
  have hlt : map.offset tsn < 2^31 := by
    have htsn := tsn_eq map tsn
    have hone : (1 : UInt32).toNat = 1 := rfl
    rw [tsnLte,tsnLt,ha.cum,or_eq_true,decide_eq_true_eq,decide_eq_true_eq,UInt32.toNat_sub,
      UInt32.toNat_sub,hone] at hold
    have hoff : map.offset tsn < 2^32 := (tsn-map.baseTsn).toNat_lt
    have hne : ¬tsn.toNat = (map.baseTsn-1).toNat := fun heq => hold (.inl (UInt32.toNat_inj.mp heq))
    rw [UInt32.toNat_sub,hone] at hne
    omega
  by_cases hend : tsnLt tsn (map.baseTsn+4096) = true
  · rw [show (4096 : UInt32) = .ofNat 4096 by rfl,tsnLt_end (by decide) hlt] at hend
    exact of_decide_eq_true hend
  rw [not_eq_true] at hend
  rw [hend,if_pos (by decide)] at hcheck
  cases hcheck

end

inductive Op
  | mark (tsn : UInt32) (memory : Bool)
  | skip (tsn : UInt32)
  | renege (tsn : UInt32)

def step (map : TsnMap) : Op → TsnMap
  | .mark tsn memory => (map.mark tsn memory).1
  | .skip tsn => map.skip tsn
  | .renege tsn => map.renege tsn

/-- What a call means. A TSN is marked when memory did not run out; TSNs too far ahead are not skipped,
and those at or below the cumulative ack point are not reneged. -/
def Ghost.after (g : Ghost) (map : TsnMap) (op : Op) : Ghost :=
  let base := g.base+((map.step op).baseTsn-map.baseTsn).toNat
  match op with
  | .mark tsn memory =>
    if (map.mark tsn memory).2 then
      {g with base := base, marked := Function.update g.marked (g.base+map.offset tsn) true}
    else {g with base := base}
  | .skip tsn =>
    if map.offset tsn < 4096 then {g with base := base, skipped := g.base+map.offset tsn+1}
    else {g with base := base}
  | .renege tsn =>
    if map.offset tsn < 2^31 then
      {g with base := base, marked := Function.update g.marked (g.base+map.offset tsn) false}
    else {g with base := base}

def Legal (map : TsnMap) : Op → Prop
  | .mark tsn _ => map.check tsn = 0
  | _ => True

/-- The map does not grow while the bit of the highest TSN seen would be lost. -/
def Kept (map : TsnMap) : Op → Prop
  | .mark tsn _ => map.len ≤ map.offset tsn → TopKept map
  | _ => True

inductive Reaches (allowed : TsnMap → Op → Prop) (len : Nat) (initial : UInt32) : TsnMap → Ghost → Prop
  | init : Reaches allowed len initial (init len initial) ⟨0,fun _ => false,0⟩
  | call {map : TsnMap} {g : Ghost} {op : Op} (hreach : Reaches allowed len initial map g)
      (hallowed : allowed map op) : Reaches allowed len initial (map.step op) (g.after map op)

lemma init_tracks (len : Nat) (initial : UInt32) : Tracks initial (init len initial) ⟨0,fun _ => false,0⟩ := by
  refine ⟨⟨?_,rfl,?_,?_,fun _ => rfl,?_,Nat.le_refl 0⟩,rfl⟩
  · show initial = initial + .ofNat 0
    exact (UInt32.add_zero initial).symm
  · have hzero : (init len initial).width = 0 := by
      show (initial-1-(initial-1)).toNat = 0
      rw [UInt32.sub_self]
      rfl
    rw [hzero]
    exact ⟨Nat.zero_le _,Nat.zero_le _⟩
  · intro i hi
    cases hi
  intro j hj
  exact absurd hj (Nat.not_lt_zero j)

lemma base_same (g : Ghost) (map : TsnMap) : g.base+(map.baseTsn-map.baseTsn).toNat = g.base := by
  rw [UInt32.sub_self]
  rfl

/-- `sctp_tsnmap_mark` of a TSN not yet seen. -/
theorem Tracks.mark {memory : Bool} (h : Tracks initial map g) (hlen : map.len < 2^16)
    (hcheck : map.check tsn = 0) (hkept : map.len ≤ map.offset tsn → TopKept map) :
    Tracks initial (map.mark tsn memory).1 (g.after map (.mark tsn memory)) ∧ (map.mark tsn memory).1.len < 2^16 := by
  have hoff := offset_of_check h hcheck
  have hmod : (tsn-map.baseTsn).toNat%2^16 = map.offset tsn := mod_eq_of_lt (by rw [← offset]; omega)
  have hrecord : ∀ m : TsnMap, (m.record tsn (map.offset tsn)).len = m.len := by
    intro m
    rw [TsnMap.record]
    split
    · rfl
    · exact update_len _
  have heq : map.mark tsn memory = if map.len ≤ map.offset tsn then
      match map.grow (map.offset tsn) memory with
      | none => (map,false)
      | some map' => (map'.record tsn (map.offset tsn),true)
      else (map.record tsn (map.offset tsn),true) := by
    rw [TsnMap.mark,tsnLt_base,decide_eq_false (by omega),hmod]
    exact if_neg (by decide)
  split at heq
  · next hgrow =>
    rcases memory with _ | _
    · have hnone : map.grow (map.offset tsn) false = none := by
        rw [TsnMap.grow,if_neg (by omega)]
        rfl
      rw [hnone] at heq
      refine ⟨?_,by rw [heq]; exact hlen⟩
      rw [Ghost.after,step,heq]
      dsimp only
      rw [if_neg (by decide),base_same]
      exact h
    obtain ⟨map',hsome,htracks,hin,hbase⟩ := h.grow hoff hgrow (hkept hgrow)
    have hoff' : map'.offset tsn = map.offset tsn := by rw [offset,offset,hbase]
    have hlen' : map'.len < 2^16 := by
      rw [TsnMap.grow,if_neg (by omega)] at hsome
      cases hsome
      exact Nat.lt_of_le_of_lt (Nat.min_le_right _ _) (by decide)
    rw [hsome] at heq
    have hdone := htracks.record tsn (by omega) (by omega)
    rw [hoff',hbase] at hdone
    refine ⟨?_,by rw [heq]; exact (hrecord map').symm ▸ hlen'⟩
    rw [Ghost.after,step,heq]
    exact hdone
  next hgrow =>
  have hdone := h.record tsn hoff (by omega)
  refine ⟨?_,by rw [heq]; exact (hrecord map).symm ▸ hlen⟩
  rw [Ghost.after,step,heq]
  exact hdone

/-- Every call that keeps the top bit keeps the map in step. -/
theorem Tracks.step {op : Op} (h : Tracks initial map g) (hlen : map.len < 2^16)
    (hlegal : Legal map op) (hkept : Kept map op) :
    Tracks initial (map.step op) (g.after map op) ∧ (map.step op).len < 2^16 := by
  cases op with
  | mark tsn memory => exact h.mark hlen hlegal hkept
  | skip tsn =>
    have hskiplen : (map.skip tsn).len = map.len := by
      rw [TsnMap.skip]
      split
      · rfl
      split
      · rfl
      dsimp only
      split
      · rfl
      · exact update_len _
    refine ⟨?_,by rw [TsnMap.step,hskiplen]; exact hlen⟩
    rw [Ghost.after,TsnMap.step]
    split
    · next hoff =>
      obtain ⟨k,hk,htracks⟩ := h.skip hoff
      rw [hk]
      exact htracks
    next hoff =>
    have hsame : map.skip tsn = map := by
      rw [TsnMap.skip,tsnLt_base]
      by_cases hold : 2^31 ≤ map.offset tsn
      · rw [decide_eq_true hold,if_pos rfl]
      rw [decide_eq_false hold,if_neg (by decide),show (4096 : UInt32) = .ofNat 4096 by rfl,
        tsnLt_end (by decide) (by omega),decide_eq_false hoff,if_pos (by decide)]
    rw [hsame,base_same]
    exact h
  | renege tsn =>
    have hbase : (map.renege tsn).baseTsn = map.baseTsn := by
      rw [TsnMap.renege]
      split
      · rfl
      · split <;> rfl
    have hrenegelen : (map.renege tsn).len = map.len := by
      rw [TsnMap.renege]
      split
      · rfl
      · split <;> rfl
    refine ⟨?_,by rw [TsnMap.step,hrenegelen]; exact hlen⟩
    rw [Ghost.after,TsnMap.step,hbase,base_same]
    split
    · next hoff => exact h.renege hlen hoff
    next hoff =>
    have hsame : map.renege tsn = map := by
      rw [TsnMap.renege,tsnLt_base,decide_eq_true (by omega),if_pos rfl]
    rw [hsame]
    exact h

lemma Reaches.tracks {len : Nat} {g : Ghost} (hlen : len < 2^16)
    (hreach : Reaches (fun map op => Legal map op ∧ Kept map op) len initial map g) :
    Tracks initial map g ∧ map.len < 2^16 := by
  induction hreach with
  | init => exact ⟨init_tracks len initial,hlen⟩
  | call _ hallowed ih => exact ih.1.step ih.2 hallowed.1 hallowed.2

/-- In a run that never loses the top bit, the map tracks exactly what was marked and skipped. -/
theorem tsnmap_tracks {len : Nat} {g : Ghost} (hlen : len < 2^16)
    (hreach : Reaches (fun map op => Legal map op ∧ Kept map op) len initial map g) :
    map.baseTsn = map.cumulativeTsnAckPoint+1 ∧ map.baseTsn = initial + .ofNat g.base ∧
      (∀ j < g.base, g.marked j = true ∨ j < g.skipped) ∧ ¬(g.marked g.base = true ∨ g.base < g.skipped) ∧
      ∀ tsn, (tsnLte tsn map.cumulativeTsnAckPoint = true ∨ map.offset tsn < 4096) → (0 < map.check tsn ↔
          tsnLte tsn map.cumulativeTsnAckPoint = true ∨ g.marked (g.base+map.offset tsn) = true) := by
  have h := (hreach.tracks hlen).1
  have ha := h.agrees
  refine ⟨?_,ha.base,ha.acked,?_,fun tsn => h.check_pos⟩
  · rw [ha.cum,UInt32.sub_add_cancel]
  have hmissing : g.marked g.base = false := by
    rw [← Nat.add_zero g.base,← ha.bits]
    exact h.first
  have := ha.skipped_le
  rw [hmissing]
  rintro (hfalse | hlt)
  · cases hfalse
  · omega

/-- TSN 5, then 40 and 41, for which the map grows, and then the first. -/
def grown : TsnMap :=
  ((((init 32 1).step (.mark 5 true)).step (.mark 40 true)).step (.mark 41 true)).step (.mark 1 true)

lemma grown_reaches : ∃ g, Reaches (fun map op => Legal map op ∧ Kept map op) 32 1 grown g ∧ g.base = 1 := by
  have hfive := @Reaches.call (fun map op => Legal map op ∧ Kept map op) 32 1 _ _ (.mark 5 true) .init
    ⟨rfl,fun hle => absurd hle (by decide)⟩
  have hforty := @Reaches.call _ _ _ _ _ (.mark 40 true) hfive ⟨rfl,fun _ => .inl (by decide)⟩
  have hnext := @Reaches.call _ _ _ _ _ (.mark 41 true) hforty ⟨rfl,fun hle => absurd hle (by decide)⟩
  have hlast := @Reaches.call _ _ _ _ _ (.mark 1 true) hnext ⟨rfl,fun hle => absurd hle (by decide)⟩
  exact ⟨_,hlast,rfl⟩

theorem tsnmap_tracks_grown : grown.len = 96 ∧ ∃ g, Reaches (fun map op => Legal map op ∧ Kept map op) 32 1 grown g ∧
      g.base = 1 ∧ grown.baseTsn = grown.cumulativeTsnAckPoint+1 := by
  obtain ⟨g,hreach,hbase⟩ := grown_reaches
  exact ⟨rfl,g,hreach,hbase,(tsnmap_tracks (by decide) hreach).1⟩

/-- The map grows for TSN 101, and TSN 65 is forgotten: it was marked, but is not seen. -/
theorem marked_tsn_lost :
    ∃ map g, Reaches Legal 32 1 map g ∧ map.offset 65 < 4096 ∧ g.marked (g.base+map.offset 65) = true ∧
      map.check 65 = 0 := by
  have hfirst : Reaches Legal 32 1 (init 32 1) _ := .init
  have hlow : Legal (init 32 1) (.mark 65 true) := rfl
  have hhigh : Legal ((init 32 1).step (.mark 65 true)) (.mark 101 true) := rfl
  have hreach := (hfirst.call hlow).call hhigh
  exact ⟨_,_,hreach,by decide,rfl,rfl⟩

end TsnMap

end LinuxToradex.Sctp
