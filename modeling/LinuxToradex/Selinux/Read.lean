import LinuxToradex.Selinux.Sets

/-! `ebitmap_read` checks neither that a map has a bit nor that `highbit` ends the last node, so that a
bitmap read from an image is sound but need not be canonical. -/
namespace LinuxToradex.Selinux
open Option List

open BlockSet

variable {a : Width}
variable {map w k : Nat} {fp rest : List UInt8}

def le : List UInt8 → Nat
  | [] => 0
  | b::l => b.toNat+256*le l

def nextEntry (bytes : Nat) (fp : List UInt8) : Option (Nat × List UInt8) :=
  if fp.length < bytes then none else some (le (fp.take bytes),fp.drop bytes)

/-- The loop that stores a 64-bit map in the words from `index` on. A word is at least half of the map,
so that it takes at most `64 / w` rounds. -/
def storeMap {w : Nat} (op : BitVec w → BitVec w → BitVec w) :
    Nat → (Nat → BitVec w) → Nat → Nat → (Nat → BitVec w)
  | 0, maps, _, _ => maps
  | k+1, maps, index, map =>
    if map = 0 then maps
    else
      storeMap op k (Function.update maps index (op (maps index) (BitVec.ofNat w map))) (index+1) (map >>> w)

def Node.fill (n : Node a) (startbit map : Nat) : Node a :=
  let index := (startbit-n.startbit)/a.unitSize
  {n with maps := storeMap (fun _ v => v) (64/a.unitSize) n.maps index map}

def enterNode (done : List (Node a)) (n : Option (Node a)) (startbit : Nat) : Option (List (Node a) × Node a) :=
  let new : Node a := ⟨startbit-startbit%a.size,fun _ => 0⟩
  match n with
  | none => some (done,new)
  | some n =>
    if startbit ≥ a.ulong (n.startbit+a.size) then some (done++[n],new)
    else if startbit ≤ n.startbit then none
    else some (done,n)

/-- The loop of `ebitmap_read`; `n` is the last node and `done` are those before it. -/
def readEntries (highbit : Nat) :
    Nat → List (Node a) → Option (Node a) → List UInt8 → Option (List (Node a) × List UInt8)
  | 0, done, n, fp => some (done++n.toList,fp)
  | count+1, done, n, fp =>
    (nextEntry 4 fp).bind fun (startbit,fp) =>
      if startbit%64 ≠ 0 then none
      else if startbit > highbit-64 then none
      else
        (enterNode done n startbit).bind fun (done,n) =>
          (nextEntry 8 fp).bind fun (map,fp) =>
            readEntries highbit count done (some (n.fill startbit map)) fp

def roundedHighbit (a : Width) (highbit : Nat) : Nat :=
  let highbit := u32 (highbit+(a.size-1))
  highbit-highbit%a.size

def header (fp : List UInt8) (k : Nat) : Nat := le ((fp.drop (4*k)).take 4)

/-- `ebitmap_read`; `none` is an error, after which the bitmap is destroyed. -/
def Ebitmap.read (a : Width) (fp : List UInt8) : Option (Ebitmap a × List UInt8) :=
  if fp.length < 12 then none
  else
    let mapunit := header fp 0
    let highbit := roundedHighbit a (header fp 1)
    let count := header fp 2
    if mapunit ≠ 64 then none
    else if highbit = 0 then some (⟨[],highbit⟩,fp.drop 12)
    else
      (readEntries highbit count [] none (fp.drop 12)).map fun (node,fp) => (⟨node,highbit⟩,fp)

def startAt (fp : List UInt8) (i : Nat) : Nat := le ((fp.drop (12*i)).take 4)
def mapAt (fp : List UInt8) (i : Nat) : Nat := le ((fp.drop (12*i+4)).take 8)

/-- An image without empty maps, in which `highbit` rounded up ends the node of the last entry. -/
def CanonicalImage (a : Width) (fp : List UInt8) : Prop :=
  let highbit := roundedHighbit a (header fp 1)
  let count := header fp 2
  highbit = 0 ∨
    (0 < count ∧ (∀ i < count, mapAt (fp.drop 12) i ≠ 0) ∧
      highbit = startAt (fp.drop 12) (count-1)-startAt (fp.drop 12) (count-1)%a.size+a.size)

section
variable {highbit startbit : Nat} {n : Node a}

lemma le_lt (l : List UInt8) : le l < 256^l.length := by
  induction l with
  | nil => exact Nat.one_pos
  | cons b l ih =>
    have hb := b.toNat_lt
    rw [le,length_cons,Nat.pow_succ]
    omega

lemma nextEntry_eq {bytes : Nat} {v : Nat} (h : nextEntry bytes fp = some (v,rest)) :
    v = le (fp.take bytes) ∧ rest = fp.drop bytes ∧ v < 256^bytes := by
  rw [nextEntry] at h
  split at h
  · cases h
  rename_i hlen
  obtain ⟨rfl,rfl⟩ := Prod.mk.inj (some.inj h)
  refine ⟨rfl,rfl,?_⟩
  have hlt := le_lt (fp.take bytes)
  rw [length_take_of_le (Nat.le_of_not_lt hlen)] at hlt
  exact hlt

/-- A map with a bit leaves a word with a bit. -/
theorem storeMap_ne_zero (maps : Nat → BitVec w) (index : Nat) (hmap : map ≠ 0) (hlt : map < 2^(w*k)) :
    ∃ i, index ≤ i ∧ i < index+k ∧ storeMap (fun _ v => v) k maps index map i ≠ 0 := by
  induction k generalizing maps index map with
  | zero =>
    rw [Nat.mul_zero,Nat.pow_zero] at hlt
    omega
  | succ k ih =>
    rw [storeMap,if_neg hmap]
    by_cases hrest : map >>> w = 0
    · refine ⟨index,le_rfl,by omega,?_⟩
      have hsmall : map < 2^w := by
        rw [Nat.shiftRight_eq_div_pow] at hrest
        exact (Nat.div_eq_zero_iff_lt (Nat.two_pow_pos w)).mp hrest
      have hstop : ∀ k', storeMap (fun _ v => v) k'
          (Function.update maps index (BitVec.ofNat w map)) (index+1) (map >>> w) index = BitVec.ofNat w map := by
        intro k'
        cases k' with
        | zero => rw [storeMap,Function.update_self]
        | succ k' => rw [storeMap,if_pos hrest,Function.update_self]
      rw [hstop]
      intro hzero
      have hnat := congrArg BitVec.toNat hzero
      rw [BitVec.toNat_ofNat,Nat.mod_eq_of_lt hsmall] at hnat
      exact hmap hnat
    obtain ⟨i,hge,hi,hne⟩ := ih (Function.update maps index (BitVec.ofNat w map)) (index+1) hrest (by
      rw [Nat.shiftRight_eq_div_pow]
      apply Nat.div_lt_of_lt_mul
      rw [← Nat.pow_add,Nat.add_comm,← Nat.mul_succ]
      exact hlt)
    exact ⟨i,by omega,by omega,hne⟩

lemma exists_bit_of_ne_zero {v : BitVec w} (h : v ≠ 0) : ∃ r < w, v.getLsbD r = true := by
  by_contra hnone
  push Not at hnone
  apply h
  apply BitVec.eq_of_getLsbD_eq
  intro r hr
  simpa using hnone r hr

lemma Node.has_of_ne_zero (hk : k < a.unitNums) (h : n.maps k ≠ 0) : ∃ i, n.block.Has a.size i := by
  obtain ⟨r,hr,hbit⟩ := exists_bit_of_ne_zero h
  have hlt : k*a.unitSize+r < a.size := by
    calc k*a.unitSize+r < k*a.unitSize+a.unitSize := by omega
      _ = (k+1)*a.unitSize := (Nat.succ_mul _ _).symm
      _ ≤ a.unitNums*a.unitSize := Nat.mul_le_mul_right _ hk
  refine ⟨n.startbit+(k*a.unitSize+r),Nat.le_add_right _ _,Nat.add_lt_add_left hlt _,?_⟩
  show Words.bit n.maps (n.startbit+(k*a.unitSize+r)-n.startbit) = true
  rw [Nat.add_sub_cancel_left,Words.bit_unit _ hr]
  exact hbit

section
variable (hle : n.startbit ≤ startbit) (hlt : startbit < n.startbit+a.size)
    (hstart : a.size ∣ n.startbit)
include hle hlt hstart

lemma index_room (halign : startbit%64 = 0) : (startbit-n.startbit)/a.unitSize+64/a.unitSize ≤ a.unitNums := by
  cases a with
  | w32 | w64 =>
    simp only [Width.size,Width.unitNums,Width.unitSize,Width.bytes] at *
    omega

lemma Node.fill_filled (halign : startbit%64 = 0) (hmap : map ≠ 0) (h64 : map < 2^64) :
    ∃ i, (n.fill startbit map).block.Has a.size i := by
  have hroom := index_room hle hlt hstart halign
  have hbits : a.unitSize*(64/a.unitSize) = 64 := by cases a <;> rfl
  obtain ⟨k,-,hk,hne⟩ := storeMap_ne_zero n.maps ((startbit-n.startbit)/a.unitSize) hmap (by rw [hbits]; exact h64)
  exact Node.has_of_ne_zero (n := n.fill startbit map) (by omega) hne

end

lemma blocks_append (l m : List (Node a)) : blocks (l++m) = blocks l++blocks m := map_append

lemma linked_concat {l : List (Node a)} : Linked 0 (l++[n]) highbit ↔
    Chain a.size 0 (blocks l) ∧ stop a.size 0 (blocks l) ≤ n.startbit ∧ a.size ∣ n.startbit ∧
      n.startbit+a.size ≤ highbit ∧ highbit < 4294967296 := by
  have hblocks : blocks (l++[n]) = blocks l++[n.block] := blocks_append l [n]
  constructor
  · rintro ⟨hchain,hstop,hlt⟩
    rw [hblocks] at hchain hstop
    rw [stop_concat] at hstop
    obtain ⟨h1,h2,h3⟩ := chain_concat.mp hchain
    exact ⟨h1,h2,h3,hstop,hlt⟩
  rintro ⟨h1,h2,h3,hstop,hlt⟩
  refine ⟨?_,?_,hlt⟩
  · rw [hblocks]
    exact chain_concat.mpr ⟨h1,h2,h3⟩
  rw [hblocks,stop_concat]
  exact hstop

lemma round_end_le (hdvd : a.size ∣ highbit) (hlt : startbit < highbit) :
    startbit-startbit%a.size+a.size ≤ highbit := by
  have hround : a.size ∣ startbit-startbit%a.size := Nat.dvd_sub_mod startbit
  have hdiff := Nat.le_of_dvd (by omega) (Nat.dvd_sub hdvd hround)
  omega

/-- The node of the next entry. -/
theorem enterNode_spec {done done' : List (Node a)} {last : Option (Node a)}
    (h : Linked 0 (done++last.toList) highbit) (hfirst : last = none → done = []) (hdvd : a.size ∣ highbit)
    (hlt : startbit < highbit) (heq : enterNode done last startbit = some (done',n)) :
    Linked 0 (done' ++ [n]) highbit ∧ n.startbit = startbit-startbit%a.size ∧
      (Filled a.size (blocks (done++last.toList)) → Filled a.size (blocks done')) := by
  have hend := round_end_le hdvd hlt
  have hround : a.size ∣ startbit-startbit%a.size := Nat.dvd_sub_mod startbit
  unfold enterNode at heq
  rcases last with _ | m
  · obtain ⟨rfl,rfl⟩ := Prod.mk.inj (some.inj heq)
    rw [hfirst rfl] at h ⊢
    exact ⟨linked_concat.mpr ⟨h.chain,Nat.zero_le _,hround,hend,h.lt⟩,rfl,id⟩
  obtain ⟨h1,h2,h3,h4,hbound⟩ := linked_concat.mp h
  dsimp only at heq
  rw [Width.ulong_of_lt (Nat.lt_of_le_of_lt h4 hbound)] at heq
  split at heq
  · rename_i hge
    obtain ⟨rfl,rfl⟩ := Prod.mk.inj (some.inj heq)
    refine ⟨linked_concat.mpr ⟨h.chain,?_,hround,hend,hbound⟩,rfl,id⟩
    rw [blocks_append,show blocks [m] = [m.block] from rfl,stop_concat]
    exact round_down_le a.size_pos (Nat.dvd_add h3 (Nat.dvd_refl _)) hge
  rename_i hin
  split at heq
  · cases heq
  rename_i hgt
  obtain ⟨rfl,rfl⟩ := Prod.mk.inj (some.inj heq)
  refine ⟨h,(round_down_eq h3 (by omega) (by omega)).symm,fun hf b hb => hf b ?_⟩
  rw [blocks_append]
  exact mem_append_left _ hb

lemma startAt_drop (fp : List UInt8) (i : Nat) : startAt (fp.drop 12) i = startAt fp (i+1) := by
  rw [startAt,startAt,drop_drop,Nat.mul_succ,Nat.add_comm 12]

lemma mapAt_drop (fp : List UInt8) (i : Nat) : mapAt (fp.drop 12) i = mapAt fp (i+1) := by
  rw [mapAt,mapAt,drop_drop]
  congr 2
  congr 1
  omega

/-- The loop keeps the nodes linked below the bound. If no map is empty no node is, and the last node is
that of the last start bit. -/
theorem readEntries_spec {count : Nat} {done nodes : List (Node a)} {last : Option (Node a)}
    (h : Linked 0 (done++last.toList) highbit) (hfirst : last = none → done = [])
    (hdvd : a.size ∣ highbit) (hpos : highbit ≠ 0)
    (heq : readEntries highbit count done last fp = some (nodes,rest)) : Linked 0 nodes highbit ∧
      (Filled a.size (blocks (done++last.toList)) → (∀ i < count, mapAt fp i ≠ 0) →
        Filled a.size (blocks nodes)) ∧ (0 < count → stop a.size 0 (blocks nodes) =
        startAt fp (count-1)-startAt fp (count-1)%a.size+a.size) := by
  induction count generalizing done last fp with
  | zero =>
    obtain ⟨rfl,-⟩ := Prod.mk.inj (some.inj heq)
    exact ⟨h,fun hf _ => hf,fun hlt => absurd hlt (Nat.lt_irrefl 0)⟩
  | succ count ih =>
    obtain ⟨⟨startbit,fp1⟩,hstart,heq⟩ := bind_eq_some_iff.mp heq
    obtain ⟨hstartAt,rfl,-⟩ := nextEntry_eq hstart
    dsimp only at heq
    split at heq
    · cases heq
    rename_i halign
    split at heq
    · cases heq
    obtain ⟨⟨done',n⟩,henter,heq⟩ := bind_eq_some_iff.mp heq
    obtain ⟨⟨map,fp2⟩,hmap,heq⟩ := bind_eq_some_iff.mp heq
    obtain ⟨hmapAt,rfl,h64⟩ := nextEntry_eq hmap
    rw [drop_drop] at heq
    have hlt : startbit < highbit := by omega
    obtain ⟨hlinked,hround,hfilled⟩ := enterNode_spec h hfirst hdvd hlt henter
    obtain ⟨h1,h2,h3,h4,hbound⟩ := linked_concat.mp hlinked
    have hmod := Nat.mod_lt startbit a.size_pos
    have hnext : Linked 0 (done' ++ (some (n.fill startbit map)).toList) highbit :=
      linked_concat.mpr ⟨h1,h2,h3,h4,hbound⟩
    obtain ⟨hnodes,hfill,hstop⟩ := ih hnext nofun heq
    refine ⟨hnodes,fun hf hmaps => hfill ?_ fun i hi => ?_,fun _ => ?_⟩
    · rw [blocks_append]
      refine forall_mem_append.mpr ⟨hfilled hf,forall_mem_singleton.mpr ?_⟩
      refine Node.fill_filled (by omega) (by omega) h3 (Decidable.not_not.mp halign) ?_ h64
      have hzero := hmaps 0 (Nat.succ_pos _)
      rw [hmapAt]
      exact hzero
    · rw [mapAt_drop]
      exact hmaps (i+1) (by omega)
    cases count with
    | zero =>
      obtain ⟨rfl,-⟩ := Prod.mk.inj (some.inj heq)
      rw [blocks_append,show blocks (some (n.fill startbit map)).toList = [(n.fill startbit map).block] from rfl,
        stop_concat]
      show n.startbit+a.size = _
      rw [hround,hstartAt]
      rfl
    | succ count =>
      rw [hstop (Nat.succ_pos _),startAt_drop]
      rfl

lemma Ebitmap.read_spec {e : Ebitmap a} (h : Ebitmap.read a fp = some (e,rest)) :
    e.Sound ∧ (CanonicalImage a fp → e.Canonical) := by
  rw [Ebitmap.read] at h
  split at h
  · cases h
  dsimp only at h
  split at h
  · cases h
  split at h
  · rename_i hzero
    obtain ⟨rfl,-⟩ := Prod.mk.inj (some.inj h)
    rw [hzero]
    have hsound : Linked 0 ([] : List (Node a)) 0 := ⟨trivial,le_rfl,by decide⟩
    exact ⟨hsound,fun _ => ⟨hsound,nofun,rfl⟩⟩
  rename_i hpos
  obtain ⟨⟨nodes,fp'⟩,hread,heq⟩ := map_eq_some_iff.mp h
  obtain ⟨rfl,-⟩ := Prod.mk.inj heq
  have hlt : roundedHighbit a (header fp 1) < 4294967296 :=
    Nat.lt_of_le_of_lt (Nat.sub_le _ _) (Nat.mod_lt _ (by decide))
  have hstart : Linked 0 ([]++(none : Option (Node a)).toList) (roundedHighbit a (header fp 1)) :=
    ⟨trivial,Nat.zero_le _,hlt⟩
  obtain ⟨hlinked,hfilled,hstop⟩ := readEntries_spec hstart (fun _ => rfl) (Nat.dvd_sub_mod _) hpos hread
  refine ⟨hlinked,fun himage => ⟨hlinked,?_⟩⟩
  rcases himage with hzero | ⟨hcount,hmaps,hend⟩
  · exact absurd hzero hpos
  · exact ⟨hfilled nofun hmaps,hend.trans (hstop hcount).symm⟩

end

/-- The bitmaps that sequences of calls give, where every image that is read is allowed. -/
inductive Built (a : Width) (allowed : List UInt8 → Prop) : Ebitmap a → Prop
  | init : Built a allowed (.init a)
  | setBit {e e' : Ebitmap a} {bit : Nat} {alloc value : Bool} (h : Built a allowed e) (hbit : bit < 2147483648)
      (heq : e.setBit alloc bit value = .ok e') : Built a allowed e'
  | cpy {e : Ebitmap a} (allocs : Nat) (h : Built a allowed e) : Built a allowed (e.cpy allocs)
  | read {e : Ebitmap a} {fp rest : List UInt8} (hfp : allowed fp) (heq : Ebitmap.read a fp = some (e,rest)) :
      Built a allowed e

lemma Ebitmap.canonical_init (a : Width) : (init a).Canonical :=
  ⟨⟨trivial,le_rfl,Nat.zero_lt_succ _⟩,nofun,rfl⟩

lemma Built.canonical {e : Ebitmap a} (h : Built a (CanonicalImage a) e) : e.Canonical := by
  induction h with
  | init => exact Ebitmap.canonical_init a
  | setBit _ hbit heq ih =>
    rename_i e e' bit alloc value _
    rcases Ebitmap.setBit_spec value alloc ih.sound hbit with ⟨herr,-⟩ | ⟨e'',hok,hset⟩
    · rw [heq] at herr
      cases herr
    rw [heq] at hok
    cases hok
    exact ⟨hset.linked,hset.tight ih.tight⟩
  | cpy allocs _ ih =>
    rw [Ebitmap.cpy]
    split
    · rw [map_id'']
      · exact ih
      · exact fun _ => rfl
    · exact Ebitmap.canonical_init a
  | read hfp heq => exact (Ebitmap.read_spec heq).2 hfp

/-- Where only canonical images are read, the bits that are enumerated are those `ebitmap_get_bit` finds,
and `ebitmap_cmp` and `ebitmap_contains` decide equality and inclusion. -/
theorem comparisons_decide {e1 e2 : Ebitmap a} (h1 : Built a (CanonicalImage a) e1)
    (h2 : Built a (CanonicalImage a) e2) :
    ∃ bits1 bits2, e1.positiveBits = some bits1 ∧ e2.positiveBits = some bits2 ∧
      (∀ bit, e1.getBit bit = .ok (decide (bit ∈ bits1))) ∧ (e1.cmp e2 = true ↔ ∀ i, i ∈ bits1 ↔ i ∈ bits2) ∧
      (e1.contains e2 = true ↔ ∀ i ∈ bits2, i ∈ bits1) := by
  have hc1 := h1.canonical
  have hc2 := h2.canonical
  obtain ⟨bits1,heq1,hmem1⟩ := Ebitmap.positiveBits_spec hc1.sound
  obtain ⟨bits2,heq2,hmem2⟩ := Ebitmap.positiveBits_spec hc2.sound
  refine ⟨bits1,bits2,heq1,heq2,fun bit => ?_,?_,?_⟩
  · obtain ⟨b,hget,hb⟩ := Ebitmap.getBit_eq hc1.sound bit
    have hdecide : b = decide (bit ∈ bits1) := by
      rw [Bool.eq_iff_iff,decide_eq_true_iff]
      exact hb.trans (hmem1 bit).symm
    rw [hget,hdecide]
  · simp only [hmem1,hmem2]
    exact Ebitmap.cmp_iff hc1 hc2
  simp only [hmem1,hmem2]
  exact Ebitmap.contains_iff hc1 hc2

/-- An image of one entry, with bit 3 set, and the bitmap in which this bit was set. -/
theorem comparisons_decide_image : ∃ e1 e2 : Ebitmap .w32, Built .w32 (CanonicalImage .w32) e1 ∧
    Built .w32 (CanonicalImage .w32) e2 ∧ e1.positiveBits = some [3] ∧ e2.positiveBits = some [3] ∧
    e1.cmp e2 = true ∧ ∃ bits1 bits2, e1.positiveBits = some bits1 ∧ e2.positiveBits = some bits2 ∧
      (e1.contains e2 = true ↔ ∀ i ∈ bits2, i ∈ bits1) := by
  have h1 : Built .w32 (CanonicalImage .w32) _ :=
    .setBit .init (by decide) (rfl : (Ebitmap.init .w32).setBit true 3 true = .ok _)
  have himage : CanonicalImage .w32 [64,0,0,0,64,0,0,0,1,0,0,0,0,0,0,0,8,0,0,0,0,0,0,0] :=
    .inr (by decide)
  have h2 : Built .w32 (CanonicalImage .w32) _ := .read himage (rfl : Ebitmap.read .w32 _ = some (_,_))
  obtain ⟨bits1,bits2,heq1,heq2,-,-,hcontains⟩ := comparisons_decide h1 h2
  exact ⟨_,_,h1,h2,by decide +kernel,by decide +kernel,by decide +kernel,bits1,bits2,heq1,heq2,hcontains⟩

/-- A bitmap without nodes but with a bound, and the empty bitmap: both are the empty set, but they
compare as different, and the second does not contain the first. -/
theorem loose_bound_differs : ∃ e : ∀ a, Ebitmap a, ∀ a, Built a (fun _ => True) (e a) ∧
    (e a).positiveBits = some [] ∧ (Ebitmap.init a).positiveBits = some [] ∧
    (e a).cmp (.init a) = false ∧ (Ebitmap.init a).contains (e a) = false := by
  refine ⟨fun a => ⟨[],a.size⟩,fun a => ?_⟩
  have hread : Ebitmap.read a [64,0,0,0,1,0,0,0,0,0,0,0] = some (⟨[],a.size⟩,[]) := by
    cases a <;> rfl
  refine ⟨.read trivial hread,?_⟩
  cases a <;> decide

end LinuxToradex.Selinux
