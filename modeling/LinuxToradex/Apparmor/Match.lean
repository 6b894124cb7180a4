import Mathlib

/-! `security/apparmor/match.c` with a `size_t` of 32 bits: the tables are unpacked from a loaded blob and
verified once, and the matcher then uses them without a check. An access outside a table is `none`. -/
namespace LinuxToradex.Apparmor

def bigEndian (blob : List UInt8) : Nat → Nat → Nat
  | 0, _ => 0
  | n+1, a => (blob.getD a 0).toNat*256^n+bigEndian blob n (a+1)

structure Table where
  tdId : Nat
  tdFlags : Nat
  tdLolen : Nat
  tdData : List Nat
deriving DecidableEq

def tableSize (len elSize : Nat) : Nat := ((12+len*elSize)%2^32+7)%2^32/8*8

/-- `unpack_table`: NULL, or the table. Entries written beyond the memory of the table are an access
outside it. -/
def unpackTable (blob : List UInt8) (memory : Bool) : Option (Option Table) :=
  if blob.length < 12 then some none
  else
    let tdId := (bigEndian blob 2 0+65535)%65536
    let tdFlags := bigEndian blob 2 2
    let tdLolen := bigEndian blob 4 8
    if ¬(tdFlags = 2 ∨ tdFlags = 4 ∨ tdFlags = 1) then some none
    else if blob.length < tableSize tdLolen tdFlags then some none
    else if !memory then some none
    else if tableSize tdLolen tdFlags < 12+tdLolen*tdFlags then none
    else some (some ⟨tdId,tdFlags,tdLolen, (List.range tdLolen).map fun i => bigEndian blob tdFlags (12+i*tdFlags)⟩)

structure Dfa where
  flags : Nat
  tables : Nat → Option Table

def accept1Flags (flags : Nat) : Nat := flags &&& 0x3f

def accept2Flags (flags : Nat) : Nat := accept1Flags (flags >>> 6)

/-- The type that a table has to have: `YYTD_ID_ACCEPT` is 0, `BASE` 1, `CHK` 2, `DEF` 3, `EC` 4,
`ACCEPT2` 6 and `NXT` 7. -/
def acceptable (flags : Nat) (table : Table) : Bool :=
  match table.tdId with
  | 0 => table.tdFlags &&& accept1Flags flags != 0
  | 6 => table.tdFlags &&& accept2Flags flags != 0
  | 1 => table.tdFlags == 4
  | 3 => table.tdFlags == 2
  | 7 => table.tdFlags == 2
  | 2 => table.tdFlags == 2
  | 4 => table.tdFlags == 1
  | _ => false

inductive Unpacked
  | error
  | dfa (dfa : Dfa)

def unpackTables (flags : Nat) : Nat → List UInt8 → List Bool → Dfa → Option Unpacked
  | 0, _, _, _ => none
  | fuel+1, blob, memory, dfa =>
    if blob.length = 0 then some (.dfa dfa)
    else match unpackTable blob (memory.headD false) with
      | none => none
      | some none => some .error
      | some (some table) =>
        if acceptable flags table ∧ (dfa.tables table.tdId).isNone then
          unpackTables flags fuel (blob.drop (tableSize table.tdLolen table.tdFlags)) memory.tail
            {dfa with tables := Function.update dfa.tables table.tdId (some table)}
        else some .error

def verifyDfa (dfa : Dfa) (flags : Nat) : Bool :=
  match dfa.tables 3, dfa.tables 1, dfa.tables 7, dfa.tables 2 with
  | some def_, some base, some next, some check =>
    let stateCount := base.tdLolen
    let transCount := next.tdLolen
    if accept1Flags flags ≠ 0 ∧ (dfa.tables 0).all (·.tdLolen != stateCount) then false
    else if accept2Flags flags ≠ 0 ∧ (dfa.tables 6).all (·.tdLolen != stateCount) then false
    else if stateCount ≠ def_.tdLolen then false
    else if transCount ≠ check.tdLolen then false
    else if (dfa.tables 4).any (·.tdLolen != 256) then false
    else if flags &&& 0x1000 = 0 then true
    else
      ((List.range stateCount).all fun i =>
        decide (def_.tdData.getD i 0 < stateCount) &&
          decide ((base.tdData.getD i 0+255)%2^32 < transCount)) &&
      (List.range transCount).all fun i =>
        decide (next.tdData.getD i 0 < stateCount) && decide (check.tdData.getD i 0 < stateCount)
  | _, _, _, _ => false

/-- `aa_dfa_unpack`; `memory` says which allocations succeed, of the dfa and of the tables. -/
def aaDfaUnpack (blob : List UInt8) (flags : Nat) (memory : List Bool) : Option Unpacked :=
  if !memory.headD false then some .error
  else if blob.length < 16 then some .error
  else if bigEndian blob 4 0 ≠ 0x1B5E783D then some .error
  else if blob.length < bigEndian blob 4 4 then some .error
  else
    match unpackTables flags (blob.length+1) (blob.drop (bigEndian blob 4 4)) memory.tail
      ⟨bigEndian blob 2 12,fun _ => none⟩ with
    | some (.dfa dfa) => if verifyDfa dfa flags then some (.dfa dfa) else some .error
    | r => r

namespace Dfa

def entry (dfa : Dfa) (id i : Nat) : Option Nat := (dfa.tables id).bind fun table => table.tdData[i]?

def equiv (dfa : Dfa) (c : UInt8) : Option Nat :=
  if (dfa.tables 4).isSome then dfa.entry 4 c.toNat else some c.toNat

def next (dfa : Dfa) (state : Nat) (c : UInt8) : Option Nat :=
  (dfa.entry 1 state).bind fun base => (dfa.equiv c).bind fun k =>
    let pos := (base+k)%2^32
    (dfa.entry 2 pos).bind fun check => if check = state then dfa.entry 7 pos else dfa.entry 3 state

def matchFrom (dfa : Dfa) : Nat → List UInt8 → Option Nat
  | state, [] => some state
  | state, c::str => (dfa.next state c).bind fun state => matchFrom dfa state str

def matchLen (dfa : Dfa) (start : Nat) (str : List UInt8) : Option Nat :=
  if start = 0 then some 0 else dfa.matchFrom start str

def stateCount (dfa : Dfa) : Nat := (dfa.tables 1).elim 0 Table.tdLolen

end Dfa

open List

variable {blob : List UInt8} {flags : Nat} {memory : List Bool} {dfa : Dfa} {table : Table} {i state : Nat}
  {c : UInt8}

structure Table.Whole (table : Table) : Prop where
  length : table.tdData.length = table.tdLolen
  size : 12+table.tdLolen*table.tdFlags < 2^32
  entries : ∀ k ∈ table.tdData, k < 256^table.tdFlags

lemma bigEndian_lt (blob : List UInt8) (n a : Nat) : bigEndian blob n a < 256^n := by
  induction n generalizing a with
  | zero => simp [bigEndian]
  | succ n ih =>
    have hbyte := (blob.getD a 0).toNat_lt
    have hrest := ih (a+1)
    have hmul : (blob.getD a 0).toNat*256^n ≤ 255*256^n := Nat.mul_le_mul_right _ (by omega)
    rw [bigEndian,Nat.pow_succ]
    omega

lemma tableSize_lt (len elSize : Nat) : tableSize len elSize < 2^32 := by
  unfold tableSize
  omega

lemma unpackTable_whole {m : Bool} (h : unpackTable blob m = some (some table)) : table.Whole := by
  unfold unpackTable at h
  dsimp only at h
  split at h
  · cases h
  split at h
  · cases h
  split at h
  · cases h
  split at h
  · cases h
  split at h
  · cases h
  rename_i hfits
  have hlt := tableSize_lt (bigEndian blob 4 8) (bigEndian blob 2 2)
  have htable := Option.some.inj (Option.some.inj h)
  rw [← htable]
  refine ⟨?_,?_,?_⟩
  · dsimp only
    rw [length_map,length_range]
  · dsimp only
    omega
  intro k hk
  obtain ⟨i,-,rfl⟩ := mem_map.mp hk
  exact bigEndian_lt _ _ _

def Dfa.Loaded (dfa : Dfa) (flags : Nat) : Prop :=
  ∀ id table, dfa.tables id = some table → table.tdId = id ∧ table.Whole ∧ acceptable flags table = true

lemma unpackTables_loaded {fuel : Nat} {dfa' : Dfa} (hl : dfa.Loaded flags)
    (h : unpackTables flags fuel blob memory dfa = some (.dfa dfa')) : dfa'.Loaded flags := by
  induction fuel generalizing blob memory dfa with
  | zero => cases h
  | succ fuel ih =>
    rw [unpackTables] at h
    split at h
    · cases h
      exact hl
    split at h
    · cases h
    · cases h
    rename_i table htable
    split at h
    · rename_i hok
      refine ih ?_ h
      intro id t ht
      dsimp only at ht
      rw [Function.update_apply] at ht
      split at ht
      · rename_i hid
        cases ht
        exact ⟨hid.symm,unpackTable_whole htable,hok.1⟩
      · exact hl id t ht
    · cases h

structure Dfa.Verified (dfa : Dfa) where
  base : Table
  default : Table
  next : Table
  check : Table
  baseIs : dfa.tables 1 = some base
  defaultIs : dfa.tables 3 = some default
  nextIs : dfa.tables 7 = some next
  checkIs : dfa.tables 2 = some check
  baseWhole : base.Whole
  defaultWhole : default.Whole
  nextWhole : next.Whole
  checkWhole : check.Whole
  nextFlags : next.tdFlags = 2
  baseEntries : ∀ i < base.tdLolen, base.tdData.getD i 0 < 2^32
  equivEntries : ∀ t, dfa.tables 4 = some t → ∀ k ∈ t.tdData, k < 256
  states : default.tdLolen = base.tdLolen
  transitions : check.tdLolen = next.tdLolen
  equivLength : ∀ t, dfa.tables 4 = some t → t.tdData.length = 256
  defaultBelow : ∀ i < base.tdLolen, default.tdData.getD i 0 < base.tdLolen
  baseBelow : ∀ i < base.tdLolen, (base.tdData.getD i 0+255)%2^32 < next.tdLolen
  nextBelow : ∀ i < next.tdLolen, next.tdData.getD i 0 < base.tdLolen

lemma verified_of_unpack (hunpack : aaDfaUnpack blob flags memory = some (.dfa dfa))
    (hstates : flags &&& 0x1000 ≠ 0) : Nonempty dfa.Verified := by
  have hload : dfa.Loaded flags ∧ verifyDfa dfa flags = true := by
    unfold aaDfaUnpack at hunpack
    split at hunpack
    · cases hunpack
    split at hunpack
    · cases hunpack
    split at hunpack
    · cases hunpack
    split at hunpack
    · cases hunpack
    split at hunpack
    · rename_i htables
      split at hunpack
      · rename_i hverify
        cases hunpack
        exact ⟨unpackTables_loaded (fun _ _ ht => by cases ht) htables,hverify⟩
      · cases hunpack
    rename_i hno
    exact absurd hunpack (hno _)
  obtain ⟨hl,hv⟩ := hload
  unfold verifyDfa at hv
  split at hv
  · rename_i def_ base next check hdef hbase hnext hcheck
    dsimp only at hv
    split at hv
    · cases hv
    split at hv
    · cases hv
    split at hv
    · cases hv
    rename_i hdeflen
    split at hv
    · cases hv
    rename_i hchecklen
    split at hv
    · cases hv
    rename_i hequiv
    rw [Bool.and_eq_true,all_eq_true,all_eq_true] at hv
    obtain ⟨hs,ht⟩ := hv
    have hsi : ∀ i < base.tdLolen, def_.tdData.getD i 0 < base.tdLolen ∧
        (base.tdData.getD i 0+255)%2^32 < next.tdLolen := by
      intro i hi
      have := hs i (mem_range.mpr hi)
      rw [Bool.and_eq_true,decide_eq_true_eq,decide_eq_true_eq] at this
      exact this
    have hti : ∀ i < next.tdLolen, next.tdData.getD i 0 < base.tdLolen := by
      intro i hi
      have := ht i (mem_range.mpr hi)
      rw [Bool.and_eq_true,decide_eq_true_eq] at this
      exact this.1
    have hflags : next.tdFlags = 2 := by
      obtain ⟨hid,-,hok⟩ := hl 7 next hnext
      unfold acceptable at hok
      rw [hid] at hok
      simpa using hok
    have hbaseflags : base.tdFlags = 4 := by
      obtain ⟨hid,-,hok⟩ := hl 1 base hbase
      unfold acceptable at hok
      rw [hid] at hok
      simpa using hok
    have hequivflags : ∀ t, dfa.tables 4 = some t → t.tdFlags = 1 := by
      intro t ht
      obtain ⟨hid,-,hok⟩ := hl 4 t ht
      unfold acceptable at hok
      rw [hid] at hok
      simpa using hok
    refine ⟨⟨base,def_,next,check,hbase,hdef,hnext,hcheck,(hl 1 base hbase).2.1,
      (hl 3 def_ hdef).2.1,(hl 7 next hnext).2.1,(hl 2 check hcheck).2.1,hflags,?_,?_,?_,?_,?_,
      fun i hi => (hsi i hi).1,fun i hi => (hsi i hi).2,hti⟩⟩
    · intro i hi
      have hw := (hl 1 base hbase).2.1
      have hlt : i < base.tdData.length := hw.length.symm ▸ hi
      have := hw.entries _ (getElem_mem hlt)
      rw [hbaseflags] at this
      rw [getD_eq_getElem?_getD,getElem?_eq_getElem hlt]
      exact this
    · intro t ht k hk
      have := (hl 4 t ht).2.1.entries k hk
      rw [hequivflags t ht] at this
      exact this
    · exact (Decidable.not_not.mp hdeflen).symm
    · exact (Decidable.not_not.mp hchecklen).symm
    intro t ht
    rw [ht] at hequiv
    rw [(hl 4 t ht).2.1.length]
    simpa using hequiv
  · cases hv

lemma getD_of_lt {l : List Nat} (hi : i < l.length) : l[i]? = some (l.getD i 0) := by
  rw [getD_eq_getElem?_getD,getElem?_eq_getElem hi]
  rfl

namespace Dfa.Verified

variable (v : dfa.Verified)

lemma entry_base (hi : i < v.base.tdLolen) : dfa.entry 1 i = some (v.base.tdData.getD i 0) := by
  rw [Dfa.entry,v.baseIs]
  exact getD_of_lt (v.baseWhole.length.symm ▸ hi)

lemma entry_default (hi : i < v.base.tdLolen) : dfa.entry 3 i = some (v.default.tdData.getD i 0) := by
  rw [Dfa.entry,v.defaultIs]
  exact getD_of_lt (by rw [v.defaultWhole.length,v.states]; exact hi)

lemma entry_next (hi : i < v.next.tdLolen) : dfa.entry 7 i = some (v.next.tdData.getD i 0) := by
  rw [Dfa.entry,v.nextIs]
  exact getD_of_lt (v.nextWhole.length.symm ▸ hi)

lemma entry_check (hi : i < v.next.tdLolen) : dfa.entry 2 i = some (v.check.tdData.getD i 0) := by
  rw [Dfa.entry,v.checkIs]
  exact getD_of_lt (by rw [v.checkWhole.length,v.transitions]; exact hi)

lemma entry_check_none (hi : v.next.tdLolen ≤ i) : dfa.entry 2 i = none := by
  rw [Dfa.entry,v.checkIs]
  exact getElem?_eq_none (by rw [v.checkWhole.length,v.transitions]; exact hi)

end Dfa.Verified

lemma equiv_spec (v : dfa.Verified) (c : UInt8) : ∃ k < 256, dfa.equiv c = some k := by
  have hc := c.toNat_lt
  rw [Dfa.equiv]
  rcases ht : dfa.tables 4 with _ | t
  · exact ⟨c.toNat,hc,rfl⟩
  have hlen : c.toNat < t.tdData.length := by
    rw [v.equivLength t ht]
    exact hc
  rw [Option.isSome_some,if_pos rfl,Dfa.entry,ht,Option.bind_some,getElem?_eq_getElem hlen]
  exact ⟨_,v.equivEntries t ht _ (getElem_mem hlen),rfl⟩

namespace Dfa

def baseOf (dfa : Dfa) (state : Nat) : Nat := (dfa.entry 1 state).getD 0

def classOf (dfa : Dfa) (c : UInt8) : Nat := (dfa.equiv c).getD 0

/-- The base passes the check because `base + 255` wraps around, but the position of the byte does not. -/
def Overruns (dfa : Dfa) (state : Nat) (c : UInt8) : Prop :=
  2^32 ≤ dfa.baseOf state+255 ∧ dfa.baseOf state+dfa.classOf c < 2^32

/-- The base of a state is used: a match starts at every state but 0, and enters 0 from one of them. -/
def Used (dfa : Dfa) (state : Nat) : Prop :=
  state ≠ 0 ∨ ∃ other < dfa.stateCount, other ≠ 0 ∧ ∃ c, dfa.next other c = some 0

end Dfa

lemma stateCount_eq (v : dfa.Verified) : dfa.stateCount = v.base.tdLolen := by
  rw [Dfa.stateCount,v.baseIs]
  rfl

lemma next_spec (v : dfa.Verified) (hs : state < dfa.stateCount) (c : UInt8) :
    (¬dfa.Overruns state c → ∃ r < dfa.stateCount, dfa.next state c = some r) ∧
      (dfa.Overruns state c → dfa.next state c = none) := by
  rw [stateCount_eq v] at hs ⊢
  obtain ⟨k,hk,hequiv⟩ := equiv_spec v c
  have hbase : dfa.baseOf state = v.base.tdData.getD state 0 := by
    rw [Dfa.baseOf,v.entry_base hs]
    rfl
  have hclass : dfa.classOf c = k := by
    rw [Dfa.classOf,hequiv]
    rfl
  have hbelow := v.baseBelow state hs
  have hentry := v.baseEntries state hs
  have hsize := v.nextWhole.size
  rw [v.nextFlags] at hsize
  rw [Dfa.Overruns,hbase,hclass,Dfa.next,v.entry_base hs,Option.bind_some,hequiv,Option.bind_some]
  generalize v.base.tdData.getD state 0 = base at hbelow hentry ⊢
  refine ⟨?_,?_⟩
  · intro hsafe
    have hpos : (base+k)%2^32 < v.next.tdLolen := by omega
    dsimp only
    rw [v.entry_check hpos,Option.bind_some]
    split
    · exact ⟨_,v.nextBelow _ hpos,v.entry_next hpos⟩
    · exact ⟨_,v.defaultBelow _ hs,v.entry_default hs⟩
  rintro ⟨hwrap,hlt⟩
  dsimp only
  rw [v.entry_check_none (by omega)]
  rfl

lemma matchFrom_spec (v : dfa.Verified)
    (hsafe : ∀ i < dfa.stateCount, dfa.Used i → ∀ c, ¬dfa.Overruns i c) (hs : state < dfa.stateCount)
    (hused : dfa.Used state) (str : List UInt8) : ∃ r < dfa.stateCount, dfa.matchFrom state str = some r := by
  induction str generalizing state with
  | nil => exact ⟨state,hs,rfl⟩
  | cons c str ih =>
    obtain ⟨r,hr,hnext⟩ := (next_spec v hs c).1 (hsafe state hs hused c)
    rw [Dfa.matchFrom,hnext,Option.bind_some]
    refine ih hr ?_
    by_cases hzero : r = 0
    · subst hzero
      rcases hused with hne | hentered
      · exact .inr ⟨state,hs,hne,c,hnext⟩
      · exact .inr hentered
    · exact .inl hzero

/-- A verified dfa is matched within its tables, from every state and for every string, if and only if no
base that is used overruns them. -/
theorem match_within_tables_iff (hunpack : aaDfaUnpack blob flags memory = some (.dfa dfa))
    (hstates : flags &&& 0x1000 ≠ 0) :
    (∀ start < dfa.stateCount, ∀ str, ∃ r < dfa.stateCount, dfa.matchLen start str = some r) ↔
      ∀ i < dfa.stateCount, dfa.Used i → ∀ c, ¬dfa.Overruns i c := by
  obtain ⟨v⟩ := verified_of_unpack hunpack hstates
  constructor
  · rintro hall i hi (hne | ⟨j,hj,hjne,c',hnext⟩) c hover
    · obtain ⟨r,-,hmatch⟩ := hall i hi [c]
      rw [Dfa.matchLen,if_neg hne,Dfa.matchFrom,(next_spec v hi c).2 hover] at hmatch
      cases hmatch
    by_cases hzero : i = 0
    · subst hzero
      obtain ⟨r,-,hmatch⟩ := hall j hj [c',c]
      rw [Dfa.matchLen,if_neg hjne,Dfa.matchFrom,hnext,Option.bind_some,Dfa.matchFrom,
        (next_spec v hi c).2 hover] at hmatch
      cases hmatch
    obtain ⟨r,-,hmatch⟩ := hall i hi [c]
    rw [Dfa.matchLen,if_neg hzero,Dfa.matchFrom,(next_spec v hi c).2 hover] at hmatch
    cases hmatch
  intro hsafe start hstart str
  rw [Dfa.matchLen]
  split
  · next hzero => exact ⟨0,hzero ▸ hstart,rfl⟩
  next hzero =>
  exact matchFrom_spec v hsafe hstart (.inl hzero) str

def beBytes (n v : Nat) : List UInt8 := (List.range n).map fun i => UInt8.ofNat (v/256^(n-1-i))

def packTable (id elSize : Nat) (data : List Nat) : List UInt8 :=
  let packed := beBytes 2 (id+1)++beBytes 2 elSize++beBytes 4 0++beBytes 4 data.length ++
    data.flatMap (beBytes elSize)
  packed++replicate (tableSize data.length elSize-packed.length) 0

def wrapping : List UInt8 :=
  beBytes 4 0x1B5E783D++beBytes 4 16++beBytes 8 0++packTable 1 4 [0xFFFFFF01,0xFFFFFF01] ++
    packTable 3 2 [0,0]++packTable 7 2 [0]++packTable 2 2 [0]

lemma unpack_of_check (blob : List UInt8) (flags : Nat) (memory : List Bool) (P : Dfa → Bool)
    (h : (match aaDfaUnpack blob flags memory with
      | some (.dfa dfa) => P dfa
      | _ => false) = true) : ∃ dfa, aaDfaUnpack blob flags memory = some (.dfa dfa) ∧ P dfa = true := by
  split at h
  · rename_i dfa hunpack
    exact ⟨dfa,hunpack,h⟩
  · cases h

/-- With all bytes in class 255 the positions wrap around too, and every match stays within the tables. -/
theorem match_within_tables_classes :
    ∃ dfa, aaDfaUnpack (wrapping++packTable 4 1 (replicate 256 255)) 0x1000 (replicate 6 true) =
        some (.dfa dfa) ∧ dfa.stateCount = 2 ∧ ∀ start < 2, ∀ str, ∃ r < 2, dfa.matchLen start str = some r := by
  obtain ⟨dfa,hunpack,hcheck⟩ := unpack_of_check
    (wrapping++packTable 4 1 (replicate 256 255)) 0x1000 (replicate 6 true)
    (fun dfa => decide (dfa.stateCount = 2) && decide (dfa.baseOf 0 = 0xFFFFFF01) &&
      decide (dfa.baseOf 1 = 0xFFFFFF01) &&
      (dfa.tables 4).any fun t => t.tdData.length == 256 && t.tdData.all (· == 255)) (by decide +kernel)
  simp only [Bool.and_eq_true,decide_eq_true_eq,all_eq_true,Option.any_eq_true,beq_iff_eq] at hcheck
  obtain ⟨⟨⟨hcount,hzero⟩,hone⟩,t,ht,hlen,hall⟩ := hcheck
  have hclass : ∀ c, dfa.classOf c = 255 := by
    intro c
    have hc : c.toNat < t.tdData.length := hlen.symm ▸ c.toNat_lt
    rw [Dfa.classOf,Dfa.equiv,ht,Option.isSome_some,if_pos rfl,Dfa.entry,ht,Option.bind_some, getElem?_eq_getElem hc]
    exact hall _ (getElem_mem hc)
  refine ⟨dfa,hunpack,hcount,?_⟩
  have hiff := match_within_tables_iff hunpack (by decide)
  rw [hcount] at hiff
  refine hiff.mpr ?_
  rintro i hi - c ⟨-,hlt⟩
  rw [hclass c] at hlt
  have hi' : i = 0 ∨ i = 1 := by omega
  rcases hi' with rfl | rfl
  · rw [hzero] at hlt
    omega
  rw [hone] at hlt
  omega

/-- The first byte that is matched from state 1 reads the check table far beyond its one entry. -/
theorem verified_dfa_overruns :
    ∃ dfa, aaDfaUnpack wrapping 0x1000 (replicate 5 true) = some (.dfa dfa) ∧ 1 < dfa.stateCount ∧
      dfa.matchLen 1 [0] = none := by
  obtain ⟨dfa,hunpack,hcheck⟩ := unpack_of_check wrapping 0x1000 (replicate 5 true)
    (fun dfa => decide (1 < dfa.stateCount) && decide (dfa.matchLen 1 [0] = none)) (by decide +kernel)
  simp only [Bool.and_eq_true,decide_eq_true_eq] at hcheck
  exact ⟨dfa,hunpack,hcheck⟩

end LinuxToradex.Apparmor
