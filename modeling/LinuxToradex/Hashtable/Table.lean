import Mathlib
import LinuxToradex.Foundation.Probing
import LinuxToradex.Foundation.Align

/-! `lib/hashtable.c` of U-Boot: open addressing and double hashing. A deleted entry leaves a mark in its slot.
Numbers are `unsigned int`; a `char` is unsigned, as on ARM. Allocations succeed. -/
namespace LinuxToradex.Hashtable
open Probing Nat

abbrev Bytes := List UInt8

def word : Nat := 2^32

/-- `_ENTRY`: `used` is zero in a slot that was never used, -1 in one whose entry was deleted,
and the first hash value of the key otherwise; `entry` is the key and the data of a live entry. -/
structure Slot where
  used : Int
  entry : Option (Bytes × Bytes)
  deriving DecidableEq

/-- `struct hsearch_data` with a table. -/
structure Htab where
  table : Nat → Slot
  size : Nat
  filled : Nat

def isprimeLoop (number : Nat) : Nat → Nat → Option Nat
  | 0, _ => none
  | k+1, div =>
    if div*div%word < number ∧ number%div ≠ 0 then
      isprimeLoop number k ((div+2)%word)
    else some div

def isprime (number : Nat) : Option Bool :=
  (isprimeLoop number number 3).map fun div => decide (number%div ≠ 0)

def sizeLoop : Nat → Nat → Option Nat
  | 0, _ => none
  | k+1, nel =>
    match isprime nel with
    | some true => some nel
    | some false => sizeLoop k ((nel+2)%word)
    | none => none

/-- `hcreate_r`, which fails if there is a table already. -/
def hcreateR (nel : Nat) : Option Htab → Option Htab
  | some _ => none
  | none => (sizeLoop nel (nel ||| 1)).map fun size =>
      {table := fun _ => ⟨0,none⟩, size := size, filled := 0}

def stringValue (key : Bytes) : Nat :=
  key.foldr (fun c hval => (hval*16+c.toNat)%word) (key.length%word)

def hash (size : Nat) (key : Bytes) : Nat :=
  if stringValue key%size = 0 then 1 else stringValue key%size

def hash2 (size hval : Nat) : Nat := 1+hval%(size-2)

namespace Htab

def holds (h : Htab) (key : Bytes) (i : Nat) : Bool :=
  decide ((h.table i).used = hash h.size key) &&
    decide ((h.table i).entry.map Prod.fst = some key)

def unused (h : Htab) (i : Nat) : Bool := decide ((h.table i).used = 0)

def findSlot (h : Htab) (key : Bytes) : Option (Found Nat) :=
  search (back h.size (hash2 h.size (hash h.size key))) (hash h.size key) (h.holds key) h.unused
    h.size

def setSlot (h : Htab) (i : Nat) (slot : Slot) : Htab :=
  {h with table := Function.update h.table i slot}

end Htab

inductive Action where
  | find
  | enter
  deriving DecidableEq

structure Item where
  key : Bytes
  data : Option Bytes

inductive Errno where
  | esrch
  | enomem
  deriving DecidableEq

inductive Result where
  | ok (ret slot : Nat)
  | fail (errno : Errno)
  deriving DecidableEq

def Htab.overwrite (h : Htab) (i : Nat) (item : Item) (action : Action) : Htab :=
  match action, item.data with
  | .enter, some data =>
    h.setSlot i {h.table i with entry := (h.table i).entry.map fun e => (e.1,data)}
  | _, _ => h

/-- `hsearch_r`; `none` stands for a copy of a null pointer. -/
def hsearchR (h : Htab) (item : Item) (action : Action) : Option (Result × Htab) :=
  let hval := hash h.size item.key
  let firstDeleted := if (h.table hval).used = -1 then hval else 0
  match h.findSlot item.key with
  | none => none
  | some (.hit i) => some (.ok i i,h.overwrite i item action)
  | some (.free i) =>
    if action = .enter then
      if h.filled = h.size then some (.fail .enomem,h)
      else
        let i := if firstDeleted ≠ 0 then firstDeleted else i
        item.data.map fun data =>
          (.ok 1 i,{h.setSlot i ⟨hval,some (item.key,data)⟩ with filled := h.filled+1})
    else some (.fail .esrch,h)

def hdeleteR (h : Htab) (key : Bytes) : Option (Result × Htab) :=
  match hsearchR h ⟨key,none⟩ .find with
  | none => none
  | some (.fail _,h) => some (.fail .esrch,h)
  | some (.ok i _,h) =>
    some (.ok 1 i,{h.setSlot i ⟨-1,none⟩ with filled := h.filled - 1})

inductive Op where
  | enter (key data : Bytes)
  | find (key : Bytes)
  | delete (key : Bytes)
  deriving DecidableEq

inductive Answer where
  | done
  | data (data : Bytes)
  | failed
  deriving DecidableEq

namespace Htab

/-- A call; what it found is read through `*retval`. -/
def apply (h : Htab) : Op → Option (Answer × Htab)
  | .enter key data => (hsearchR h ⟨key,some data⟩ .enter).map fun r =>
    match r.1 with
    | .ok _ _ => (.done,r.2)
    | .fail _ => (.failed,r.2)
  | .find key => (hsearchR h ⟨key,none⟩ .find).bind fun r =>
    match r.1 with
    | .ok _ i => (r.2.table i).entry.map fun e => (.data e.2,r.2)
    | .fail _ => some (.failed,r.2)
  | .delete key => (hdeleteR h key).map fun r =>
    match r.1 with
    | .ok _ _ => (.done,r.2)
    | .fail _ => (.failed,r.2)

def run (h : Htab) : List Op → Option (List Answer × Htab)
  | [] => some ([],h)
  | op::ops => (h.apply op).bind fun r => (r.2.run ops).map fun rs => (r.1::rs.1,rs.2)

end Htab

variable {number div k : Nat}

structure Trial (number div : Nat) : Prop where
  odd : div%2 = 1
  low : 3 ≤ div
  least : div ≤ number.minFac
  below : div < number
  small : div < 2^16

lemma minFac_odd (hodd : number%2 = 1) : number.minFac%2 = 1 := by
  have hdvd := minFac_dvd number
  by_contra heven
  have htwo : 2 ∣ number.minFac := dvd_of_mod_eq_zero (by omega)
  have hmod := mod_eq_zero_of_dvd (htwo.trans hdvd)
  omega

lemma Trial.next (h : Trial number div) (hodd : number%2 = 1) (hbound : number ≤ 2^30)
    (hsq : div*div < number) (hdvd : number%div ≠ 0) : Trial number (div+2) := by
  have hlow := h.low
  have hsmall : div < 2^15 := by
    apply Nat.mul_self_lt_mul_self_iff.mp
    exact hsq.trans_le hbound
  have hgrow : 3*div ≤ div*div := Nat.mul_le_mul_right div hlow
  have hne : number.minFac ≠ div := by
    intro heq
    exact hdvd (mod_eq_zero_of_dvd (heq ▸ minFac_dvd number))
  have hmin := minFac_odd hodd
  have hleast := h.least
  have hdiv := h.odd
  exact ⟨by omega,by omega,by omega,by omega,by omega⟩

lemma isprimeLoop_spec (hodd : number%2 = 1) (hbound : number ≤ 2^30) : ∀ k div, Trial number div → number ≤ div+k →
      ∃ r, isprimeLoop number k div = some r ∧ Trial number r ∧ (number ≤ r*r ∨ number%r = 0) := by
  intro k
  induction k with
  | zero =>
    intro div h hfuel
    exact absurd h.below (not_lt.mpr hfuel)
  | succ k ih =>
    intro div h hfuel
    have hsquare : div*div%word = div*div := by
      apply mod_eq_of_lt
      exact Nat.mul_self_lt_mul_self h.small
    rw [isprimeLoop,hsquare]
    by_cases hgo : div*div < number ∧ number%div ≠ 0
    · have hnext := h.next hodd hbound hgo.1 hgo.2
      have hwrap : (div+2)%word = div+2 :=
        mod_eq_of_lt (hnext.small.trans (by decide))
      rw [if_pos hgo,hwrap]
      exact ih (div+2) hnext (by omega)
    rw [if_neg hgo]
    refine ⟨div,rfl,h,?_⟩
    by_cases hsq : div*div < number
    · exact .inr (not_not.mp fun hne => hgo ⟨hsq,hne⟩)
    · exact .inl (not_lt.mp hsq)

lemma isprime_eq (hodd : number%2 = 1) (hlow : 5 ≤ number) (hbound : number ≤ 2^30) :
    isprime number = some (decide number.Prime) := by
  have hthree : 3 ≤ number.minFac := by
    have hpos := (minFac_prime (n := number) (by omega)).two_le
    have hmin := minFac_odd hodd
    omega
  obtain ⟨r,hr,htrial,hstop⟩ := isprimeLoop_spec hodd hbound number 3
    ⟨rfl,le_refl 3,hthree,by omega,by decide⟩ (by omega)
  unfold isprime
  rw [hr]
  refine congrArg some (decide_eq_decide.mpr ?_)
  have hrlow := htrial.low
  constructor
  · intro hndvd
    by_contra hnp
    have hsq := minFac_sq_le_self (by omega) hnp
    have hle : number ≤ r*r := hstop.resolve_right hndvd
    have hmin : number.minFac ≤ r := by
      apply Nat.mul_self_le_mul_self_iff.mp
      rw [← pow_two]
      exact hsq.trans hle
    have heq : number.minFac = r := hmin.antisymm htrial.least
    exact hndvd (mod_eq_zero_of_dvd (heq ▸ minFac_dvd number))
  intro hp hmod
  rcases hp.eq_one_or_self_of_dvd r (dvd_of_mod_eq_zero hmod) with h1 | h1
  · omega
  · exact absurd h1 htrial.below.ne

lemma sizeLoop_spec {p : Nat} (hp : p.Prime) (hbound : p ≤ 2^30) :
    ∀ k nel, nel%2 = 1 → 5 ≤ nel → nel ≤ p → p < nel+2*k →
      ∃ size, sizeLoop k nel = some size ∧ size.Prime ∧ nel ≤ size ∧ size ≤ p := by
  intro k
  induction k with
  | zero => exact fun nel _ _ hle hlt => absurd hle (not_le.mpr hlt)
  | succ k ih =>
    intro nel hodd hlow hle hfuel
    rw [sizeLoop,isprime_eq hodd hlow (hle.trans hbound)]
    by_cases hprime : nel.Prime
    · rw [decide_eq_true hprime]
      exact ⟨nel,rfl,hprime,le_refl nel,hle⟩
    rw [decide_eq_false hprime]
    have hpodd : p%2 = 1 := hp.mod_two_eq_one_iff_ne_two.mpr (by omega)
    have hne : nel ≠ p := fun heq => hprime (heq ▸ hp)
    have hwrap : (nel+2)%word = nel+2 :=
      mod_eq_of_lt (show nel+2 < 2^32 by omega)
    obtain ⟨size,hsize,hsp,hge,hsle⟩ :=
      ih (nel+2) (by omega) (by omega) (by omega) (by omega)
    rw [hwrap]
    exact ⟨size,hsize,hsp,by omega,hsle⟩

lemma or_one_odd (nel : Nat) : (nel ||| 1)%2 = 1 ∧ nel ≤ nel ||| 1 ∧ nel ||| 1 ≤ nel+1 := by
  have h := Align.or_low_bits nel 1
  rw [show 2^1-1 = 1 from rfl] at h
  omega

lemma hcreateR_spec {nel : Nat} (hlow : 64 ≤ nel) (hhigh : nel ≤ 2^27) :
    ∃ size, size.Prime ∧ nel ≤ size ∧ size ≤ 2*nel+2 ∧
      hcreateR nel none = some {table := fun _ => ⟨0,none⟩, size := size, filled := 0} := by
  obtain ⟨hodd,hge,hle⟩ := or_one_odd nel
  obtain ⟨p,hp,hlt,hp2⟩ := exists_prime_lt_and_le_two_mul (nel ||| 1) (by omega)
  obtain ⟨size,hsize,hsp,hsge,hsle⟩ :=
    sizeLoop_spec hp (by omega) nel (nel ||| 1) hodd (by omega) hlt.le (by omega)
  refine ⟨size,hsp,by omega,by omega,?_⟩
  rw [hcreateR,hsize,Option.map_some]

open List

def backslash : UInt8 := 92

def equals : UInt8 := 61

def strcmp : Bytes → Bytes → Int
  | [], [] => 0
  | [], b::_ => (0-b).toInt8.toInt
  | a::_, [] => a.toInt8.toInt
  | a::as, b::bs => if a = b then strcmp as bs else (a-b).toInt8.toInt

section Qsort

variable {α : Type*} (comp : α → α → Int)

def sink (gap j : Nat) (l : List α) : List α :=
  if 0 < gap ∧ gap ≤ j then
    match l[j - gap]?, l[j]? with
    | some a, some b =>
      if comp a b ≤ 0 then l else sink gap (j-gap) ((l.set (j-gap) b).set j a)
    | _, _ => l
  else l
termination_by j
decreasing_by omega

def sinkAll (gap : Nat) (l : List α) : List α :=
  (range' gap (l.length-gap)).foldl (fun l i => sink comp gap i l) l

def gapLoop (gap : Nat) (l : List α) : List α :=
  if gap = 0 then l else gapLoop ((gap-1)/3) (sinkAll comp gap l)
termination_by gap

def firstGap (nel gap : Nat) : Nat :=
  if 3*gap+1 < (nel-1)/3 then firstGap nel (3*gap+1) else 3*gap+1
termination_by nel-gap

def qsort (l : List α) : List α :=
  if l.length > 1 then gapLoop comp (firstGap l.length 0) l else l

variable {comp}

lemma sink_perm (gap j : Nat) (l : List α) : (sink comp gap j l).Perm l := by
  fun_induction sink comp gap j l with
  | case1 j l _ a b ha hb _ => exact .refl l
  | case2 j l _ a b ha hb _ ih =>
    obtain ⟨hi,rfl⟩ := List.getElem?_eq_some_iff.mp ha
    obtain ⟨hj,rfl⟩ := List.getElem?_eq_some_iff.mp hb
    exact ih.trans (set_set_perm hj hi)
  | case3 => exact .refl _
  | case4 => exact .refl _

lemma sinkAll_perm (gap : Nat) (l : List α) : (sinkAll comp gap l).Perm l := by
  unfold sinkAll
  generalize range' gap (l.length-gap) = is
  induction is generalizing l with
  | nil => exact .refl l
  | cons i is ih => exact (ih _).trans (sink_perm gap i l)

lemma gapLoop_perm (gap : Nat) (l : List α) : (gapLoop comp gap l).Perm l := by
  fun_induction gapLoop comp gap l with
  | case1 => exact .refl _
  | case2 gap l _ ih => exact ih.trans (sinkAll_perm gap l)

variable (comp) in
lemma qsort_perm (l : List α) : (qsort comp l).Perm l := by
  unfold qsort
  split
  · exact gapLoop_perm _ l
  · exact .refl l

end Qsort

def escape (sep : UInt8) (data : Bytes) : Bytes :=
  data.flatMap fun c => if c = sep ∨ c = backslash then [backslash,c] else [c]

def exportLine (sep : UInt8) (e : Bytes × Bytes) : Bytes :=
  e.1++equals::(escape sep e.2++[sep])

def exportRoom (sep : UInt8) (e : Bytes × Bytes) : Nat :=
  e.1.length+2+(if sep = 0 then e.2.length else (escape sep e.2).length)+2

def Htab.entries (h : Htab) : List (Bytes × Bytes) :=
  (range' 1 h.size).filterMap fun i =>
    if (h.table i).used > 0 then (h.table i).entry else none

def exportText (h : Htab) (sep : UInt8) : Bytes :=
  (qsort (fun a b => strcmp a.1 b.1) h.entries).flatMap (exportLine sep)

/-- `hexport_r` into a buffer of the size it returns: its contents, or an error if the given size is too small
for the room that was counted; `none` if the text does not fit. -/
def hexportR (h : Htab) (sep : UInt8) (size : Nat) : Option (Except Errno Bytes) :=
  let totlen := (h.entries.map (exportRoom sep)).sum
  if size ≠ 0 ∧ size < totlen+1 then some (.error .enomem)
  else
    let size := if size = 0 then totlen+1 else size
    let text := exportText h sep
    if text.length+1 ≤ size then
      some (.ok (text++replicate (size-text.length) 0))
    else none

def space : UInt8 := 32

def tab : UInt8 := 9

def hashMark : UInt8 := 35

def skipWhile (p : UInt8 → Bool) (data : Bytes) : Nat → Nat → Option Nat
  | 0, _ => none
  | k+1, dp => do
    let c ← data[dp]?
    if p c then skipWhile p data k (dp+1) else some dp

def isBlank (c : UInt8) : Bool := c = space || c = tab

def inComment (sep c : UInt8) : Bool := c ≠ 0 && c ≠ sep

def inName (sep c : UInt8) : Bool := c ≠ equals && c ≠ 0 && c ≠ sep

def valueLoop (sep : UInt8) : Nat → Bytes → Nat → Nat → Option (Bytes × Nat × Nat)
  | 0, _, _, _ => none
  | k+1, data, dp, sp => do
    let c ← data[dp]?
    if c ≠ 0 ∧ c ≠ sep then
      let escaped ← if c = backslash then data[dp+1]?.map (decide <| · ≠ 0) else some false
      let dp := if escaped then dp+1 else dp
      let c ← data[dp]?
      valueLoop sep k (data.set sp c) (dp+1) (sp+1)
    else some (data,dp,sp)

def cstring (data : Bytes) (p : Nat) : Option Bytes :=
  if 0 ∈ data.drop p then some ((data.drop p).takeWhile (· ≠ 0)) else none

def store (data : Bytes) (dp : Nat) (c : UInt8) : Option Bytes :=
  if dp < data.length then some (data.set dp c) else none

inductive Import where
  | go (data : Bytes) (dp : Nat) (h : Htab)
  | fail (h : Htab)

def importDelete (data : Bytes) (name dp : Nat) (h : Htab) : Option Import := do
  let c ← data[dp]?
  let data ← if c = equals then store data dp 0 else some data
  let dp := if c = equals then dp+1 else dp
  let data ← store data dp 0
  let key ← cstring data name
  let r ← hdeleteR h key
  some (.go data (dp+1) r.2)

def importEnter (sep : UInt8) (data : Bytes) (name dp : Nat) (h : Htab) : Option Import := do
  let data ← store data dp 0
  let value := dp+1
  let (data,dp,sp) ← valueLoop sep data.length data value value
  let data ← store data sp 0
  let key ← cstring data name
  let val ← cstring data value
  let r ← hsearchR h ⟨key,some val⟩ .enter
  match r.1 with
  | .ok _ _ => some (.go data (dp+1) r.2)
  | .fail _ => some (.fail r.2)

def importEntry (sep : UInt8) (data : Bytes) (dp : Nat) (h : Htab) : Option Import := do
  let dp ← skipWhile isBlank data data.length dp
  let c ← data[dp]?
  if c = hashMark then
    let dp ← skipWhile (inComment sep) data data.length dp
    some (.go data (dp+1) h)
  else
    let name := dp
    let dp ← skipWhile (inName sep) data data.length dp
    let c ← data[dp]?
    let short ← if c = 0 then some true else data[dp+1]?.map fun c' => decide (c' = 0 ∨ c = sep ∨ c' = sep)
    if short then importDelete data name dp h else importEnter sep data name dp h

def importLoop (sep : UInt8) : Nat → Bytes → Nat → Htab → Option (Bool × Htab)
  | 0, _, _, _ => none
  | k+1, data, dp, h => do
    match ← importEntry sep data dp h with
    | .fail h => some (false,h)
    | .go data dp h =>
      if dp < data.length ∧ data[dp]? ≠ some 0 then importLoop sep k data dp h
      else some (true,h)

def importEntries (size : Nat) : Nat := min (64+size/8) 512

/-- `himport_r` of `size` bytes; without `H_NOCLEAR` an old table is destroyed. -/
def himportR (htab : Option Htab) (env : Bytes) (size : Nat) (sep : UInt8) (noclear : Bool) :
    Option (Bool × Htab) := do
  let data ← if size ≤ env.length then some (env.take size) else none
  let h ← match (if noclear then htab else none) with
    | some h => some h
    | none => hcreateR (importEntries size) none
  importLoop sep (size+1) data 0 h

end LinuxToradex.Hashtable
