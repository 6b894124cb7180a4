import Mathlib

/-! System V semaphore arrays, `ipc/sem.c`. An operation that sleeps is in the queue of the array and, if it
is a single one, in the queue of its semaphore. `none` is a `BUG_ON`, or more restarts of the search than
the fuel allows. -/
namespace LinuxToradex.Sem
open Function (update)

def semvmx : Int := 32767

def eagain : Int := -11

def erange : Int := -34

def efbig : Int := -27

def einval : Int := -22

structure Sembuf where
  num : Nat
  op : Int
  undo : Bool
  nowait : Bool
deriving DecidableEq

/-- `struct sem_queue`. `undo` names the undo structure, if the operation has one. -/
structure Entry where
  id : Nat
  sops : List Sembuf
  undo : Option Nat
  pid : Int
  alter : Bool
deriving DecidableEq

def Entry.first (q : Entry) : Sembuf := q.sops.headD ⟨0,0,false,false⟩

def Entry.num (q : Entry) : Nat := q.first.num

/-- `struct sem_array`, with its semaphores and with the undo structures of the processes. -/
structure Arr where
  nsems : Nat
  semval : Nat → Int
  sempid : Nat → Int
  semadj : Nat → Nat → Int
  pending : List Entry
  simple : Nat → List Entry
  complexCount : Nat
  otime : Nat

def toShort (x : Int) : Int := (x+32768)%65536-32768

def rollback : List Sembuf → (Nat → Int) → Nat → Int
  | [], v => v
  | sop::performed, v => rollback performed (update v sop.num (v sop.num-sop.op))

def wouldBlock (sop : Sembuf) : Int := if sop.nowait then eagain else 1

def undoOutOfRange (adj : Nat → Int) (sop : Sembuf) : Bool :=
  sop.undo && (decide (adj sop.num-sop.op < -semvmx-1) || decide (semvmx < adj sop.num-sop.op))

def perform (adj : Nat → Int) : List Sembuf → List Sembuf → (Nat → Int) → Int × (Nat → Int)
  | _, [], v => (0,v)
  | performed, sop::rest, v =>
    if sop.op = 0 ∧ v sop.num ≠ 0 then (wouldBlock sop,rollback performed v)
    else if v sop.num+sop.op < 0 then (wouldBlock sop,rollback performed v)
    else if semvmx < v sop.num+sop.op then (erange,rollback performed v)
    else if undoOutOfRange adj sop then (erange,rollback performed v)
    else perform adj (sop::performed) rest (update v sop.num (v sop.num+sop.op))

def book (pid : Int) (un : Option Nat) : List Sembuf → Arr → Arr
  | [], s => s
  | sop::rest, s =>
    let s := {s with sempid := update s.sempid sop.num pid}
    let s :=
      match un with
      | some u =>
        if sop.undo then
          let adj := update (s.semadj u) sop.num (toShort (s.semadj u sop.num-sop.op))
          {s with semadj := update s.semadj u adj}
        else s
      | none => s
    book pid un rest s

namespace Arr

def adjOf (s : Arr) : Option Nat → Nat → Int
  | none => fun _ => 0
  | some u => s.semadj u

def tryAtomicSemop (s : Arr) (sops : List Sembuf) (un : Option Nat) (pid : Int) : Int × Arr :=
  let (result,v) := perform (s.adjOf un) [] sops s.semval
  let s := {s with semval := v}
  if result = 0 then (0,book pid un sops.reverse s) else (result,s)

def unlinkQueue (s : Arr) (q : Entry) : Arr :=
  let s := {s with pending := s.pending.filter fun e => decide (e.id ≠ q.id)}
  if q.sops.length = 1 then
    let rest := (s.simple q.num).filter fun e => decide (e.id ≠ q.id)
    {s with simple := update s.simple q.num rest}
  else {s with complexCount := s.complexCount - 1}

def checkRestart (s : Arr) (q : Entry) : Option Bool :=
  if q.alter = false then some false
  else if s.complexCount ≠ 0 then some true
  else if 1 < q.sops.length then some true
  else
    match s.simple q.num with
    | [] => some false
    | h::_ =>
      if s.semval q.num ≠ 0 then
        if 0 ≤ q.first.op then none else some false
      else if h.sops.length ≠ 1 ∨ h.num ≠ q.num then none
      else some (decide (h.first.op = 0))

/-- What one pass over the queue does: the array, who is woken up with which code, whether an
operation has completed, and whether the search has to start again. -/
structure Pass where
  arr : Arr
  woken : List (Nat × Int)
  completed : Bool
  restart : Bool

def Pass.wake (q : Entry) (error : Int) (pass : Pass) : Pass :=
  {pass with woken := (q.id,error)::pass.woken, completed := pass.completed || decide (error = 0)}

/-- One pass of `update_queue`, from an entry on. `semnum` is the semaphore whose queue is searched,
or `none` for -1. -/
def scan (semnum : Option Nat) : List Entry → Arr → Option Pass
  | [], s => some ⟨s,[],false,false⟩
  | q::walk, s =>
    if (semnum.any fun m => decide (s.semval m = 0)) && q.alter then some ⟨s,[],false,false⟩
    else
      let (error,tried) := s.tryAtomicSemop q.sops q.undo q.pid
      if 0 < error then scan semnum walk tried
      else
        let unlinked := tried.unlinkQueue q
        if error ≠ 0 then (scan semnum walk unlinked).map (Pass.wake q error)
        else
          match unlinked.checkRestart q with
          | none => none
          | some true => some ⟨unlinked,[(q.id,0)],true,true⟩
          | some false => (scan semnum walk unlinked).map (Pass.wake q 0)

def queue (s : Arr) : Option Nat → List Entry
  | none => s.pending
  | some m => s.simple m

def passes (semnum : Option Nat) : Nat → Arr → Option Pass
  | 0, _ => none
  | fuel+1, s =>
    match scan semnum (s.queue semnum) s with
    | none => none
    | some pass =>
      if pass.restart then
        (passes semnum fuel pass.arr).map fun next =>
          {next with woken := pass.woken++next.woken, completed := pass.completed || next.completed}
      else some pass

/-- `update_queue`. A pass that starts the search again has removed an entry. -/
def updateQueue (s : Arr) (semnum : Option Nat) : Option Pass :=
  passes (if s.complexCount ≠ 0 then none else semnum) (s.pending.length+1) s

def smartLoop : List Sembuf → Arr → Option Pass
  | [], s => some ⟨s,[],false,false⟩
  | sop::rest, s =>
    if 0 < sop.op ∨ (sop.op < 0 ∧ s.semval sop.num = 0) then
      match s.updateQueue (some sop.num) with
      | none => none
      | some pass =>
        (smartLoop rest pass.arr).map fun next =>
          {next with woken := pass.woken++next.woken, completed := pass.completed || next.completed}
    else smartLoop rest s

/-- `do_smart_update`, at a time of the clock. It returns who is to be woken up. -/
def doSmartUpdate (s : Arr) (sops : Option (List Sembuf)) (otime : Bool) (now : Nat) :
    Option (Arr × List (Nat × Int)) :=
  let pass :=
    match sops with
    | none => s.updateQueue none
    | some sops => if s.complexCount ≠ 0 then s.updateQueue none else smartLoop sops s
  pass.map fun pass =>
    ({pass.arr with otime := if otime || pass.completed then now else pass.arr.otime},pass.woken)

def enqueue (s : Arr) (q : Entry) : Arr :=
  let add := fun l : List Entry => if q.alter then l++[q] else q::l
  let s := {s with pending := add s.pending}
  if q.sops.length = 1 then
    {s with simple := update s.simple q.num (add (s.simple q.num))}
  else {s with complexCount := s.complexCount+1}

/-- `sys_semtimedop`, up to the sleep: what it returns (1 if it sleeps), the array, and who is woken
up. -/
def semop (s : Arr) (id : Nat) (sops : List Sembuf) (un : Nat) (pid : Int) (now : Nat) :
    Option (Int × Arr × List (Nat × Int)) :=
  let undo := if sops.any Sembuf.undo then some un else none
  let alter := sops.any fun sop => decide (sop.op ≠ 0)
  if sops.length < 1 then some (einval,s,[])
  else if sops.any fun sop => decide (s.nsems ≤ sop.num) then some (efbig,s,[])
  else
    let (error,tried) := s.tryAtomicSemop sops undo pid
    if error ≤ 0 then
      if alter ∧ error = 0 then
        (tried.doSmartUpdate (some sops) true now).map fun (updated,woken) => (error,updated,woken)
      else some (error,tried,[])
    else some (error,tried.enqueue ⟨id,sops,undo,pid,alter⟩,[])

def setval (s : Arr) (m : Nat) (val : Int) (pid : Int) (now : Nat) :
    Option (Int × Arr × List (Nat × Int)) :=
  if s.nsems ≤ m then some (einval,s,[])
  else if semvmx < val ∨ val < 0 then some (erange,s,[])
  else
    let s :=
      {s with
        semadj := fun u => update (s.semadj u) m 0
        semval := update s.semval m val
        sempid := update s.sempid m pid}
    (s.doSmartUpdate none false now).map fun (updated,woken) => (0,updated,woken)

def setall (s : Arr) (vals : Nat → Nat) (now : Nat) : Option (Int × Arr × List (Nat × Int)) :=
  if ∃ m < s.nsems, semvmx < vals m then some (erange,s,[])
  else
    let s :=
      {s with
        semval := fun m => if m < s.nsems then vals m else s.semval m
        semadj := fun u m => if m < s.nsems then 0 else s.semadj u m}
    (s.doSmartUpdate none false now).map fun (updated,woken) => (0,updated,woken)

/-- `exit_sem`, for the undo structure of a process. The structure is freed. -/
def exitSem (s : Arr) (u : Nat) (pid : Int) (now : Nat) : Option (Int × Arr × List (Nat × Int)) :=
  let adjusted := fun m => decide (m < s.nsems) && decide (s.semadj u m ≠ 0)
  let s' :=
    {s with
      semval := fun m => if adjusted m then min (max (s.semval m+s.semadj u m) 0) semvmx else s.semval m
      sempid := fun m => if adjusted m then pid else s.sempid m
      semadj := update s.semadj u fun _ => 0}
  (s'.doSmartUpdate none true now).map fun (updated,woken) => (0,updated,woken)

def interrupt (s : Arr) (q : Entry) : Arr := if q ∈ s.pending then s.unlinkQueue q else s

end Arr

open List Function

structure Performed (v : Nat → Int) (back : Nat → Int) (sops : List Sembuf) (r : Int × (Nat → Int)) :
    Prop where
  code : r.1 = 0 ∨ r.1 = 1 ∨ r.1 = eagain ∨ r.1 = erange
  failed : r.1 ≠ 0 → r.2 = back
  values : r.1 = 0 → ∀ m, r.2 m = v m+((sops.filter fun sop => decide (sop.num = m)).map Sembuf.op).sum
  nonneg : r.1 = 0 → (∀ m, 0 ≤ v m) → ∀ m, 0 ≤ r.2 m

lemma Performed.refused {v back : Nat → Int} {sops : List Sembuf} {code : Int}
    (hcode : code = 1 ∨ code = eagain ∨ code = erange) : Performed v back sops (code,back) := by
  have hne : code ≠ 0 := by
    rcases hcode with rfl | rfl | rfl <;> decide
  exact ⟨.inr hcode,fun _ => rfl,fun h => absurd h hne,fun h => absurd h hne⟩

lemma wouldBlock_code (sop : Sembuf) : wouldBlock sop = 1 ∨ wouldBlock sop = eagain ∨ wouldBlock sop = erange := by
  unfold wouldBlock
  split
  · exact .inr (.inl rfl)
  · exact .inl rfl

lemma perform_spec (adj : Nat → Int) (performed sops : List Sembuf) (v : Nat → Int) :
    Performed v (rollback performed v) sops (perform adj performed sops v) := by
  induction sops generalizing performed v with
  | nil =>
    refine ⟨.inl rfl,fun h => absurd rfl h,?_,fun _ hv => hv⟩
    intro _ m
    simp [perform]
  | cons sop rest ih =>
    rw [perform]
    split_ifs with hzero hneg hmax hundo
    · exact Performed.refused (wouldBlock_code sop)
    · exact Performed.refused (wouldBlock_code sop)
    · exact Performed.refused (.inr (.inr rfl))
    · exact Performed.refused (.inr (.inr rfl))
    have hrest := ih (sop::performed) (update v sop.num (v sop.num+sop.op))
    rw [rollback,update_self,update_idem,Int.add_sub_cancel,update_eq_self] at hrest
    refine ⟨hrest.code,hrest.failed,?_,?_⟩
    · intro hok m
      rw [hrest.values hok m]
      by_cases hm : sop.num = m
      · subst hm
        rw [update_self,filter_cons_of_pos (by simp),map_cons,sum_cons]
        omega
      · rw [update_of_ne (Ne.symm hm),filter_cons_of_neg (by simp [hm])]
    intro hok hv
    apply hrest.nonneg hok
    exact (forall_update_iff _ fun _ v => 0 ≤ v).mpr ⟨by omega,fun m _ => hv m⟩

def Blocks (v : Int) (sop : Sembuf) : Prop :=
  ((sop.op = 0 ∧ v ≠ 0) ∨ v+sop.op < 0) ∧ sop.nowait = false

lemma perform_single (adj : Nat → Int) (sop : Sembuf) (v : Nat → Int) :
    (perform adj [] [sop] v).1 = 1 ↔ Blocks (v sop.num) sop := by
  have hblock : wouldBlock sop = 1 ↔ sop.nowait = false := by
    unfold wouldBlock
    cases sop.nowait <;> decide
  have herange : ¬(erange = 1) := by decide
  rw [perform]
  split_ifs with hzero hneg hmax hundo
  · rw [hblock]
    exact ⟨fun h => ⟨.inl hzero,h⟩,fun h => h.2⟩
  · rw [hblock]
    exact ⟨fun h => ⟨.inr hneg,h⟩,fun h => h.2⟩
  · exact ⟨fun h => absurd h herange,fun h => absurd h.1 (by rw [not_or]; exact ⟨hzero,hneg⟩)⟩
  · exact ⟨fun h => absurd h herange,fun h => absurd h.1 (by rw [not_or]; exact ⟨hzero,hneg⟩)⟩
  · exact ⟨fun h => absurd h (by simp [perform]),fun h => absurd h.1 (by rw [not_or]; exact ⟨hzero,hneg⟩)⟩

lemma toShort_range (x : Int) : -32768 ≤ toShort x ∧ toShort x ≤ 32767 := by
  unfold toShort
  omega

lemma toShort_eq {x : Int} (h : -32768 ≤ x ∧ x ≤ 32767) : toShort x = x := by
  unfold toShort
  omega

structure Booked (s s' : Arr) : Prop where
  nsems : s'.nsems = s.nsems
  semval : s'.semval = s.semval
  pending : s'.pending = s.pending
  simple : s'.simple = s.simple
  complexCount : s'.complexCount = s.complexCount
  short : (∀ u m, -32768 ≤ s.semadj u m ∧ s.semadj u m ≤ 32767) →
    ∀ u m, -32768 ≤ s'.semadj u m ∧ s'.semadj u m ≤ 32767

lemma Booked.refl (s : Arr) : Booked s s := ⟨rfl,rfl,rfl,rfl,rfl,fun h => h⟩

lemma Booked.trans {s s' s'' : Arr} (h : Booked s s') (h' : Booked s' s'') : Booked s s'' :=
  ⟨h'.nsems.trans h.nsems,h'.semval.trans h.semval,h'.pending.trans h.pending,
    h'.simple.trans h.simple,h'.complexCount.trans h.complexCount,fun hs => h'.short (h.short hs)⟩

def bookOne (pid : Int) (un : Option Nat) (sop : Sembuf) (s : Arr) : Arr :=
  book pid un [sop] s

def undone (sops : List Sembuf) (m : Nat) : List Sembuf :=
  sops.filter fun sop => sop.undo && decide (sop.num = m)

def recorded (un : Option Nat) (sops : List Sembuf) (u m : Nat) : Int :=
  if un = some u then ((undone sops m).map Sembuf.op).sum else 0

lemma toShort_sub (a b : Int) : toShort (toShort a-b) = toShort (a-b) := by
  unfold toShort
  omega

lemma toShort_eq_iff {x : Int} : toShort x = x ↔ -semvmx-1 ≤ x ∧ x ≤ semvmx := by
  unfold toShort semvmx
  omega

section
variable (pid : Int) (un : Option Nat)
include pid un

lemma book_cons (sop : Sembuf) (rest : List Sembuf) (s : Arr) :
    book pid un (sop::rest) s = book pid un rest (bookOne pid un sop s) := rfl

lemma bookOne_semadj (sop : Sembuf) (s : Arr) {u m : Nat} (hs : toShort (s.semadj u m) = s.semadj u m) :
    (bookOne pid un sop s).semadj u m = toShort (s.semadj u m-recorded un [sop] u m) := by
  have hsame : ∀ x, x = 0 → s.semadj u m = toShort (s.semadj u m-x) := by
    rintro _ rfl
    rw [Int.sub_zero,hs]
  rcases un with _ | u'
  · exact hsame _ rfl
  by_cases hundo : sop.undo = true
  · simp only [bookOne,book,if_pos hundo]
    by_cases hu : u = u'
    · subst hu
      rw [update_self]
      by_cases hm : m = sop.num
      · subst hm
        simp [recorded,undone,hundo]
      rw [update_of_ne hm]
      exact hsame _ (by simp [recorded,undone,Ne.symm hm])
    rw [update_of_ne hu]
    exact hsame _ (if_neg fun h => hu (Option.some.inj h).symm)
  simp only [bookOne,book,if_neg hundo]
  exact hsame _ (by simp [recorded,undone,hundo])

lemma bookOne_booked (sop : Sembuf) (s : Arr) : Booked s (bookOne pid un sop s) := by
  have hshort : (∀ u m, -32768 ≤ s.semadj u m ∧ s.semadj u m ≤ 32767) → ∀ u m,
      -32768 ≤ (bookOne pid un sop s).semadj u m ∧ (bookOne pid un sop s).semadj u m ≤ 32767 := by
    intro hs u m
    rw [bookOne_semadj pid un sop s (toShort_eq (hs u m))]
    exact toShort_range _
  cases un with
  | none => exact ⟨rfl,rfl,rfl,rfl,rfl,hshort⟩
  | some u => by_cases hundo : sop.undo = true <;>
      exact ⟨by simp [bookOne,book,hundo],by simp [bookOne,book,hundo],by simp [bookOne,book,hundo],
        by simp [bookOne,book,hundo],by simp [bookOne,book,hundo],hshort⟩

lemma book_booked (sops : List Sembuf) (s : Arr) : Booked s (book pid un sops s) := by
  induction sops generalizing s with
  | nil => exact Booked.refl s
  | cons sop rest ih =>
    rw [book_cons]
    exact (bookOne_booked pid un sop s).trans (ih _)

omit pid in
lemma recorded_append (l l' : List Sembuf) (u m : Nat) :
    recorded un (l++l') u m = recorded un l u m+recorded un l' u m := by
  unfold recorded undone
  split <;> simp

lemma book_semadj_eq (sops : List Sembuf) (s : Arr) {u m : Nat} (hs : toShort (s.semadj u m) = s.semadj u m) :
    (book pid un sops s).semadj u m = toShort (s.semadj u m-recorded un sops u m) := by
  induction sops generalizing s with
  | nil =>
    rw [recorded,undone,filter_nil,map_nil,sum_nil,ite_self,Int.sub_zero,hs]
    rfl
  | cons sop rest ih =>
    have hone := bookOne_semadj pid un sop s hs
    rw [book_cons,ih _ (by rw [hone]; exact toShort_eq (toShort_range _)),hone,toShort_sub,Int.sub_sub,
      ← recorded_append,singleton_append]

lemma book_semadj (sops : List Sembuf) (s : Arr) (hzero : ∀ sop ∈ sops, sop.op = 0)
    (hs : ∀ u m, -32768 ≤ s.semadj u m ∧ s.semadj u m ≤ 32767) : (book pid un sops s).semadj = s.semadj := by
  funext u m
  have hnone : recorded un sops u m = 0 := by
    have hops : (undone sops m).map Sembuf.op = (undone sops m).map fun _ => 0 :=
      map_congr_left fun sop hsop => hzero sop (mem_filter.mp hsop).1
    simp [recorded,hops]
  rw [book_semadj_eq pid un sops s (toShort_eq (hs u m)),hnone,Int.sub_zero,toShort_eq (hs u m)]

end

namespace Arr

def Sleeps (s : Arr) (q : Entry) : Prop := (s.tryAtomicSemop q.sops q.undo q.pid).1 = 1

lemma tryAtomicSemop_code (s : Arr) (sops : List Sembuf) (un : Option Nat) (pid : Int) :
    (s.tryAtomicSemop sops un pid).1 = (perform (s.adjOf un) [] sops s.semval).1 := by
  unfold tryAtomicSemop
  dsimp only
  split
  · rename_i h
    exact h.symm
  · rfl

lemma sleeps_iff (s : Arr) (q : Entry) : s.Sleeps q ↔ (perform (s.adjOf q.undo) [] q.sops s.semval).1 = 1 := by
  rw [Sleeps,tryAtomicSemop_code]

variable {s : Arr} {sops : List Sembuf} {un : Option Nat} {pid : Int}

lemma sleeps_congr {s' : Arr} (hval : s'.semval = s.semval) (hadj : s'.semadj = s.semadj)
    (q : Entry) : s'.Sleeps q ↔ s.Sleeps q := by
  have hadjOf : s'.adjOf q.undo = s.adjOf q.undo := by
    cases q.undo with
    | none => rfl
    | some u => exact congrFun hadj u
  rw [sleeps_iff,sleeps_iff,hval,hadjOf]

lemma sleeps_single {q : Entry} (hq : q.sops.length = 1) : s.Sleeps q ↔ Blocks (s.semval q.num) q.first := by
  obtain ⟨sop,hsop⟩ := length_eq_one_iff.mp hq
  rw [sleeps_iff,hsop,perform_single]
  simp [Entry.num,Entry.first,hsop]

lemma tryAtomicSemop_failed (h : (s.tryAtomicSemop sops un pid).1 ≠ 0) : (s.tryAtomicSemop sops un pid).2 = s := by
  rw [tryAtomicSemop_code] at h
  have hback := (perform_spec (s.adjOf un) [] sops s.semval).failed h
  unfold tryAtomicSemop
  dsimp only
  rw [if_neg h,hback]
  rfl

lemma tryAtomicSemop_ok (h : (s.tryAtomicSemop sops un pid).1 = 0) : (s.tryAtomicSemop sops un pid).2 =
      book pid un sops.reverse {s with semval := (perform (s.adjOf un) [] sops s.semval).2} := by
  rw [tryAtomicSemop_code] at h
  unfold tryAtomicSemop
  dsimp only
  rw [if_pos h]

lemma tryAtomicSemop_pos (h : 0 < (s.tryAtomicSemop sops un pid).1) : (s.tryAtomicSemop sops un pid).1 = 1 := by
  rw [tryAtomicSemop_code] at h ⊢
  rcases (perform_spec (s.adjOf un) [] sops s.semval).code with hc | hc | hc | hc
  · omega
  · exact hc
  · rw [hc] at h
    exact absurd h (by decide)
  rw [hc] at h
  exact absurd h (by decide)

end Arr

end LinuxToradex.Sem
