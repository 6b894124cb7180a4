import Mathlib.Data.List.Nodup
import LinuxToradex.Foundation.Align

/-! The vectors of one `tvec_base`, the calls that arm and delete timers, and the passes of `__run_timers`. A
word has 32 bits, and the vectors have the sizes of a kernel without `CONFIG_BASE_SMALL`. -/
namespace LinuxToradex.Timer
open UInt32
open Function (update)

def timeBefore (a b : UInt32) : Bool := decide (2147483648 ≤ (a-b).toNat)

def timeAfterEq (a b : UInt32) : Bool := !timeBefore a b


inductive Bucket where
  | tv1 (i : Nat)
  | tv2 (i : Nat)
  | tv3 (i : Nat)
  | tv4 (i : Nat)
  | tv5 (i : Nat)
  deriving DecidableEq

/-- A `tvec_base`, the fields of the timers that are queued on it, and `jiffies`. `workList` is the list of
the pass of `__run_timers` that is going on; `pending` says that the entry of
a timer has a successor. -/
structure Base where
  timerJiffies : UInt32
  nextTimer : UInt32
  runningTimer : Option Nat
  vec : Bucket → List Nat
  workList : List Nat
  expires : Nat → UInt32
  deferrable : Nat → Bool
  slack : Nat → Int
  pending : Nat → Bool
  jiffies : UInt32

/-- `init_timers_cpu`, at any value of `jiffies`. -/
def initTimers (jiffies : UInt32) (deferrable : Nat → Bool) : Base where
  timerJiffies := jiffies
  nextTimer := jiffies
  runningTimer := none
  vec := fun _ => []
  workList := []
  expires := fun _ => 0
  deferrable := deferrable
  slack := fun _ => -1
  pending := fun _ => false
  jiffies := jiffies

/-- The list that `internal_add_timer` chooses. The cap for words of 64 bits never applies. -/
def bucketOf (timerJiffies expires : UInt32) : Bucket :=
  let idx := (expires-timerJiffies).toNat
  if idx < 256 then .tv1 (expires.toNat%256)
  else if idx < 16384 then .tv2 (expires.toNat/256%64)
  else if idx < 1048576 then .tv3 (expires.toNat/16384%64)
  else if idx < 67108864 then .tv4 (expires.toNat/1048576%64)
  -- the expiry lies in the past: the timer runs in the next pass
  else if 2147483648 ≤ idx then .tv1 (timerJiffies.toNat%256)
  else .tv5 (expires.toNat/67108864%64)

def index (timerJiffies : UInt32) (unit : Nat) : Nat := timerJiffies.toNat/unit%64

namespace Base

def internalAddTimer (b : Base) (t : Nat) : Base :=
  let k := bucketOf b.timerJiffies (b.expires t)
  {b with
    vec := update b.vec k (b.vec k++[t])
    pending := update b.pending t true}

def detachTimer (b : Base) (t : Nat) (clearPending : Bool) : Base :=
  {b with
    vec := fun k => (b.vec k).erase t
    workList := b.workList.erase t
    pending := if clearPending then update b.pending t false else b.pending}

def dropNext (b : Base) (t : Nat) : Base :=
  if b.expires t = b.nextTimer ∧ b.deferrable t = false then
    {b with nextTimer := b.timerJiffies} else b

def takeNext (b : Base) (t : Nat) : Base :=
  if timeBefore (b.expires t) b.nextTimer = true ∧ b.deferrable t = false then
    {b with nextTimer := b.expires t} else b

def setExpires (b : Base) (t : Nat) (expires : UInt32) : Base :=
  {b with expires := update b.expires t expires}

def queueTimer (b : Base) (t : Nat) (expires : UInt32) : Base :=
  ((b.setExpires t expires).takeNext t).internalAddTimer t

def modTimerCore (b : Base) (t : Nat) (expires : UInt32) (pendingOnly : Bool) : Base × Nat :=
  if b.pending t then (((b.detachTimer t false).dropNext t).queueTimer t expires,1)
  else if pendingOnly then (b,0)
  else (b.queueTimer t expires,0)

end Base

def applySlack (slack : Int) (jiffies expires : UInt32) : UInt32 :=
  let roundTo (expiresLimit : UInt32) : UInt32 :=
    let mask := expires ^^^ expiresLimit
    if mask = 0 then expires
    else expiresLimit &&& ~~~((1 : UInt32) <<< ofNat mask.toNat.log2-1)
  if 0 ≤ slack then roundTo (expires+ofNat slack.toNat)
  else
    let delta := (expires-jiffies).toNat
    if delta < 256 ∨ 2147483648 ≤ delta then expires
    else roundTo (expires+ofNat (delta/256))

namespace Base

def modTimerPending (b : Base) (t : Nat) (expires : UInt32) : Base × Nat :=
  b.modTimerCore t expires true

def modTimer (b : Base) (t : Nat) (expires : UInt32) : Base × Nat :=
  let expires := applySlack (b.slack t) b.jiffies expires
  if b.pending t = true ∧ b.expires t = expires then (b,1)
  else b.modTimerCore t expires false

def modTimerPinned (b : Base) (t : Nat) (expires : UInt32) : Base × Nat :=
  if b.expires t = expires ∧ b.pending t = true then (b,1)
  else b.modTimerCore t expires false

/-- `add_timer` on a timer whose expiry the caller has just set; `none` is `BUG_ON`. -/
def addTimer (b : Base) (t : Nat) (expires : UInt32) : Option Base :=
  if b.pending t then none
  else some ((b.setExpires t expires).modTimer t expires).1

/-- `add_timer_on` on a timer whose expiry the caller has just set. -/
def addTimerOn (b : Base) (t : Nat) (expires : UInt32) : Option Base :=
  if b.pending t then none
  else some (b.queueTimer t expires)

def delTimer (b : Base) (t : Nat) : Base × Int :=
  if b.pending t then ((b.detachTimer t true).dropNext t,1) else (b,0)

def tryToDelTimerSync (b : Base) (t : Nat) : Base × Int :=
  if b.runningTimer = some t then (b,-1) else b.delTimer t

def cascade (b : Base) (k : Bucket) : Base :=
  (b.vec k).foldl internalAddTimer {b with vec := update b.vec k []}

/-- The cascades of one pass: a vector is taken up when the index into the one before it is zero. -/
def cascades (b : Base) : Base :=
  if b.timerJiffies.toNat%256 ≠ 0 then b
  else
    let b₁ := b.cascade (.tv2 (index b.timerJiffies 256))
    if index b.timerJiffies 256 ≠ 0 then b₁
    else
      let b₂ := b₁.cascade (.tv3 (index b.timerJiffies 16384))
      if index b.timerJiffies 16384 ≠ 0 then b₂
      else
        let b₃ := b₂.cascade (.tv4 (index b.timerJiffies 1048576))
        if index b.timerJiffies 1048576 ≠ 0 then b₃
        else b₃.cascade (.tv5 (index b.timerJiffies 67108864))

/-- The head of one pass of the loop of `__run_timers`, up to the timers it has to run. -/
def beginPass (b : Base) : Option Base :=
  if b.workList = [] ∧ timeAfterEq b.jiffies b.timerJiffies = true then
    let i := b.timerJiffies.toNat%256
    let b₁ := b.cascades
    some {b₁ with
      timerJiffies := b.timerJiffies+1
      workList := b₁.vec (.tv1 i)
      vec := update b₁.vec (.tv1 i) []}
  else none

def runFirst (b : Base) : Option Base :=
  match b.workList with
  | [] => none
  | t::_ => some {b.detachTimer t true with runningTimer := some t}

def endRun (b : Base) : Option Base :=
  if b.workList = [] then some {b with runningTimer := none} else none

end Base

/-- What can happen to a base while its lock is free: calls from anywhere, the functions of running
timers included, the steps of `__run_timers`, and the clock. -/
inductive Op where
  | addTimer (t : Nat) (expires : UInt32)
  | addTimerOn (t : Nat) (expires : UInt32)
  | modTimer (t : Nat) (expires : UInt32)
  | modTimerPending (t : Nat) (expires : UInt32)
  | modTimerPinned (t : Nat) (expires : UInt32)
  | delTimer (t : Nat)
  | tryToDelTimerSync (t : Nat)
  | setTimerSlack (t : Nat) (slack : Int)
  | setJiffies (jiffies : UInt32)
  | beginPass
  | runFirst
  | endRun
  deriving DecidableEq

def step (b : Base) : Op → Option Base
  | .addTimer t e => b.addTimer t e
  | .addTimerOn t e => b.addTimerOn t e
  | .modTimer t e => some (b.modTimer t e).1
  | .modTimerPending t e => some (b.modTimerPending t e).1
  | .modTimerPinned t e => some (b.modTimerPinned t e).1
  | .delTimer t => some (b.delTimer t).1
  | .tryToDelTimerSync t => some (b.tryToDelTimerSync t).1
  | .setTimerSlack t s => some {b with slack := update b.slack t s}
  | .setJiffies j => some {b with jiffies := j}
  | .beginPass => b.beginPass
  | .runFirst => b.runFirst
  | .endRun => b.endRun

inductive Reaches : Base → Prop
  | init (jiffies : UInt32) (deferrable : Nat → Bool) : Reaches (initTimers jiffies deferrable)
  | step {b b' : Base} (op : Op) : Reaches b → step b op = some b' → Reaches b'

def armed (b : Base) : Op → Option (Nat × UInt32)
  | .addTimer t e => some (t,applySlack (b.slack t) b.jiffies e)
  | .addTimerOn t e => some (t,e)
  | .modTimer t e =>
    let e := applySlack (b.slack t) b.jiffies e
    if b.pending t = true ∧ b.expires t = e then none else some (t,e)
  | .modTimerPending t e => if b.pending t then some (t,e) else none
  | .modTimerPinned t e => if b.expires t = e ∧ b.pending t = true then none else some (t,e)
  | _ => none

def deletes : Op → Nat → Bool
  | .delTimer u, t => u == t
  | .tryToDelTimerSync u, t => u == t
  | _, _ => false

def leavesAlone (b : Base) (t : Nat) (op : Op) : Bool :=
  (armed b op).all (·.1 != t) && !deletes op t

/-- One pass of the loop of `__run_timers`: the value of `timer_jiffies` it is for, and the timers
it takes off the wheel. -/
structure Pass where
  jiffies : UInt32
  taken : List Nat
  deriving DecidableEq

def runAround (t : Nat) : Base → List Op → Option (Base × List Pass)
  | b, [] => some (b,[])
  | b, op::ops =>
    if leavesAlone b t op then
      (step b op).bind fun b₁ =>
        (runAround t b₁ ops).map fun r =>
          (r.1,if op = .beginPass then ⟨b.timerJiffies,b₁.workList⟩::r.2 else r.2)
    else none

open List Function

def wait (timerJiffies expires : UInt32) : Nat :=
  if 2147483648 ≤ (expires-timerJiffies).toNat then 0 else (expires-timerJiffies).toNat

def due (timerJiffies expires : UInt32) : UInt32 :=
  if timeBefore expires timerJiffies then timerJiffies else expires

lemma due_sub (tj e : UInt32) : (due tj e-tj).toNat = wait tj e := by
  unfold due wait timeBefore
  by_cases hpast : 2147483648 ≤ (e-tj).toNat
  · rw [if_pos (decide_eq_true hpast),if_pos hpast,UInt32.sub_self]
    rfl
  · rw [if_neg (by rw [decide_eq_false hpast]; decide),if_neg hpast]

lemma due_eq (tj e : UInt32) : due tj e = tj+ofNat (wait tj e) := by
  have h := due_sub tj e
  rw [← h,UInt32.ofNat_toNat]
  rw [UInt32.add_comm,UInt32.sub_add_cancel]

lemma wait_lt (tj e : UInt32) : wait tj e < 2147483648 := by
  unfold wait
  split <;> omega

/-- The timer lies on the list of `tv2` to `tv5` for its expiry, in units of the vector, and the next
multiple of the unit has not passed the beginning of the list's time. -/
def Upper (unit : Nat) (tj e : UInt32) (i : Nat) : Prop :=
  i = e.toNat/unit%64 ∧ e.toNat%unit ≤ (e-tj).toNat ∧ (e-tj).toNat < 64*unit ∧
    (e-tj).toNat < 2147483648

def Fits (tj e : UInt32) : Bucket → Prop
  | .tv1 i => i = (tj.toNat+wait tj e)%256 ∧ wait tj e < 256
  | .tv2 i => Upper 256 tj e i
  | .tv3 i => Upper 16384 tj e i
  | .tv4 i => Upper 1048576 tj e i
  | .tv5 i => Upper 67108864 tj e i

def cascaded (tj : UInt32) : List Bucket :=
  if tj.toNat%256 ≠ 0 then []
  else if index tj 256 ≠ 0 then [.tv2 (index tj 256)]
  else if index tj 16384 ≠ 0 then [.tv2 (index tj 256),.tv3 (index tj 16384)]
  else if index tj 1048576 ≠ 0 then
    [.tv2 (index tj 256),.tv3 (index tj 16384),.tv4 (index tj 1048576)]
  else [.tv2 (index tj 256),.tv3 (index tj 16384),.tv4 (index tj 1048576), .tv5 (index tj 67108864)]

section Arithmetic

variable {tj e : UInt32}

lemma sub_eq (tj e : UInt32) : (e-tj).toNat = (4294967296-tj.toNat+e.toNat)%4294967296 :=
  UInt32.toNat_sub ..

lemma succ_eq (tj : UInt32) : (tj+1).toNat = (tj.toNat+1)%4294967296 :=
  UInt32.toNat_add ..

lemma sub_succ (h : 0 < (e-tj).toNat) : (e-(tj+1)).toNat+1 = (e-tj).toNat := by
  rw [sub_eq,succ_eq]
  rw [sub_eq] at *
  have := tj.toNat_lt
  omega

lemma wait_succ (h : 0 < wait tj e) : wait (tj+1) e+1 = wait tj e := by
  unfold wait at *
  by_cases hpast : 2147483648 ≤ (e-tj).toNat
  · rw [if_pos hpast] at h
    omega
  rw [if_neg hpast] at h ⊢
  have hsucc := sub_succ h
  rw [if_neg (by omega)]
  exact hsucc

lemma wait_of_lt (h : (e-tj).toNat < 2147483648) : wait tj e = (e-tj).toNat := by
  unfold wait
  rw [if_neg (by omega)]

lemma fits_bucketOf (tj e : UInt32) : Fits tj e (bucketOf tj e) := by
  have htj := tj.toNat_lt
  have hsub := sub_eq tj e
  unfold bucketOf
  dsimp only
  split
  · rename_i h
    refine ⟨?_,?_⟩ <;> rw [wait_of_lt (by omega)]
    · omega
    · exact h
  split
  · exact ⟨rfl,by omega,by omega,by omega⟩
  split
  · exact ⟨rfl,by omega,by omega,by omega⟩
  split
  · exact ⟨rfl,by omega,by omega,by omega⟩
  split
  · rename_i h
    refine ⟨?_,?_⟩ <;> unfold wait <;> rw [if_pos h]
    · rfl
    · decide
  · exact ⟨rfl,by omega,by omega,by omega⟩

lemma wait_of_current (h : Fits tj e (.tv1 (tj.toNat%256))) : wait tj e = 0 := by
  obtain ⟨hi,hlt⟩ := h
  omega

lemma Fits.succ_root {i : Nat} (h : Fits tj e (.tv1 i)) (hi : i ≠ tj.toNat%256) :
    0 < wait tj e ∧ Fits (tj+1) e (.tv1 i) := by
  obtain ⟨heq,hlt⟩ := h
  have hpos : 0 < wait tj e := by omega
  have hsucc := wait_succ hpos
  refine ⟨hpos,?_,by omega⟩
  rw [succ_eq]
  omega

lemma Upper.succ {unit i : Nat} (h : Upper unit tj e i) (hlt : e.toNat%unit < (e-tj).toNat) :
    0 < wait tj e ∧ Upper unit (tj+1) e i := by
  obtain ⟨hi,hle,hspan,hhalf⟩ := h
  have hsucc := sub_succ (show 0 < (e-tj).toNat by omega)
  refine ⟨by rw [wait_of_lt hhalf]; omega,hi,by omega,by omega,by omega⟩

/-- A timer stays on its list unless the pass comes to where the list begins. -/
theorem Upper.succ_of_left {unit i : Nat} (hpos : 0 < unit) (h : Upper unit tj e i)
    (hleft : tj.toNat%unit = 0 → i ≠ index tj unit) : 0 < wait tj e ∧ Upper unit (tj+1) e i := by
  refine h.succ (lt_of_le_of_ne h.2.1 fun hbegins => ?_)
  rw [sub_eq] at hbegins
  have hdiv := Nat.div_add_mod e.toNat unit
  have htj := tj.toNat_lt
  have he := e.toNat_lt
  have heq : tj.toNat = unit*(e.toNat/unit) := by omega
  refine hleft (by rw [heq,Nat.mul_mod_right]) ?_
  rw [h.1,index,heq,Nat.mul_div_cancel_left _ hpos]

lemma mem_cascaded_tv2 (h : tj.toNat%256 = 0) : .tv2 (index tj 256) ∈ cascaded tj := by
  unfold cascaded index
  rw [if_neg (by omega)]
  split_ifs <;> exact mem_cons_self

lemma mem_cascaded_tv3 (h : tj.toNat%16384 = 0) : .tv3 (index tj 16384) ∈ cascaded tj := by
  unfold cascaded index
  rw [if_neg (by omega),if_neg (by omega)]
  split_ifs <;> exact mem_cons_of_mem _ mem_cons_self

lemma mem_cascaded_tv4 (h : tj.toNat%1048576 = 0) : .tv4 (index tj 1048576) ∈ cascaded tj := by
  unfold cascaded index
  rw [if_neg (by omega),if_neg (by omega),if_neg (by omega)]
  split_ifs <;> exact mem_cons_of_mem _ (mem_cons_of_mem _ mem_cons_self)

lemma mem_cascaded_tv5 (h : tj.toNat%67108864 = 0) : .tv5 (index tj 67108864) ∈ cascaded tj := by
  unfold cascaded index
  rw [if_neg (by omega),if_neg (by omega),if_neg (by omega),if_neg (by omega)]
  exact mem_cons_of_mem _ (mem_cons_of_mem _ (mem_cons_of_mem _ mem_cons_self))

/-- A timer on a list that the pass neither cascades nor runs is not due, and waits on the right list
after the pass. -/
theorem Fits.succ {k : Bucket} (h : Fits tj e k) (hroot : k ≠ .tv1 (tj.toNat%256))
    (hleft : k ∉ cascaded tj) : 0 < wait tj e ∧ Fits (tj+1) e k := by
  cases k with
  | tv1 i => exact h.succ_root fun hi => hroot (by rw [hi])
  | tv2 i => exact Upper.succ_of_left (by omega) h fun hzero hi => hleft (hi ▸ mem_cascaded_tv2 hzero)
  | tv3 i => exact Upper.succ_of_left (by omega) h fun hzero hi => hleft (hi ▸ mem_cascaded_tv3 hzero)
  | tv4 i => exact Upper.succ_of_left (by omega) h fun hzero hi => hleft (hi ▸ mem_cascaded_tv4 hzero)
  | tv5 i => exact Upper.succ_of_left (by omega) h fun hzero hi => hleft (hi ▸ mem_cascaded_tv5 hzero)

lemma succ_bucketOf (hroot : bucketOf tj e ≠ .tv1 (tj.toNat%256)) :
    0 < wait tj e ∧ Fits (tj+1) e (bucketOf tj e) := by
  have hfits := fits_bucketOf tj e
  unfold bucketOf at hfits hroot ⊢
  dsimp only at hfits hroot ⊢
  split_ifs at hfits hroot ⊢
  · exact hfits.succ_root fun hi => hroot (by rw [hi])
  · exact Upper.succ hfits (by omega)
  · exact Upper.succ hfits (by omega)
  · exact Upper.succ hfits (by omega)
  · exact absurd rfl hroot
  · exact Upper.succ hfits (by omega)

end Arithmetic

namespace Base

def OnWheel (b : Base) (t : Nat) : Prop := ∃ k, t ∈ b.vec k

/-- A timer is on one list at most, on a list that is cascaded or run in time. -/
structure Inv (b : Base) : Prop where
  fits : ∀ k, ∀ t ∈ b.vec k, Fits b.timerJiffies (b.expires t) k
  nodup : ∀ k, (b.vec k).Nodup
  unique : ∀ {k k' : Bucket} {t : Nat}, t ∈ b.vec k → t ∈ b.vec k' → k = k'
  work_nodup : b.workList.Nodup
  apart : ∀ {t : Nat}, b.OnWheel t → t ∉ b.workList
  pending_iff : ∀ t, b.pending t = true ↔ b.OnWheel t ∨ t ∈ b.workList

lemma inv_initTimers (jiffies : UInt32) (deferrable : Nat → Bool) : (initTimers jiffies deferrable).Inv where
  fits := fun _ _ ht => absurd ht not_mem_nil
  nodup := fun _ => nodup_nil
  unique := fun ht => absurd ht not_mem_nil
  work_nodup := nodup_nil
  apart := fun _ => not_mem_nil
  pending_iff := by
    intro t
    refine ⟨fun h => absurd h Bool.false_ne_true,?_⟩
    rintro (⟨k,ht⟩ | ht)
    · exact absurd ht not_mem_nil
    · exact absurd ht not_mem_nil

structure Queues (b b' : Base) (t : Nat) (e : UInt32) : Prop where
  timerJiffies : b'.timerJiffies = b.timerJiffies
  vec : ∀ k, b'.vec k = (b.vec k).erase t++if k = bucketOf b.timerJiffies e then [t] else []
  workList : b'.workList = b.workList.erase t
  expires : b'.expires = update b.expires t e
  pending : b'.pending = update b.pending t true
  deferrable : b'.deferrable = b.deferrable

structure Removes (b b' : Base) (t : Nat) : Prop where
  timerJiffies : b'.timerJiffies = b.timerJiffies
  vec : ∀ k, b'.vec k = (b.vec k).erase t
  workList : b'.workList = b.workList.erase t
  expires : b'.expires = b.expires
  pending : b'.pending = update b.pending t false
  deferrable : b'.deferrable = b.deferrable

structure Keeps (b b' : Base) : Prop where
  timerJiffies : b'.timerJiffies = b.timerJiffies
  vec : b'.vec = b.vec
  workList : b'.workList = b.workList
  expires : b'.expires = b.expires
  pending : b'.pending = b.pending
  deferrable : b'.deferrable = b.deferrable

variable {b b' : Base} {t u : Nat} {e : UInt32}

lemma Keeps.refl (b : Base) : Keeps b b := ⟨rfl,rfl,rfl,rfl,rfl,rfl⟩

lemma Keeps.inv (h : Keeps b b') (hinv : b.Inv) : b'.Inv := by
  obtain ⟨⟩ := b
  obtain ⟨⟩ := b'
  cases h with | mk htime hvec hwork hexp hpend _ =>
  cases htime
  cases hvec
  cases hwork
  cases hexp
  cases hpend
  exact ⟨hinv.fits,hinv.nodup,hinv.unique,hinv.work_nodup,hinv.apart,hinv.pending_iff⟩

lemma Inv.mem_workList (hinv : b.Inv) (h : b'.workList = b.workList.erase t) (u : Nat) :
    u ∈ b'.workList ↔ u ≠ t ∧ u ∈ b.workList := by
  rw [h,hinv.work_nodup.mem_erase_iff]

section
variable (h : Removes b b' t) (hinv : b.Inv)
include h hinv

lemma Removes.mem_vec {k : Bucket} : u ∈ b'.vec k ↔ u ≠ t ∧ u ∈ b.vec k := by
  rw [h.vec,(hinv.nodup k).mem_erase_iff]

lemma Removes.onWheel_iff : b'.OnWheel u ↔ u ≠ t ∧ b.OnWheel u := by
  constructor
  · rintro ⟨k,hk⟩
    exact ⟨((h.mem_vec hinv).mp hk).1,k,((h.mem_vec hinv).mp hk).2⟩
  rintro ⟨hne,k,hk⟩
  exact ⟨k,(h.mem_vec hinv).mpr ⟨hne,hk⟩⟩

lemma Removes.inv : b'.Inv := by
  have hwork := hinv.mem_workList h.workList
  refine ⟨?_,?_,?_,?_,?_,?_⟩
  · intro k u hu
    rw [h.timerJiffies,h.expires]
    exact hinv.fits k u ((h.mem_vec hinv).mp hu).2
  · intro k
    rw [h.vec]
    exact (hinv.nodup k).erase t
  · intro k k' u hk hk'
    exact hinv.unique ((h.mem_vec hinv).mp hk).2 ((h.mem_vec hinv).mp hk').2
  · rw [h.workList]
    exact hinv.work_nodup.erase t
  · intro u hu hmem
    exact hinv.apart ((h.onWheel_iff hinv).mp hu).2 ((hwork u).mp hmem).2
  intro u
  rw [h.pending,h.onWheel_iff hinv,hwork,update_apply]
  split_ifs with hut
  · simp [hut]
  · simp [hut,hinv.pending_iff]

end

section
variable (h : Queues b b' t e) (hinv : b.Inv)
include h hinv

lemma Queues.mem_vec {k : Bucket} :
    u ∈ b'.vec k ↔ (u ≠ t ∧ u ∈ b.vec k) ∨ (u = t ∧ k = bucketOf b.timerJiffies e) := by
  rw [h.vec,mem_append,(hinv.nodup k).mem_erase_iff]
  split
  · next hk =>
    rw [mem_singleton]
    simp [hk]
  next hk =>
  simp [hk]

lemma Queues.onWheel_iff : b'.OnWheel u ↔ u = t ∨ b.OnWheel u := by
  constructor
  · rintro ⟨k,hk⟩
    rcases (h.mem_vec hinv).mp hk with ⟨-,hold⟩ | ⟨heq,-⟩
    · exact .inr ⟨k,hold⟩
    · exact .inl heq
  intro hu
  by_cases hut : u = t
  · exact ⟨_,(h.mem_vec hinv).mpr (.inr ⟨hut,rfl⟩)⟩
  obtain ⟨k,hk⟩ := hu.resolve_left hut
  exact ⟨k,(h.mem_vec hinv).mpr (.inl ⟨hut,hk⟩)⟩

lemma Queues.inv : b'.Inv := by
  have hwork := hinv.mem_workList h.workList
  refine ⟨?_,?_,?_,?_,?_,?_⟩
  · intro k u hu
    rw [h.timerJiffies,h.expires]
    rcases (h.mem_vec hinv).mp hu with ⟨hne,hold⟩ | ⟨rfl,rfl⟩
    · rw [update_of_ne hne]
      exact hinv.fits k u hold
    rw [update_self]
    exact fits_bucketOf _ _
  · intro k
    rw [h.vec]
    apply List.Nodup.append ((hinv.nodup k).erase t)
    · split_ifs
      · exact nodup_singleton t
      · exact nodup_nil
    intro u hu hmem
    have hut : u = t := by
      split_ifs at hmem
      · exact mem_singleton.mp hmem
      · exact absurd hmem not_mem_nil
    exact ((hinv.nodup k).mem_erase_iff.mp hu).1 hut
  · intro k k' u hk hk'
    rcases (h.mem_vec hinv).mp hk with ⟨hne,hold⟩ | ⟨heq,rfl⟩
    · rcases (h.mem_vec hinv).mp hk' with ⟨-,hold'⟩ | ⟨heq,-⟩
      · exact hinv.unique hold hold'
      · exact absurd heq hne
    rcases (h.mem_vec hinv).mp hk' with ⟨hne,-⟩ | ⟨-,rfl⟩
    · exact absurd heq hne
    · rfl
  · rw [h.workList]
    exact hinv.work_nodup.erase t
  · intro u hu hmem
    obtain ⟨hne,hold⟩ := (hwork u).mp hmem
    exact hinv.apart (((h.onWheel_iff hinv).mp hu).resolve_left hne) hold
  intro u
  rw [h.pending,h.onWheel_iff hinv,hwork,update_apply]
  split_ifs with hut
  · simp [hut]
  · simp [hut,hinv.pending_iff]

end

structure Requeues (b b' : Base) (l : List Nat) : Prop where
  timerJiffies : b'.timerJiffies = b.timerJiffies
  vec : ∀ k, b'.vec k =
    b.vec k++l.filter fun t => decide (bucketOf b.timerJiffies (b.expires t) = k)
  workList : b'.workList = b.workList
  expires : b'.expires = b.expires
  pending : ∀ t, b'.pending t = true ↔ b.pending t = true ∨ t ∈ l
  deferrable : b'.deferrable = b.deferrable

lemma foldl_internalAddTimer (l : List Nat) (b : Base) : Requeues b (l.foldl internalAddTimer b) l := by
  induction l generalizing b with
  | nil => exact ⟨rfl,fun k => by simp,rfl,rfl,fun t => by simp,rfl⟩
  | cons u rest ih =>
    have h := ih (b.internalAddTimer u)
    refine ⟨h.timerJiffies,?_,h.workList,h.expires,?_,h.deferrable⟩
    · intro k
      rw [foldl_cons,h.vec]
      dsimp only [internalAddTimer]
      rw [filter_cons]
      by_cases hk : bucketOf b.timerJiffies (b.expires u) = k
      · subst hk
        rw [update_self,if_pos (decide_eq_true rfl),append_assoc,singleton_append]
        rfl
      rw [update_of_ne (Ne.symm hk),if_neg (by simpa using hk)]
      rfl
    intro t
    rw [foldl_cons,h.pending,mem_cons]
    dsimp only [internalAddTimer]
    by_cases htu : t = u
    · subst htu
      simp
    rw [update_of_ne htu]
    simp [htu]

/-- Some lists have been cascaded: what lies on a list now lay there before, and it is none of them, or
has been put there for its expiry. -/
structure Cascaded (lists : List Bucket) (b b' : Base) : Prop where
  inv : b'.Inv
  timerJiffies : b'.timerJiffies = b.timerJiffies
  workList : b'.workList = b.workList
  expires : b'.expires = b.expires
  deferrable : b'.deferrable = b.deferrable
  onWheel : ∀ t, b'.OnWheel t ↔ b.OnWheel t
  moved : ∀ k, ∀ t ∈ b'.vec k, (t ∈ b.vec k ∧ k ∉ lists) ∨ k = bucketOf b.timerJiffies (b.expires t)

lemma Cascaded.refl (hinv : b.Inv) : Cascaded [] b b :=
  ⟨hinv,rfl,rfl,rfl,rfl,fun _ => Iff.rfl,fun _ _ ht => .inl ⟨ht,not_mem_nil⟩⟩

lemma mem_cascade {k k' : Bucket} : t ∈ (b.cascade k).vec k' ↔
      (t ∈ b.vec k' ∧ k' ≠ k) ∨ (t ∈ b.vec k ∧ k' = bucketOf b.timerJiffies (b.expires t)) := by
  have h := foldl_internalAddTimer (b.vec k) {b with vec := update b.vec k []}
  rw [cascade,h.vec,mem_append,mem_filter,decide_eq_true_iff]
  dsimp only
  rw [eq_comm (b := k')]
  by_cases hk : k' = k
  · subst hk
    simp
  rw [update_of_ne hk]
  simp [hk]

lemma cascade_spec (hinv : b.Inv) (k : Bucket) : Cascaded [k] b (b.cascade k) := by
  have h := foldl_internalAddTimer (b.vec k) {b with vec := update b.vec k []}
  have hwheel : ∀ t, (b.cascade k).OnWheel t ↔ b.OnWheel t := by
    intro t
    constructor
    · rintro ⟨k',hk'⟩
      rcases mem_cascade.mp hk' with ⟨ht,-⟩ | ⟨ht,-⟩
      · exact ⟨k',ht⟩
      · exact ⟨k,ht⟩
    rintro ⟨k',hk'⟩
    by_cases hk : k' = k
    · subst hk
      exact ⟨_,mem_cascade.mpr (.inr ⟨hk',rfl⟩)⟩
    · exact ⟨k',mem_cascade.mpr (.inl ⟨hk',hk⟩)⟩
  refine ⟨⟨?_,?_,?_,?_,?_,?_⟩,h.timerJiffies,h.workList,h.expires, h.deferrable,hwheel,?_⟩
  · intro k' t ht
    rw [cascade,h.timerJiffies,h.expires]
    rcases mem_cascade.mp ht with ⟨ht,-⟩ | ⟨-,rfl⟩
    · exact hinv.fits k' t ht
    · exact fits_bucketOf _ _
  · intro k'
    rw [cascade,h.vec]
    dsimp only
    by_cases hk : k' = k
    · subst hk
      rw [update_self,nil_append]
      exact (hinv.nodup k').filter _
    rw [update_of_ne hk]
    apply List.Nodup.append (hinv.nodup k') ((hinv.nodup k).filter _)
    intro t ht hmem
    exact hk (hinv.unique ht (mem_of_mem_filter hmem))
  · intro k1 k2 t h1 h2
    rcases mem_cascade.mp h1 with ⟨hold1,hk1⟩ | ⟨hput1,hk1⟩
    · rcases mem_cascade.mp h2 with ⟨hold2,-⟩ | ⟨hput2,-⟩
      · exact hinv.unique hold1 hold2
      · exact absurd (hinv.unique hold1 hput2) hk1
    rcases mem_cascade.mp h2 with ⟨hold2,hk2⟩ | ⟨-,hk2⟩
    · exact absurd (hinv.unique hold2 hput1) hk2
    · rw [hk1,hk2]
  · rw [cascade,h.workList]
    exact hinv.work_nodup
  · intro t ht
    rw [cascade,h.workList]
    exact hinv.apart ((hwheel t).mp ht)
  · intro t
    rw [hwheel]
    rw [cascade,h.pending,h.workList,hinv.pending_iff]
    tauto
  intro k' t ht
  rcases mem_cascade.mp ht with ⟨ht,hk⟩ | ⟨-,hk⟩
  · exact .inl ⟨ht,by simpa using hk⟩
  · exact .inr hk

lemma Cascaded.cascade {lists : List Bucket} (h : Cascaded lists b b') (k : Bucket) :
    Cascaded (lists++[k]) b (b'.cascade k) := by
  have hnext := cascade_spec h.inv k
  refine ⟨hnext.inv,hnext.timerJiffies.trans h.timerJiffies,hnext.workList.trans h.workList,
    hnext.expires.trans h.expires,hnext.deferrable.trans h.deferrable,
    fun t => (hnext.onWheel t).trans (h.onWheel t),?_⟩
  intro k' t ht
  rcases hnext.moved k' t ht with ⟨hmid,hk⟩ | hput
  · rcases h.moved k' t hmid with ⟨hold,hlists⟩ | hput
    · refine .inl ⟨hold,?_⟩
      rw [mem_append]
      exact fun hmem => hmem.elim hlists hk
    · exact .inr hput
  rw [h.timerJiffies,h.expires] at hput
  exact .inr hput

lemma cascades_spec (hinv : b.Inv) : Cascaded (cascaded b.timerJiffies) b b.cascades := by
  unfold cascades Timer.cascaded
  have h1 := (Cascaded.refl hinv).cascade (.tv2 (index b.timerJiffies 256))
  have h2 := h1.cascade (.tv3 (index b.timerJiffies 16384))
  have h3 := h2.cascade (.tv4 (index b.timerJiffies 1048576))
  by_cases hroot : b.timerJiffies.toNat%256 ≠ 0
  · rw [if_pos hroot,if_pos hroot]
    exact Cascaded.refl hinv
  rw [if_neg hroot,if_neg hroot]
  by_cases h256 : index b.timerJiffies 256 ≠ 0
  · rw [if_pos h256,if_pos h256]
    exact h1
  rw [if_neg h256,if_neg h256]
  by_cases h16384 : index b.timerJiffies 16384 ≠ 0
  · rw [if_pos h16384,if_pos h16384]
    exact h2
  rw [if_neg h16384,if_neg h16384]
  by_cases h1048576 : index b.timerJiffies 1048576 ≠ 0
  · rw [if_pos h1048576,if_pos h1048576]
    exact h3
  rw [if_neg h1048576,if_neg h1048576]
  exact h3.cascade _

/-- What the head of a pass does: it takes the timers that are due, and the others go on waiting. -/
structure Passes (b b' : Base) : Prop where
  inv : b'.Inv
  timerJiffies : b'.timerJiffies = b.timerJiffies+1
  expires : b'.expires = b.expires
  deferrable : b'.deferrable = b.deferrable
  taken : ∀ t, t ∈ b'.workList ↔ b.OnWheel t ∧ wait b.timerJiffies (b.expires t) = 0
  onWheel : ∀ t, b'.OnWheel t ↔ b.OnWheel t ∧ 0 < wait b.timerJiffies (b.expires t)

lemma beginPass_spec (hinv : b.Inv) (h : b.beginPass = some b') : Passes b b' := by
  unfold beginPass at h
  split at h
  swap
  · cases h
  rename_i hidle
  have heq := Option.some.inj h
  have hc := cascades_spec hinv
  generalize b.cascades = c at hc heq
  -- what is left on the wheel is not due, and lies on the right list for the next pass
  have hlater : ∀ k t, t ∈ c.vec k → k ≠ .tv1 (b.timerJiffies.toNat%256) →
      0 < wait b.timerJiffies (b.expires t) ∧ Fits (b.timerJiffies+1) (b.expires t) k := by
    intro k t ht hk
    rcases hc.moved k t ht with ⟨hold,hleft⟩ | rfl
    · exact (hinv.fits k t hold).succ hk hleft
    · exact succ_bucketOf hk
  have hnow : ∀ t, t ∈ c.vec (.tv1 (b.timerJiffies.toNat%256)) → wait b.timerJiffies (b.expires t) = 0 := by
    intro t ht
    have hfits := hc.inv.fits _ t ht
    rw [hc.timerJiffies,hc.expires] at hfits
    exact wait_of_current hfits
  have hmem : ∀ k t, t ∈ b'.vec k ↔ t ∈ c.vec k ∧ k ≠ .tv1 (b.timerJiffies.toNat%256) := by
    intro k t
    rw [← heq]
    dsimp only
    by_cases hk : k = .tv1 (b.timerJiffies.toNat%256)
    · subst hk
      simp
    rw [update_of_ne hk]
    simp [hk]
  have hwork : b'.workList = c.vec (.tv1 (b.timerJiffies.toNat%256)) := by rw [← heq]
  have htaken : ∀ t, t ∈ b'.workList ↔ b.OnWheel t ∧ wait b.timerJiffies (b.expires t) = 0 := by
    intro t
    rw [hwork]
    constructor
    · intro ht
      exact ⟨(hc.onWheel t).mp ⟨_,ht⟩,hnow t ht⟩
    rintro ⟨ht,hzero⟩
    obtain ⟨k,hk⟩ := (hc.onWheel t).mpr ht
    by_cases hroot : k = .tv1 (b.timerJiffies.toNat%256)
    · exact hroot ▸ hk
    have := (hlater k t hk hroot).1
    omega
  have hwheel : ∀ t, b'.OnWheel t ↔ b.OnWheel t ∧ 0 < wait b.timerJiffies (b.expires t) := by
    intro t
    constructor
    · rintro ⟨k,hk⟩
      obtain ⟨ht,hroot⟩ := (hmem k t).mp hk
      exact ⟨(hc.onWheel t).mp ⟨k,ht⟩,(hlater k t ht hroot).1⟩
    rintro ⟨ht,hpos⟩
    obtain ⟨k,hk⟩ := (hc.onWheel t).mpr ht
    refine ⟨k,(hmem k t).mpr ⟨hk,?_⟩⟩
    rintro rfl
    have := hnow t hk
    omega
  have htj : b'.timerJiffies = b.timerJiffies+1 := by rw [← heq]
  have hexp : b'.expires = b.expires := by rw [← heq]; exact hc.expires
  have hdef : b'.deferrable = b.deferrable := by rw [← heq]; exact hc.deferrable
  refine ⟨⟨?_,?_,?_,?_,?_,?_⟩,htj,hexp,hdef,htaken,hwheel⟩
  · intro k t ht
    obtain ⟨ht,hroot⟩ := (hmem k t).mp ht
    rw [htj,hexp]
    exact (hlater k t ht hroot).2
  · intro k
    rw [← heq]
    dsimp only
    by_cases hk : k = .tv1 (b.timerJiffies.toNat%256)
    · subst hk
      rw [update_self]
      exact nodup_nil
    rw [update_of_ne hk]
    exact hc.inv.nodup k
  · intro k k' t hk hk'
    exact hc.inv.unique ((hmem k t).mp hk).1 ((hmem k' t).mp hk').1
  · rw [hwork]
    exact hc.inv.nodup _
  · intro t ht hmem
    have hpos := ((hwheel t).mp ht).2
    have hzero := ((htaken t).mp hmem).2
    omega
  intro t
  have hpend : b'.pending = c.pending := by rw [← heq]
  rw [hpend,hc.inv.pending_iff,hc.onWheel,hc.workList,hidle.1,hwheel,htaken]
  have hsplit := Nat.eq_zero_or_pos (wait b.timerJiffies (b.expires t))
  tauto

end Base

end LinuxToradex.Timer
