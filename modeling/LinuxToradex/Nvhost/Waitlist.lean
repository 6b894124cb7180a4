import Mathlib.Algebra.BigOperators.Group.Finset.Basic
import LinuxToradex.Foundation.Align

/-! `drivers/video/tegra/host/nvhost_intr.c`. `process_wait_list` and `nvhost_intr_put_ref`, which does not
take the lock of the list, meet in the atomic state of a waiter. A step of a thread is one atomic operation,
or a section under the lock without one. -/
namespace LinuxToradex.Nvhost
open Function (update)
open Wrap UInt32

inductive IntrAction where
  | submitComplete
  | ctxsave
  | wakeup
  | wakeupInterruptible
  deriving DecidableEq

inductive Wls where
  | pending
  | removed
  | cancelled
  | handled
  | beyond
  deriving DecidableEq

def Wls.inc : Wls → Wls
  | .pending => .removed
  | .removed => .cancelled
  | .cancelled => .handled
  | .handled => .beyond
  | .beyond => .beyond

/-- `struct nvhost_waitlist`. The threshold counts increments of the syncpoint; the code sees
its low 32 bits. The last field is no field of the source: it records the value of the syncpoint
that the thread which removed the waiter had read. -/
structure Waiter where
  thresh : Nat
  action : IntrAction
  state : Wls
  data : Nat
  count : Nat
  refcount : Nat
  removedAt : Nat
  deriving DecidableEq

abbrev WaiterId := Nat
abbrev ThreadId := Nat

def thresholdReached (thresh sync : Nat) : Bool :=
  !ahead (ofNat thresh-ofNat sync)

abbrev Completed := IntrAction → List WaiterId

/-- Whether `process_wait_list` was called by the interrupt thread or by
`nvhost_intr_put_ref`. -/
inductive Caller where
  | irq
  | putRef (w : WaiterId)
  deriving DecidableEq

inductive Process where
  | read -- about to read the syncpoint
  | enter (sync : Nat) -- about to take the lock
  | scan (sync : Nat) (completed : Completed) -- in remove_completed_waiters, lock held
  | drop (sync : Nat) (completed : Completed) (w : WaiterId) -- about to put a removed waiter
  | run (completed : Completed) -- in run_handlers
  | handling (completed : Completed) (w : WaiterId) -- the handler of w is running
  | put (completed : Completed) (w : WaiterId) -- about to put the handled waiter

inductive Pc where
  | idle
  | adding (w : WaiterId) -- in nvhost_intr_add_action, waiter initialized
  | requestIrq (w : WaiterId)
  | relock (w : WaiterId)
  | process (k : Caller) (p : Process)
  | spin (w : WaiterId) -- in the loop of nvhost_intr_put_ref
  | putRef (w : WaiterId) -- about to put the caller's reference

/-- What the caller of `nvhost_intr_add_action` has of the reference it asked for. -/
inductive Ref where
  | none
  | promised
  | held
  | putting (t : ThreadId)
  | returned
  deriving DecidableEq

/-- One syncpoint and the threads working on it. The last fields record how often a waiter was freed and its
handler begun, whether the warning was given, the sum of `count` over the submit handlers run, and the submit
waiters removed. -/
structure Syncpt where
  now : Nat
  irqRequested : Bool
  lock : Option ThreadId
  waitHead : List WaiterId
  waiter : WaiterId → Waiter
  allocated : Finset WaiterId
  ref : WaiterId → Ref
  pc : ThreadId → Pc
  freed : WaiterId → Nat
  begun : WaiterId → Nat
  warned : Bool
  executed : Nat
  removed : Nat

def Syncpt.goto (s : Syncpt) (t : ThreadId) (p : Pc) : Syncpt :=
  {s with pc := update s.pc t p}

def Syncpt.krefPut (s : Syncpt) (w : WaiterId) : Syncpt :=
  {s with
    waiter := update s.waiter w {s.waiter w with refcount := (s.waiter w).refcount - 1}
    freed := if (s.waiter w).refcount = 1 then update s.freed w (s.freed w+1) else s.freed}

def Syncpt.setState (s : Syncpt) (w : WaiterId) (st : Wls) : Syncpt :=
  {s with waiter := update s.waiter w {s.waiter w with state := st}}

def newWaiter (thresh : Nat) (action : IntrAction) (data : Nat) (ref : Bool) : Waiter :=
  ⟨thresh,action,.pending,data,1,if ref then 2 else 1,0⟩

/-- `add_waiter_to_queue`: behind the last waiter whose threshold is not later. -/
def addWaiterToQueue (waiter : WaiterId → Waiter) (w : WaiterId) (queue : List WaiterId) :
    List WaiterId :=
  let later := queue.reverse.takeWhile fun pos =>
    ahead (ofNat (waiter pos).thresh-ofNat (waiter w).thresh)
  queue.take (queue.length-later.length)++w::queue.drop (queue.length-later.length)

/-- The end of `nvhost_intr_add_action`, under the lock; the caller gets its reference. -/
def Syncpt.insert (s : Syncpt) (w : WaiterId) : Syncpt :=
  {s with
    waitHead := addWaiterToQueue s.waiter w s.waitHead
    ref := if s.ref w = .promised then update s.ref w .held else s.ref}

/-- The waiter a submit waiter is consolidated with: the last completed one, if it is of the
same channel. -/
def consolidateWith (waiter : WaiterId → Waiter) (completed : Completed) (w : WaiterId) :
    Option WaiterId :=
  if (waiter w).action = .submitComplete then
    match (completed .submitComplete).getLast? with
    | some prev => if (waiter prev).data = (waiter w).data then some prev else none
    | none => none
  else none

def addCount (waiter : WaiterId → Waiter) : Option WaiterId → WaiterId → Waiter
  | some prev => update waiter prev {waiter prev with count := (waiter prev).count+1}
  | none => waiter

/-- One round of the loop of `remove_completed_waiters` for the reached waiter at the head:
it is consolidated, its state is incremented, and it is dropped or moved to the completed
waiters of its action. -/
def Syncpt.removeWaiter (s : Syncpt) (t : ThreadId) (k : Caller) (sync : Nat)
    (completed : Completed) (w : WaiterId) (rest : List WaiterId) : Syncpt :=
  let prev := consolidateWith s.waiter completed w
  let waiter := addCount s.waiter prev
  let st := (s.waiter w).state.inc
  let s' := {s with
    waitHead := rest
    waiter := update waiter w {waiter w with state := st, removedAt := sync}
    removed := s.removed+if (s.waiter w).action = IntrAction.submitComplete then 1 else 0}
  if st = .handled ∨ prev.isSome then s'.goto t (.process k (.drop sync completed w))
  else
    let action := (s.waiter w).action
    s'.goto t (.process k (.scan sync
      (update completed action (completed action++[w]))))

def Syncpt.beginHandler (s : Syncpt) (w : WaiterId) : Syncpt :=
  {s with
    begun := update s.begun w (s.begun w+1)
    executed := s.executed +
      if (s.waiter w).action = IntrAction.submitComplete then (s.waiter w).count else 0}

def Syncpt.endHandler (s : Syncpt) (w : WaiterId) : Syncpt :=
  {s.setState w .handled with warned := s.warned || decide ((s.waiter w).state ≠ .removed)}

/-- The steps of the threads, and of the syncpoint itself, which only counts up. -/
inductive Step : Syncpt → Syncpt → Prop
  | tick {s : Syncpt} (k : Nat) : Step s {s with now := s.now+k}
  -- nvhost_intr_add_action
  | add {s : Syncpt} {t : ThreadId} {w : WaiterId} (thresh : Nat) (action : IntrAction) (data : Nat)
      (ref : Bool) : s.pc t = .idle → w ∉ s.allocated →
      (action = .submitComplete ∨ action = .ctxsave → ref = false) →
      Step s ({s with
        allocated := insert w s.allocated
        waiter := update s.waiter w (newWaiter thresh action data ref)
        ref := update s.ref w (if ref then .promised else .none)}.goto t (.adding w))
  | insertFirst {s : Syncpt} {t : ThreadId} {w : WaiterId} : s.pc t = .adding w → s.lock = none →
      s.irqRequested = true → Step s ((s.insert w).goto t .idle)
  | noIrq {s : Syncpt} {t : ThreadId} {w : WaiterId} : s.pc t = .adding w → s.lock = none →
      s.irqRequested = false → Step s (s.goto t (.requestIrq w))
  | irqFailed {s : Syncpt} {t : ThreadId} {w : WaiterId} : s.pc t = .requestIrq w →
      Step s ({s with
        freed := update s.freed w (s.freed w+1)
        ref := update s.ref w .none}.goto t .idle)
  | irqOk {s : Syncpt} {t : ThreadId} {w : WaiterId} : s.pc t = .requestIrq w →
      Step s ({s with irqRequested := true}.goto t (.relock w))
  | insertSecond {s : Syncpt} {t : ThreadId} {w : WaiterId} : s.pc t = .relock w → s.lock = none →
      Step s ((s.insert w).goto t .idle)
  -- nvhost_syncpt_thresh_fn
  | interrupt {s : Syncpt} {t : ThreadId} : s.pc t = .idle → Step s (s.goto t (.process .irq .read))
  -- nvhost_intr_put_ref, once for a reference
  | callPut {s : Syncpt} {t : ThreadId} {w : WaiterId} : s.pc t = .idle → s.ref w = .held →
      Step s ({s with ref := update s.ref w (.putting t)}.goto t (.spin w))
  | spinAgain {s : Syncpt} {t : ThreadId} {w : WaiterId} : s.pc t = .spin w →
      (s.waiter w).state = .removed → Step s s
  | cancel {s : Syncpt} {t : ThreadId} {w : WaiterId} : s.pc t = .spin w →
      (s.waiter w).state = .pending →
      Step s ((s.setState w .cancelled).goto t (.process (.putRef w) .read))
  | spinDone {s : Syncpt} {t : ThreadId} {w : WaiterId} : s.pc t = .spin w →
      (s.waiter w).state ≠ .pending → (s.waiter w).state ≠ .removed →
      Step s (s.goto t (.process (.putRef w) .read))
  -- process_wait_list
  | read {s : Syncpt} {t : ThreadId} {k : Caller} : s.pc t = .process k .read →
      Step s (s.goto t (.process k (.enter s.now)))
  | enter {s : Syncpt} {t : ThreadId} {k : Caller} {sync : Nat} :
      s.pc t = .process k (.enter sync) → s.lock = none →
      Step s ({s with lock := some t}.goto t (.process k (.scan sync fun _ => [])))
  | remove {s : Syncpt} {t : ThreadId} {k : Caller} {sync : Nat} {completed : Completed}
      {w : WaiterId} {rest : List WaiterId} : s.pc t = .process k (.scan sync completed) →
      s.waitHead = w::rest → thresholdReached (s.waiter w).thresh sync = true →
      Step s (s.removeWaiter t k sync completed w rest)
  | putRemoved {s : Syncpt} {t : ThreadId} {k : Caller} {sync : Nat} {completed : Completed}
      {w : WaiterId} : s.pc t = .process k (.drop sync completed w) →
      Step s ((s.krefPut w).goto t (.process k (.scan sync completed)))
  | leave {s : Syncpt} {t : ThreadId} {k : Caller} {sync : Nat} {completed : Completed} :
      s.pc t = .process k (.scan sync completed) →
      (∀ w ∈ s.waitHead.head?, thresholdReached (s.waiter w).thresh sync = false) →
      Step s ({s with lock := none}.goto t (.process k (.run completed)))
  -- run_handlers, one action after the other
  | handle {s : Syncpt} {t : ThreadId} {k : Caller} {completed : Completed} {action : IntrAction}
      {w : WaiterId} {rest : List WaiterId} : s.pc t = .process k (.run completed) →
      completed action = w::rest →
      (∀ a : IntrAction, a.ctorIdx < action.ctorIdx → completed a = []) →
      Step s ((s.beginHandler w).goto t
        (.process k (.handling (update completed action rest) w)))
  | handled {s : Syncpt} {t : ThreadId} {k : Caller} {completed : Completed} {w : WaiterId} :
      s.pc t = .process k (.handling completed w) →
      Step s ((s.endHandler w).goto t (.process k (.put completed w)))
  | putHandled {s : Syncpt} {t : ThreadId} {k : Caller} {completed : Completed} {w : WaiterId} :
      s.pc t = .process k (.put completed w) →
      Step s ((s.krefPut w).goto t (.process k (.run completed)))
  | irqDone {s : Syncpt} {t : ThreadId} {completed : Completed} :
      s.pc t = .process .irq (.run completed) → (∀ a, completed a = []) →
      Step s (s.goto t .idle)
  | processed {s : Syncpt} {t : ThreadId} {completed : Completed} {w : WaiterId} :
      s.pc t = .process (.putRef w) (.run completed) → (∀ a, completed a = []) →
      Step s (s.goto t (.putRef w))
  | returnRef {s : Syncpt} {t : ThreadId} {w : WaiterId} : s.pc t = .putRef w →
      Step s ({s.krefPut w with ref := update s.ref w .returned}.goto t .idle)

def Syncpt.init (now : Nat) : Syncpt where
  now := now
  irqRequested := false
  lock := none
  waitHead := []
  waiter _ := ⟨0,.wakeup,.pending,0,0,0,0⟩
  allocated := ∅
  ref _ := .none
  pc _ := .idle
  freed _ := 0
  begun _ := 0
  warned := false
  executed := 0
  removed := 0

def Syncpt.Reachable (s : Syncpt) : Prop :=
  ∃ now, Relation.ReflTransGen Step (Syncpt.init now) s

end LinuxToradex.Nvhost
