import LinuxToradex.Foundation.Ranges

/-! `__posix_lock_file` and what it calls. A lock structure is known by its address (`id`), and a write through
a pointer changes the structure with that address. The waiting requests of all inodes are on one list. -/
namespace LinuxToradex.Locks
open Ranges

inductive LockType
  | rdlck | wrlck | unlck
deriving DecidableEq

def offsetMax : Int := 9223372036854775807

/-- `struct file_lock`: the range and the type, the address, whether it is a POSIX lock, and the
owner as `posix_same_owner` compares it. -/
structure FileLock (Owner : Type) extends Span LockType where
  id : Nat
  posix : Bool
  owner : Owner
deriving DecidableEq

inductive Ret
  | ok | again | deadlk | deferred | nolck | noent
deriving DecidableEq

section List
variable {Owner : Type} [DecidableEq Owner]

def posixSameOwner (fl1 fl2 : FileLock Owner) : Bool := decide (fl1.owner = fl2.owner)

def locksOverlap (fl1 fl2 : FileLock Owner) : Bool :=
  decide (fl1.stop ≥ fl2.start) && decide (fl2.stop ≥ fl1.start)

def locksConflict (callerFl sysFl : FileLock Owner) : Bool :=
  if sysFl.value = .wrlck then true
  else if callerFl.value = .wrlck then true
  else false

def posixLocksConflict (callerFl sysFl : FileLock Owner) : Bool :=
  if !sysFl.posix || posixSameOwner callerFl sysFl then false
  else if !locksOverlap callerFl sysFl then false
  else locksConflict callerFl sysFl

def modify (p : Option Nat) (f : FileLock Owner → FileLock Owner) (l : List (FileLock Owner)) :
    List (FileLock Owner) :=
  l.map fun fl => if some fl.id = p then f fl else fl

/-- The variables of `__posix_lock_file` in its second loop: the locks that `before` has passed and
those from `*before` on, what `request` points to, and the locks whose waiters were woken. -/
structure Walk (Owner : Type) where
  passed : List (FileLock Owner)
  rest : List (FileLock Owner)
  request : FileLock Owner
  left : Option Nat
  right : Option Nat
  added : Bool
  woken : List Nat

def skipOthers (request : FileLock Owner) (passed : List (FileLock Owner)) :
    List (FileLock Owner) → List (FileLock Owner) × List (FileLock Owner)
  | [] => (passed,[])
  | fl::rest =>
    if !fl.posix || !posixSameOwner request fl then skipOthers request (passed++[fl]) rest
    else (passed,fl::rest)

def processLoop (w : Walk Owner) : List (FileLock Owner) → Walk Owner
  | [] => {w with rest := []}
  | fl::rest =>
    if !posixSameOwner w.request fl then {w with rest := fl::rest}
    else if w.request.value = fl.value then
      if fl.stop < w.request.start - 1 then processLoop {w with passed := w.passed++[fl]} rest
      else if fl.start - 1 > w.request.stop then {w with rest := fl::rest}
      else
        let start := if fl.start > w.request.start then w.request.start else fl.start
        let stop := if fl.stop < w.request.stop then w.request.stop else fl.stop
        let request := {w.request with start := start, stop := stop}
        let fl' := {fl with start := start, stop := stop}
        if w.added then
          processLoop {w with
            passed := modify (some request.id) (fun _ => request) w.passed,
            request := request, woken := w.woken++[fl.id]} rest
        else processLoop {w with passed := w.passed++[fl'], request := fl', added := true} rest
    else if fl.stop < w.request.start then processLoop {w with passed := w.passed++[fl]} rest
    else if fl.start > w.request.stop then {w with rest := fl::rest}
    else
      let added := w.added || decide (w.request.value = .unlck)
      let left := if fl.start < w.request.start then some fl.id else w.left
      if fl.stop > w.request.stop then
        {w with added := added, left := left, right := some fl.id, rest := fl::rest}
      else if fl.start ≥ w.request.start then
        if added then
          processLoop {w with added := added, left := left, woken := w.woken++[fl.id]} rest
        else
          let fl' := {fl with start := w.request.start, stop := w.request.stop, value := w.request.value}
          processLoop {w with
            passed := w.passed++[fl'], request := fl', added := true, left := left,
            woken := w.woken++[fl.id]} rest
      else processLoop {w with passed := w.passed++[fl], added := added, left := left} rest

def Walk.insertLock (w : Walk Owner) (fl : FileLock Owner) : Walk Owner := {w with rest := fl::w.rest}

/-- The end of `__posix_lock_file`, where the locks on both sides are cut: the list and the locks
whose waiters were woken. -/
def Walk.cut (w : Walk Owner) (newFl2 : Nat) : List (FileLock Owner) × List Nat :=
  let apart := w.right.isSome && decide (w.left = w.right)
  let w' :=
    if apart then
      match (w.passed++w.rest).find? fun fl => decide (some fl.id = w.right) with
      | some right => {w.insertLock {right with id := newFl2} with left := some newFl2}
      | none => w
    else w
  let list := modify w.right (fun fl => {fl with start := w.request.stop+1}) (w'.passed++w'.rest)
  (modify w'.left (fun fl => {fl with stop := w.request.start - 1}) list, w.woken++w.right.toList++w'.left.toList)

/-- What follows the second loop of `__posix_lock_file`; `newFl` and `newFl2` are the structures
that were allocated. -/
def Walk.finish (w : Walk Owner) (newFl newFl2 : Option Nat) (flExists : Bool) :
    Ret × List (FileLock Owner) × List Nat :=
  if w.right.isSome ∧ w.left = w.right ∧ newFl2 = none then (.nolck,w.passed++w.rest,w.woken)
  else if w.added then (.ok,w.cut (newFl2.getD 0))
  else if w.request.value = .unlck then
    (if flExists then .noent else .ok,w.passed++w.rest,w.woken)
  else
    match newFl with
    | none => (.nolck,w.passed++w.rest,w.woken)
    | some id => (.ok,(w.insertLock {w.request with id := id}).cut (newFl2.getD 0))

def applyRequest (request : FileLock Owner) (newFl newFl2 : Option Nat) (flExists : Bool)
    (list : List (FileLock Owner)) : Ret × List (FileLock Owner) × List Nat :=
  let parts := skipOthers request [] list
  (processLoop ⟨parts.1,[],request,none,none,false,[]⟩ parts.2).finish newFl newFl2 flExists

end List

section Waiting
variable {Ino Owner : Type}

structure Waiter (Ino Owner : Type) where
  request : FileLock Owner
  ino : Ino
  next : Nat
deriving DecidableEq

structure State (Ino Owner : Type) where
  locks : Ino → List (FileLock Owner)
  blocked : List (Waiter Ino Owner)
  nextId : Nat

def State.deref (s : State Ino Owner) (w : Waiter Ino Owner) : Option (FileLock Owner) :=
  (s.locks w.ino).find? fun fl => decide (fl.id = w.next)

/-- A call of `__posix_lock_file`, with the outcome of its two allocations. -/
structure Call (Ino Owner : Type) where
  ino : Ino
  owner : Owner
  type : LockType
  start : Int
  stop : Int
  flSleep : Bool
  flAccess : Bool
  flExists : Bool
  alloc : Bool
  alloc2 : Bool

inductive Event (Ino Owner : Type)
  | lock (c : Call Ino Owner)
  /-- The wait of a request ends: `locks_delete_block`. -/
  | deleteBlock (waiter : Nat)

variable [DecidableEq Ino] [DecidableEq Owner]

def State.whatOwnerIsWaitingFor (s : State Ino Owner) (blockFl : FileLock Owner) : Option (FileLock Owner) :=
  (s.blocked.find? fun w => posixSameOwner w.request blockFl).bind s.deref

def maxDeadlkIterations : Nat := 10

def State.deadlockLoop (s : State Ino Owner) (callerFl : FileLock Owner) (i : Nat)
    (blockFl : FileLock Owner) : Bool :=
  match s.whatOwnerIsWaitingFor blockFl with
  | none => false
  | some blockFl =>
    if i > maxDeadlkIterations then false
    else if posixSameOwner callerFl blockFl then true
    else State.deadlockLoop s callerFl (i+1) blockFl
termination_by maxDeadlkIterations+1-i

def State.posixLocksDeadlock (s : State Ino Owner) (callerFl blockFl : FileLock Owner) : Bool :=
  s.deadlockLoop callerFl 0 blockFl

def State.insertBlock (s : State Ino Owner) (ino : Ino) (blocker waiter : FileLock Owner) : State Ino Owner :=
  {s with blocked := ⟨waiter,ino,blocker.id⟩::s.blocked}

def State.wakeUp (s : State Ino Owner) (ino : Ino) (woken : List Nat) : State Ino Owner :=
  {s with blocked := s.blocked.filter fun w => !(decide (w.ino = ino) && decide (w.next ∈ woken))}

def State.request (s : State Ino Owner) (c : Call Ino Owner) : FileLock Owner :=
  {start := c.start, stop := c.stop, value := c.type, id := s.nextId, posix := true, owner := c.owner}

def Call.allocates (c : Call Ino Owner) : Bool :=
  !c.flAccess && (decide (c.type ≠ .unlck) || decide (c.start ≠ 0) || decide (c.stop ≠ offsetMax))

def State.posixLockFile (s : State Ino Owner) (c : Call Ino Owner) : Ret × State Ino Owner :=
  let request := s.request c
  let newFl := if c.allocates && c.alloc then some (s.nextId+1) else none
  let newFl2 := if c.allocates && c.alloc2 then some (s.nextId+2) else none
  let s' := {s with nextId := s.nextId+3}
  let conflict :=
    if c.type = .unlck then none
    else (s.locks c.ino).find? fun fl => fl.posix && posixLocksConflict request fl
  match conflict with
  | some fl =>
    if !c.flSleep then (.again,s')
    else if s.posixLocksDeadlock request fl then (.deadlk,s')
    else (.deferred,s'.insertBlock c.ino fl request)
  | none =>
    if c.flAccess then (.ok,s')
    else
      let r := applyRequest request newFl newFl2 c.flExists (s.locks c.ino)
      (r.1,{s' with locks := Function.update s.locks c.ino r.2.1}.wakeUp c.ino r.2.2)

def State.apply (s : State Ino Owner) : Event Ino Owner → State Ino Owner
  | .lock c => (s.posixLockFile c).2
  | .deleteBlock waiter => {s with blocked := s.blocked.filter fun w => decide (w.request.id ≠ waiter)}

def State.init (other : Ino → List (FileLock Owner)) (nextId : Nat) : State Ino Owner := ⟨other,[],nextId⟩

def State.run (s : State Ino Owner) (events : List (Event Ino Owner)) : State Ino Owner :=
  events.foldl State.apply s

end Waiting

end LinuxToradex.Locks
