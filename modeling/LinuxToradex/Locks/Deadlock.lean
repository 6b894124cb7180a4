import LinuxToradex.Foundation.Walks
import LinuxToradex.Locks.Runs

/-! An edge leads from the owner of a waiting request to the owner of the lock it is queued on. An edge is added
after `posix_locks_deadlock` has followed the graph for eleven steps. -/
namespace LinuxToradex.Locks
open List Walks Function Option

variable {Ino Owner : Type}

def State.WaitsFor (s : State Ino Owner) (a b : Owner) : Prop :=
  ∃ w ∈ s.blocked, w.request.owner = a ∧ (s.deref w).map FileLock.owner = some b

instance [DecidableEq Owner] (s : State Ino Owner) (a b : Owner) : Decidable (s.WaitsFor a b) :=
  inferInstanceAs (Decidable (∃ w ∈ s.blocked, _))

def State.OneEach (s : State Ino Owner) : Prop := (s.blocked.map fun w => w.request.owner).Nodup

instance [DecidableEq Owner] (s : State Ino Owner) : Decidable s.OneEach :=
  inferInstanceAs (Decidable (List.Nodup _))

def State.NoShortCycle (s : State Ino Owner) : Prop := ∀ n a, 0 < n → n ≤ 12 → ¬Along s.WaitsFor n a a

section Follow
variable [DecidableEq Owner] {s : State Ino Owner}

lemma whatOwnerIsWaitingFor_eq (hone : s.OneEach) {blockFl : FileLock Owner} {b : Owner}
    (h : s.WaitsFor blockFl.owner b) : ∃ fl, s.whatOwnerIsWaitingFor blockFl = some fl ∧ fl.owner = b := by
  obtain ⟨w,hw,howner,hderef⟩ := h
  have hfind : s.blocked.find? (fun w => posixSameOwner w.request blockFl) = some w := by
    unfold State.OneEach at hone
    generalize s.blocked = l at hone hw
    induction l with
    | nil => exact absurd hw not_mem_nil
    | cons x l ih =>
      obtain ⟨hx,hone⟩ := nodup_cons.mp hone
      rcases mem_cons.mp hw with rfl | hw
      · exact find?_cons_of_pos (by simp [posixSameOwner,howner])
      rw [find?_cons_of_neg]
      · exact ih hone hw
      intro hsame
      have heq : x.request.owner = w.request.owner := by
        rw [howner]
        simpa [posixSameOwner] using hsame
      exact hx (mem_map.mpr ⟨w,hw,heq.symm⟩)
  obtain ⟨fl,hfl,hb⟩ := map_eq_some_iff.mp hderef
  refine ⟨fl,?_,hb⟩
  unfold State.whatOwnerIsWaitingFor
  rw [hfind]
  exact hfl

lemma waitsFor_of_found {blockFl fl : FileLock Owner} (h : s.whatOwnerIsWaitingFor blockFl = some fl) :
    s.WaitsFor blockFl.owner fl.owner := by
  obtain ⟨w,hfind,hderef⟩ := bind_eq_some_iff.mp h
  refine ⟨w,mem_of_find?_eq_some hfind,?_,by rw [hderef]; rfl⟩
  simpa [posixSameOwner] using find?_some hfind

lemma deadlockLoop_of_walk (hone : s.OneEach) (callerFl : FileLock Owner) {n i : Nat} {a : Owner}
    (h : Along s.WaitsFor n a callerFl.owner) (hn : 0 < n) (hle : i+n ≤ maxDeadlkIterations+1)
    (blockFl : FileLock Owner) (hblock : blockFl.owner = a) : s.deadlockLoop callerFl i blockFl = true := by
  generalize hz : callerFl.owner = z at h
  induction h generalizing i blockFl with
  | nil x => exact absurd hn (Nat.lt_irrefl 0)
  | @cons n x y z edge walk ih =>
    obtain ⟨fl,hfound,rfl⟩ := whatOwnerIsWaitingFor_eq hone (hblock ▸ edge)
    rw [State.deadlockLoop,hfound]
    dsimp only
    rw [if_neg (by omega)]
    by_cases hsame : posixSameOwner callerFl fl = true
    · rw [if_pos hsame]
    rw [if_neg hsame]
    have hpos : 0 < n := by
      -- a walk of no steps ends at the caller
      by_contra hzero
      obtain rfl : n = 0 := by omega
      exact hsame (by simp [posixSameOwner,hz,walk.eq_of_zero])
    exact ih hpos (by omega) fl rfl hz

lemma walk_of_deadlockLoop (callerFl : FileLock Owner) (i : Nat) (blockFl : FileLock Owner)
    (h : s.deadlockLoop callerFl i blockFl = true) : ∃ n, Along s.WaitsFor n blockFl.owner callerFl.owner := by
  fun_induction State.deadlockLoop s callerFl i blockFl with
  | case1 | case2 => cases h
  | case3 i blockFl fl hfound hle hsame =>
    refine ⟨1,Along.cons (waitsFor_of_found hfound) ?_⟩
    have heq : callerFl.owner = fl.owner := by simpa [posixSameOwner] using hsame
    rw [heq]
    exact Along.nil fl.owner
  | case4 i blockFl fl hfound hle hsame ih =>
    obtain ⟨n,hwalk⟩ := ih h
    exact ⟨n+1,Along.cons (waitsFor_of_found hfound) hwalk⟩

end Follow

section Change
variable {s : State Ino Owner} {c : Call Ino Owner}

lemma deref_eq (h : Inv s) {w : Waiter Ino Owner} (hw : w ∈ s.blocked) :
    ∃ fl ∈ s.locks w.ino, fl.id = w.next ∧ s.deref w = some fl := by
  obtain ⟨fl,hfl,hid⟩ := mem_map.mp (h.live w hw)
  refine ⟨fl,hfl,hid,?_⟩
  unfold State.deref
  rw [← hid]
  exact find_by_id (h.nodup w.ino) hfl

variable [DecidableEq Ino]

lemma waitsFor_of_writes {list : List (FileLock Owner)} {woken : List Nat} {i : Ino} {a b : Owner} (h : Inv s)
    (hkeeps : Keeps (fun id => id < s.nextId+3) (s.locks i) [] (list,woken))
    (hedge : ({s with nextId := s.nextId+3, locks := Function.update s.locks i list}.wakeUp i woken).WaitsFor
      a b) : s.WaitsFor a b := by
  obtain ⟨w,hw,howner,hderef⟩ := hedge
  obtain ⟨hw,hnot⟩ := mem_filter.mp hw
  obtain ⟨fl,hfl,hid,hold⟩ := deref_eq h hw
  refine ⟨w,hw,howner,?_⟩
  change ((Function.update s.locks i list w.ino).find? fun fl => decide (fl.id = w.next)).map FileLock.owner =
    some b at hderef
  by_cases hi : w.ino = i
  · rw [hi] at hfl
    rcases hkeeps.kept fl hfl with hwoken | ⟨fl',hfl',hid',howner'⟩
    · simp [hi,← hid,show fl.id ∈ woken from hwoken] at hnot
    rw [hi,update_self,← hid,← hid',find_by_id hkeeps.nodup hfl'] at hderef
    rw [hold,← hderef]
    exact congrArg some howner'.symm
  rw [update_of_ne hi] at hderef
  exact hderef

omit [DecidableEq Ino] in
lemma waitsFor_insertBlock (h : Inv s) {fl : FileLock Owner} (request : FileLock Owner) {i : Ino}
    (hfl : fl ∈ s.locks i) (a b : Owner) : (s.insertBlock i fl request).WaitsFor a b ↔
      s.WaitsFor a b ∨ (a = request.owner ∧ b = fl.owner) := by
  have hnew : s.deref ⟨request,i,fl.id⟩ = some fl := find_by_id (h.nodup i) hfl
  constructor
  · rintro ⟨w,hw,rfl,hderef⟩
    rcases mem_cons.mp hw with rfl | hw
    · change (s.deref ⟨request,i,fl.id⟩).map FileLock.owner = some b at hderef
      rw [hnew] at hderef
      exact .inr ⟨rfl,(Option.some.inj hderef).symm⟩
    · exact .inl ⟨w,hw,rfl,hderef⟩
  rintro (⟨w,hw,howner,hderef⟩ | ⟨rfl,rfl⟩)
  · exact ⟨w,mem_cons_of_mem _ hw,howner,hderef⟩
  · exact ⟨⟨request,i,fl.id⟩,mem_cons_self,rfl,congrArg (Option.map FileLock.owner) hnew⟩

omit [DecidableEq Ino] in
lemma NoShortCycle.of_subset {s s' : State Ino Owner} (h : s.NoShortCycle)
    (hsub : ∀ a b, s'.WaitsFor a b → s.WaitsFor a b) : s'.NoShortCycle :=
  fun n a hpos hle hwalk => h n a hpos hle (hwalk.mono hsub)

variable [DecidableEq Owner]

lemma NoShortCycle.step {r : Ret × State Ino Owner} (hcycle : s.NoShortCycle) (h : Inv s)
    (hstep : Step s c r) (hone : r.2.OneEach) : r.2.NoShortCycle := by
  cases hstep with
  | same ret hret => exact hcycle
  | writes ret list woken haccess hkeeps hlist =>
    exact NoShortCycle.of_subset hcycle fun a b => waitsFor_of_writes h hkeeps
  | waits fl hfl howner hdeadlock =>
    have hedges := waitsFor_insertBlock h (s.request c) hfl
    intro n a hpos hle hwalk
    have hone' : s.OneEach := (nodup_cons.mp hone).2
    rcases Along.closed (fun x y => (hedges x y).mp) (fun x y hxy => (hedges x y).mpr (.inl hxy)) hwalk
      with hold | ⟨m,hm,hback⟩
    · exact hcycle n a hpos hle hold
    have hmpos : 0 < m := by
      by_contra hzero
      obtain rfl : m = 0 := by omega
      exact howner hback.eq_of_zero
    have hfound := deadlockLoop_of_walk hone' (s.request c) hback hmpos (i := 0)
      (by rw [maxDeadlkIterations]; omega) fl rfl
    exact absurd (hfound.symm.trans hdeadlock) (by decide)

lemma NoShortCycle.apply {e : Event Ino Owner} (hcycle : s.NoShortCycle) (h : Inv s) (he : e.Valid)
    (hone : (s.apply e).OneEach) : (s.apply e).NoShortCycle := by
  rcases e with c | waiter
  · exact NoShortCycle.step hcycle h (posixLockFile_step h he) hone
  refine NoShortCycle.of_subset hcycle fun a b => ?_
  rintro ⟨w,hw,hrest⟩
  exact ⟨w,(mem_filter.mp hw).1,hrest⟩

def OneEachAlong : State Ino Owner → List (Event Ino Owner) → Prop
  | _, [] => True
  | s, e::events => (s.apply e).OneEach ∧ OneEachAlong (s.apply e) events

instance decidableOneEachAlong : ∀ (s : State Ino Owner) (events : List (Event Ino Owner)),
    Decidable (OneEachAlong s events)
  | _, [] => isTrue trivial
  | s, e::events =>
    have : Decidable (OneEachAlong (s.apply e) events) := decidableOneEachAlong (s.apply e) events
    inferInstanceAs (Decidable (_ ∧ _))

lemma NoShortCycle.run (hcycle : s.NoShortCycle) (h : Inv s) (events : List (Event Ino Owner))
    (hvalid : ∀ e ∈ events, e.Valid) (hone : OneEachAlong s events) : (s.run events).NoShortCycle := by
  induction events generalizing s with
  | nil => exact hcycle
  | cons e events ih =>
    obtain ⟨he,hvalid⟩ := forall_mem_cons.mp hvalid
    exact ih (NoShortCycle.apply hcycle h he hone.1) (h.apply he) hvalid hone.2

/-- In a run in which each owner has at most one request that waits, there is never a cycle through at
most twelve owners. In every run a deadlock is only reported if the request would close a cycle. -/
theorem no_short_cycle (other : Ino → List (FileLock Owner)) (nextId : Nat)
    (hother : ∀ i, Others nextId (other i)) (events : List (Event Ino Owner))
    (hvalid : ∀ e ∈ events, e.Valid) :
    let s := (State.init other nextId).run events
    (OneEachAlong (State.init other nextId) events → s.NoShortCycle) ∧
    ∀ c : Call Ino Owner, ∀ fl ∈ s.locks c.ino, s.posixLocksDeadlock (s.request c) fl = true →
      ∃ n, Along (s.insertBlock c.ino fl (s.request c)).WaitsFor (n+1) c.owner c.owner := by
  intro s
  have hinv : Inv s := (Inv.init hother).run events hvalid
  constructor
  · intro hone
    refine NoShortCycle.run (fun n a hpos _ hwalk => ?_) (Inv.init hother) events hvalid hone
    cases hwalk with
    | nil => exact absurd hpos (Nat.lt_irrefl 0)
    | cons edge _ =>
      obtain ⟨w,hw,-⟩ := edge
      exact absurd hw not_mem_nil
  intro c fl hfl hdeadlock
  obtain ⟨n,hwalk⟩ := walk_of_deadlockLoop (s.request c) 0 fl hdeadlock
  have hedges := waitsFor_insertBlock hinv (s.request c) hfl
  exact ⟨n,Along.cons ((hedges _ _).mpr (.inr ⟨rfl,rfl⟩)) (hwalk.mono fun x y hxy => (hedges x y).mpr (.inl hxy))⟩

def threeOwners : List (Event Unit Nat) :=
  [.lock (ask () 1 .wrlck 0 0),.lock (ask () 2 .wrlck 1 1),.lock (ask () 3 .wrlck 2 2),
    .lock (ask () 1 .wrlck 1 1),.lock (ask () 2 .wrlck 2 2),.lock (ask () 3 .wrlck 0 0)]

theorem no_short_cycle_three_owners :
    let s := (State.init (fun _ => []) 0).run threeOwners
    s.blocked.length = 2 ∧ s.NoShortCycle :=
  ⟨by decide +kernel,(no_short_cycle (fun _ : Unit => []) 0 (fun _ => ⟨nofun,nodup_nil⟩) threeOwners
    (by simp [threeOwners,Event.Valid,Call.Valid,ask,offsetMax])).1 (by decide +kernel)⟩

end Change

/-- One thread of owner 1 waits for owner 2, another one for owner 3. When owner 2 asks for a lock of
owner 1, only the last of the two requests is looked at. Then owner 3 unlocks. -/
def twoThreads : List (Event Unit Nat) :=
  [.lock (ask () 2 .wrlck 0 0),.lock (ask () 3 .wrlck 1 1),.lock (ask () 1 .wrlck 2 2),
    .lock (ask () 1 .wrlck 0 0),.lock (ask () 1 .wrlck 1 1),.lock (ask () 2 .wrlck 2 2),
    .lock (ask () 3 .unlck 1 1)]

/-- The run ends in a state in which each owner has at most one request that waits, and there is a cycle
through two owners. -/
theorem cycle_after_two_requests_of_one_owner :
    let s := (State.init (fun _ => []) 0).run twoThreads
    s.OneEach ∧ Along s.WaitsFor 2 1 1 :=
  ⟨by decide +kernel,Along.cons (y := 2) (by decide +kernel) (Along.cons (by decide +kernel) (Along.nil 1))⟩

end LinuxToradex.Locks
