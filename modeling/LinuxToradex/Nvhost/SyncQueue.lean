import Mathlib.Data.List.TakeWhile
import LinuxToradex.Foundation.Align

/-! After a timeout `nvhost_cdma_update_sync_queue` (`drivers/video/tegra/host/nvhost_cdma.c`) skips the
completed jobs, does the increments of the timed-out client's jobs with the CPU, overwrites their slots with
NOPs (`host1x/host1x_cdma.c`) and restarts the DMA. -/
namespace LinuxToradex.Nvhost
open Nat UInt32

structure NvhostJob where
  clientid : Int
  syncptEnd : UInt32
  firstGet : UInt32
  numSlots : Nat
  timeout : Int
  deriving DecidableEq

/-- The channel's DMA state together with the syncpoint of the timeout. The push buffer is
addressed by byte offset, one word at each multiple of four. -/
structure NvhostCdma where
  lastPut : UInt32
  syncQueue : List NvhostJob
  headFirstGet : UInt32 -- what `first_get` names when the list cursor is the head itself
  timeoutClientid : Int
  ctxTimedout : Option Bool -- `has_timedout` of the timeout's context, if it has one
  syncptId : Nat
  value : UInt32 -- the syncpoint in hardware
  minVal : UInt32 -- its shadow
  maxVal : UInt32 -- what the submitted jobs will bring it to
  clientManaged : Bool
  incrs : Nat -- CPU increments issued so far
  baseVal : Nat → UInt32
  pbPhys : UInt32
  pbCur : UInt32
  pb : Nat → UInt32
  torndown : Bool
  running : Bool
  dmaget : UInt32
  dmaput : UInt32

def noop : UInt32 := 0x20000000

def nvhostSyncptUpdateMin (c : NvhostCdma) : NvhostCdma := {c with minVal := c.value}

def nvhostSyncptMinEqMax (c : NvhostCdma) : Bool := c.minVal = c.maxVal

/-- `t20_syncpt_cpu_incr`. The shadow it looks at does not follow its own increments. -/
def nvhostSyncptCpuIncr (c : NvhostCdma) : NvhostCdma :=
  if !c.clientManaged && nvhostSyncptMinEqMax c then c
  else {c with value := c.value+1, incrs := c.incrs+1}

def nopSlots : Nat → Nat → (Nat → UInt32) → Nat → UInt32
  | 0, _, pb => pb
  | nrSlots+1, getidx, pb =>
    nopSlots nrSlots ((getidx+8) &&& (4096-1)) -- PUSH_BUFFER_SIZE - 1
      (Function.update (Function.update pb getidx noop) (getidx+4) noop)

def ffs (w : UInt32) : Nat := ((List.range 32).find? fun i => w.toNat.testBit i).getD 0

def cdmaTimeoutCpuIncr (c : NvhostCdma) (getptr syncptIncrs syncval : UInt32) (nrSlots : Nat)
    (waitbases : UInt32) : NvhostCdma :=
  let c := nvhostSyncptUpdateMin (nvhostSyncptCpuIncr^[syncptIncrs.toNat] c)
  {c with
    -- the wait base follows, except for NVSYNCPT_2D_0
    baseVal := if c.syncptId ≠ 18 ∧ waitbases ≠ 0 then
        Function.update c.baseVal (ffs waitbases) syncval
      else c.baseVal
    pb := nopSlots nrSlots (getptr-c.pbPhys).toNat c.pb}

/-- `cdma_timeout_restart`: GET is loaded with `getptr`, PUT is where the push buffer ends. -/
def cdmaTimeoutRestart (c : NvhostCdma) (getptr : UInt32) : NvhostCdma :=
  if c.running then c
  else
    let put := c.pbPhys+c.pbCur
    {c with lastPut := put, dmaget := getptr, dmaput := put, running := true}

/-- `none` is the `BUG_ON`. -/
def cdmaTimeoutTeardownEnd (c : NvhostCdma) (getptr : UInt32) : Option NvhostCdma :=
  if !c.torndown || c.running then none
  else some (cdmaTimeoutRestart {c with torndown := false} getptr)

def skipCompleted (syncptVal : UInt32) : List NvhostJob → List NvhostJob
  | [] => []
  | job::rest => if syncptVal < job.syncptEnd then job::rest else skipCompleted syncptVal rest

/-- The second loop, from the cursor on: CPU increments as long as the context continues. It
returns the jobs as they are left in the queue. -/
def cpuIncrLoop (waitbases : UInt32) : List NvhostJob → UInt32 → NvhostCdma →
    List NvhostJob × NvhostCdma
  | [], _, c => ([],c)
  | job::rest, syncptVal, c =>
    if job.clientid ≠ c.timeoutClientid then (job::rest,c)
    else
      let syncptIncrs := job.syncptEnd-syncptVal
      let c := cdmaTimeoutCpuIncr c job.firstGet syncptIncrs job.syncptEnd job.numSlots waitbases
      let (rest,c) := cpuIncrLoop waitbases rest (syncptVal+syncptIncrs) c
      ({job with timeout := 0}::rest,c)

def getRestart (c : NvhostCdma) (cursor : List NvhostJob) : UInt32 :=
  if c.syncQueue = [] then c.lastPut
  else match cursor with
    | job::_ => job.firstGet
    | [] => c.headFirstGet

def nvhostCdmaUpdateSyncQueue (c : NvhostCdma) (waitbases : UInt32) : Option NvhostCdma :=
  let c := nvhostSyncptUpdateMin c
  let syncptVal := c.minVal
  let cursor := skipCompleted syncptVal c.syncQueue
  let restart := getRestart c cursor
  let done := c.syncQueue.take (c.syncQueue.length-cursor.length)
  let (cursor,c) := cpuIncrLoop waitbases cursor syncptVal c
  (cdmaTimeoutTeardownEnd {c with syncQueue := done++cursor} restart).map fun c =>
    {c with ctxTimedout := c.ctxTimedout.map fun _ => true}

open List Wrap

variable {c : NvhostCdma} {job : NvhostJob}

def pending (b : UInt32) (c : NvhostCdma) : List NvhostJob :=
  c.syncQueue.dropWhile fun job => decide (off b job.syncptEnd ≤ off b c.value)

def timedOutRun (c : NvhostCdma) (jobs : List NvhostJob) : List NvhostJob :=
  jobs.takeWhile fun job => decide (job.clientid = c.timeoutClientid)

def slotWords (phys : UInt32) (job : NvhostJob) : List Nat :=
  (List.range job.numSlots).flatMap fun k =>
    [((job.firstGet-phys).toNat+8*k)%4096,((job.firstGet-phys).toNat+8*k)%4096+4]

def restartAt (b : UInt32) (c : NvhostCdma) : UInt32 :=
  match pending b c with
  | job::_ => job.firstGet
  | [] => c.lastPut

/-- The channel `c'` is the channel `c` after the clean-up its comments describe. -/
structure Recovered (b : UInt32) (c c' : NvhostCdma) : Prop where
  restart : c'.dmaget = restartAt b c
  value : c'.value = ((timedOutRun c (pending b c)).getLast?.map NvhostJob.syncptEnd).getD c.value
  incrs : c'.incrs = c.incrs+(off b c'.value-off b c.value)
  nops : ∀ x, c'.pb x =
    if x ∈ (timedOutRun c (pending b c)).flatMap (slotWords c.pbPhys) then noop else c.pb x

/-- The channel as the timeout handler hands it over: torn down, and every queued job at
push-buffer slots. -/
structure TimedOut where
  cdma : NvhostCdma
  torndown : cdma.torndown = true
  stopped : cdma.running = false
  slots : ∀ job ∈ cdma.syncQueue, (job.firstGet-cdma.pbPhys).toNat < 4096

/-- The ends of the jobs increase along the queue, within half of the counter's range from
`b`; the syncpoint is not beyond the last of them, and they are not beyond its maximum. -/
structure InOrder (b : UInt32) (c : NvhostCdma) : Prop where
  sorted : c.syncQueue.Pairwise fun i j => off b i.syncptEnd ≤ off b j.syncptEnd
  span : ∀ job ∈ c.syncQueue, off b job.syncptEnd < 2147483648
  value : ∀ job ∈ c.syncQueue.getLast?, off b c.value ≤ off b job.syncptEnd
  max : ∀ job ∈ c.syncQueue, off b job.syncptEnd ≤ off b c.maxVal

def taken (c : NvhostCdma) : List NvhostJob := skipCompleted c.value c.syncQueue

/-- No completed job is ahead of the syncpoint as a plain number, the first job that is not completed is, and
there is such a job if there is any. -/
structure PlainOrder (b : UInt32) (c : NvhostCdma) : Prop where
  completed : ∀ job ∈ c.syncQueue, off b job.syncptEnd ≤ off b c.value → job.syncptEnd ≤ c.value
  first : ∀ job ∈ (pending b c).head?, c.value < job.syncptEnd
  left : c.syncQueue = [] ∨ pending b c ≠ []

/-- No two jobs start at the same address, nor where the push buffer ends or at what the head of the list
has for an address. -/
def Distinct (c : NvhostCdma) : Prop := (c.headFirstGet::c.lastPut::c.syncQueue.map NvhostJob.firstGet).Nodup

def lastEnd (v : UInt32) (run : List NvhostJob) : UInt32 :=
  (run.getLast?.map NvhostJob.syncptEnd).getD v

def missing : UInt32 → List NvhostJob → Nat
  | _, [] => 0
  | v, job::rest => (job.syncptEnd-v).toNat+missing job.syncptEnd rest

lemma lastEnd_cons (v : UInt32) (job : NvhostJob) (run : List NvhostJob) :
    lastEnd v (job::run) = lastEnd job.syncptEnd run := by
  cases run with
  | nil => rfl
  | cons j run =>
    rw [lastEnd,lastEnd,getLast?_cons_cons,getLast?_eq_some_getLast (by simp)]
    rfl

lemma cpuIncr_iterate (n : Nat) (c : NvhostCdma) (hroom : c.minVal = c.maxVal → n = 0) :
    nvhostSyncptCpuIncr^[n] c = {c with value := c.value+ofNat n, incrs := c.incrs+n} := by
  induction n generalizing c with
  | zero => simp
  | succ n ih =>
    have hne : c.minVal ≠ c.maxVal := fun heq => absurd (hroom heq) (by simp)
    have hone : nvhostSyncptCpuIncr c = {c with value := c.value+1, incrs := c.incrs+1} := by
      simp [nvhostSyncptCpuIncr,nvhostSyncptMinEqMax,hne]
    rw [Function.iterate_succ_apply,hone,ih]
    · congr 1
      · dsimp only
        rw [add_comm n 1,ofNat_add,UInt32.add_assoc]
        rfl
      · dsimp only
        omega
    · exact fun heq => absurd heq hne

lemma nopSlots_apply (n idx : Nat) (hidx : idx < 4096) (pb : Nat → UInt32) (x : Nat) : nopSlots n idx pb x =
      if x ∈ (List.range n).flatMap fun k => [(idx+8*k)%4096,(idx+8*k)%4096+4] then noop else pb x := by
  induction n generalizing idx pb with
  | zero => simp [nopSlots]
  | succ n ih =>
    have hmask : (idx+8) &&& (4096-1) = (idx+8)%4096 :=
      and_two_pow_sub_one_eq_mod (idx+8) 12
    have hshift : ∀ k, ((idx+8)%4096+8*k)%4096 = (idx+8*(k+1))%4096 := by
      intro k
      omega
    rw [nopSlots,hmask,ih _ (mod_lt _ (by omega)),range_succ_eq_map,flatMap_cons,flatMap_map]
    simp only [hshift,Nat.mul_zero,Nat.add_zero,mod_eq_of_lt hidx,mem_append,
      mem_cons,not_mem_nil,or_false,succ_eq_add_one]
    by_cases hrest : x ∈ (List.range n).flatMap fun k =>
        [(idx+8*(k+1))%4096,(idx+8*(k+1))%4096+4]
    · simp [hrest]
    by_cases h4 : x = idx+4
    · simp [h4]
    by_cases h0 : x = idx
    · subst h0
      simp [hrest]
    · simp [hrest,h0,h4]

structure Effects (v : UInt32) (run : List NvhostJob) (c c' : NvhostCdma) : Prop where
  value : c'.value = lastEnd v run
  incrs : c'.incrs = c.incrs+missing v run
  pb : ∀ x, c'.pb x = if x ∈ run.flatMap (slotWords c.pbPhys) then noop else c.pb x

structure Keeps (c c' : NvhostCdma) : Prop where
  pbPhys : c'.pbPhys = c.pbPhys
  maxVal : c'.maxVal = c.maxVal
  timeoutClientid : c'.timeoutClientid = c.timeoutClientid
  torndown : c'.torndown = c.torndown
  running : c'.running = c.running

lemma Keeps.trans {d e : NvhostCdma} (h : Keeps c d) (h' : Keeps d e) : Keeps c e :=
  ⟨h'.pbPhys.trans h.pbPhys,h'.maxVal.trans h.maxVal,h'.timeoutClientid.trans h.timeoutClientid,
    h'.torndown.trans h.torndown,h'.running.trans h.running⟩

lemma cpuIncr_keeps (n : Nat) (c : NvhostCdma) : Keeps c (nvhostSyncptCpuIncr^[n] c) := by
  induction n generalizing c with
  | zero => exact ⟨rfl,rfl,rfl,rfl,rfl⟩
  | succ n ih =>
    rw [Function.iterate_succ_apply]
    refine Keeps.trans ?_ (ih _)
    unfold nvhostSyncptCpuIncr
    split <;> exact ⟨rfl,rfl,rfl,rfl,rfl⟩

lemma cdmaTimeoutCpuIncr_keeps (c : NvhostCdma) (getptr syncptIncrs syncval : UInt32) (nrSlots : Nat)
    (waitbases : UInt32) : Keeps c (cdmaTimeoutCpuIncr c getptr syncptIncrs syncval nrSlots waitbases) :=
  (cpuIncr_keeps syncptIncrs.toNat c).trans ⟨rfl,rfl,rfl,rfl,rfl⟩

lemma cpuIncrLoop_keeps (waitbases : UInt32) (jobs : List NvhostJob) (v : UInt32) (c : NvhostCdma) :
    Keeps c (cpuIncrLoop waitbases jobs v c).2 := by
  induction jobs generalizing v c with
  | nil => exact ⟨rfl,rfl,rfl,rfl,rfl⟩
  | cons job rest ih =>
    unfold cpuIncrLoop
    split
    · exact ⟨rfl,rfl,rfl,rfl,rfl⟩
    · exact (cdmaTimeoutCpuIncr_keeps ..).trans (ih _ _)

lemma cdmaTimeoutCpuIncr_effects (waitbases : UInt32) (hmin : c.minVal = c.value)
    (hroom : c.value = c.maxVal → (job.syncptEnd-c.value).toNat = 0)
    (hslot : (job.firstGet-c.pbPhys).toNat < 4096) : Effects c.value [job] c
        (cdmaTimeoutCpuIncr c job.firstGet (job.syncptEnd-c.value) job.syncptEnd job.numSlots waitbases) ∧
      (cdmaTimeoutCpuIncr c job.firstGet (job.syncptEnd-c.value) job.syncptEnd job.numSlots waitbases).minVal =
        job.syncptEnd := by
  have hvalue : c.value+(job.syncptEnd-c.value) = job.syncptEnd := by
    rw [UInt32.add_comm,UInt32.sub_add_cancel]
  rw [cdmaTimeoutCpuIncr,cpuIncr_iterate _ c (by rwa [hmin]),UInt32.ofNat_toNat,hvalue]
  refine ⟨⟨rfl,rfl,fun x => ?_⟩,rfl⟩
  rw [flatMap_singleton,slotWords]
  exact nopSlots_apply _ _ hslot _ x

/-- The second loop works on the front jobs of the timed-out client. The maximum stops none of its increments,
since it is not before the end of a job. -/
theorem cpuIncrLoop_effects (b waitbases : UInt32) (jobs : List NvhostJob) (c : NvhostCdma)
    (hmin : c.minVal = c.value)
    (hslots : ∀ job ∈ jobs, (job.firstGet-c.pbPhys).toNat < 4096)
    (hsorted : jobs.Pairwise fun i j => off b i.syncptEnd ≤ off b j.syncptEnd)
    (hahead : ∀ job ∈ jobs, off b c.value ≤ off b job.syncptEnd)
    (hmax : ∀ job ∈ jobs, off b job.syncptEnd ≤ off b c.maxVal) :
    Effects c.value (timedOutRun c jobs) c (cpuIncrLoop waitbases jobs c.value c).2 := by
  induction jobs generalizing c with
  | nil => exact ⟨rfl,rfl,fun x => by simp [timedOutRun,cpuIncrLoop]⟩
  | cons job rest ih =>
    unfold cpuIncrLoop timedOutRun
    by_cases hclient : job.clientid = c.timeoutClientid
    · obtain ⟨hfirst,hrest⟩ := pairwise_cons.mp hsorted
      have hroom : c.value = c.maxVal → (job.syncptEnd-c.value).toNat = 0 := by
        intro heq
        have hle := hmax job mem_cons_self
        rw [sub_toNat (hahead job mem_cons_self)]
        rw [← heq] at hle
        omega
      obtain ⟨one,hmin'⟩ := cdmaTimeoutCpuIncr_effects waitbases hmin hroom (hslots job mem_cons_self)
      have same := cdmaTimeoutCpuIncr_keeps c job.firstGet (job.syncptEnd-c.value) job.syncptEnd job.numSlots
        waitbases
      rw [if_neg (not_not.mpr hclient),takeWhile_cons_of_pos (by simpa using hclient)]
      dsimp only
      generalize cdmaTimeoutCpuIncr c job.firstGet (job.syncptEnd-c.value) job.syncptEnd
        job.numSlots waitbases = d at *
      have hend : d.value = job.syncptEnd := one.value
      have later := ih d (hmin'.trans hend.symm) (fun j hj => by
        rw [same.pbPhys]
        exact hslots j (mem_cons_of_mem _ hj)) hrest (fun j hj => by
        rw [hend]
        exact hfirst j hj) fun j hj => by
        rw [same.maxVal]
        exact hmax j (mem_cons_of_mem _ hj)
      rw [UInt32.add_comm,UInt32.sub_add_cancel,← hend]
      rw [timedOutRun,same.timeoutClientid] at later
      refine ⟨?_,?_,fun x => ?_⟩
      · rw [later.value,lastEnd_cons,hend]
      · rw [later.incrs,one.incrs]
        simp only [missing,hend]
        omega
      · rw [later.pb x,one.pb x,same.pbPhys]
        split <;> split <;> simp_all
    · rw [if_pos hclient,takeWhile_cons_of_neg (by simpa using hclient)]
      exact ⟨rfl,rfl,fun x => by simp⟩

lemma skipCompleted_eq (v : UInt32) (jobs : List NvhostJob) :
    skipCompleted v jobs = jobs.dropWhile fun job => !decide (v < job.syncptEnd) := by
  induction jobs with
  | nil => rfl
  | cons job rest ih =>
    unfold skipCompleted
    split
    · next h => rw [dropWhile_cons_of_neg (by simp [h])]
    · next h =>
      rw [ih,dropWhile_cons_of_pos (by simp [h])]

lemma taken_suffix (c : NvhostCdma) : taken c <:+ c.syncQueue := by
  rw [taken,skipCompleted_eq]
  exact dropWhile_suffix _

lemma pending_suffix (b : UInt32) (c : NvhostCdma) : pending b c <:+ c.syncQueue :=
  dropWhile_suffix _

lemma nvhostCdmaUpdateSyncQueue_spec (t : TimedOut) (waitbases : UInt32) :
    ∃ c' d, nvhostCdmaUpdateSyncQueue t.cdma waitbases = some c' ∧ c'.dmaget = getRestart t.cdma (taken t.cdma) ∧
      d = (cpuIncrLoop waitbases (taken t.cdma) t.cdma.value (nvhostSyncptUpdateMin t.cdma)).2 ∧
      c'.value = d.value ∧ c'.incrs = d.incrs ∧ c'.pb = d.pb := by
  have same := cpuIncrLoop_keeps waitbases (taken t.cdma) t.cdma.value (nvhostSyncptUpdateMin t.cdma)
  rcases hloop : cpuIncrLoop waitbases (taken t.cdma) t.cdma.value (nvhostSyncptUpdateMin t.cdma) with ⟨cursor,d⟩
  rw [hloop] at same
  have htorn : d.torndown = true := same.torndown.trans t.torndown
  have hstop : d.running = false := same.running.trans t.stopped
  have hend : ∀ queue getptr, cdmaTimeoutTeardownEnd {d with syncQueue := queue} getptr =
      some {d with syncQueue := queue, torndown := false, lastPut := d.pbPhys+d.pbCur, dmaget := getptr,
                   dmaput := d.pbPhys+d.pbCur, running := true} := by
    intro queue getptr
    simp [cdmaTimeoutTeardownEnd,cdmaTimeoutRestart,htorn,hstop]
  unfold nvhostCdmaUpdateSyncQueue
  dsimp only
  rw [show cpuIncrLoop waitbases (skipCompleted (nvhostSyncptUpdateMin t.cdma).minVal
    (nvhostSyncptUpdateMin t.cdma).syncQueue) (nvhostSyncptUpdateMin t.cdma).minVal
    (nvhostSyncptUpdateMin t.cdma) = (cursor,d) from hloop]
  dsimp only
  rw [hend]
  exact ⟨_,d,rfl,rfl,rfl,rfl,rfl,rfl⟩

section Order
variable {b : UInt32} (h : InOrder b c)
include h

lemma InOrder.pending_ahead : ∀ job ∈ pending b c, off b c.value < off b job.syncptEnd := by
  intro job hjob
  have hsorted := h.sorted.sublist (pending_suffix b c).sublist
  rcases hp : pending b c with _ | ⟨first,rest⟩
  · rw [hp] at hjob; cases hjob
  have hfirst : off b c.value < off b first.syncptEnd := by
    have hhead := head?_dropWhile_not
      (fun job : NvhostJob => decide (off b job.syncptEnd ≤ off b c.value)) c.syncQueue
    rw [pending] at hp
    rw [hp] at hhead
    simpa using hhead
  rw [hp] at hjob hsorted
  rcases mem_cons.mp hjob with rfl | hjob
  · exact hfirst
  have := (pairwise_cons.mp hsorted).1 job hjob
  omega

omit h in
lemma missing_eq (run : List NvhostJob) (v : UInt32)
    (hsorted : run.Pairwise fun i j => off b i.syncptEnd ≤ off b j.syncptEnd)
    (hahead : ∀ job ∈ run, off b v ≤ off b job.syncptEnd) :
    off b v ≤ off b (lastEnd v run) ∧ missing v run = off b (lastEnd v run)-off b v := by
  induction run generalizing v with
  | nil => exact ⟨le_rfl,(Nat.sub_self _).symm⟩
  | cons job rest ih =>
    obtain ⟨hfirst,hrest⟩ := pairwise_cons.mp hsorted
    obtain ⟨hle,heq⟩ := ih job.syncptEnd hrest hfirst
    have hv := hahead job mem_cons_self
    rw [lastEnd_cons,missing,sub_toNat hv,heq]
    omega

end Order

lemma taken_head {rest : List NvhostJob} (h : taken c = job::rest) : c.value < job.syncptEnd := by
  rw [taken,skipCompleted_eq] at h
  have hhead := head?_dropWhile_not (fun job : NvhostJob => !decide (c.value < job.syncptEnd)) c.syncQueue
  rw [h] at hhead
  simpa using hhead

lemma mem_taken (hjob : job ∈ c.syncQueue) (hlt : c.value < job.syncptEnd) : job ∈ taken c := by
  rw [taken,skipCompleted_eq]
  rw [← takeWhile_append_dropWhile (p := fun job : NvhostJob => !decide (c.value < job.syncptEnd)) (l := c.syncQueue),
    mem_append] at hjob
  refine hjob.resolve_left fun hskip => ?_
  have hdone := mem_takeWhile_imp hskip
  simp [hlt] at hdone

lemma suffix_unique {jobs rest rest' : List NvhostJob} {job' : NvhostJob}
    (hnd : (jobs.map NvhostJob.firstGet).Nodup) (h : job::rest <:+ jobs)
    (h' : job'::rest' <:+ jobs) (heq : job.firstGet = job'.firstGet) : job::rest = job'::rest' := by
  have key {l l' : List NvhostJob} {x x' : NvhostJob} (hs : x::l <:+ x'::l')
      (hnd : ((x'::l').map NvhostJob.firstGet).Nodup) (hx : x.firstGet = x'.firstGet) :
      x::l = x'::l' := by
    rcases suffix_cons_iff.mp hs with hs | hs
    · exact hs
    have hmem : x.firstGet ∈ l'.map NvhostJob.firstGet :=
      mem_map_of_mem (hs.subset mem_cons_self)
    rw [map_cons,nodup_cons,← hx] at hnd
    exact absurd hmem hnd.1
  rcases suffix_or_suffix_of_suffix h h' with hs | hs
  · exact key hs (hnd.sublist (h'.sublist.map _)) heq
  · exact (key hs (hnd.sublist (h.sublist.map _)) heq.symm).symm

lemma PlainOrder.taken_eq {b : UInt32} (h : PlainOrder b c) : taken c = pending b c := by
  have key : ∀ jobs : List NvhostJob,
      (∀ job ∈ jobs, off b job.syncptEnd ≤ off b c.value → job.syncptEnd ≤ c.value) →
      (∀ job ∈ (jobs.dropWhile fun job => decide (off b job.syncptEnd ≤ off b c.value)).head?,
        c.value < job.syncptEnd) →
      skipCompleted c.value jobs = jobs.dropWhile fun job => decide (off b job.syncptEnd ≤ off b c.value) := by
    intro jobs
    induction jobs with
    | nil => intros; rfl
    | cons job rest ih =>
      intro hcompleted hfirst
      unfold skipCompleted
      by_cases hdone : off b job.syncptEnd ≤ off b c.value
      · have hle := hcompleted job mem_cons_self hdone
        rw [dropWhile_cons_of_pos (by simpa using hdone)] at hfirst ⊢
        rw [if_neg (UInt32.not_lt.mpr hle)]
        exact ih (fun j hj => hcompleted j (mem_cons_of_mem _ hj)) hfirst
      · rw [dropWhile_cons_of_neg (by simpa using hdone)] at hfirst ⊢
        rw [if_pos (hfirst job rfl)]
  exact key c.syncQueue h.completed h.first

lemma PlainOrder.restart {b : UInt32} (h : PlainOrder b c) : getRestart c (taken c) = restartAt b c := by
  rw [h.taken_eq]
  unfold getRestart restartAt
  rcases hpend : pending b c with _ | ⟨job,rest⟩
  · rw [if_pos (h.left.resolve_right (not_not.mpr hpend))]
  · have hne : c.syncQueue ≠ [] := by
      intro hnil
      rw [pending,hnil] at hpend
      cases hpend
    rw [if_neg hne]

/-- With addresses that are told apart the restart is right only if the right jobs were skipped. -/
lemma InOrder.plainOrder {b : UInt32} (h : InOrder b c) (hdistinct : Distinct c)
    (hrestart : getRestart c (taken c) = restartAt b c) : PlainOrder b c := by
  obtain ⟨hhead,hput⟩ := nodup_cons.mp hdistinct
  obtain ⟨hlast,hnd⟩ := nodup_cons.mp hput
  by_cases hnil : c.syncQueue = []
  · have hnone : pending b c = [] := by rw [pending,hnil,dropWhile_nil]
    exact ⟨by simp [hnil],by simp [hnone],.inl hnil⟩
  unfold getRestart restartAt at hrestart
  rw [if_neg hnil] at hrestart
  rcases htaken : taken c with _ | ⟨job,rest⟩
  · rw [htaken] at hrestart
    rcases hpend : pending b c with _ | ⟨job',rest'⟩
    · rw [hpend] at hrestart
      exact absurd (mem_cons.mpr (.inl hrestart)) hhead
    · rw [hpend] at hrestart
      have hmem : job' ∈ c.syncQueue := (pending_suffix b c).subset (hpend ▸ mem_cons_self)
      exact absurd (mem_cons_of_mem _ (mem_map.mpr ⟨job',hmem,hrestart.symm⟩)) hhead
  rw [htaken] at hrestart
  have hsuf : job::rest <:+ c.syncQueue := htaken ▸ taken_suffix c
  rcases hpend : pending b c with _ | ⟨job',rest'⟩
  · rw [hpend] at hrestart
    exact absurd (mem_map.mpr ⟨job,hsuf.subset mem_cons_self,hrestart⟩) hlast
  rw [hpend] at hrestart
  have hsame : taken c = pending b c := by
    rw [htaken,hpend]
    exact suffix_unique hnd hsuf (hpend ▸ pending_suffix b c) hrestart
  refine ⟨?_,?_,.inr (by simp [hpend])⟩
  · intro x hx hdone
    -- a completed job is not among the pending ones, so it was skipped
    by_contra hlt
    have hx' := mem_taken hx (UInt32.not_le.mp hlt)
    rw [hsame] at hx'
    have := h.pending_ahead x hx'
    omega
  · intro x hx
    rw [← hsame,htaken] at hx
    cases hx
    exact taken_head htaken

/-- The clean-up recovers the channel if the plain comparison of the counters agrees with their order and a job is
left, and, where the addresses of the jobs are told apart, only then. -/
theorem nvhostCdmaUpdateSyncQueue_recovers (t : TimedOut) (b : UInt32) (h : InOrder b t.cdma)
    (waitbases : UInt32) : ∃ c', nvhostCdmaUpdateSyncQueue t.cdma waitbases = some c' ∧
      (PlainOrder b t.cdma → Recovered b t.cdma c') ∧
      (Distinct t.cdma → Recovered b t.cdma c' → PlainOrder b t.cdma) := by
  obtain ⟨c',d,hrun,hrestart,hd,hvalue,hincrs,hpb⟩ := nvhostCdmaUpdateSyncQueue_spec t waitbases
  refine ⟨c',hrun,fun hplain => ?_,fun hdistinct hrec => ?_⟩
  · have hsuf := pending_suffix b t.cdma
    have hsorted := h.sorted.sublist hsuf.sublist
    have loop := cpuIncrLoop_effects b waitbases (pending b t.cdma) (nvhostSyncptUpdateMin t.cdma) rfl
      (fun job hjob => t.slots job (hsuf.subset hjob)) hsorted (fun job hjob => (h.pending_ahead job hjob).le)
      fun job hjob => h.max job (hsuf.subset hjob)
    have hsub : (timedOutRun t.cdma (pending b t.cdma)).Sublist (pending b t.cdma) := takeWhile_sublist _
    obtain ⟨_,hmissing⟩ := missing_eq _ t.cdma.value (hsorted.sublist hsub) fun job hjob =>
      (h.pending_ahead job (hsub.subset hjob)).le
    rw [hplain.taken_eq] at hd
    have hvalue' : c'.value = lastEnd t.cdma.value (timedOutRun t.cdma (pending b t.cdma)) := by
      rw [hvalue,hd]
      exact loop.value
    refine ⟨hrestart.trans hplain.restart,hvalue',?_,fun x => ?_⟩
    · rw [hincrs,hd,hvalue',← hmissing]
      exact loop.incrs
    · rw [hpb,hd]
      exact loop.pb x
  · exact h.plainOrder hdistinct (hrestart.symm.trans hrec.restart)

def sampleChannel : TimedOut where
  cdma := {
    lastPut := 32, syncQueue := [⟨7,3,0,1,100⟩,⟨7,5,8,2,100⟩,⟨9,6,24,1,100⟩], headFirstGet := 0x1000,
    timeoutClientid := 7, ctxTimedout := some false, syncptId := 1, value := 4, minVal := 0, maxVal := 0x10,
    clientManaged := false, incrs := 0, baseVal := fun _ => 0, pbPhys := 0, pbCur := 32, pb := fun _ => 0,
    torndown := true, running := false, dmaget := 0, dmaput := 0}
  torndown := rfl
  stopped := rfl
  slots := by decide

theorem sampleChannel_recovers : ∃ c', nvhostCdmaUpdateSyncQueue sampleChannel.cdma 0 = some c' ∧
      Recovered 0 sampleChannel.cdma c' := by
  have horder : InOrder 0 sampleChannel.cdma := ⟨by decide,by decide,by decide,by decide⟩
  obtain ⟨c',hrun,hif,-⟩ := nvhostCdmaUpdateSyncQueue_recovers sampleChannel 0 horder 0
  exact ⟨c',hrun,hif ⟨by decide,by decide,by decide⟩⟩

def wrappedChannel : TimedOut where
  cdma := {sampleChannel.cdma with
    syncQueue := [⟨7,0x10,0,1,100⟩], value := 0xFFFFFFF8}
  torndown := rfl
  stopped := rfl
  slots := by decide

def completedChannel : TimedOut where
  cdma := {sampleChannel.cdma with
    syncQueue := [⟨7,4,0,1,100⟩]}
  torndown := rfl
  stopped := rfl
  slots := by decide

/-- The wrapped job is taken for completed and gets no increments; and with all jobs
completed the DMA is restarted at what the list head holds in place of a job. -/
theorem cleanup_not_recovered : (InOrder 0xFFFFFFF0 wrappedChannel.cdma ∧
      ∃ c', nvhostCdmaUpdateSyncQueue wrappedChannel.cdma 0 = some c' ∧
        ¬Recovered 0xFFFFFFF0 wrappedChannel.cdma c') ∧ InOrder 0 completedChannel.cdma ∧
      ∃ c', nvhostCdmaUpdateSyncQueue completedChannel.cdma 0 = some c' ∧ ¬Recovered 0 completedChannel.cdma c' := by
  refine ⟨⟨⟨by decide,by decide,by decide,by decide⟩,_,rfl,fun hrec => ?_⟩,
    ⟨by decide,by decide,by decide,by decide⟩,_,rfl,fun hrec => ?_⟩
  · exact absurd hrec.value (by decide)
  · exact absurd hrec.restart (by decide)

end LinuxToradex.Nvhost
