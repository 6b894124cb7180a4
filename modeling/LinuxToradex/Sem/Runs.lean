import LinuxToradex.Sem.Update

/-! Over every history of the calls on one array: after each call, no operation that is left in the queue
could complete. -/
namespace LinuxToradex.Sem
open List Function

namespace Arr

variable {s s' : Arr}

def AllSleep (s : Arr) : Prop := ∀ q ∈ s.pending, s.Sleeps q

def Settled (s : Arr) (m : Nat) : Prop := ∀ q ∈ s.pending, q.onSem m = true → s.Sleeps q

/-- The operation makes `do_smart_update` search the queue of the semaphore. -/
def Triggers (s : Arr) (m : Nat) (sop : Sembuf) : Prop :=
  sop.num = m ∧ (0 < sop.op ∨ (sop.op < 0 ∧ s.semval m = 0))

lemma Settled.of_scanned {m n : Nat} {pass : Pass} (h : s.Settled m) (hspec : Scanned (some n) s pass)
    (hne : m ≠ n) : pass.arr.Settled m := by
  intro q hq hon
  obtain ⟨hone,hnum⟩ := Entry.onSem_iff.mp hon
  have hsleeps := h q (hspec.sublist.subset hq) hon
  rw [sleeps_single hone] at hsleeps ⊢
  rw [hnum,hspec.frame n rfl m hne]
  rwa [hnum] at hsleeps

lemma smartLoop_spec (sops : List Sembuf) (hinv : s.Inv) (hcount : s.complexCount = 0)
    (h : ∀ m, s.Settled m ∨ ∃ sop ∈ sops, s.Triggers m sop) :
    ∃ pass, smartLoop sops s = some pass ∧ pass.arr.Inv ∧ pass.arr.AllSleep := by
  induction sops generalizing s with
  | nil =>
    refine ⟨_,rfl,hinv,?_⟩
    intro q hq
    have hone := hinv.all_single hcount hq
    rcases h q.num with hset | ⟨sop,hsop,-⟩
    · exact hset q hq (Entry.onSem_iff.mpr ⟨hone,rfl⟩)
    · exact absurd hsop not_mem_nil
  | cons sop rest ih =>
    rw [smartLoop]
    split
    · next htrigger =>
      obtain ⟨pass,hpass,hr,hspec⟩ := passes_spec (some sop.num) _ hinv (fun _ => hcount) (Nat.lt_succ_self _)
      rw [updateQueue,if_neg (by rw [hcount]; simp),hpass]
      dsimp only
      have hnext : ∀ m, pass.arr.Settled m ∨ ∃ sop ∈ rest, pass.arr.Triggers m sop := by
        intro m
        by_cases hm : m = sop.num
        · subst hm
          exact .inl fun q hq hon => hspec.sleeps hr q hq hon
        rcases h m with hset | ⟨t,ht,hnum,hop⟩
        · exact .inl (hset.of_scanned hspec hm)
        rcases mem_cons.mp ht with rfl | ht
        · exact absurd hnum.symm hm
        refine .inr ⟨t,ht,hnum,?_⟩
        rw [hspec.frame sop.num rfl m hm]
        exact hop
      obtain ⟨next,hrest,hgood,hsleep⟩ :=
        ih hspec.inv (hinv.complex_of_sublist hspec.inv hspec.sublist hcount) hnext
      rw [hrest]
      exact ⟨_,rfl,hgood,hsleep⟩
    next htrigger =>
    apply ih hinv hcount
    intro m
    rcases h m with hset | ⟨t,ht,hnum,hop⟩
    · exact .inl hset
    rcases mem_cons.mp ht with rfl | ht
    · subst hnum
      exact absurd hop htrigger
    · exact .inr ⟨t,ht,hnum,hop⟩

lemma sum_le_zero {l : List Int} (h : ∀ x ∈ l, x ≤ 0) : l.sum ≤ 0 := by
  induction l with
  | nil => exact Int.le_refl 0
  | cons x l ih =>
    have hx := h x mem_cons_self
    have hl := ih fun y hy => h y (mem_cons_of_mem x hy)
    rw [sum_cons]
    omega

variable {sops : List Sembuf} {q : Entry}

/-- After operations have been performed on an array on which all others sleep: a semaphore on which
one of them could complete now is searched. -/
theorem settled_or_triggers {v : Nat → Int} (hsleep : s.AllSleep)
    (hpending : s'.pending = s.pending) (hval : s'.semval = v)
    (hv : ∀ m, v m = s.semval m+((sops.filter fun sop => decide (sop.num = m)).map
      Sembuf.op).sum) (m : Nat) : s'.Settled m ∨ ∃ sop ∈ sops, s'.Triggers m sop := by
  by_cases hup : ∃ sop ∈ sops, sop.num = m ∧ 0 < sop.op
  · obtain ⟨sop,hsop,hnum,hop⟩ := hup
    exact .inr ⟨sop,hsop,hnum,.inl hop⟩
  have hdown : ∀ sop ∈ sops.filter fun sop => decide (sop.num = m), sop.op ≤ 0 := by
    intro sop hsop
    rw [mem_filter,decide_eq_true_iff] at hsop
    by_contra hgt
    exact hup ⟨sop,hsop.1,hsop.2,by omega⟩
  have hle : ((sops.filter fun sop => decide (sop.num = m)).map Sembuf.op).sum ≤ 0 := by
    apply sum_le_zero
    intro x hx
    obtain ⟨sop,hsop,rfl⟩ := mem_map.mp hx
    exact hdown sop hsop
  by_cases hdec : ∃ sop ∈ sops, sop.num = m ∧ sop.op < 0 ∧ v m = 0
  · obtain ⟨sop,hsop,hnum,hop,hzero⟩ := hdec
    exact .inr ⟨sop,hsop,hnum,.inr ⟨hop,by rw [hval]; exact hzero⟩⟩
  -- the value has not grown, and if it has become zero no operation has changed it
  left
  intro q hq hon
  rw [hpending] at hq
  obtain ⟨hone,hnum⟩ := Entry.onSem_iff.mp hon
  have hold := hsleep q hq
  rw [sleeps_single hone,hnum] at hold ⊢
  obtain ⟨hblocks,hnowait⟩ := hold
  refine ⟨?_,hnowait⟩
  rw [hval]
  have hvm := hv m
  rcases hblocks with ⟨hop,hne⟩ | hneg
  · by_cases hzero : v m = 0
    · have hsum : ((sops.filter fun sop => decide (sop.num = m)).map Sembuf.op).sum = 0 := by
        apply sum_eq_zero
        intro x hx
        obtain ⟨sop,hsop,rfl⟩ := mem_map.mp hx
        have hnonpos := hdown sop hsop
        rw [mem_filter,decide_eq_true_iff] at hsop
        by_contra hne'
        exact hdec ⟨sop,hsop.1,hsop.2,by omega,hzero⟩
      exact absurd (by omega) hne
    · exact .inl ⟨hop,hzero⟩
  · exact .inr (by omega)

structure Quiet (s : Arr) : Prop where
  inv : s.Inv
  sleep : s.AllSleep

lemma Quiet.otime (h : s.Quiet) (now : Nat) : ({s with otime := now} : Arr).Quiet := by
  refine ⟨h.inv.congr rfl rfl rfl h.inv.nonneg h.inv.short,?_⟩
  intro q hq
  have hsame : ({s with otime := now} : Arr).Sleeps q ↔ s.Sleeps q := by
    apply sleeps_congr
    · rfl
    · rfl
  exact hsame.mpr (h.sleep q hq)

lemma doSmartUpdate_all (hinv : s.Inv) (otime : Bool) (now : Nat) :
    ∃ r, s.doSmartUpdate none otime now = some r ∧ r.1.Quiet := by
  obtain ⟨pass,hpass,hgood,hsleep⟩ := updateQueue_all hinv
  unfold doSmartUpdate
  rw [hpass]
  exact ⟨_,rfl,Quiet.otime ⟨hgood,hsleep⟩ _⟩

lemma doSmartUpdate_change {s0 : Arr} (hinv : s0.Inv) (hpending : s.pending = s0.pending)
    (hsimple : s.simple = s0.simple) (hcomplex : s.complexCount = s0.complexCount) (hnonneg : ∀ m, 0 ≤ s.semval m)
    (hshort : ∀ u m, -32768 ≤ s.semadj u m ∧ s.semadj u m ≤ 32767) (otime : Bool) (now : Nat) :
    ∃ code r woken, ((s.doSmartUpdate none otime now).map fun p => ((0 : Int),p.1,p.2)) =
      some (code,r,woken) ∧ r.Quiet := by
  obtain ⟨r,hr,hquiet⟩ :=
    doSmartUpdate_all (hinv.congr hpending hsimple hcomplex hnonneg hshort) otime now
  rw [hr]
  exact ⟨0,r.1,r.2,rfl,hquiet⟩

lemma doSmartUpdate_sops {un : Option Nat} {pid : Int} (h : s.Quiet)
    (hok : (s.tryAtomicSemop sops un pid).1 = 0) (now : Nat) :
    ∃ r, (s.tryAtomicSemop sops un pid).2.doSmartUpdate (some sops) true now = some r ∧ r.1.Quiet := by
  rw [tryAtomicSemop_ok hok]
  rw [tryAtomicSemop_code] at hok
  have hperf := perform_spec (s.adjOf un) [] sops s.semval
  have hbook := book_booked pid un sops.reverse {s with semval := (perform (s.adjOf un) [] sops s.semval).2}
  have hinv := h.inv.congr hbook.pending hbook.simple hbook.complexCount
    (by rw [hbook.semval]; exact hperf.nonneg hok h.inv.nonneg) (hbook.short h.inv.short)
  unfold doSmartUpdate
  dsimp only
  by_cases hcount : (book pid un sops.reverse
      {s with semval := (perform (s.adjOf un) [] sops s.semval).2}).complexCount ≠ 0
  · obtain ⟨pass,hpass,hgood,hsleep⟩ := updateQueue_all hinv
    rw [if_pos hcount,hpass]
    exact ⟨_,rfl,Quiet.otime ⟨hgood,hsleep⟩ _⟩
  obtain ⟨pass,hpass,hgood,hsleep⟩ := smartLoop_spec sops hinv (not_not.mp hcount)
    (settled_or_triggers h.sleep hbook.pending hbook.semval (hperf.values hok))
  rw [if_neg hcount,hpass]
  exact ⟨_,rfl,Quiet.otime ⟨hgood,hsleep⟩ _⟩

lemma enqueue_pending (s : Arr) (q : Entry) :
    (s.enqueue q).pending = if q.alter then s.pending++[q] else q::s.pending := by
  unfold enqueue
  dsimp only
  split <;> rfl

lemma mem_enqueue {p : Entry} : p ∈ (s.enqueue q).pending ↔ p ∈ s.pending ∨ p = q := by
  rw [enqueue_pending]
  split
  · simp
  · simp [or_comm]

lemma enqueue_semval (s : Arr) (q : Entry) : (s.enqueue q).semval = s.semval := by
  unfold enqueue
  dsimp only
  split <;> rfl

lemma enqueue_semadj (s : Arr) (q : Entry) : (s.enqueue q).semadj = s.semadj := by
  unfold enqueue
  dsimp only
  split <;> rfl

lemma Inv.enqueue (h : s.Inv) (hid : q.id ∉ s.pending.map Entry.id) (hne : q.sops ≠ [])
    (halter : q.alter = q.sops.any fun sop => decide (sop.op ≠ 0))
    (hsingle : q.sops.length = 1 → q.first.op ≤ 0 ∧ q.first.nowait = false) : (s.enqueue q).Inv := by
  have hall : ∀ P : Entry → Prop, (∀ p ∈ s.pending, P p) → P q → ∀ p ∈ (s.enqueue q).pending, P p := by
    intro P hold hnew p hp
    rcases mem_enqueue.mp hp with hp | rfl
    · exact hold p hp
    · exact hnew
  have hfilter : ∀ f : Entry → Bool, (s.enqueue q).pending.filter f =
      if f q then (if q.alter then s.pending.filter f++[q] else q::s.pending.filter f)
        else s.pending.filter f := by
    intro f
    rw [enqueue_pending]
    by_cases hf : f q = true
    · rw [if_pos hf]
      split
      · rw [filter_append,filter_cons_of_pos hf,filter_nil]
      · rw [filter_cons_of_pos hf]
    rw [if_neg hf]
    split
    · rw [filter_append,filter_cons_of_neg hf,filter_nil,append_nil]
    · rw [filter_cons_of_neg hf]
  constructor
  · intro m
    rw [hfilter,← h.simple m]
    unfold Arr.enqueue
    by_cases hone : q.sops.length = 1
    · rw [if_pos hone]
      dsimp only
      by_cases hm : q.num = m
      · subst hm
        rw [update_self,if_pos (Entry.onSem_iff.mpr ⟨hone,rfl⟩)]
      · rw [update_of_ne (Ne.symm hm),if_neg fun hon => hm (Entry.onSem_iff.mp hon).2]
    · rw [if_neg hone,if_neg fun hon => hone (Entry.onSem_iff.mp hon).1]
  · rw [hfilter]
    unfold Arr.enqueue
    by_cases hone : q.sops.length = 1
    · have hnot : ¬(decide (q.sops.length ≠ 1) = true) := by simpa using hone
      rw [if_pos hone,if_neg hnot]
      exact h.complex
    have hlong : decide (q.sops.length ≠ 1) = true := by simpa using hone
    rw [if_neg hone,if_pos hlong]
    rw [h.complex]
    split <;> simp
  · have hperm : ((s.enqueue q).pending.map Entry.id).Perm (q.id::s.pending.map Entry.id) := by
      rw [enqueue_pending]
      split
      · rw [map_append]
        exact perm_append_singleton _ _
      · rfl
    rw [hperm.nodup_iff]
    exact nodup_cons.mpr ⟨hid,h.ids⟩
  · exact hall _ h.nonempty hne
  · exact hall _ h.alter halter
  · exact hall _ h.single hsingle
  · rw [enqueue_pending]
    split
    · rename_i ha
      rw [pairwise_append]
      refine ⟨h.order,pairwise_singleton _ _,?_⟩
      intro x _ y hy hya
      rw [mem_singleton.mp hy,ha] at hya
      cases hya
    rename_i ha
    exact pairwise_cons.mpr ⟨fun _ _ _ => by simpa using ha,h.order⟩
  · rw [enqueue_semval]
    exact h.nonneg
  rw [enqueue_semadj]
  exact h.short

lemma Quiet.enqueue (h : s.Quiet) (hid : q.id ∉ s.pending.map Entry.id) (hne : q.sops ≠ [])
    (halter : q.alter = q.sops.any fun sop => decide (sop.op ≠ 0)) (hsleeps : s.Sleeps q) : (s.enqueue q).Quiet := by
  constructor
  · apply h.inv.enqueue hid hne halter
    intro hone
    rw [sleeps_single hone] at hsleeps
    have hnonneg := h.inv.nonneg q.num
    refine ⟨?_,hsleeps.2⟩
    rcases hsleeps.1 with ⟨hop,-⟩ | hneg
    · omega
    · omega
  intro p hp
  rw [sleeps_congr (enqueue_semval s q) (enqueue_semadj s q)]
  rcases mem_enqueue.mp hp with hp | rfl
  · exact h.sleep p hp
  · exact hsleeps

lemma Quiet.waited {un : Option Nat} {pid : Int} (h : s.Quiet) (hops : ∀ sop ∈ sops, sop.op = 0)
    (hok : (s.tryAtomicSemop sops un pid).1 = 0) : (s.tryAtomicSemop sops un pid).2.Quiet := by
  rw [tryAtomicSemop_ok hok]
  rw [tryAtomicSemop_code] at hok
  have hperf := perform_spec (s.adjOf un) [] sops s.semval
  have hsame : (perform (s.adjOf un) [] sops s.semval).2 = s.semval := by
    funext m
    have hsum : ((sops.filter fun sop => decide (sop.num = m)).map Sembuf.op).sum = 0 := by
      apply sum_eq_zero
      intro x hx
      obtain ⟨sop,hsop,rfl⟩ := mem_map.mp hx
      exact hops sop (mem_filter.mp hsop).1
    rw [hperf.values hok m,hsum,Int.add_zero]
  rw [hsame]
  have hbook := book_booked pid un sops.reverse s
  have hadj := book_semadj pid un sops.reverse s (fun sop hsop => hops sop (mem_reverse.mp hsop)) h.inv.short
  constructor
  · apply h.inv.congr hbook.pending hbook.simple hbook.complexCount
    · rw [hbook.semval]
      exact h.inv.nonneg
    rw [hadj]
    exact h.inv.short
  intro q hq
  rw [hbook.pending] at hq
  exact (sleeps_congr hbook.semval hadj q).mpr (h.sleep q hq)

/-- `sys_semtimedop`. -/
theorem semop_quiet {id : Nat} (un : Nat) (pid : Int) (now : Nat) (h : s.Quiet) (hid : id ∉ s.pending.map Entry.id) :
    ∃ code r woken, s.semop id sops un pid now = some (code,r,woken) ∧ r.Quiet := by
  unfold semop
  dsimp only
  split
  · next hnone => exact ⟨_,_,_,rfl,h⟩
  next hnone =>
  split
  · next hbig => exact ⟨_,_,_,rfl,h⟩
  next hbig =>
  generalize (if sops.any Sembuf.undo = true then some un else none) = undo
  by_cases hle : (s.tryAtomicSemop sops undo pid).1 ≤ 0
  · rw [if_pos hle]
    by_cases hok : (sops.any fun sop => decide (sop.op ≠ 0)) = true ∧ (s.tryAtomicSemop sops undo pid).1 = 0
    · obtain ⟨r,hr,hquiet⟩ := doSmartUpdate_sops h hok.2 now
      rw [if_pos hok,hr]
      exact ⟨_,_,_,rfl,hquiet⟩
    rw [if_neg hok]
    refine ⟨_,_,_,rfl,?_⟩
    by_cases hzero : (s.tryAtomicSemop sops undo pid).1 = 0
    · -- operations that only wait for zero have changed nothing but the pids
      have hops : ∀ sop ∈ sops, sop.op = 0 := by
        intro sop hsop
        by_contra hne
        exact hok ⟨any_eq_true.mpr ⟨sop,hsop,decide_eq_true hne⟩,hzero⟩
      exact h.waited hops hzero
    rw [tryAtomicSemop_failed hzero]
    exact h
  have hone := tryAtomicSemop_pos (Int.not_le.mp hle)
  rw [if_neg hle,tryAtomicSemop_failed (by omega)]
  refine ⟨_,_,_,rfl,?_⟩
  apply h.enqueue hid
  · rintro rfl
    exact hnone (by simp)
  · rfl
  · exact hone

lemma setval_quiet (m : Nat) (val pid : Int) (now : Nat) (h : s.Quiet) :
    ∃ code r woken, s.setval m val pid now = some (code,r,woken) ∧ r.Quiet := by
  unfold setval
  split
  · next hm => exact ⟨_,_,_,rfl,h⟩
  next hm =>
  split
  · next hval => exact ⟨_,_,_,rfl,h⟩
  next hval =>
  apply doSmartUpdate_change h.inv
  · rfl
  · rfl
  · rfl
  · intro n
    dsimp only
    by_cases hn : n = m
    · rw [hn,update_self]
      omega
    rw [update_of_ne hn]
    exact h.inv.nonneg n
  intro u n
  dsimp only
  by_cases hn : n = m
  · rw [hn,update_self]
    decide
  rw [update_of_ne hn]
  exact h.inv.short u n

lemma setall_quiet (vals : Nat → Nat) (now : Nat) (h : s.Quiet) :
    ∃ code r woken, s.setall vals now = some (code,r,woken) ∧ r.Quiet := by
  unfold setall
  split
  · exact ⟨_,_,_,rfl,h⟩
  apply doSmartUpdate_change h.inv
  · rfl
  · rfl
  · rfl
  · intro m
    dsimp only
    split
    · exact Int.natCast_nonneg _
    · exact h.inv.nonneg m
  intro u m
  dsimp only
  split
  · decide
  · exact h.inv.short u m

lemma exitSem_quiet (u : Nat) (pid : Int) (now : Nat) (h : s.Quiet) :
    ∃ code r woken, s.exitSem u pid now = some (code,r,woken) ∧ r.Quiet := by
  apply doSmartUpdate_change h.inv
  · rfl
  · rfl
  · rfl
  · intro m
    dsimp only
    split
    · unfold semvmx
      omega
    · exact h.inv.nonneg m
  intro u' m
  dsimp only
  by_cases hu : u' = u
  · rw [hu,update_self]
    decide
  rw [update_of_ne hu]
  exact h.inv.short u' m

lemma Quiet.interrupt (h : s.Quiet) (q : Entry) : (s.interrupt q).Quiet := by
  unfold Arr.interrupt
  split
  · rename_i hq
    refine ⟨h.inv.unlinkQueue hq,?_⟩
    intro p hp
    rw [sleeps_congr (unlinkQueue_semval s q) (unlinkQueue_semadj s q)]
    rw [unlinkQueue_pending] at hp
    exact h.sleep p (mem_filter.mp hp).1
  · exact h

end Arr

inductive Op
  | semop (id : Nat) (sops : List Sembuf) (un : Nat) (pid : Int) (now : Nat)
  | setval (m : Nat) (val pid : Int) (now : Nat)
  | setall (vals : Nat → Nat) (now : Nat)
  | exit (un : Nat) (pid : Int) (now : Nat)
  | interrupt (q : Entry)

/-- A queue entry is on the stack of its sleeper: it is not in the queue yet. -/
def Op.Fresh (s : Arr) : Op → Prop
  | .semop id _ _ _ _ => id ∉ s.pending.map Entry.id
  | _ => True

instance (s : Arr) (op : Op) : Decidable (op.Fresh s) :=
  match op with
  | .semop _ _ _ _ _ => inferInstanceAs (Decidable (¬_ ∈ _))
  | .setval _ _ _ _ => isTrue trivial
  | .setall _ _ => isTrue trivial
  | .exit _ _ _ => isTrue trivial
  | .interrupt _ => isTrue trivial

def Arr.step (s : Arr) : Op → Option (Int × Arr × List (Nat × Int))
  | .semop id sops un pid now => s.semop id sops un pid now
  | .setval m val pid now => s.setval m val pid now
  | .setall vals now => s.setall vals now
  | .exit un pid now => s.exitSem un pid now
  | .interrupt q => some (0,s.interrupt q,[])

def newary (nsems : Nat) : Arr where
  nsems := nsems
  semval := fun _ => 0
  sempid := fun _ => 0
  semadj := fun _ _ => 0
  pending := []
  simple := fun _ => []
  complexCount := 0
  otime := 0

inductive Reaches (nsems : Nat) : Arr → Prop
  | start : Reaches nsems (newary nsems)
  | step {s s' : Arr} {code : Int} {woken : List (Nat × Int)} (op : Op) : Reaches nsems s →
      op.Fresh s → s.step op = some (code,s',woken) → Reaches nsems s'

lemma newary_quiet (nsems : Nat) : (newary nsems).Quiet := by
  refine ⟨⟨fun _ => rfl,rfl,nodup_nil,?_,?_,?_,List.Pairwise.nil,?_,?_⟩,?_⟩
  · exact fun _ h => absurd h not_mem_nil
  · exact fun _ h => absurd h not_mem_nil
  · exact fun _ h => absurd h not_mem_nil
  · exact fun _ => Int.le_refl 0
  · intro u m
    simp [newary]
  · exact fun _ h => absurd h not_mem_nil

lemma Arr.Quiet.step {s : Arr} (h : s.Quiet) (op : Op) (hfresh : op.Fresh s) :
    ∃ code s' woken, s.step op = some (code,s',woken) ∧ s'.Quiet := by
  cases op with
  | semop id sops un pid now => exact Arr.semop_quiet un pid now h hfresh
  | setval m val pid now => exact Arr.setval_quiet m val pid now h
  | setall vals now => exact Arr.setall_quiet vals now h
  | exit un pid now => exact Arr.exitSem_quiet un pid now h
  | interrupt q => exact ⟨_,_,_,rfl,h.interrupt q⟩

lemma Reaches.quiet {nsems : Nat} {s : Arr} (h : Reaches nsems s) : s.Quiet := by
  induction h with
  | start => exact newary_quiet nsems
  | step op _ hfresh hstep ih =>
    obtain ⟨_,_,_,hstep',hquiet⟩ := ih.step op hfresh
    rw [hstep] at hstep'
    obtain ⟨-,heq⟩ := Prod.mk.inj (Option.some.inj hstep')
    rw [(Prod.mk.inj heq).1]
    exact hquiet

/-- After every call of every history each operation that is left in the queue has to sleep, and the
next call comes to an end, with the same to be said of the array it leaves. -/
theorem no_missed_wakeup {nsems : Nat} {s : Arr} (h : Reaches nsems s) :
    (∀ q ∈ s.pending, (s.tryAtomicSemop q.sops q.undo q.pid).1 = 1) ∧
    ∀ op : Op, op.Fresh s → ∃ code s' woken, s.step op = some (code,s',woken) ∧
      ∀ q ∈ s'.pending, (s'.tryAtomicSemop q.sops q.undo q.pid).1 = 1 := by
  refine ⟨h.quiet.sleep,?_⟩
  intro op hfresh
  obtain ⟨code,s',woken,hstep,hquiet⟩ := h.quiet.step op hfresh
  exact ⟨code,s',woken,hstep,hquiet.sleep⟩

def setOne : Op := .setval 0 1 7 0

def waitZero : Op := .semop 1 [⟨0,0,false,false⟩] 1 8 1

def takeTwo : Op := .semop 2 [⟨0,-2,true,false⟩] 2 9 2

def giveOne : Op := .semop 3 [⟨0,1,false,false⟩] 3 10 3

/-- An increment lets a decrement complete, and that lets an operation complete that waits for zero
and comes first in the queue. -/
theorem no_missed_wakeup_restart : ∃ s, Reaches 1 s ∧ s.pending.map Entry.id = [1,2] ∧
      (s.step giveOne).map (fun r => (r.1,r.2.1.pending,r.2.2)) = some (0,[],[(2,0),(1,0)]) ∧
      ∃ code s' woken, s.step giveOne = some (code,s',woken) ∧
        ∀ q ∈ s'.pending, (s'.tryAtomicSemop q.sops q.undo q.pid).1 = 1 := by
  have h1 := Reaches.step setOne (Reaches.start : Reaches 1 _) trivial rfl
  have h2 := Reaches.step waitZero h1 (by decide) rfl
  have h3 := Reaches.step takeTwo h2 (by decide) rfl
  exact ⟨_,h3,rfl,rfl,(no_missed_wakeup h3).2 giveOne (by decide)⟩

end LinuxToradex.Sem
