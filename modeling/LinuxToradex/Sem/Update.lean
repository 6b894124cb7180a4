import LinuxToradex.Sem.Array

/-! After `update_queue` no entry of the queue that was searched can complete. -/
namespace LinuxToradex.Sem
open List Function

def Entry.onSem (m : Nat) (q : Entry) : Bool := decide (q.sops.length = 1) && decide (q.num = m)

lemma Entry.onSem_iff {m : Nat} {q : Entry} : q.onSem m = true ↔ q.sops.length = 1 ∧ q.num = m := by
  simp [onSem]

namespace Arr

/-- What holds of the queues. Entries that wait for zero are before those that alter the array, and
a single operation that sleeps is not an increment. -/
structure Inv (s : Arr) : Prop where
  simple : ∀ m, s.simple m = s.pending.filter (Entry.onSem m)
  complex : s.complexCount = (s.pending.filter fun q => decide (q.sops.length ≠ 1)).length
  ids : (s.pending.map Entry.id).Nodup
  nonempty : ∀ q ∈ s.pending, q.sops ≠ []
  alter : ∀ q ∈ s.pending, q.alter = q.sops.any fun sop => decide (sop.op ≠ 0)
  single : ∀ q ∈ s.pending, q.sops.length = 1 → q.first.op ≤ 0 ∧ q.first.nowait = false
  order : s.pending.Pairwise fun x y => y.alter = false → x.alter = false
  nonneg : ∀ m, 0 ≤ s.semval m
  short : ∀ u m, -32768 ≤ s.semadj u m ∧ s.semadj u m ≤ 32767

variable {s s' : Arr} {q : Entry}

lemma Inv.congr (h : s.Inv) (hpending : s'.pending = s.pending) (hsimple : s'.simple = s.simple)
    (hcomplex : s'.complexCount = s.complexCount) (hnonneg : ∀ m, 0 ≤ s'.semval m)
    (hshort : ∀ u m, -32768 ≤ s'.semadj u m ∧ s'.semadj u m ≤ 32767) : s'.Inv := by
  constructor
  · rw [hsimple,hpending]
    exact h.simple
  · rw [hcomplex,hpending]
    exact h.complex
  · rw [hpending]
    exact h.ids
  · rw [hpending]
    exact h.nonempty
  · rw [hpending]
    exact h.alter
  · rw [hpending]
    exact h.single
  · rw [hpending]
    exact h.order
  · exact hnonneg
  · exact hshort

lemma Inv.first_op_ne_zero (h : s.Inv) (hq : q ∈ s.pending) (hone : q.sops.length = 1) :
    q.alter = true ↔ q.first.op ≠ 0 := by
  obtain ⟨sop,hsop⟩ := length_eq_one_iff.mp hone
  rw [h.alter q hq]
  simp [Entry.first,hsop]

lemma Inv.decrement (h : s.Inv) (hq : q ∈ s.pending) (hone : q.sops.length = 1)
    (halter : q.alter = true) : q.first.op < 0 := by
  have hne := (h.first_op_ne_zero hq hone).mp halter
  have hle := (h.single q hq hone).1
  omega

lemma Inv.all_single (h : s.Inv) (hcount : s.complexCount = 0) (hq : q ∈ s.pending) : q.sops.length = 1 := by
  rw [h.complex,length_eq_zero_iff,filter_eq_nil_iff] at hcount
  simpa using hcount q hq

lemma Inv.sleeps_of_zero (h : s.Inv) (hq : q ∈ s.pending) (hone : q.sops.length = 1)
    (halter : q.alter = true) (hzero : s.semval q.num = 0) : s.Sleeps q := by
  rw [sleeps_single hone]
  have hdec := h.decrement hq hone halter
  exact ⟨.inr (by omega),(h.single q hq hone).2⟩

lemma filter_ne_id {l1 l2 : List Entry} (h : ((l1++q::l2).map Entry.id).Nodup) :
    (l1++q::l2).filter (fun e => decide (e.id ≠ q.id)) = l1++l2 := by
  rw [map_append,map_cons,perm_middle.nodup_iff,nodup_cons] at h
  have hkeep : ∀ e ∈ l1++l2, decide (e.id ≠ q.id) = true := by
    intro e he
    rw [decide_eq_true_iff]
    intro heq
    apply h.1
    rw [← map_append,← heq]
    exact mem_map_of_mem he
  rw [filter_append,filter_cons_of_neg (by simp),← filter_append]
  exact filter_eq_self.mpr hkeep

lemma filter_ne_id_of_not_mem {l : List Entry} (h : ∀ e ∈ l, e.id ≠ q.id) :
    l.filter (fun e => decide (e.id ≠ q.id)) = l :=
  filter_eq_self.mpr fun e he => decide_eq_true (h e he)

lemma Inv.eq_of_id (h : s.Inv) {p : Entry} (hp : p ∈ s.pending) (hq : q ∈ s.pending) (heq : p.id = q.id) : p = q :=
  inj_on_of_nodup_map h.ids hp hq heq

lemma unlinkQueue_pending (s : Arr) (q : Entry) :
    (s.unlinkQueue q).pending = s.pending.filter fun e => decide (e.id ≠ q.id) := by
  unfold unlinkQueue
  split <;> rfl

lemma unlinkQueue_semval (s : Arr) (q : Entry) : (s.unlinkQueue q).semval = s.semval := by
  unfold unlinkQueue
  split <;> rfl

lemma unlinkQueue_semadj (s : Arr) (q : Entry) : (s.unlinkQueue q).semadj = s.semadj := by
  unfold unlinkQueue
  split <;> rfl

lemma Inv.unlinkQueue (h : s.Inv) (hq : q ∈ s.pending) : (s.unlinkQueue q).Inv := by
  have hsub : List.Sublist (s.unlinkQueue q).pending s.pending := by
    rw [unlinkQueue_pending]
    exact filter_sublist
  constructor
  · intro m
    rw [unlinkQueue_pending,filter_comm,← h.simple m]
    unfold Arr.unlinkQueue
    split
    · next hone =>
      dsimp only
      by_cases hm : m = q.num
      · subst hm
        rw [update_self]
      rw [update_of_ne hm,filter_ne_id_of_not_mem]
      intro e he heq
      rw [h.simple m,mem_filter,Entry.onSem_iff] at he
      exact hm (by rw [← he.2.2,h.eq_of_id he.1 hq heq])
    next hone =>
    dsimp only
    rw [filter_ne_id_of_not_mem]
    intro e he heq
    rw [h.simple m,mem_filter,Entry.onSem_iff] at he
    exact hone (by rw [← h.eq_of_id he.1 hq heq]; exact he.2.1)
  · rw [unlinkQueue_pending,filter_comm]
    obtain ⟨l1,l2,hsplit⟩ := append_of_mem hq
    have hids := h.ids
    unfold Arr.unlinkQueue
    split
    · next hone =>
      rw [h.complex,filter_ne_id_of_not_mem]
      intro e he heq
      rw [mem_filter,decide_eq_true_iff] at he
      exact he.2 (by rw [h.eq_of_id he.1 hq heq]; exact hone)
    next hone =>
    rw [h.complex,filter_comm,hsplit,filter_ne_id (by rw [← hsplit]; exact hids),
      filter_append,filter_cons_of_pos (by simpa using hone),filter_append]
    simp only [length_append,length_cons]
    omega
  · exact (hsub.map Entry.id).nodup h.ids
  · exact fun e he => h.nonempty e (hsub.subset he)
  · exact fun e he => h.alter e (hsub.subset he)
  · exact fun e he => h.single e (hsub.subset he)
  · exact h.order.sublist hsub
  · rw [unlinkQueue_semval]
    exact h.nonneg
  rw [unlinkQueue_semadj]
  exact h.short

structure Completes (s : Arr) (q : Entry) (s' : Arr) : Prop where
  inv : s'.Inv
  pending : s'.pending = s.pending.filter fun e => decide (e.id ≠ q.id)
  values : ∀ m, s'.semval m = s.semval m+((q.sops.filter fun sop => decide (sop.num = m)).map Sembuf.op).sum
  semadj : q.alter = false → s'.semadj = s.semadj

lemma Inv.completes (h : s.Inv) (hq : q ∈ s.pending) (hok : (s.tryAtomicSemop q.sops q.undo q.pid).1 = 0) :
    Completes s q ((s.tryAtomicSemop q.sops q.undo q.pid).2.unlinkQueue q) := by
  rw [tryAtomicSemop_ok hok]
  rw [tryAtomicSemop_code] at hok
  have hperf := perform_spec (s.adjOf q.undo) [] q.sops s.semval
  have hbook := book_booked q.pid q.undo q.sops.reverse
    {s with semval := (perform (s.adjOf q.undo) [] q.sops s.semval).2}
  have hinv := h.congr hbook.pending hbook.simple hbook.complexCount
    (by rw [hbook.semval]; exact hperf.nonneg hok h.nonneg) (hbook.short h.short)
  constructor
  · exact hinv.unlinkQueue (by rw [hbook.pending]; exact hq)
  · rw [unlinkQueue_pending,hbook.pending]
  · intro m
    rw [unlinkQueue_semval,hbook.semval]
    exact hperf.values hok m
  intro halter
  rw [unlinkQueue_semadj]
  refine book_semadj _ _ _ {s with semval := _} ?_ h.short
  intro sop hsop
  rw [h.alter q hq,any_eq_false] at halter
  simpa using halter sop (mem_reverse.mp hsop)

section
variable (h : Completes s q s')
include h

lemma Completes.values_single (hone : q.sops.length = 1) (m : Nat) :
    s'.semval m = if m = q.num then s.semval m+q.first.op else s.semval m := by
  obtain ⟨sop,hsop⟩ := length_eq_one_iff.mp hone
  have hnum : q.num = sop.num := by simp [Entry.num,Entry.first,hsop]
  have hfirst : q.first = sop := by simp [Entry.first,hsop]
  rw [h.values m,hsop,hnum,hfirst]
  split
  · next hm =>
    rw [filter_cons_of_pos (by simp [hm])]
    simp
  next hm =>
  rw [filter_cons_of_neg (by simp [Ne.symm hm])]
  simp

lemma Completes.values_zero (hinv : s.Inv) (hq : q ∈ s.pending) (halter : q.alter = false) :
    s'.semval = s.semval := by
  funext m
  rw [hinv.alter q hq,any_eq_false] at halter
  have hsum : ((q.sops.filter fun sop => decide (sop.num = m)).map Sembuf.op).sum = 0 := by
    apply sum_eq_zero
    intro x hx
    obtain ⟨sop,hsop,rfl⟩ := mem_map.mp hx
    simpa using halter sop (mem_filter.mp hsop).1
  rw [h.values m,hsum,Int.add_zero]

/-- If `check_restart` does not ask for a restart, the other entries that slept still sleep. -/
theorem Completes.still_sleeps {p : Entry} (hinv : s.Inv) (hq : q ∈ s.pending)
    (hrestart : s'.checkRestart q = some false) (hp : p ∈ s'.pending) (hsleeps : s.Sleeps p) : s'.Sleeps p := by
  by_cases halter : q.alter = false
  · exact (sleeps_congr (h.values_zero hinv hq halter) (h.semadj halter) p).mpr hsleeps
  have halter' : q.alter = true := by simpa using halter
  unfold checkRestart at hrestart
  rw [if_neg halter] at hrestart
  split at hrestart
  · next hcount => cases hrestart
  next hcount =>
  rw [ne_eq,not_not] at hcount
  split at hrestart
  · next hlong => cases hrestart
  next hlong =>
  have hpone := h.inv.all_single hcount hp
  have hqone : q.sops.length = 1 := by
    have := length_pos_iff.mpr (hinv.nonempty q hq)
    omega
  have hdec := hinv.decrement hq hqone halter'
  rw [sleeps_single hpone] at hsleeps ⊢
  obtain ⟨hblocks,hnowait⟩ := hsleeps
  refine ⟨?_,hnowait⟩
  have hval := h.values_single hqone p.num
  split at hval
  · next hnum =>
    have hmem : p ∈ s'.simple q.num := by
      rw [h.inv.simple,mem_filter,Entry.onSem_iff]
      exact ⟨hp,hpone,hnum⟩
    rcases hlist : s'.simple q.num with _ | ⟨e,rest⟩
    · rw [hlist] at hmem
      exact absurd hmem not_mem_nil
    rw [hlist] at hrestart
    dsimp only at hrestart
    by_cases hzero : s'.semval q.num ≠ 0
    · rw [← hnum] at hzero
      rcases hblocks with ⟨hop,-⟩ | hneg
      · exact .inl ⟨hop,hzero⟩
      · exact .inr (by omega)
    -- the value is zero: no entry on this semaphore waits for it
    rw [if_neg hzero] at hrestart
    have he : e ∈ s'.pending ∧ e.sops.length = 1 ∧ e.num = q.num := by
      have : e ∈ s'.simple q.num := by rw [hlist]; exact mem_cons_self
      rwa [h.inv.simple,mem_filter,Entry.onSem_iff] at this
    rw [if_neg (by rw [not_or,not_not,not_not]; exact he.2)] at hrestart
    have hop : e.first.op ≠ 0 := by simpa using hrestart
    have healter := (h.inv.first_op_ne_zero he.1 he.2.1).mpr hop
    have hpalter : p.alter = true := by
      have horder := h.inv.order.sublist (filter_sublist (p := Entry.onSem q.num))
      rw [← h.inv.simple,hlist] at horder
      rw [hlist] at hmem
      rcases mem_cons.mp hmem with rfl | hmem
      · exact healter
      by_contra hne
      have := rel_of_pairwise_cons horder hmem (by simpa using hne)
      rw [this] at healter
      cases healter
    have hpdec := h.inv.decrement hp hpone hpalter
    exact .inr (by omega)
  next hnum =>
  rw [hval]
  exact hblocks

lemma Completes.checkRestart_some (hinv : s.Inv) (hq : q ∈ s.pending) : ∃ b, s'.checkRestart q = some b := by
  unfold checkRestart
  by_cases halter : q.alter = false
  · exact ⟨false,if_pos halter⟩
  rw [if_neg halter]
  by_cases hcount : s'.complexCount ≠ 0
  · exact ⟨true,if_pos hcount⟩
  rw [if_neg hcount]
  by_cases hlong : 1 < q.sops.length
  · exact ⟨true,if_pos hlong⟩
  rw [if_neg hlong]
  have hqone : q.sops.length = 1 := by
    have := length_pos_iff.mpr (hinv.nonempty q hq)
    omega
  have hdec := hinv.decrement hq hqone (by simpa using halter)
  rcases hlist : s'.simple q.num with _ | ⟨e,rest⟩
  · exact ⟨false,rfl⟩
  have he : e ∈ s'.pending ∧ e.sops.length = 1 ∧ e.num = q.num := by
    have : e ∈ s'.simple q.num := by rw [hlist]; exact mem_cons_self
    rwa [h.inv.simple,mem_filter,Entry.onSem_iff] at this
  dsimp only
  split
  · next hzero =>
    rw [if_neg (by omega)]
    exact ⟨false,rfl⟩
  next hzero =>
  rw [if_neg (by rw [not_or,not_not,not_not]; exact he.2)]
  exact ⟨_,rfl⟩

end

def searched : Option Nat → Entry → Bool
  | none => fun _ => true
  | some m => Entry.onSem m

lemma Inv.queue_eq (h : s.Inv) (semnum : Option Nat) : s.queue semnum = s.pending.filter (searched semnum) := by
  cases semnum with
  | none => exact (filter_eq_self.mpr fun _ _ => rfl).symm
  | some m => exact h.simple m

lemma Inv.complex_of_sublist (h : s.Inv) (h' : s'.Inv) (hsub : List.Sublist s'.pending s.pending)
    (hcount : s.complexCount = 0) : s'.complexCount = 0 := by
  rw [h'.complex,length_eq_zero_iff,filter_eq_nil_iff]
  intro q hq
  simpa using h.all_single hcount (hsub.subset hq)

structure Scanned (semnum : Option Nat) (s : Arr) (pass : Pass) : Prop where
  inv : pass.arr.Inv
  sublist : List.Sublist pass.arr.pending s.pending
  frame : ∀ m, semnum = some m → ∀ m', m' ≠ m → pass.arr.semval m' = s.semval m'
  sleeps : pass.restart = false → ∀ q ∈ pass.arr.pending, searched semnum q = true → pass.arr.Sleeps q
  shrinks : pass.restart = true → pass.arr.pending.length < s.pending.length

lemma Scanned.prepend {semnum : Option Nat} {pass : Pass} (h : Scanned semnum s' pass)
    (hsub : List.Sublist s'.pending s.pending)
    (hframe : ∀ m, semnum = some m → ∀ m', m' ≠ m → s'.semval m' = s.semval m') : Scanned semnum s pass :=
  ⟨h.inv,h.sublist.trans hsub,fun m hm m' hne => (h.frame m hm m' hne).trans (hframe m hm m' hne),
    h.sleeps,fun hr => Nat.lt_of_lt_of_le (h.shrinks hr) hsub.length_le⟩

lemma Scanned.wake {semnum : Option Nat} {pass : Pass} (h : Scanned semnum s pass) (q : Entry)
    (error : Int) : Scanned semnum s (pass.wake q error) :=
  ⟨h.inv,h.sublist,h.frame,h.sleeps,h.shrinks⟩

lemma scan_spec (semnum : Option Nat) (walk left : List Entry) (hinv : s.Inv)
    (hcount : semnum ≠ none → s.complexCount = 0)
    (hlist : s.pending.filter (searched semnum) = left++walk) (hleft : ∀ q ∈ left, s.Sleeps q) :
    ∃ pass, scan semnum walk s = some pass ∧ Scanned semnum s pass := by
  induction walk generalizing s left with
  | nil =>
    refine ⟨_,rfl,hinv,List.Sublist.refl _,fun _ _ _ _ => rfl,?_,fun h => absurd h (by simp)⟩
    intro _ q hq hs
    apply hleft q
    rw [← append_nil left,← hlist,mem_filter]
    exact ⟨hq,hs⟩
  | cons q walk ih =>
    have hmem : q ∈ s.pending ∧ searched semnum q = true := by
      rw [← mem_filter,hlist]
      simp
    obtain ⟨hq,hqs⟩ := hmem
    rw [scan]
    split
    · next hbreak =>
      refine ⟨_,rfl,hinv,List.Sublist.refl _,fun _ _ _ _ => rfl,?_,fun h => absurd h (by simp)⟩
      intro _ p hp hps
      rw [Bool.and_eq_true] at hbreak
      have hmem : p ∈ left++q::walk := by
        rw [← hlist,mem_filter]
        exact ⟨hp,hps⟩
      rcases mem_append.mp hmem with hl | hr
      · exact hleft p hl
      -- the semaphore is zero, and behind an entry that alters the array all entries do
      rcases semnum with _ | m
      · exact absurd hbreak.1 (by simp)
      have hzero : s.semval m = 0 := by simpa using hbreak.1
      obtain ⟨hpone,hpnum⟩ := Entry.onSem_iff.mp hps
      have hpalter : p.alter = true := by
        have horder := hinv.order.sublist (filter_sublist (p := searched (some m)))
        rw [hlist] at horder
        have horder' := (pairwise_append.mp horder).2.1
        rcases mem_cons.mp hr with rfl | hr
        · exact hbreak.2
        by_contra hne
        have := rel_of_pairwise_cons horder' hr (by simpa using hne)
        rw [this] at hbreak
        exact absurd hbreak.2 (by simp)
      exact hinv.sleeps_of_zero hp hpone hpalter (by rw [hpnum]; exact hzero)
    next hbreak =>
    have hlist' : ∀ s' : Arr, s'.pending = s.pending.filter (fun e => decide (e.id ≠ q.id)) →
        s'.pending.filter (searched semnum) = left++walk := by
      intro s' hs'
      have hids : ((left++q::walk).map Entry.id).Nodup := by
        rw [← hlist]
        exact (filter_sublist.map Entry.id).nodup hinv.ids
      rw [hs',filter_comm,hlist,filter_ne_id hids]
    have hleftPending : ∀ s' : Arr, s'.pending = s.pending.filter (fun e => decide (e.id ≠ q.id)) →
        ∀ p ∈ left, p ∈ s'.pending := by
      intro s' hs' p hp
      have : p ∈ s'.pending.filter (searched semnum) := by
        rw [hlist' s' hs']
        exact mem_append_left _ hp
      exact (mem_filter.mp this).1
    dsimp only
    by_cases hpos : 0 < (s.tryAtomicSemop q.sops q.undo q.pid).1
    · have hone := tryAtomicSemop_pos hpos
      rw [if_pos hpos,tryAtomicSemop_failed (by omega)]
      refine ih (left++[q]) hinv hcount (by rw [hlist]; simp) ?_
      exact forall_mem_append.mpr ⟨hleft,forall_mem_singleton.mpr hone⟩
    rw [if_neg hpos]
    split
    · next herr =>
      rw [tryAtomicSemop_failed herr]
      have hinv' := hinv.unlinkQueue hq
      have hsub : List.Sublist (s.unlinkQueue q).pending s.pending := by
        rw [unlinkQueue_pending]
        exact filter_sublist
      obtain ⟨pass,hscan,hpass⟩ := ih left hinv'
        (fun hne => hinv.complex_of_sublist hinv' hsub (hcount hne)) (hlist' _ (unlinkQueue_pending s q))
        (fun p hp => (sleeps_congr (unlinkQueue_semval s q) (unlinkQueue_semadj s q) p).mpr (hleft p hp))
      rw [hscan]
      exact ⟨_,rfl,(hpass.prepend hsub fun _ _ m' _ => by rw [unlinkQueue_semval]).wake q _⟩
    next herr =>
    rw [ne_eq,not_not] at herr
    have hdone := hinv.completes hq herr
    have hsub : List.Sublist ((s.tryAtomicSemop q.sops q.undo q.pid).2.unlinkQueue q).pending s.pending := by
      rw [hdone.pending]
      exact filter_sublist
    have hframe : ∀ m, semnum = some m → ∀ m', m' ≠ m →
        ((s.tryAtomicSemop q.sops q.undo q.pid).2.unlinkQueue q).semval m' = s.semval m' := by
      rintro m rfl m' hne
      obtain ⟨hqone,hqnum⟩ := Entry.onSem_iff.mp hqs
      rw [hdone.values_single hqone,if_neg (by rw [hqnum]; exact hne)]
    obtain ⟨restart,hrestart⟩ := hdone.checkRestart_some hinv hq
    rw [hrestart]
    cases restart with
    | true =>
      refine ⟨_,rfl,hdone.inv,hsub,hframe,fun h => absurd h (by simp),fun _ => ?_⟩
      obtain ⟨l1,l2,hsplit⟩ := append_of_mem hq
      have hids := hinv.ids
      rw [hdone.pending,hsplit,filter_ne_id (by rw [← hsplit]; exact hids)]
      simp only [length_append,length_cons]
      omega
    | false =>
      obtain ⟨pass,hscan,hpass⟩ := ih left hdone.inv
        (fun hne => hinv.complex_of_sublist hdone.inv hsub (hcount hne)) (hlist' _ hdone.pending)
        (fun p hp => hdone.still_sleeps hinv hq hrestart (hleftPending _ hdone.pending p hp) (hleft p hp))
      rw [hscan]
      exact ⟨_,rfl,(hpass.prepend hsub hframe).wake q 0⟩

lemma passes_spec (semnum : Option Nat) (fuel : Nat) (hinv : s.Inv)
    (hcount : semnum ≠ none → s.complexCount = 0) (hfuel : s.pending.length < fuel) :
    ∃ pass, passes semnum fuel s = some pass ∧ pass.restart = false ∧ Scanned semnum s pass := by
  induction fuel generalizing s with
  | zero => cases hfuel
  | succ fuel ih =>
    obtain ⟨pass,hscan,hpass⟩ := scan_spec semnum (s.queue semnum) [] hinv hcount
      (by rw [hinv.queue_eq]; rfl) (by simp)
    rw [passes,hscan]
    dsimp only
    by_cases hr : pass.restart = true
    · have hlen := hpass.shrinks hr
      obtain ⟨next,hnext,hnr,hspec⟩ := ih hpass.inv
        (fun hne => hinv.complex_of_sublist hpass.inv hpass.sublist (hcount hne)) (by omega)
      rw [if_pos hr,hnext]
      have hall := hspec.prepend hpass.sublist hpass.frame
      exact ⟨_,rfl,hnr,hall.inv,hall.sublist,hall.frame,hall.sleeps,hall.shrinks⟩
    rw [if_neg hr]
    exact ⟨pass,rfl,by simpa using hr,hpass⟩

lemma updateQueue_all (hinv : s.Inv) :
    ∃ pass, s.updateQueue none = some pass ∧ pass.arr.Inv ∧ ∀ q ∈ pass.arr.pending, pass.arr.Sleeps q := by
  have hnone : (if s.complexCount ≠ 0 then none else none : Option Nat) = none := by split <;> rfl
  obtain ⟨pass,hpass,hr,hspec⟩ := passes_spec none (s.pending.length+1) hinv
    (fun h => absurd rfl h) (Nat.lt_succ_self _)
  refine ⟨pass,?_,hspec.inv,fun q hq => hspec.sleeps hr q hq rfl⟩
  rw [updateQueue,hnone]
  exact hpass

end Arr

end LinuxToradex.Sem
