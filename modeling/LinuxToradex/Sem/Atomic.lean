import LinuxToradex.Sem.Array

/-! What `try_atomic_semop` does to the semaphores when it succeeds and when it fails, and what a sequence of
successful calls leaves in the undo structures. -/
namespace LinuxToradex.Sem
open Function List

variable {sops : List Sembuf} {v : Nat → Int} {s : Arr} {un : Option Nat} {pid : Int}

def applied (sops : List Sembuf) (v : Nat → Int) : Nat → Int :=
  sops.foldl (fun v sop => update v sop.num (v sop.num+sop.op)) v

def InRange (x : Int) : Prop := 0 ≤ x ∧ x ≤ semvmx

/-- The operations can be applied in order: the value of a semaphore that is named or starts in range is in
range after every one of them, and one that waits for zero sees zero. -/
structure Applies (sops : List Sembuf) (v : Nat → Int) : Prop where
  range : ∀ pre post, sops = pre++post → ∀ m, InRange (v m) ∨ (∃ sop ∈ pre, sop.num = m) →
    InRange (applied pre v m)
  zero : ∀ pre sop post, sops = pre++sop::post → sop.op = 0 → applied pre v sop.num = 0

lemma Applies.cons {sop : Sembuf} (hrange : InRange (v sop.num+sop.op)) (hzero : sop.op = 0 → v sop.num = 0)
    (h : Applies sops (update v sop.num (v sop.num+sop.op))) : Applies (sop::sops) v := by
  constructor
  · rintro (_ | ⟨first,pre⟩) post hsplit m hm
    · rcases hm with hm | ⟨_,hmem,-⟩
      · exact hm
      · cases hmem
    obtain ⟨rfl,hrest⟩ := cons.inj hsplit
    refine h.range pre post hrest m ?_
    by_cases heq : m = sop.num
    · subst heq
      rw [update_self]
      exact .inl hrange
    rw [update_of_ne heq]
    rcases hm with hm | ⟨other,hmem,hnum⟩
    · exact .inl hm
    rcases mem_cons.mp hmem with rfl | hmem
    · exact absurd hnum.symm heq
    · exact .inr ⟨other,hmem,hnum⟩
  rintro (_ | ⟨first,pre⟩) other post hsplit hop
  · obtain ⟨rfl,-⟩ := cons.inj hsplit
    exact hzero hop
  obtain ⟨rfl,hrest⟩ := cons.inj hsplit
  exact h.zero pre other post hrest hop

lemma perform_applies {adj : Nat → Int} (performed : List Sembuf)
    (h : (perform adj performed sops v).1 = 0) : (perform adj performed sops v).2 = applied sops v ∧
      Applies sops v ∧ ∀ sop ∈ sops, undoOutOfRange adj sop = false := by
  have hcode : ∀ sop, wouldBlock sop ≠ 0 := by
    intro sop
    rcases wouldBlock_code sop with hc | hc | hc <;> rw [hc] <;> decide
  induction sops generalizing performed v with
  | nil =>
    refine ⟨rfl,⟨?_,?_⟩,nofun⟩
    · intro pre post hsplit m hm
      obtain ⟨rfl,-⟩ := append_eq_nil_iff.mp hsplit.symm
      exact hm.elim id fun ⟨_,hmem,_⟩ => absurd hmem not_mem_nil
    intro pre sop post hsplit
    simp at hsplit
  | cons sop rest ih =>
    rw [perform] at h ⊢
    split_ifs at h ⊢ with hzero hneg hmax hundo
    · exact absurd h (hcode sop)
    · exact absurd h (hcode sop)
    · exact absurd h (show erange ≠ 0 by decide)
    · exact absurd h (show erange ≠ 0 by decide)
    obtain ⟨hvalues,happlies,hrest⟩ := ih (sop::performed) h
    refine ⟨hvalues,happlies.cons ⟨by omega,by omega⟩ fun hop => ?_,?_⟩
    · by_contra hne
      exact hzero ⟨hop,hne⟩
    · exact forall_mem_cons.mpr ⟨eq_false_of_ne_true hundo,hrest⟩

/-- A successful call applies its operations, none of which leaves the range or waits in vain; any other call
changes nothing. -/
theorem semop_all_or_nothing (s : Arr) (sops : List Sembuf) (un : Option Nat) (pid : Int) :
    let r := s.tryAtomicSemop sops un pid
    (r.1 = 0 → r.2.semval = applied sops s.semval ∧ Applies sops s.semval) ∧ (r.1 ≠ 0 → r.2 = s) := by
  refine ⟨fun hok => ?_,Arr.tryAtomicSemop_failed⟩
  obtain ⟨hvalues,happlies,-⟩ := perform_applies [] ((s.tryAtomicSemop_code sops un pid).symm.trans hok)
  rw [Arr.tryAtomicSemop_ok hok,(book_booked pid un _ _).semval]
  exact ⟨hvalues,happlies⟩

abbrev Call := Option Nat × List Sembuf

variable {calls : List Call}

lemma recorded_reverse (u m : Nat) : recorded un sops.reverse u m = recorded un sops u m := by
  simp [recorded,undone,filter_reverse,map_reverse,sum_reverse]

/-- The arrays that successful calls lead to, each of them allowed where it is made, with what the calls have
recorded. Other system calls may come in between, as long as they leave the undo structures alone. -/
inductive Calls (allowed : Arr → Call → Prop) : List Call → Arr → Prop
  | start (s : Arr) (hs : s.semadj = fun _ _ => 0) : Calls allowed [] s
  | call {calls : List Call} {s : Arr} (h : Calls allowed calls s) (s' : Arr) (hs : s'.semadj = s.semadj)
      (un : Option Nat) (sops : List Sembuf) (pid : Int) (hallowed : allowed s' (un,sops))
      (hok : (s'.tryAtomicSemop sops un pid).1 = 0) :
      Calls allowed ((un,sops)::calls) (s'.tryAtomicSemop sops un pid).2

def total (calls : List Call) (u m : Nat) : Int :=
  (calls.map fun c => recorded c.1 c.2 u m).sum

lemma tryAtomicSemop_semadj {u m : Nat} (hok : (s.tryAtomicSemop sops un pid).1 = 0)
    (hs : toShort (s.semadj u m) = s.semadj u m) :
    (s.tryAtomicSemop sops un pid).2.semadj u m = toShort (s.semadj u m-recorded un sops u m) ∧
      ∀ sop ∈ sops, undoOutOfRange (s.adjOf un) sop = false := by
  refine ⟨?_,(perform_applies [] ((s.tryAtomicSemop_code sops un pid).symm.trans hok)).2.2⟩
  rw [Arr.tryAtomicSemop_ok hok,← recorded_reverse]
  exact book_semadj_eq pid un _ _ hs

/-- The call names a semaphore once with `SEM_UNDO`, or the entry from before the call leaves room for all
the operations that it names it with. -/
def Fits (s : Arr) (c : Call) : Prop := ∀ u ∈ c.1, ∀ m, (undone c.2 m).length ≤ 1 ∨
  -semvmx-1 ≤ s.semadj u m-recorded c.1 c.2 u m ∧ s.semadj u m-recorded c.1 c.2 u m ≤ semvmx

/-- An operation that is the only one on its semaphore was checked against the entry from before the call. -/
lemma range_of_once {u m : Nat} (hok : (s.tryAtomicSemop sops (some u) pid).1 = 0)
    (hs : -semvmx-1 ≤ s.semadj u m ∧ s.semadj u m ≤ semvmx) (honce : (undone sops m).length ≤ 1) :
    -semvmx-1 ≤ s.semadj u m-recorded (some u) sops u m ∧ s.semadj u m-recorded (some u) sops u m ≤ semvmx := by
  rw [recorded,if_pos rfl]
  rcases hlist : undone sops m with _ | ⟨sop,_ | ⟨_,_⟩⟩
  · simpa using hs
  · obtain ⟨hsop,hcond⟩ := mem_filter.mp (show sop ∈ undone sops m by rw [hlist]; exact mem_cons_self)
    obtain ⟨hundo,hnum⟩ := Bool.and_eq_true_iff.mp hcond
    have hcheck := (tryAtomicSemop_semadj hok (toShort_eq_iff.mpr hs)).2 sop hsop
    rw [undoOutOfRange,hundo,Bool.true_and,Bool.or_eq_false_iff,decide_eq_false_iff_not,
      decide_eq_false_iff_not,of_decide_eq_true hnum,Arr.adjOf] at hcheck
    rw [map_singleton,sum_singleton]
    omega
  · simp [hlist] at honce

/-- Where the entries are exact, a successful call leaves them exact just if it fits. -/
lemma exact_iff_fits (hok : (s.tryAtomicSemop sops un pid).1 = 0)
    (hs : ∀ u m, s.semadj u m = -total calls u m ∧ -semvmx-1 ≤ s.semadj u m ∧ s.semadj u m ≤ semvmx) :
    (∀ u m, (s.tryAtomicSemop sops un pid).2.semadj u m = -total ((un,sops)::calls) u m) ↔ Fits s (un,sops) := by
  have hentry (u m : Nat) : (s.tryAtomicSemop sops un pid).2.semadj u m = -total ((un,sops)::calls) u m ↔
      -semvmx-1 ≤ s.semadj u m-recorded un sops u m ∧ s.semadj u m-recorded un sops u m ≤ semvmx := by
    have htotal : -total ((un,sops)::calls) u m = s.semadj u m-recorded un sops u m := by
      rw [(hs u m).1,total,map_cons,sum_cons,← total,Int.neg_add,Int.add_comm,← Int.sub_eq_add_neg]
    rw [(tryAtomicSemop_semadj hok (toShort_eq_iff.mpr (hs u m).2)).1,htotal,toShort_eq_iff]
  constructor
  · exact fun h u _ m => .inr ((hentry u m).mp (h u m))
  intro hfits u m
  rw [hentry]
  by_cases hun : un = some u
  · subst hun
    exact (hfits u rfl m).elim (range_of_once hok (hs u m).2) id
  · rw [recorded,if_neg hun,Int.sub_zero]
    exact (hs u m).2

/-- After every sequence of successful calls that fit, every entry of an undo structure is in range and is the
negated sum of what was recorded in it; and a further call leaves the entries so just if it fits. -/
theorem semadj_exact_iff (h : Calls Fits calls s) :
    (∀ u m, s.semadj u m = -total calls u m ∧ -semvmx-1 ≤ s.semadj u m ∧ s.semadj u m ≤ semvmx) ∧
    ∀ s' : Arr, s'.semadj = s.semadj → ∀ un sops pid, (s'.tryAtomicSemop sops un pid).1 = 0 →
      ((∀ u m, (s'.tryAtomicSemop sops un pid).2.semadj u m = -total ((un,sops)::calls) u m) ↔
        Fits s' (un,sops)) := by
  have hexact : ∀ u m, s.semadj u m = -total calls u m ∧ -semvmx-1 ≤ s.semadj u m ∧ s.semadj u m ≤ semvmx := by
    induction h with
    | start s hs =>
      intro u m
      rw [hs]
      exact ⟨rfl,show -semvmx-1 ≤ 0 ∧ 0 ≤ semvmx by decide⟩
    | call h s' hs un sops pid hfits hok ih =>
      rw [← hs] at ih
      intro u m
      refine ⟨(exact_iff_fits hok ih).mpr hfits u m,?_⟩
      rw [(tryAtomicSemop_semadj hok (toShort_eq_iff.mpr (ih u m).2)).1]
      exact toShort_range _
  exact ⟨hexact,fun s' hs un sops pid hok => exact_iff_fits hok (by rwa [hs])⟩

def oneSemaphore : Arr := ⟨1,fun _ => 0,fun _ => 0,fun _ _ => 0,[],fun _ => [],0,0⟩

def raiseToMaximumTwice : List Sembuf := [⟨0,32767,true,false⟩,⟨0,-32767,false,false⟩,⟨0,32767,true,false⟩]

/-- A call that names the semaphore twice, one of another process, and one more of the first. -/
theorem semadj_exact_three_calls : ∃ s, Calls Fits [(some 1,[⟨0,-3,true,false⟩]),(some 2,[⟨0,-7,true,false⟩]),
    (some 1,[⟨0,5,true,false⟩,⟨0,6,true,false⟩])] s ∧ s.semadj 1 0 = -8 ∧ s.semadj 2 0 = 7 := by
  have hfits : Fits oneSemaphore (some 1,[⟨0,5,true,false⟩,⟨0,6,true,false⟩]) := by
    intro u hu m
    cases hu
    rcases m with _ | m <;> simp [undone,recorded,oneSemaphore,semvmx]
  have hfirst := (Calls.start oneSemaphore rfl).call oneSemaphore rfl (some 1) _ 9 hfits (by decide)
  have hsecond := hfirst.call _ rfl (some 2) [⟨0,-7,true,false⟩] 9
    (fun _ _ _ => .inl (length_filter_le ..)) (by decide)
  have hthird := hsecond.call _ rfl (some 1) [⟨0,-3,true,false⟩] 9
    (fun _ _ _ => .inl (length_filter_le ..)) (by decide)
  have hexact := (semadj_exact_iff hthird).1
  exact ⟨_,hthird,(hexact 1 0).1.trans (by decide),(hexact 2 0).1.trans (by decide)⟩

/-- One call that takes the semaphore up to its maximum twice leaves 2, not -65534, in the undo structure. -/
theorem semadj_wraps : Calls (fun _ _ => True) [(some 1,raiseToMaximumTwice)]
      (oneSemaphore.tryAtomicSemop raiseToMaximumTwice (some 1) 9).2 ∧
    total [(some 1,raiseToMaximumTwice)] 1 0 = 65534 ∧
      (oneSemaphore.tryAtomicSemop raiseToMaximumTwice (some 1) 9).2.semadj 1 0 = 2 :=
  ⟨(Calls.start oneSemaphore rfl).call oneSemaphore rfl (some 1) raiseToMaximumTwice 9 trivial (by decide),
    by decide,by decide⟩

end LinuxToradex.Sem
