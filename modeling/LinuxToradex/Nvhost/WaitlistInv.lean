import LinuxToradex.Nvhost.Waitlist

/-! The life of a waiter. It is in one phase at a time, and every phase but the queue's belongs to one thread.
A step moves one waiter to its next phase. -/
namespace LinuxToradex.Nvhost
open Function

inductive Role where
  | adding
  | completed
  | dropping
  | handling
  | handled
  deriving DecidableEq

inductive Phase where
  | fresh
  | queued
  | by (t : ThreadId) (r : Role)
  | gone
  | failed
  deriving DecidableEq

/-! What a thread's place in the code says it holds. -/

def Process.completed : Process → Completed
  | .scan _ c | .drop _ c _ | .run c | .handling c _ | .put c _ => c
  | _ => fun _ => []

def Process.current : Process → Option (WaiterId × Role)
  | .drop _ _ w => some (w,.dropping)
  | .handling _ w => some (w,.handling)
  | .put _ w => some (w,.handled)
  | _ => none

def Process.sync : Process → Option Nat
  | .enter v | .scan v _ | .drop v _ _ => some v
  | _ => none

def Process.locked : Process → Bool
  | .scan _ _ | .drop _ _ _ => true
  | _ => false

def Caller.refOf : Caller → Option WaiterId
  | .putRef w => some w
  | .irq => none

def Pc.completed : Pc → Completed
  | .process _ p => p.completed
  | _ => fun _ => []

def Pc.current : Pc → Option (WaiterId × Role)
  | .adding w | .requestIrq w | .relock w => some (w,.adding)
  | .process _ p => p.current
  | _ => none

def Pc.sync : Pc → Option Nat
  | .process _ p => p.sync
  | _ => none

def Pc.locked : Pc → Bool
  | .process _ p => p.locked
  | _ => false

def Pc.refOf : Pc → Option WaiterId
  | .spin w | .putRef w => some w
  | .process k _ => k.refOf
  | _ => none

def Pc.passed : Pc → Option WaiterId
  | .putRef w => some w
  | .process k _ => k.refOf
  | _ => none

variable {w : WaiterId} {t : ThreadId} {s s' : Syncpt} {phase : WaiterId → Phase} {p : Pc}
  {x : Waiter} {ref : Ref} {freed : Nat} {q ph : Phase} {r : Role}

lemma Pc.refOf_of_passed (h : p.passed = some w) : p.refOf = some w := by
  cases p with
  | putRef v => exact h
  | process k p => exact h
  | _ => cases h

def Pc.role (p : Pc) (a : IntrAction) (w : WaiterId) : Option Role :=
  match p.current with
  | some (v,r) => if v = w then some r else if w ∈ p.completed a then some .completed else none
  | none => if w ∈ p.completed a then some .completed else none

lemma Pc.current_ne_completed (p : Pc) (w : WaiterId) : p.current ≠ some (w,.completed) := by
  cases p with
  | process k q => cases q <;> simp [Pc.current,Process.current]
  | _ => simp [Pc.current]

lemma Pc.mem_of_role {a : IntrAction} (h : p.role a w = some .completed) : w ∈ p.completed a := by
  have hcur := p.current_ne_completed w
  unfold Pc.role at h
  by_contra hmem
  split at h
  · rename_i v r hc
    by_cases hv : v = w
    · rw [if_pos hv] at h
      exact hcur (by rw [hc,hv,Option.some.inj h])
    rw [if_neg hv,if_neg hmem] at h
    cases h
  rw [if_neg hmem] at h
  cases h

def Phase.refs : Phase → Nat
  | .queued | .by _ _ => 1
  | _ => 0

def Ref.refs : Ref → Nat
  | .promised | .held | .putting _ => 1
  | _ => 0

def Reached (now : Nat) (x : Waiter) : Prop := x.removedAt ≤ now ∧ thresholdReached x.thresh x.removedAt = true

def Settled (st : Wls) : Prop := st = .cancelled ∨ st = .handled

/-- What holds of a waiter in each phase. A waiter that was consolidated stays `removed`; it
never had a reference. -/
def Local (x : Waiter) (ref : Ref) (begun now : Nat) : Phase → Prop
  | .fresh => ref = .none ∧ begun = 0
  | .queued => (x.state = .pending ∨ x.state = .cancelled ∧ ref ≠ .none) ∧ x.count = 1 ∧
    begun = 0 ∧ ref ≠ .promised
  | .by _ .adding => x.state = .pending ∧ x.count = 1 ∧ begun = 0 ∧ (ref = .none ∨ ref = .promised)
  | .by _ .completed => x.state = .removed ∧ begun = 0 ∧ ref ≠ .promised ∧ Reached now x
  | .by _ .dropping =>
    (x.state = .handled ∨ x.state = .removed ∧ ref = .none) ∧ begun = 0 ∧ ref ≠ .promised
  | .by _ .handling => x.state = .removed ∧ begun = 1 ∧ ref ≠ .promised ∧ Reached now x
  | .by _ .handled => x.state = .handled ∧ begun = 1 ∧ ref ≠ .promised
  | .gone => (x.state = .handled ∨ x.state = .removed ∧ ref = .none) ∧ begun ≤ 1 ∧ ref ≠ .promised
  | .failed => ref = .none ∧ begun = 0

def Counted (x : Waiter) (ref : Ref) (freed : Nat) : Phase → Prop
  | .fresh => freed = 0
  | .failed => freed = 1
  | ph => x.refcount = ph.refs+ref.refs ∧ freed = if x.refcount = 0 then 1 else 0

lemma counted_by : Counted x ref freed (.by t r) ↔ x.refcount = 1+ref.refs ∧ freed = 0 := by
  simp only [Counted,Phase.refs]
  constructor
  · rintro ⟨hcount,hfreed⟩
    rw [if_neg (by omega)] at hfreed
    exact ⟨hcount,hfreed⟩
  rintro ⟨hcount,hfreed⟩
  rw [if_neg (by omega)]
  exact ⟨hcount,hfreed⟩

lemma counted_queued : Counted x ref freed .queued ↔ x.refcount = 1+ref.refs ∧ freed = 0 :=
  counted_by (t := 0) (r := .adding)

lemma counted_gone : Counted x ref freed .gone ↔ x.refcount = ref.refs ∧ freed = if ref.refs = 0 then 1 else 0 := by
  simp only [Counted,Phase.refs,zero_add]
  constructor
  · rintro ⟨hcount,hfreed⟩
    exact ⟨hcount,hcount ▸ hfreed⟩
  rintro ⟨hcount,hfreed⟩
  exact ⟨hcount,hcount.symm ▸ hfreed⟩

lemma Counted.returned (h : Counted x (.putting t) freed ph) (hfresh : ph ≠ .fresh)
    (hfailed : ph ≠ .failed) : Counted {x with refcount := x.refcount - 1} .returned
      (if x.refcount = 1 then freed+1 else freed) ph := by
  cases ph with
  | fresh => exact absurd rfl hfresh
  | failed => exact absurd rfl hfailed
  | gone =>
    obtain ⟨hcount,hfreed⟩ := counted_gone.mp h
    rw [counted_gone]
    simp_all [Ref.refs]
  | queued =>
    obtain ⟨hcount,hfreed⟩ := counted_queued.mp h
    rw [counted_queued]
    simp_all [Ref.refs]
  | «by» u r =>
    obtain ⟨hcount,hfreed⟩ := counted_by.mp h
    rw [counted_by]
    simp_all [Ref.refs]

lemma Counted.gone (h : Counted x ref freed (.by t r)) : Counted {x with refcount := x.refcount - 1} ref
      (if x.refcount = 1 then freed+1 else freed) .gone := by
  obtain ⟨hcount,hfreed⟩ := counted_by.mp h
  rw [counted_gone,hcount,hfreed]
  constructor
  · dsimp only
    omega
  by_cases hr : ref.refs = 0
  · rw [if_pos (by omega),if_pos hr]
  · rw [if_neg (by omega),if_neg hr]

def owed (x : Waiter) : Phase → Nat
  | .by _ .completed => if x.action = .submitComplete then x.count else 0
  | _ => 0

structure Shape (s : Syncpt) (phase : WaiterId → Phase) : Prop where
  fresh : ∀ w, phase w = .fresh ↔ w ∉ s.allocated
  queued : ∀ w, phase w = .queued ↔ w ∈ s.waitHead
  queue : s.waitHead.Nodup
  role : ∀ t w r, phase w = .by t r ↔ (s.pc t).role (s.waiter w).action w = some r
  action : ∀ t a, ∀ w ∈ (s.pc t).completed a, (s.waiter w).action = a
  nodup : ∀ t a, ((s.pc t).completed a).Nodup
  apart : ∀ t a w r, (s.pc t).current = some (w,r) → w ∉ (s.pc t).completed a
  lock : ∀ t, s.lock = some t ↔ (s.pc t).locked = true
  ref : ∀ t w, s.ref w = .putting t ↔ (s.pc t).refOf = some w
  sync : ∀ t, ∀ v ∈ (s.pc t).sync, v ≤ s.now

structure Inv (s : Syncpt) (phase : WaiterId → Phase) : Prop extends Shape s phase where
  waiters : ∀ w, Local (s.waiter w) (s.ref w) (s.begun w) s.now (phase w)
  counted : ∀ w, Counted (s.waiter w) (s.ref w) (s.freed w) (phase w)
  noRef : ∀ w, (s.waiter w).action = .submitComplete ∨ (s.waiter w).action = .ctxsave →
    s.ref w = .none
  passed : ∀ t w, (s.pc t).passed = some w → Settled (s.waiter w).state
  returned : ∀ w, s.ref w = .returned → Settled (s.waiter w).state
  warned : s.warned = false
  sum : s.executed + ∑ w ∈ s.allocated, owed (s.waiter w) (phase w) = s.removed

lemma inv_init (now : Nat) : Inv (Syncpt.init now) fun _ => .fresh := by
  refine ⟨⟨?_,?_,?_,?_,?_,?_,?_,?_,?_,?_⟩,?_,?_,?_,?_,?_,rfl,?_⟩ <;>
    simp [Syncpt.init,Pc.role,Pc.current,Pc.completed,Pc.locked,Pc.refOf,Pc.sync,Pc.passed, Local,Counted]

lemma Inv.at_phase {q : Phase} (h : Inv s phase) (hph : phase w = q) :
    Local (s.waiter w) (s.ref w) (s.begun w) s.now q ∧ Counted (s.waiter w) (s.ref w) (s.freed w) q := by
  subst hph
  exact ⟨h.waiters w,h.counted w⟩

lemma Shape.role_of_completed (h : Shape s phase) {a : IntrAction}
    (hw : w ∈ (s.pc t).completed a) : phase w = .by t .completed := by
  rw [h.role,Pc.role,h.action t a w hw]
  cases hc : (s.pc t).current with
  | none => simp [hw]
  | some c =>
    have hne : c.1 ≠ w := fun he => h.apart t a c.1 c.2 hc (he ▸ hw)
    simp [hw,hne]

lemma Shape.role_of_current (h : Shape s phase) (hw : (s.pc t).current = some (w,r)) : phase w = .by t r := by
  rw [h.role,Pc.role,hw]
  simp

lemma Shape.role_none (h : Shape s phase) (hw : ∀ r, phase w ≠ .by t r) (a : IntrAction) :
    (s.pc t).role a w = none := by
  have hmem : w ∉ (s.pc t).completed a := fun hc => hw _ (h.role_of_completed hc)
  unfold Pc.role
  cases hc : (s.pc t).current with
  | none => simp [hmem]
  | some c =>
    have hne : c.1 ≠ w := fun he => hw c.2 (h.role_of_current (he ▸ hc))
    simp [hmem,hne]

/-- Thread `t` moves to `p` and waiter `w` to phase `q`, where only `t` can win or lose the
waiter and its roles for the others stay as they are. -/
theorem Shape.move (h : Shape s phase) (hpc : s'.pc = update s.pc t p)
    (hown : ∀ u r, u ≠ t → (q = .by u r ↔ phase w = .by u r))
    (hact : ∀ x, (s'.waiter x).action = (s.waiter x).action ∨ x = w ∧ phase w = .fresh)
    (hrole : ∀ x ≠ w, p.role (s.waiter x).action x = (s.pc t).role (s.waiter x).action x)
    (hrolew : ∀ r, q = .by t r ↔ p.role (s'.waiter w).action w = some r)
    (haction : ∀ a, ∀ x ∈ p.completed a, (s'.waiter x).action = a) (hnodup : ∀ a, (p.completed a).Nodup)
    (hapart : ∀ a x r, p.current = some (x,r) → x ∉ p.completed a)
    (hfresh : ∀ x, update phase w q x = .fresh ↔ x ∉ s'.allocated)
    (hqueued : ∀ x, update phase w q x = .queued ↔ x ∈ s'.waitHead) (hqueue : s'.waitHead.Nodup)
    (hlock : ∀ u, s'.lock = some u ↔ (update s.pc t p u).locked = true)
    (href : ∀ u x, s'.ref x = .putting u ↔ (update s.pc t p u).refOf = some x)
    (hsync : ∀ v ∈ p.sync, v ≤ s'.now) (hnow : s.now ≤ s'.now) : Shape s' (update phase w q) := by
  refine ⟨hfresh,hqueued,hqueue,?_,?_,?_,?_,?_,?_,?_⟩
  · intro u x r
    rw [hpc]
    by_cases hu : u = t
    · subst hu
      rw [update_self]
      by_cases hx : x = w
      · subst hx
        rw [update_self]
        exact hrolew r
      have hsame := (hact x).resolve_right fun he => hx he.1
      rw [update_of_ne hx,hsame,hrole x hx]
      exact h.role u x r
    rw [update_of_ne hu]
    rcases hact x with hsame | ⟨rfl,hfr⟩
    · rw [hsame,← h.role u x r]
      by_cases hx : x = w
      · subst hx
        rw [update_self]
        exact hown u r hu
      · rw [update_of_ne hx]
    have hfree : ∀ r, phase x ≠ .by u r := by
      intro r hr
      exact nomatch hfr.symm.trans hr
    rw [update_self,h.role_none hfree,hown u r hu]
    constructor
    · intro hr
      exact absurd hr (hfree r)
    intro hn
    cases hn
  · intro u a x hx
    rw [hpc] at hx
    by_cases hu : u = t
    · subst hu
      rw [update_self] at hx
      exact haction a x hx
    rw [update_of_ne hu] at hx
    rcases hact x with hsame | ⟨rfl,hfr⟩
    · rw [hsame]
      exact h.action u a x hx
    · exact nomatch hfr.symm.trans (h.role_of_completed hx)
  · intro u a
    rw [hpc]
    by_cases hu : u = t
    · subst hu
      rw [update_self]
      exact hnodup a
    rw [update_of_ne hu]
    exact h.nodup u a
  · intro u a x r
    rw [hpc]
    by_cases hu : u = t
    · subst hu
      rw [update_self]
      exact hapart a x r
    rw [update_of_ne hu]
    exact h.apart u a x r
  · intro u
    rw [hpc]
    exact hlock u
  · intro u x
    rw [hpc]
    exact href u x
  intro u v hv
  rw [hpc] at hv
  by_cases hu : u = t
  · subst hu
    rw [update_self] at hv
    exact hsync v hv
  rw [update_of_ne hu] at hv
  exact (h.sync u v hv).trans hnow

lemma Local.mono {begun now now' : Nat} (h : Local x ref begun now ph) (hle : now ≤ now') :
    Local x ref begun now' ph := by
  have hreached : Reached now x → Reached now' x := fun hx => ⟨hx.1.trans hle,hx.2⟩
  cases ph with
  | «by» t r =>
    cases r with
    | completed | handling => exact ⟨h.1,h.2.1,h.2.2.1,hreached h.2.2.2⟩
    | adding => exact h
    | dropping => exact h
    | handled => exact h
  | fresh => exact h
  | queued => exact h
  | gone => exact h
  | failed => exact h

lemma Local.of_ref {y : Waiter} {ref' : Ref} {begun now : Nat} (h : Local x ref begun now ph)
    (hold : ref ≠ .none ∧ ref ≠ .promised) (hnew : ref' ≠ .none ∧ ref' ≠ .promised)
    (hsame : y.state = x.state ∧ y.count = x.count ∧ y.thresh = x.thresh ∧ y.removedAt = x.removedAt) :
    Local y ref' begun now ph := by
  cases ph with
  | «by» t r => cases r <;> simp_all [Local,Reached]
  | _ => simp_all [Local]

lemma sum_change {ids : Finset WaiterId} {f g : WaiterId → Nat} (hw : w ∈ ids)
    (hsame : ∀ x ≠ w, g x = f x) : ∑ x ∈ ids, g x+f w = ∑ x ∈ ids, f x+g w := by
  rw [← Finset.add_sum_erase ids g hw,← Finset.add_sum_erase ids f hw]
  have hrest : ∑ x ∈ ids.erase w, g x = ∑ x ∈ ids.erase w, f x :=
    Finset.sum_congr rfl fun x hx => hsame x (Finset.ne_of_mem_erase hx)
  omega

/-- The rest of the invariant, when only `w` changes. -/
theorem Inv.move (h : Inv s phase) (hshape : Shape s' (update phase w q))
    (hpc : s'.pc = update s.pc t p) (hnow : s.now ≤ s'.now)
    (hothers : ∀ x ≠ w, s'.waiter x = s.waiter x ∧ s'.ref x = s.ref x ∧ s'.freed x = s.freed x
      ∧ s'.begun x = s.begun x) (hlocal : Local (s'.waiter w) (s'.ref w) (s'.begun w) s'.now q)
    (hcounted : Counted (s'.waiter w) (s'.ref w) (s'.freed w) q)
    (hnoRef : (s'.waiter w).action = .submitComplete ∨ (s'.waiter w).action = .ctxsave → s'.ref w
      = .none) (hsettled : Settled (s.waiter w).state → phase w ≠ .fresh → Settled (s'.waiter w).state)
    (hpassed : ∀ x, p.passed = some x → Settled (s'.waiter x).state)
    (hreturned : s'.ref w = .returned → Settled (s'.waiter w).state) (hwarned : s'.warned = false)
    (hsum : s'.executed + ∑ x ∈ s'.allocated, owed (s'.waiter x) (update phase w q x) =
      s'.removed) : Inv s' (update phase w q) := by
  refine ⟨hshape,?_,?_,?_,?_,?_,hwarned,hsum⟩
  · intro x
    by_cases hx : x = w
    · subst hx
      rw [update_self]
      exact hlocal
    obtain ⟨hwt,href,_,hbegun⟩ := hothers x hx
    rw [update_of_ne hx,hwt,href,hbegun]
    exact (h.waiters x).mono hnow
  · intro x
    by_cases hx : x = w
    · subst hx
      rw [update_self]
      exact hcounted
    obtain ⟨hwt,href,hfreed,_⟩ := hothers x hx
    rw [update_of_ne hx,hwt,href,hfreed]
    exact h.counted x
  · intro x
    by_cases hx : x = w
    · subst hx
      exact hnoRef
    obtain ⟨hwt,href,_,_⟩ := hothers x hx
    rw [hwt,href]
    exact h.noRef x
  · intro u x hx
    rw [hpc] at hx
    by_cases hu : u = t
    · subst hu
      rw [update_self] at hx
      exact hpassed x hx
    rw [update_of_ne hu] at hx
    have hold := h.passed u x hx
    by_cases hxw : x = w
    · subst hxw
      refine hsettled hold fun hfr => ?_
      -- a fresh waiter has no reference to give back
      have hput := (h.ref u x).mpr (Pc.refOf_of_passed hx)
      have hnone := (hfr ▸ h.waiters x : Local _ _ _ _ .fresh).1
      exact nomatch hput.symm.trans hnone
    rw [(hothers x hxw).1]
    exact hold
  intro x hx
  by_cases hxw : x = w
  · subst hxw
    exact hreturned hx
  rw [(hothers x hxw).2.1] at hx
  rw [(hothers x hxw).1]
  exact h.returned x hx

lemma Inv.sum_move (h : Inv s phase) (halloc : s'.allocated = s.allocated)
    (hothers : ∀ x ≠ w, s'.waiter x = s.waiter x)
    (hout : w ∉ s.allocated → s'.executed+s.removed = s.executed+s'.removed)
    (hsum : s'.executed+owed (s'.waiter w) q+s.removed = s.executed+owed (s.waiter w) (phase
      w)+s'.removed) : s'.executed + ∑ x ∈ s'.allocated, owed (s'.waiter x) (update phase w q x) = s'.removed := by
  have hold := h.sum
  have hsame : ∀ x ≠ w, owed (s'.waiter x) (update phase w q x) = owed (s.waiter x) (phase x) := by
    intro x hx
    rw [update_of_ne hx,hothers x hx]
  rw [halloc]
  by_cases hw : w ∈ s.allocated
  · have hchange := sum_change hw hsame
    rw [update_self] at hchange
    omega
  have hrest : ∑ x ∈ s.allocated, owed (s'.waiter x) (update phase w q x) =
      ∑ x ∈ s.allocated, owed (s.waiter x) (phase x) :=
    Finset.sum_congr rfl fun x hx => hsame x fun he => hw (he ▸ hx)
  have hbalance := hout hw
  omega

lemma update_eq_iff {ph : Phase} (hw : phase w ≠ ph) (hq : q ≠ ph) {x : WaiterId} :
    update phase w q x = ph ↔ phase x = ph := by
  by_cases hx : x = w
  · subst hx
    rw [update_self]
    exact iff_of_false hq hw
  · rw [update_of_ne hx]

section
variable (h : Shape s phase)
include h

lemma Shape.lock_same (hp : p.locked = (s.pc t).locked) :
    ∀ u, s.lock = some u ↔ (update s.pc t p u).locked = true := by
  exact (forall_update_iff _ fun u (q : Pc) => s.lock = some u ↔ q.locked = true).mpr
    ⟨by rw [hp]; exact h.lock t,fun u _ => h.lock u⟩

lemma Shape.ref_same {ref : WaiterId → Ref} (hp : p.refOf = (s.pc t).refOf)
    (href : ∀ u x, ref x = .putting u ↔ s.ref x = .putting u) :
    ∀ u x, ref x = .putting u ↔ (update s.pc t p u).refOf = some x := by
  intro u x
  rw [href]
  by_cases hu : u = t
  · subst hu
    rw [update_self,hp]
    exact h.ref u x
  rw [update_of_ne hu]
  exact h.ref u x

lemma Shape.fresh_same (hw : phase w ≠ .fresh) (hq : q ≠ .fresh) :
    ∀ x, update phase w q x = .fresh ↔ x ∉ s.allocated := by
  intro x
  rw [update_eq_iff hw hq,h.fresh]

lemma Shape.queued_same (hw : phase w ≠ .queued) (hq : q ≠ .queued) :
    ∀ x, update phase w q x = .queued ↔ x ∈ s.waitHead := by
  intro x
  rw [update_eq_iff hw hq,h.queued]

/-- The reference to `w`, when only thread `t` has to do with it. -/
theorem Shape.ref_update {r : Ref} (hw : ∀ u, s.ref w = .putting u → u = t)
    (hfrom : ∀ x, (s.pc t).refOf = some x → x = w) (hto : ∀ x, p.refOf = some x → x = w)
    (hr : ∀ u, r = .putting u ↔ u = t ∧ p.refOf = some w) : ∀ u x, update s.ref w r x = .putting u ↔
      (update s.pc t p u).refOf = some x := by
  intro u x
  have hold := h.ref u x
  by_cases hx : x = w
  · subst hx
    rw [update_self,hr]
    by_cases hu : u = t
    · subst hu
      rw [update_self]
      exact and_iff_right rfl
    rw [update_of_ne hu,← hold]
    constructor
    · intro hut
      exact absurd hut.1 hu
    intro hput
    exact absurd (hw u hput) hu
  rw [update_of_ne hx,hold]
  by_cases hu : u = t
  · subst hu
    rw [update_self]
    constructor
    · intro hput
      exact absurd (hfrom x hput) hx
    intro hput
    exact absurd (hto x hput) hx
  · rw [update_of_ne hu]

end

/-- A thread moves on with the same waiters in hand; what it does to `w` leaves it in its
phase. -/
theorem Inv.keep (h : Inv s phase) (hpc : s'.pc = update s.pc t p)
    (hcompleted : p.completed = (s.pc t).completed) (hcurrent : p.current = (s.pc t).current)
    (halloc : s'.allocated = s.allocated) (hqueue : s'.waitHead = s.waitHead)
    (hact : (s'.waiter w).action = (s.waiter w).action)
    (hcount : (s'.waiter w).count = (s.waiter w).count) (hexecuted : s'.executed = s.executed)
    (hremoved : s'.removed = s.removed) (hlock : ∀ u, s'.lock = some u ↔ (update s.pc t p u).locked = true)
    (href : ∀ u x, s'.ref x = .putting u ↔ (update s.pc t p u).refOf = some x)
    (hsync : ∀ v ∈ p.sync, v ≤ s'.now) (hnow : s.now ≤ s'.now)
    (hothers : ∀ x ≠ w, s'.waiter x = s.waiter x ∧ s'.ref x = s.ref x ∧ s'.freed x = s.freed x
      ∧ s'.begun x = s.begun x) (hlocal : Local (s'.waiter w) (s'.ref w) (s'.begun w) s'.now (phase w))
    (hcounted : Counted (s'.waiter w) (s'.ref w) (s'.freed w) (phase w))
    (hnoRef : (s'.waiter w).action = .submitComplete ∨ (s'.waiter w).action = .ctxsave → s'.ref w
      = .none) (hsettled : Settled (s.waiter w).state → phase w ≠ .fresh → Settled (s'.waiter w).state)
    (hpassed : ∀ x, p.passed = some x → Settled (s'.waiter x).state)
    (hreturned : s'.ref w = .returned → Settled (s'.waiter w).state) (hwarned : s'.warned = false) :
    Inv s' phase := by
  have hrole : ∀ a x, p.role a x = (s.pc t).role a x := by
    intro a x
    rw [Pc.role,Pc.role,hcompleted,hcurrent]
  have hacts : ∀ x, (s'.waiter x).action = (s.waiter x).action := by
    intro x
    by_cases hx : x = w
    · rw [hx,hact]
    · rw [(hothers x hx).1]
  have hself := update_eq_self w phase
  rw [← hself]
  refine h.move (h.toShape.move hpc ?_ ?_ ?_ ?_ ?_ ?_ ?_ ?_ ?_ ?_ hlock href hsync hnow) hpc hnow
    hothers hlocal hcounted hnoRef hsettled hpassed hreturned hwarned ?_
  · intro u r _
    exact Iff.rfl
  · intro x
    exact .inl (hacts x)
  · intro x _
    exact hrole _ x
  · intro r
    rw [hrole,hact]
    exact h.role t w r
  · intro a x hx
    rw [hacts]
    exact h.action t a x (hcompleted ▸ hx)
  · intro a
    rw [hcompleted]
    exact h.nodup t a
  · intro a x r hx
    rw [hcompleted]
    exact h.apart t a x r (hcurrent ▸ hx)
  · intro x
    rw [hself,halloc]
    exact h.fresh x
  · intro x
    rw [hself,hqueue]
    exact h.queued x
  · rw [hqueue]
    exact h.queue
  refine h.sum_move halloc (fun x hx => (hothers x hx).1) (fun _ => ?_) ?_
  · rw [hexecuted,hremoved]
  have howed : owed (s'.waiter w) (phase w) = owed (s.waiter w) (phase w) := by
    unfold owed
    rw [hact,hcount]
  rw [hexecuted,hremoved,howed]

lemma Inv.goto (h : Inv s phase) (hpc : s'.pc = update s.pc t p)
    (hsame : s' = {s with pc := s'.pc, lock := s'.lock, irqRequested := s'.irqRequested})
    (hcompleted : p.completed = (s.pc t).completed) (hcurrent : p.current = (s.pc t).current)
    (hlock : ∀ u, s'.lock = some u ↔ (update s.pc t p u).locked = true)
    (hrefOf : p.refOf = (s.pc t).refOf) (hsync : ∀ v ∈ p.sync, v ≤ s.now)
    (hpassed : ∀ x, p.passed = some x → Settled (s.waiter x).state) : Inv s' phase := by
  obtain ⟨now,irq,lock,queue,waiter,allocated,ref,pc,freed,begun,warned,executed, removed⟩ := s'
  cases hsame
  refine h.keep hpc hcompleted hcurrent rfl rfl rfl rfl rfl rfl hlock
    (h.ref_same hrefOf fun _ _ => Iff.rfl) hsync le_rfl (fun x _ => ⟨rfl,rfl,rfl,rfl⟩)
    (h.waiters 0) (h.counted 0) (h.noRef 0) (fun hs _ => hs) hpassed (h.returned 0) h.warned

attribute [local simp] Pc.completed Pc.current Pc.locked Pc.refOf Pc.sync Pc.passed
  Process.completed Process.current Process.locked Process.sync Caller.refOf Syncpt.goto

variable {s : Syncpt} {phase : WaiterId → Phase} {t : ThreadId} {w : WaiterId}

lemma Inv.tick (h : Inv s phase) (k : Nat) : Inv {s with now := s.now+k} phase := by
  have hle : s.now ≤ s.now+k := Nat.le_add_right _ _
  refine ⟨⟨h.fresh,h.queued,h.queue,h.role,h.action,h.nodup,h.apart,h.lock,h.ref,?_⟩,
    ?_,h.counted,h.noRef,h.passed,h.returned,h.warned,h.sum⟩
  · intro u v hv
    exact (h.sync u v hv).trans hle
  intro x
  exact (h.waiters x).mono hle

lemma Inv.noIrq (h : Inv s phase) (hp : s.pc t = .adding w) : Inv (s.goto t (.requestIrq w)) phase := by
  refine h.goto rfl rfl ?_ ?_ (h.lock_same ?_) ?_ ?_ ?_
  all_goals simp [hp]

lemma Inv.irqOk (h : Inv s phase) (hp : s.pc t = .requestIrq w) :
    Inv ({s with irqRequested := true}.goto t (.relock w)) phase := by
  refine h.goto rfl rfl ?_ ?_ (h.lock_same ?_) ?_ ?_ ?_
  all_goals simp [hp]

lemma Inv.interrupt (h : Inv s phase) (hp : s.pc t = .idle) : Inv (s.goto t (.process .irq .read)) phase := by
  refine h.goto rfl rfl ?_ ?_ (h.lock_same ?_) ?_ ?_ ?_
  all_goals simp [hp]

variable {k : Caller} {completed : Completed}

section
variable (h : Inv s phase)
include h

lemma Inv.read (hp : s.pc t = .process k .read) : Inv (s.goto t (.process k (.enter s.now))) phase := by
  have hpassed := h.passed t
  rw [hp] at hpassed
  refine h.goto rfl rfl ?_ ?_ (h.lock_same ?_) ?_ ?_ hpassed
  all_goals simp [hp]

lemma Inv.irqDone (hp : s.pc t = .process .irq (.run completed))
    (hempty : ∀ a, completed a = []) : Inv (s.goto t .idle) phase := by
  refine h.goto rfl rfl ?_ ?_ (h.lock_same ?_) ?_ ?_ ?_
  case refine_1 =>
    funext a
    simp [hp,hempty]
  all_goals simp [hp]

lemma Inv.processed (hp : s.pc t = .process (.putRef w) (.run completed))
    (hempty : ∀ a, completed a = []) : Inv (s.goto t (.putRef w)) phase := by
  have hpassed := h.passed t
  rw [hp] at hpassed
  refine h.goto rfl rfl ?_ ?_ (h.lock_same ?_) ?_ ?_ hpassed
  case refine_1 =>
    funext a
    simp [hp,hempty]
  all_goals simp [hp]

lemma Inv.settled_of_refOf (href : (s.pc t).refOf = some w)
    (hpending : (s.waiter w).state ≠ .pending) (hremoved : (s.waiter w).state ≠ .removed) :
    Settled (s.waiter w).state := by
  have hput := (h.ref t w).mpr href
  have hlocal := h.waiters w
  rw [hput] at hlocal
  cases hph : phase w with
  | «by» u r =>
    rw [hph] at hlocal
    cases r with
    | adding => exact absurd hlocal.1 hpending
    | completed => exact absurd hlocal.1 hremoved
    | dropping => exact .inr (hlocal.1.resolve_right fun hr => hremoved hr.1)
    | handling => exact absurd hlocal.1 hremoved
    | handled => exact .inr hlocal.1
  | fresh | failed => rw [hph] at hlocal; cases hlocal.1
  | queued =>
    rw [hph] at hlocal
    exact .inl (hlocal.1.resolve_left hpending).1
  | gone =>
    rw [hph] at hlocal
    exact .inr (hlocal.1.resolve_right fun hr => hremoved hr.1)

lemma Inv.spinDone (hp : s.pc t = .spin w) (hpending : (s.waiter w).state ≠ .pending)
    (hremoved : (s.waiter w).state ≠ .removed) : Inv (s.goto t (.process (.putRef w) .read)) phase := by
  refine h.goto rfl rfl ?_ ?_ (h.lock_same ?_) ?_ ?_ ?_
  case refine_6 =>
    intro x hx
    cases hx
    exact h.settled_of_refOf (by rw [hp]; rfl) hpending hremoved
  all_goals simp [hp]

lemma Inv.enter {sync : Nat} (hp : s.pc t = .process k (.enter sync)) (hfree : s.lock = none) :
    Inv ({s with lock := some t}.goto t (.process k (.scan sync fun _ => []))) phase := by
  have hpassed := h.passed t
  have hsync := h.sync t
  rw [hp] at hpassed hsync
  refine h.goto rfl rfl ?_ ?_ ?_ ?_ hsync hpassed
  case refine_3 =>
    intro u
    by_cases hu : u = t
    · simp [hu]
    have hnot := h.lock u
    rw [hfree] at hnot
    rw [update_of_ne hu,← hnot]
    simp [Ne.symm hu]
  all_goals simp [hp]

lemma Inv.leave {sync : Nat} (hp : s.pc t = .process k (.scan sync completed)) :
    Inv ({s with lock := none}.goto t (.process k (.run completed))) phase := by
  have hpassed := h.passed t
  rw [hp] at hpassed
  refine h.goto rfl rfl ?_ ?_ ?_ ?_ ?_ hpassed
  case refine_3 =>
    intro u
    by_cases hu : u = t
    · simp [hu]
    have hheld : s.lock = some t := (h.lock t).mpr (by rw [hp]; rfl)
    have hnot := h.lock u
    rw [hheld] at hnot
    rw [update_of_ne hu,← hnot]
    simp [Ne.symm hu]
  all_goals simp [hp]

end

lemma krefPut_waiter (s : Syncpt) (w : WaiterId) : (s.krefPut w).waiter =
    update s.waiter w {s.waiter w with refcount := (s.waiter w).refcount - 1} := rfl

lemma krefPut_begun (s : Syncpt) (w : WaiterId) : (s.krefPut w).begun = s.begun := rfl

lemma krefPut_freed (s : Syncpt) (w : WaiterId) : (s.krefPut w).freed = update s.freed w
      (if (s.waiter w).refcount = 1 then s.freed w+1 else s.freed w) := by
  unfold Syncpt.krefPut
  split
  · rfl
  · rw [update_eq_self]

lemma Inv.callPut (h : Inv s phase) (hp : s.pc t = .idle) (hheld : s.ref w = .held) :
    Inv ({s with ref := update s.ref w (.putting t)}.goto t (.spin w)) phase := by
  have hlocal := h.waiters w
  have hcounted := h.counted w
  rw [hheld] at hlocal hcounted
  refine h.keep (w := w) rfl ?_ ?_ rfl rfl rfl rfl rfl rfl (h.lock_same ?_) ?_ ?_ le_rfl
    ?_ ?_ ?_ ?_ ?_ ?_ ?_ h.warned
  case refine_4 => exact h.ref_update (by simp [hheld]) (by simp [hp]) (by simp) (by simp [eq_comm])
  case refine_6 =>
    intro x hx
    simp [update_of_ne hx]
  case refine_7 =>
    simp only [Syncpt.goto,update_self]
    exact hlocal.of_ref (by simp) (by simp) ⟨rfl,rfl,rfl,rfl⟩
  case refine_8 =>
    simp only [Syncpt.goto,update_self]
    cases hph : phase w <;> rw [hph] at hcounted <;> exact hcounted
  case refine_9 =>
    intro ha
    exact nomatch hheld.symm.trans (h.noRef w ha)
  case refine_10 => exact fun hs _ => hs
  all_goals simp [hp]

lemma Inv.ref_of_refOf (h : Inv s phase) (href : (s.pc t).refOf = some w) :
    s.ref w = .putting t ∧ phase w ≠ .fresh ∧ phase w ≠ .failed ∧ ∀ u, phase w ≠ .by u .adding := by
  have hput := (h.ref t w).mpr href
  have hlocal := h.waiters w
  rw [hput] at hlocal
  refine ⟨hput,?_,?_,?_⟩
  iterate 2
    intro hph
    rw [hph] at hlocal
    cases hlocal.1
  intro u hph
  rw [hph] at hlocal
  rcases hlocal.2.2.2 with hr | hr <;> cases hr

lemma Inv.cancel (h : Inv s phase) (hp : s.pc t = .spin w) (hpending : (s.waiter w).state = .pending) :
    Inv ((s.setState w .cancelled).goto t (.process (.putRef w) .read)) phase := by
  obtain ⟨hput,hfresh,hfailed,hadding⟩ := h.ref_of_refOf (t := t) (w := w) (by rw [hp]; rfl)
  have hlocal := h.waiters w
  have hcounted := h.counted w
  have hph : phase w = .queued := by
    cases hph : phase w with
    | queued => rfl
    | fresh => exact absurd hph hfresh
    | failed => exact absurd hph hfailed
    | gone =>
      rw [hph] at hlocal
      rcases hlocal.1 with hs | ⟨hs,_⟩ <;> cases hpending.symm.trans hs
    | «by» u r =>
      rw [hph] at hlocal
      cases r with
      | adding => exact absurd hph (hadding u)
      | dropping => rcases hlocal.1 with hs | ⟨hs,_⟩ <;> cases hpending.symm.trans hs
      | _ => cases hpending.symm.trans hlocal.1
  refine h.keep (w := w) rfl ?_ ?_ rfl rfl ?_ ?_ rfl rfl (h.lock_same ?_)
    (h.ref_same ?_ fun _ _ => Iff.rfl) ?_ le_rfl ?_ ?_ ?_ ?_ ?_ ?_ ?_ h.warned
  case refine_8 =>
    intro x hx
    simp [Syncpt.setState,update_of_ne hx]
  case refine_9 =>
    rw [hph] at hlocal ⊢
    simp only [Syncpt.goto,Syncpt.setState,update_self]
    exact ⟨.inr ⟨rfl,by rw [hput]; simp⟩,hlocal.2⟩
  case refine_10 =>
    simp only [Syncpt.goto,Syncpt.setState,update_self]
    exact hcounted
  case refine_11 =>
    intro ha
    simp only [Syncpt.goto,Syncpt.setState,update_self] at ha ⊢
    exact h.noRef w ha
  all_goals simp [hp,Syncpt.setState,Settled]

lemma Inv.returnRef (h : Inv s phase) (hp : s.pc t = .putRef w) :
    Inv ({s.krefPut w with ref := update s.ref w .returned}.goto t .idle) phase := by
  obtain ⟨hput,hfresh,hfailed,-⟩ := h.ref_of_refOf (t := t) (w := w) (by rw [hp]; rfl)
  have hsettled : Settled (s.waiter w).state := h.passed t w (by rw [hp]; rfl)
  have hlocal := h.waiters w
  have hcounted := h.counted w
  refine h.keep (w := w) rfl ?_ ?_ rfl rfl ?_ ?_ rfl rfl (h.lock_same ?_) ?_ ?_ le_rfl ?_ ?_ ?_ ?_ ?_ ?_ ?_ h.warned
  case refine_6 => exact h.ref_update (by simp [hput]) (by simp [hp]) (by simp) (by simp)
  case refine_8 =>
    intro x hx
    simp [krefPut_waiter,krefPut_freed,krefPut_begun,hx]
  case refine_9 =>
    rw [hput] at hlocal
    simp only [Syncpt.goto,Syncpt.krefPut,update_self]
    exact hlocal.of_ref (by simp) (by simp) ⟨rfl,rfl,rfl,rfl⟩
  case refine_10 =>
    rw [hput] at hcounted
    have hreturned := hcounted.returned hfresh hfailed
    simpa only [Syncpt.goto,krefPut_waiter,krefPut_freed,update_self] using hreturned
  case refine_11 =>
    intro ha
    simp only [Syncpt.goto,Syncpt.krefPut,update_self] at ha ⊢
    exact nomatch hput.symm.trans (h.noRef w ha)
  all_goals simp [hp,Syncpt.krefPut,hsettled]

lemma Inv.add (h : Inv s phase) (thresh : Nat) (action : IntrAction) (data : Nat) (ref : Bool)
    (hp : s.pc t = .idle) (hnew : w ∉ s.allocated)
    (hnoRef : action = .submitComplete ∨ action = .ctxsave → ref = false) : Inv ({s with
      allocated := insert w s.allocated
      waiter := update s.waiter w (newWaiter thresh action data ref)
      ref := update s.ref w (if ref then .promised else .none)}.goto t (.adding w))
      (update phase w (.by t .adding)) := by
  have hfresh : phase w = .fresh := (h.fresh w).mpr hnew
  obtain ⟨hlocal,hcounted⟩ := h.at_phase hfresh
  refine h.move ?shape rfl le_rfl ?_ ?_ ?_ ?_ ?_ ?_ ?_ h.warned ?_
  case shape =>
    refine h.toShape.move rfl ?_ ?_ ?_ ?_ ?_ ?_ ?_ ?_ ?_ h.queue (h.lock_same ?_)
      (h.ref_update ?_ ?_ ?_ ?_) ?_ le_rfl
    case refine_1 =>
      intro u r hu
      simp [hfresh,hu.symm]
    case refine_2 =>
      intro x
      by_cases hx : x = w
      · exact .inr ⟨hx,hfresh⟩
      · exact .inl (by simp [hx])
    case refine_3 =>
      intro x hx
      simp [Pc.role,hp,hx.symm]
    case refine_8 =>
      intro x
      by_cases hx : x = w
      · simp [hx]
      · simpa [hx] using h.fresh x
    case refine_9 =>
      intro x
      by_cases hx : x = w
      · subst hx
        have hout := h.queued x
        rw [hfresh] at hout
        simpa using hout
      · simpa [hx] using h.queued x
    case refine_10 => simp [hp]
    case refine_11 => simp [hlocal.1]
    all_goals simp [hp,Pc.role]
    cases ref <;> simp
  case refine_1 =>
    intro x hx
    simp [hx]
  case refine_2 => cases ref <;> simp [Local,newWaiter,hlocal.2]
  case refine_3 =>
    have hfreed : s.freed w = 0 := hcounted
    rw [counted_by]
    cases ref <;> simp [newWaiter,Ref.refs,hfreed]
  case refine_4 =>
    intro ha
    simp only [Syncpt.goto,update_self] at ha ⊢
    rw [hnoRef ha]
    rfl
  case refine_5 => exact fun _ hne => absurd hfresh hne
  case refine_7 =>
    intro hr
    cases ref <;> simp at hr
  case refine_8 =>
    have hold := h.sum
    simp only [Syncpt.goto]
    rw [Finset.sum_insert hnew,update_self]
    have hrest : ∑ x ∈ s.allocated, owed (update s.waiter w (newWaiter thresh action data ref) x)
        (update phase w (.by t .adding) x) =
        ∑ x ∈ s.allocated, owed (s.waiter x) (phase x) := by
      refine Finset.sum_congr rfl fun x hx => ?_
      have hne : x ≠ w := fun he => hnew (he ▸ hx)
      rw [update_of_ne hne,update_of_ne hne]
    rw [hrest]
    simpa [owed] using hold
  all_goals simp

lemma insert_ref (s : Syncpt) (w : WaiterId) : (s.insert w).ref =
    update s.ref w (if s.ref w = .promised then .held else s.ref w) := by
  unfold Syncpt.insert
  split
  · rfl
  · rw [update_eq_self]

lemma Inv.insert (h : Inv s phase) (hp : s.pc t = .adding w ∨ s.pc t = .relock w) :
    Inv ((s.insert w).goto t .idle) (update phase w .queued) := by
  have hph : phase w = .by t .adding := h.role_of_current (by rcases hp with hp | hp <;> rw [hp] <;> rfl)
  obtain ⟨⟨hpending,hcount,hbegun,href⟩,hcounted⟩ := h.at_phase hph
  have hperm : (addWaiterToQueue s.waiter w s.waitHead).Perm (w::s.waitHead) := by
    refine List.perm_middle.trans ?_
    rw [List.take_append_drop]
  have hout : w ∉ s.waitHead := by
    rw [← h.queued,hph]
    simp
  refine h.move ?shape rfl le_rfl ?_ ?_ ?_ ?_ ?_ ?_ ?_ h.warned (h.sum_move rfl ?_ ?_ ?_)
  case shape =>
    refine h.toShape.move rfl ?_ ?_ ?_ ?_ ?_ ?_ ?_ (h.fresh_same ?_ ?_) ?_ ?_ (h.lock_same ?_)
      (h.ref_same ?_ ?_) ?_ le_rfl
    case refine_1 =>
      intro u r hu
      simp [hph,hu.symm]
    case refine_2 => exact fun x => .inl rfl
    case refine_3 =>
      intro x hx
      rcases hp with hp | hp <;> simp [Pc.role,hp,hx.symm]
    case refine_10 =>
      intro x
      rw [show ((s.insert w).goto t .idle).waitHead = addWaiterToQueue s.waiter w s.waitHead
        from rfl,hperm.mem_iff,List.mem_cons,← h.queued x]
      by_cases hx : x = w <;> simp [hx]
    case refine_11 => exact hperm.nodup_iff.mpr (List.nodup_cons.mpr ⟨hout,h.queue⟩)
    case refine_14 =>
      intro u x
      simp only [Syncpt.goto,insert_ref]
      by_cases hx : x = w
      · subst hx
        rcases href with hr | hr <;> simp [hr]
      · rw [update_of_ne hx]
    case refine_12 => rcases hp with hp | hp <;> simp [hp]
    case refine_13 => rcases hp with hp | hp <;> simp [hp]
    all_goals simp [Pc.role,hph]
  case refine_1 =>
    intro x hx
    refine ⟨rfl,?_,rfl,rfl⟩
    simp only [Syncpt.goto,insert_ref,update_of_ne hx]
  case refine_2 =>
    simp only [Syncpt.goto,insert_ref,update_self]
    refine ⟨.inl hpending,hcount,hbegun,?_⟩
    rcases href with hr | hr <;> simp [hr]
  case refine_3 =>
    simp only [Syncpt.goto,insert_ref,update_self,counted_queued]
    have hheld := counted_by.mp hcounted
    rcases href with hr | hr <;> rw [hr] at hheld ⊢ <;> exact hheld
  case refine_4 =>
    intro ha
    have hnone := h.noRef w ha
    simp only [Syncpt.goto,insert_ref,update_self,hnone]
    rfl
  case refine_5 => exact fun hs _ => hs
  case refine_6 => simp
  case refine_7 =>
    simp only [Syncpt.goto,insert_ref,update_self]
    rcases href with hr | hr <;> simp [hr]
  case refine_8 => exact fun x _ => rfl
  case refine_9 => exact fun _ => rfl
  case refine_10 =>
    rw [hph]
    rfl

lemma Inv.irqFailed (h : Inv s phase) (hp : s.pc t = .requestIrq w) : Inv ({s with
      freed := update s.freed w (s.freed w+1)
      ref := update s.ref w .none}.goto t .idle) (update phase w .failed) := by
  have hph : phase w = .by t .adding := h.role_of_current (by rw [hp]; rfl)
  obtain ⟨⟨hpending,hcount,hbegun,href⟩,hcounted⟩ := h.at_phase hph
  refine h.move ?shape rfl le_rfl ?_ ?_ ?_ ?_ ?_ ?_ ?_ h.warned (h.sum_move rfl ?_ ?_ ?_)
  case shape =>
    refine h.toShape.move rfl ?_ ?_ ?_ ?_ ?_ ?_ ?_ (h.fresh_same ?_ ?_) (h.queued_same ?_ ?_)
      h.queue (h.lock_same ?_) (h.ref_update ?_ ?_ ?_ ?_) ?_ le_rfl
    case refine_1 =>
      intro u r hu
      simp [hph,hu.symm]
    case refine_2 => exact fun x => .inl rfl
    case refine_3 =>
      intro x hx
      simp [Pc.role,hp,hx.symm]
    case refine_13 => rcases href with hr | hr <;> simp [hr]
    all_goals simp [Pc.role,hph,hp]
  case refine_1 =>
    intro x hx
    simp [hx]
  case refine_2 => simp [Local,hbegun]
  case refine_3 => simp [Counted,(counted_by.mp hcounted).2]
  case refine_5 => exact fun hs _ => hs
  case refine_8 => exact fun x _ => rfl
  case refine_9 => exact fun _ => rfl
  case refine_10 =>
    rw [hph]
    rfl
  all_goals simp

end LinuxToradex.Nvhost
