import LinuxToradex.Nvhost.WaitlistInv

/-! In every reachable state, over any interleaving, no handler runs early, twice or late, no warning is given,
and every waiter is freed once. -/
namespace LinuxToradex.Nvhost
open List Function

variable {k : Caller} {completed : Completed} {s' : Syncpt}

attribute [local simp] Pc.completed Pc.current Pc.locked Pc.refOf Pc.sync Pc.passed
  Process.completed Process.current Process.locked Process.sync Caller.refOf Syncpt.goto Syncpt.endHandler
  Syncpt.setState

variable {s : Syncpt} {phase : WaiterId → Phase} {t : ThreadId} {w : WaiterId}

/-- The waiter a thread has in hand changes its phase, the completed ones stay. -/
theorem Inv.shape_current (h : Inv s phase) {p : Pc} {q : Phase} (hpc : s'.pc = update s.pc t p)
    (hph : ∃ r, phase w = .by t r) (hq : q = .gone ∨ ∃ r, q = .by t r)
    (hact : ∀ x, (s'.waiter x).action = (s.waiter x).action)
    (hrole : ∀ x ≠ w, p.role (s.waiter x).action x = (s.pc t).role (s.waiter x).action x)
    (hrolew : ∀ r, q = .by t r ↔ p.role (s.waiter w).action w = some r)
    (hsub : ∀ a, (p.completed a).Sublist ((s.pc t).completed a))
    (hapart : ∀ a x r, p.current = some (x,r) → x ∉ p.completed a)
    (halloc : s'.allocated = s.allocated) (hqueue : s'.waitHead = s.waitHead)
    (hlock : s'.lock = s.lock) (hlocked : p.locked = (s.pc t).locked) (href : s'.ref = s.ref)
    (hrefOf : p.refOf = (s.pc t).refOf) (hnow : s'.now = s.now) (hsync : ∀ v ∈ p.sync, v ≤ s.now) :
    Shape s' (update phase w q) := by
  obtain ⟨r0,hph⟩ := hph
  refine h.toShape.move hpc ?_ (fun x => .inl (hact x)) hrole ?_ ?_ ?_ hapart ?_ ?_ ?_ ?_ ?_ ?_ ?_
  · intro u r hu
    rw [hph]
    rcases hq with rfl | ⟨r',rfl⟩ <;> simp [hu.symm]
  · rw [hact]
    exact hrolew
  · intro a x hx
    rw [hact]
    exact h.action t a x ((hsub a).subset hx)
  · intro a
    exact (h.nodup t a).sublist (hsub a)
  · rw [halloc]
    apply h.fresh_same
    · simp [hph]
    · rcases hq with rfl | ⟨r',rfl⟩ <;> simp
  · rw [hqueue]
    apply h.queued_same
    · simp [hph]
    · rcases hq with rfl | ⟨r',rfl⟩ <;> simp
  · rw [hqueue]
    exact h.queue
  · rw [hlock]
    exact h.lock_same hlocked
  · rw [href]
    exact h.ref_same hrefOf fun _ _ => Iff.rfl
  · rw [hnow]
    exact hsync
  · rw [hnow]

/-- The list's reference to the waiter in hand is put. -/
theorem Inv.krefPut {p : Pc} (h : Inv s phase) {r : Role} (hr : r = .dropping ∨ r = .handled)
    (hcur : (s.pc t).current = some (w,r)) (hnone : p.current = none)
    (hcompleted : p.completed = (s.pc t).completed) (hlocked : p.locked = (s.pc t).locked)
    (hrefOf : p.refOf = (s.pc t).refOf) (hpassed : p.passed = (s.pc t).passed)
    (hsync : ∀ v ∈ p.sync, v ≤ s.now) : Inv ((s.krefPut w).goto t p) (update phase w .gone) := by
  have hph : phase w = .by t r := h.role_of_current hcur
  obtain ⟨hlocal,hcounted⟩ := h.at_phase hph
  have hact : ∀ x, (((s.krefPut w).goto t p).waiter x).action = (s.waiter x).action := by
    intro x
    by_cases hx : x = w <;> simp [krefPut_waiter,hx]
  have hstate : ∀ x, (((s.krefPut w).goto t p).waiter x).state = (s.waiter x).state := by
    intro x
    by_cases hx : x = w <;> simp [krefPut_waiter,hx]
  refine h.move ?shape rfl le_rfl ?_ ?_ ?_ ?_ ?_ ?_ ?_ h.warned (h.sum_move rfl ?_ ?_ ?_)
  case shape =>
    refine h.shape_current rfl ⟨r,hph⟩ (.inl rfl) hact ?_ ?_ ?_ ?_ rfl rfl rfl hlocked rfl hrefOf rfl hsync
    · intro x hx
      rw [Pc.role,Pc.role,hnone,hcur,hcompleted]
      simp [hx.symm]
    · intro r'
      have hnot : w ∉ (s.pc t).completed (s.waiter w).action := h.apart t _ w r hcur
      rw [Pc.role,hnone,hcompleted]
      rw [if_neg hnot]
      simp
    · intro a
      rw [hcompleted]
    intro a x r' hx
    cases hnone.symm.trans hx
  · intro x hx
    simp [krefPut_waiter,krefPut_freed,krefPut_begun,hx]
    rfl
  · simp only [Syncpt.goto,krefPut_waiter,krefPut_begun,update_self]
    rcases hr with rfl | rfl
    · obtain ⟨hstate,hbegun,hpromised⟩ := hlocal
      exact ⟨hstate,by omega,hpromised⟩
    obtain ⟨hstate,hbegun,hpromised⟩ := hlocal
    exact ⟨.inl hstate,by omega,hpromised⟩
  · have hgone := hcounted.gone
    simp only [Syncpt.goto,krefPut_waiter,krefPut_freed,update_self]
    exact hgone
  · intro ha
    rw [hact] at ha
    exact h.noRef w ha
  · intro hs _
    rw [hstate]
    exact hs
  · intro x hx
    rw [hstate]
    exact h.passed t x (hpassed ▸ hx)
  · intro hr
    rw [hstate]
    exact h.returned w hr
  · intro x hx
    simp [krefPut_waiter,hx]
  · exact fun _ => rfl
  rw [hph]
  rcases hr with rfl | rfl <;> rfl

lemma Inv.handle {action : IntrAction} {rest : List WaiterId} (h : Inv s phase)
    (hp : s.pc t = .process k (.run completed)) (hw : completed action = w::rest) :
    Inv ((s.beginHandler w).goto t (.process k (.handling (update completed action rest) w)))
      (update phase w (.by t .handling)) := by
  have hcompleted : (s.pc t).completed = completed := by rw [hp]; rfl
  have hmem : w ∈ (s.pc t).completed action := by rw [hcompleted,hw]; exact mem_cons_self
  have hph : phase w = .by t .completed := h.role_of_completed hmem
  have hact : (s.waiter w).action = action := h.action t action w hmem
  have hnodup := h.nodup t action
  rw [hcompleted,hw,nodup_cons] at hnodup
  obtain ⟨hlocal,hcounted⟩ := h.at_phase hph
  have hsub : ∀ a, (update completed action rest a).Sublist (completed a) := by
    exact (forall_update_iff _ fun a l => List.Sublist l (completed a)).mpr
      ⟨hw ▸ sublist_cons_self w rest,fun a _ => List.Sublist.refl _⟩
  have hapart : ∀ a, w ∉ update completed action rest a := by
    intro a hin
    have ha : a = action := by
      rw [← hact]
      exact (h.action t a w (hcompleted ▸ (hsub a).subset hin)).symm
    subst ha
    rw [update_self] at hin
    exact hnodup.1 hin
  refine h.move ?shape rfl le_rfl ?_ ?_ ?_ (h.noRef w) (fun hs _ => hs) ?_ (h.returned w)
    h.warned (h.sum_move rfl (fun _ _ => rfl) ?_ ?_)
  case shape =>
    refine h.shape_current rfl ⟨_,hph⟩ (.inr ⟨_,rfl⟩) (fun x => rfl) ?_ ?_ ?_ ?_ rfl rfl rfl ?_
      rfl ?_ rfl ?_
    case refine_1 =>
      intro x hx
      have hiff : x ∈ update completed action rest (s.waiter x).action ↔ x ∈ completed (s.waiter x).action := by
        by_cases ha : (s.waiter x).action = action
        · rw [ha,update_self,hw,mem_cons,or_iff_right hx]
        · rw [update_of_ne ha]
      simp [Pc.role,hp,hx.symm,hiff]
    case refine_3 =>
      intro a
      rw [hcompleted]
      exact hsub a
    case refine_4 =>
      intro a x r hx
      cases hx
      exact hapart a
    all_goals simp [hp,Pc.role]
  · intro x hx
    simp [Syncpt.beginHandler,hx]
  · obtain ⟨hstate,hbegun,hpromised,hreached⟩ := hlocal
    simp only [Syncpt.goto,Syncpt.beginHandler,update_self,hbegun]
    exact ⟨hstate,rfl,hpromised,hreached⟩
  · exact counted_by.mpr (counted_by.mp hcounted)
  · intro x hx
    exact h.passed t x (by rw [hp]; exact hx)
  · intro hout
    exact absurd ((h.fresh w).mpr hout) (by simp [hph])
  rw [hph]
  simp only [Syncpt.goto,Syncpt.beginHandler,owed]
  omega

lemma Inv.handled (h : Inv s phase) (hp : s.pc t = .process k (.handling completed w)) :
    Inv ((s.endHandler w).goto t (.process k (.put completed w))) (update phase w (.by t .handled)) := by
  have hph : phase w = .by t .handling := h.role_of_current (by rw [hp]; rfl)
  obtain ⟨⟨hstate,hbegun,hpromised,-⟩,hcounted⟩ := h.at_phase hph
  have hapart := h.apart t
  rw [hp] at hapart
  refine h.move ?shape rfl le_rfl ?_ ?_ ?_ ?_ ?_ ?_ ?_ ?_ (h.sum_move rfl ?_ ?_ ?_)
  case shape =>
    refine h.shape_current rfl ⟨_,hph⟩ (.inr ⟨_,rfl⟩) ?_ ?_ ?_ ?_ ?_ rfl rfl rfl ?_ rfl ?_ rfl ?_
    case refine_1 =>
      intro x
      by_cases hx : x = w <;> simp [hx]
    case refine_2 =>
      intro x hx
      rw [hp]
      simp only [Pc.role,Pc.current,Process.current,if_neg hx.symm]
      rfl
    case refine_5 =>
      intro a x r hx
      cases hx
      exact hapart a w .handling rfl
    all_goals simp [hp,Pc.role]
  · intro x hx
    simp [hx]
  · simp only [Syncpt.goto,Syncpt.endHandler,Syncpt.setState,update_self]
    exact ⟨rfl,hbegun,hpromised⟩
  · simp only [Syncpt.goto,Syncpt.endHandler,Syncpt.setState,update_self]
    exact counted_by.mpr (counted_by.mp hcounted)
  · intro ha
    simp only [Syncpt.goto,Syncpt.endHandler,Syncpt.setState,update_self] at ha ⊢
    exact h.noRef w ha
  · intro _ _
    simp [Settled]
  · intro x hx
    by_cases hxw : x = w
    · simp [Settled,hxw]
    simpa [hxw] using h.passed t x (by rw [hp]; exact hx)
  · intro _
    simp [Settled]
  · simp [h.warned,hstate]
  · intro x hx
    simp [hx]
  · exact fun _ => rfl
  rw [hph]
  rfl

lemma consolidateWith_some {waiter : WaiterId → Waiter} {prev : WaiterId}
    (h : consolidateWith waiter completed w = some prev) :
    (waiter w).action = .submitComplete ∧ prev ∈ completed .submitComplete := by
  unfold consolidateWith at h
  split at h
  case isFalse => cases h
  case isTrue hact =>
    split at h
    · rename_i hlast
      split at h
      · cases h
        exact ⟨hact,mem_of_getLast? hlast⟩
      · cases h
    · cases h

/-- `prev->count++` for a completed submit waiter, which takes over what the removed one is
owed. -/
theorem Inv.consolidate (h : Inv s phase) (hph : phase w = .by t .completed)
    (hact : (s.waiter w).action = .submitComplete) : Inv {s with
      waiter := addCount s.waiter (some w)
      removed := s.removed+1} phase := by
  obtain ⟨hlocal,hcounted⟩ := h.at_phase hph
  have hacts : ∀ x, (addCount s.waiter (some w) x).action = (s.waiter x).action := by
    intro x
    by_cases hx : x = w <;> simp [addCount,hx]
  have hstates : ∀ x, (addCount s.waiter (some w) x).state = (s.waiter x).state := by
    intro x
    by_cases hx : x = w <;> simp [addCount,hx]
  have hself := update_eq_self w phase
  have hpc := (update_eq_self t s.pc).symm
  rw [← hself]
  refine h.move ⟨?_,?_,h.queue,?_,?_,h.nodup,h.apart,h.lock,h.ref,h.sync⟩ hpc
    le_rfl ?_ ?_ ?_ ?_ ?_ ?_ ?_ h.warned (h.sum_move rfl ?_ ?_ ?_)
  · rw [hself]
    exact h.fresh
  · rw [hself]
    exact h.queued
  · intro u x r
    rw [hself]
    rw [hacts]
    exact h.role u x r
  · intro u a x hx
    rw [hacts]
    exact h.action u a x hx
  · intro x hx
    simp [addCount,hx]
  · simp only [hph,addCount,update_self]
    exact hlocal
  · simp only [hph,addCount,update_self]
    exact counted_by.mpr (counted_by.mp hcounted)
  · intro ha
    rw [hacts] at ha
    exact h.noRef w ha
  · intro hs _
    rw [hstates]
    exact hs
  · intro x hx
    rw [hstates]
    exact h.passed t x hx
  · intro hr
    rw [hstates]
    exact h.returned w hr
  · intro x hx
    simp [addCount,hx]
  · intro hout
    exact absurd ((h.fresh w).mpr hout) (by simp [hph])
  · simp only [hph,owed,addCount,update_self,hact,if_true]
    omega

section Remove

variable {sync : Nat} {rest : List WaiterId}

lemma Inv.head_queued (h : Inv s phase) (hhead : s.waitHead = w::rest) : phase w = .queued :=
  (h.queued w).mpr (by rw [hhead]; exact mem_cons_self)

section
variable (h : Inv s phase) (hp : s.pc t = .process k (.scan sync completed))
    (hhead : s.waitHead = w::rest)
include h hp hhead

lemma Inv.head_not_completed (a : IntrAction) : w ∉ completed a := by
  intro hin
  have hby := h.role_of_completed (t := t) (a := a) (w := w) (by rw [hp]; exact hin)
  exact nomatch (h.head_queued hhead).symm.trans hby

/-- The head of the queue goes to the thread that holds the lock. -/
theorem Inv.shape_remove {p : Process} {r : Role} (hpc : s'.pc = update s.pc t (.process k p))
    (hact : ∀ x, (s'.waiter x).action = (s.waiter x).action)
    (hrole : ∀ x ≠ w, (Pc.process k p).role (s.waiter x).action x = (s.pc t).role (s.waiter x).action x)
    (hrolew : (Pc.process k p).role (s.waiter w).action w = some r)
    (haction : ∀ a, ∀ x ∈ p.completed a, (s.waiter x).action = a) (hnodup : ∀ a, (p.completed a).Nodup)
    (hapart : ∀ a x r, p.current = some (x,r) → x ∉ p.completed a) (hlocked : p.locked = true)
    (hsync : p.sync = some sync) (halloc : s'.allocated = s.allocated) (hqueue : s'.waitHead = rest)
    (hlock : s'.lock = s.lock) (href : s'.ref = s.ref) (hnow : s'.now = s.now) :
    Shape s' (update phase w (.by t r)) := by
  have hph := h.head_queued hhead
  have hold := h.queue
  rw [hhead,nodup_cons] at hold
  refine h.toShape.move hpc ?_ (fun x => .inl (hact x)) hrole ?_ ?_ hnodup hapart ?_ ?_ ?_ ?_ ?_ ?_ (by rw [hnow])
  · intro u r' hu
    simp [hph,hu.symm]
  · intro r'
    rw [hact,hrolew]
    simp
  · intro a x hx
    rw [hact]
    exact haction a x hx
  · rw [halloc]
    apply h.fresh_same
    · simp [hph]
    · simp
  · intro x
    rw [hqueue]
    by_cases hx : x = w
    · subst hx
      simp [hold.1]
    · rw [update_of_ne hx,h.queued x,hhead,mem_cons,or_iff_right hx]
  · rw [hqueue]
    exact hold.2
  · rw [hlock]
    apply h.lock_same
    rw [hp]
    exact hlocked
  · rw [href]
    refine h.ref_same ?_ fun _ _ => Iff.rfl
    rw [hp]
    rfl
  intro v hv
  rw [hnow]
  have hv' : v = sync := Option.some.inj (hv.symm.trans hsync)
  exact h.sync t v (by rw [hp,hv']; rfl)

lemma Inv.removeDrop {st : Wls} (hst : st = .handled ∨ st = .removed ∧ s.ref w = .none)
    (hsettled : Settled (s.waiter w).state → Settled st) : Inv ({s with
      waitHead := rest
      waiter := update s.waiter w {s.waiter w with state := st, removedAt := sync}}.goto t
        (.process k (.drop sync completed w))) (update phase w (.by t .dropping)) := by
  have hph := h.head_queued hhead
  obtain ⟨⟨-,-,hbegun,hpromised⟩,hcounted⟩ := h.at_phase hph
  have hnot := h.head_not_completed hp hhead
  have hstate : ∀ x, Settled (s.waiter x).state →
      Settled (update s.waiter w {s.waiter w with state := st, removedAt := sync} x).state := by
    intro x hx
    by_cases hxw : x = w
    · subst hxw
      rw [update_self]
      exact hsettled hx
    · rwa [update_of_ne hxw]
  refine h.move (h.shape_remove hp hhead rfl ?_ ?_ ?_ ?_ ?_ ?_ rfl rfl rfl rfl rfl rfl rfl) rfl
    le_rfl ?_ ?_ ?_ ?_ (fun hs _ => hstate w hs) ?_ ?_ h.warned (h.sum_move rfl ?_ ?_ ?_)
  · intro x
    by_cases hx : x = w <;> simp [hx]
  · intro x hx
    rw [hp]
    simp only [Pc.role,Pc.current,Process.current,if_neg (Ne.symm hx)]
    rfl
  · simp [Pc.role]
  · intro a x hx
    exact h.action t a x (by rw [hp]; exact hx)
  · intro a
    have hnodup := h.nodup t a
    rw [hp] at hnodup
    exact hnodup
  · intro a x r hx
    cases hx
    exact hnot a
  · intro x hx
    simp [hx]
  · simp only [Syncpt.goto,update_self]
    exact ⟨hst,hbegun,hpromised⟩
  · simp only [Syncpt.goto,update_self]
    exact counted_by.mpr (counted_queued.mp hcounted)
  · intro ha
    simp only [Syncpt.goto,update_self] at ha
    exact h.noRef w ha
  · intro x hx
    exact hstate x (h.passed t x (by rw [hp]; exact hx))
  · intro hr
    exact hstate w (h.returned w hr)
  · intro x hx
    simp [hx]
  · exact fun _ => rfl
  · rw [hph]
    rfl

lemma Inv.removeMove (hreached : thresholdReached (s.waiter w).thresh sync = true)
    (hpending : (s.waiter w).state = .pending) : Inv ({s with
      waitHead := rest
      waiter := update s.waiter w {s.waiter w with state := .removed, removedAt := sync}
      removed := s.removed+if (s.waiter w).action = IntrAction.submitComplete then 1 else 0}.goto t
        (.process k (.scan sync (update completed (s.waiter w).action
          (completed (s.waiter w).action++[w]))))) (update phase w (.by t .completed)) := by
  have hph := h.head_queued hhead
  obtain ⟨⟨-,hcount,hbegun,hpromised⟩,hcounted⟩ := h.at_phase hph
  have hactions := h.action t
  have hnodup := h.nodup t
  rw [hp] at hactions hnodup
  have hnot := h.head_not_completed hp hhead
  have hunsettled : ¬Settled (s.waiter w).state := by simp [hpending,Settled]
  have hmem : ∀ a x, x ∈ update completed (s.waiter w).action (completed (s.waiter w).action++[w]) a ↔
        x ∈ completed a ∨ x = w ∧ a = (s.waiter w).action := by
    intro a x
    by_cases ha : a = (s.waiter w).action
    · subst ha
      simp
    · simp [ha]
  refine h.move (h.shape_remove hp hhead rfl ?_ ?_ ?_ ?_ ?_ ?_ rfl rfl rfl rfl rfl rfl rfl) rfl
    le_rfl ?_ ?_ ?_ ?_ (fun hs _ => absurd hs hunsettled) ?_ ?_ h.warned
    (h.sum_move rfl ?_ ?_ ?_)
  · intro x
    by_cases hx : x = w <;> simp [hx]
  · intro x hx
    simp [Pc.role,hp,hmem,hx]
  · simp [Pc.role]
  · intro a x hx
    rcases (hmem a x).mp hx with hin | ⟨rfl,rfl⟩
    · exact hactions a x hin
    · rfl
  · intro a
    change (update completed _ _ a).Nodup
    by_cases ha : a = (s.waiter w).action
    · subst ha
      rw [update_self,nodup_append_comm]
      exact nodup_cons.mpr ⟨hnot _,hnodup _⟩
    · rw [update_of_ne ha]
      exact hnodup a
  · intro a x r hx
    cases hx
  · intro x hx
    simp [hx]
  · have hle : sync ≤ s.now := h.sync t sync (by rw [hp]; rfl)
    simp only [Syncpt.goto,update_self]
    exact ⟨rfl,hbegun,hpromised,hle,hreached⟩
  · simp only [Syncpt.goto,update_self]
    exact counted_by.mpr (counted_queued.mp hcounted)
  · intro ha
    simp only [Syncpt.goto,update_self] at ha
    exact h.noRef w ha
  · intro x hx
    have hold := h.passed t x (by rw [hp]; exact hx)
    have hxw : x ≠ w := by
      rintro rfl
      exact hunsettled hold
    simpa [hxw] using hold
  · intro hr
    exact absurd (h.returned w hr) hunsettled
  · intro x hx
    simp [hx]
  · intro hout
    exact absurd ((h.fresh w).mpr hout) (by simp [hph])
  · rw [hph]
    simp only [Syncpt.goto,update_self,owed,hcount]
    omega

lemma Inv.remove (hreached : thresholdReached (s.waiter w).thresh sync = true) :
    ∃ phase', Inv (s.removeWaiter t k sync completed w rest) phase' := by
  have hph := h.head_queued hhead
  have hlocal := h.waiters w
  rw [hph] at hlocal
  unfold Syncpt.removeWaiter
  rcases hprev : consolidateWith s.waiter completed w with _ | prev
  · rcases hlocal.1 with hst | ⟨hst,href⟩
    · rw [hst,if_neg (by simp [Wls.inc])]
      exact ⟨_,h.removeMove hp hhead hreached hst⟩
    · have hact : (s.waiter w).action ≠ .submitComplete := fun ha => href (h.noRef w (.inl ha))
      rw [hst,if_pos (by simp [Wls.inc]),if_neg hact]
      exact ⟨_,h.removeDrop hp hhead (.inl rfl) fun _ => .inr rfl⟩
  obtain ⟨hact,hmem⟩ := consolidateWith_some hprev
  have hphprev : phase prev = .by t .completed :=
    h.role_of_completed (a := .submitComplete) (by rw [hp]; exact hmem)
  have hactprev : (s.waiter prev).action = .submitComplete :=
    h.action t .submitComplete prev (by rw [hp]; exact hmem)
  have hne : w ≠ prev := by
    rintro rfl
    exact nomatch hph.symm.trans hphprev
  have hsame : addCount s.waiter (some prev) w = s.waiter w := by
    simp [addCount,hne]
  have hnone : s.ref w = .none := h.noRef w (.inl hact)
  have hst : (s.waiter w).state = .pending :=
    hlocal.1.resolve_right fun hc => hc.2 hnone
  rw [hst,if_pos (by simp),if_pos hact]
  refine ⟨_,(h.consolidate hphprev hactprev).removeDrop hp hhead (.inr ⟨rfl,hnone⟩) ?_⟩
  intro hs
  dsimp only at hs
  rw [hsame,hst] at hs
  rcases hs with hs | hs <;> cases hs

end

end Remove

lemma Inv.step (h : Inv s phase) (hstep : Step s s') : ∃ phase', Inv s' phase' := by
  cases hstep with
  | tick k => exact ⟨_,h.tick k⟩
  | add thresh action data ref hp hnew hnoRef => exact ⟨_,h.add thresh action data ref hp hnew hnoRef⟩
  | insertFirst hp _ _ => exact ⟨_,h.insert (.inl hp)⟩
  | noIrq hp _ _ => exact ⟨_,h.noIrq hp⟩
  | irqFailed hp => exact ⟨_,h.irqFailed hp⟩
  | irqOk hp => exact ⟨_,h.irqOk hp⟩
  | insertSecond hp _ => exact ⟨_,h.insert (.inr hp)⟩
  | interrupt hp => exact ⟨_,h.interrupt hp⟩
  | callPut hp hheld => exact ⟨_,h.callPut hp hheld⟩
  | spinAgain _ _ => exact ⟨_,h⟩
  | cancel hp hpending => exact ⟨_,h.cancel hp hpending⟩
  | spinDone hp hpending hremoved => exact ⟨_,h.spinDone hp hpending hremoved⟩
  | read hp => exact ⟨_,h.read hp⟩
  | enter hp hfree => exact ⟨_,h.enter hp hfree⟩
  | remove hp hhead hreached => exact h.remove hp hhead hreached
  | @putRemoved t _ _ _ _ hp =>
    have hsync := h.sync t
    rw [hp] at hsync
    refine ⟨_,h.krefPut (.inl rfl) ?_ ?_ ?_ ?_ ?_ ?_ hsync⟩
    all_goals first | rfl | (rw [hp]; rfl)
  | leave hp _ => exact ⟨_,h.leave hp⟩
  | handle hp hw _ => exact ⟨_,h.handle hp hw⟩
  | handled hp => exact ⟨_,h.handled hp⟩
  | putHandled hp =>
    refine ⟨_,h.krefPut (.inr rfl) ?_ ?_ ?_ ?_ ?_ ?_ ?_⟩
    case refine_7 => simp
    all_goals first | rfl | (rw [hp]; rfl)
  | irqDone hp hempty => exact ⟨_,h.irqDone hp hempty⟩
  | processed hp hempty => exact ⟨_,h.processed hp hempty⟩
  | returnRef hp => exact ⟨_,h.returnRef hp⟩

lemma inv_reachable (h : s.Reachable) : ∃ phase, Inv s phase := by
  obtain ⟨now,hrun⟩ := h
  induction hrun with
  | refl => exact ⟨_,inv_init now⟩
  | tail _ hstep ih =>
    obtain ⟨phase,hinv⟩ := ih
    exact hinv.step hstep

lemma le_of_thresholdReached {thresh v : Nat} (h : thresholdReached thresh v = true)
    (hnear : thresh < v+2147483648) : thresh ≤ v := by
  by_contra hlt
  unfold thresholdReached Wrap.ahead at h
  rw [UInt32.toNat_sub] at h
  simp only [UInt32.toNat_ofNat',Bool.not_eq_true',decide_eq_false_iff_not] at h
  omega

/-- Somebody can still come to the waiter: it is queued, a thread has it in hand, or its
reference has not been returned. -/
def Syncpt.InUse (s : Syncpt) (w : WaiterId) : Prop :=
  w ∈ s.waitHead ∨ (∃ t r, (s.pc t).role (s.waiter w).action w = some r) ∨
    s.ref w = .promised ∨ s.ref w = .held ∨ ∃ t, s.ref w = .putting t

open Classical in
noncomputable def Syncpt.outstanding (s : Syncpt) : Nat :=
  ∑ w ∈ s.allocated with ∃ t, w ∈ (s.pc t).completed .submitComplete, (s.waiter w).count

structure Syncpt.Safe (s : Syncpt) : Prop where
  /-- A running handler's threshold was reached by the value with which its waiter was removed. -/
  notEarly : ∀ t k c w, s.pc t = .process k (.handling c w) →
    (s.waiter w).removedAt ≤ s.now ∧ thresholdReached (s.waiter w).thresh (s.waiter w).removedAt = true ∧
      ((s.waiter w).thresh < (s.waiter w).removedAt+2147483648 → (s.waiter w).thresh ≤ (s.waiter w).removedAt)
  once : ∀ w, s.begun w ≤ 1
  /-- A running handler's waiter has not been given back or freed. -/
  notLate : ∀ t k c w, s.pc t = .process k (.handling c w) → s.ref w ≠ .returned ∧ s.freed w = 0
  quiet : s.warned = false
  freed : ∀ w ∈ s.allocated, s.InUse w ∧ s.freed w = 0 ∨ ¬s.InUse w ∧ s.freed w = 1
  sum : s.executed+s.outstanding = s.removed

lemma Inv.begun_le (h : Inv s phase) (w : WaiterId) : s.begun w ≤ 1 := by
  have hlocal := h.waiters w
  cases hph : phase w with
  | «by» t r =>
    rw [hph] at hlocal
    cases r <;> simp only [Local] at hlocal <;> omega
  | _ => rw [hph] at hlocal; simp only [Local] at hlocal; omega

lemma Inv.inUse_iff (h : Inv s phase) (w : WaiterId) : s.InUse w ↔ (phase w).refs+(s.ref w).refs ≠ 0 := by
  have hrefs : s.ref w = .promised ∨ s.ref w = .held ∨ (∃ t, s.ref w = .putting t) ↔ (s.ref w).refs ≠ 0 := by
    cases s.ref w <;> simp [Ref.refs]
  have hphase : w ∈ s.waitHead ∨ (∃ t r, (s.pc t).role (s.waiter w).action w = some r) ↔ (phase w).refs ≠ 0 := by
    simp only [← h.queued,← h.role]
    cases phase w <;> simp [Phase.refs]
  rw [Syncpt.InUse,← or_assoc,hphase,hrefs]
  omega

lemma Inv.freed_iff (h : Inv s phase) (hw : w ∈ s.allocated) :
    s.InUse w ∧ s.freed w = 0 ∨ ¬s.InUse w ∧ s.freed w = 1 := by
  rw [h.inUse_iff]
  have hcounted := h.counted w
  cases hph : phase w with
  | fresh => exact absurd hw ((h.fresh w).mp hph)
  | failed =>
    have hlocal := h.waiters w
    rw [hph] at hcounted hlocal
    refine .inr ⟨?_,hcounted⟩
    rw [hlocal.1]
    simp [Phase.refs,Ref.refs]
  | gone =>
    rw [hph,counted_gone] at hcounted
    by_cases hr : (s.ref w).refs = 0
    · exact .inr ⟨by simp [Phase.refs,hr],by simpa [hr] using hcounted.2⟩
    · exact .inl ⟨by simp [Phase.refs,hr],by simpa [hr] using hcounted.2⟩
  | queued =>
    rw [hph,counted_queued] at hcounted
    exact .inl ⟨by simp [Phase.refs],hcounted.2⟩
  | «by» t r =>
    rw [hph,counted_by] at hcounted
    exact .inl ⟨by simp [Phase.refs],hcounted.2⟩

lemma Inv.outstanding_eq (h : Inv s phase) : s.outstanding = ∑ w ∈ s.allocated, owed (s.waiter w) (phase w) := by
  unfold Syncpt.outstanding
  rw [Finset.sum_filter]
  refine Finset.sum_congr rfl fun w _ => ?_
  split
  · next hc =>
    obtain ⟨t,hmem⟩ := hc
    rw [h.role_of_completed hmem,owed,if_pos (h.action t _ w hmem)]
  next hc =>
  cases hph : phase w with
  | «by» t r =>
    cases r with
    | completed =>
      rw [owed,if_neg]
      intro hact
      refine hc ⟨t,?_⟩
      have hrole := (h.role t w .completed).mp hph
      rw [hact] at hrole
      exact Pc.mem_of_role hrole
    | _ => rfl
  | _ => rfl

/-- In every reachable state, over any interleaving of the threads. -/
theorem reachable_safe (h : s.Reachable) : s.Safe := by
  obtain ⟨phase,hinv⟩ := inv_reachable h
  have hhandling : ∀ t k c w, s.pc t = .process k (.handling c w) → phase w = .by t .handling := by
    intro t k c w hp
    exact hinv.role_of_current (by rw [hp]; rfl)
  refine ⟨?_,hinv.begun_le,?_,hinv.warned,fun w hw => hinv.freed_iff hw,?_⟩
  · intro t k c w hp
    have hlocal := hinv.waiters w
    rw [hhandling t k c w hp] at hlocal
    obtain ⟨-,-,-,hle,hreached⟩ := hlocal
    exact ⟨hle,hreached,le_of_thresholdReached hreached⟩
  · intro t k c w hp
    have hlocal := hinv.waiters w
    have hcounted := hinv.counted w
    rw [hhandling t k c w hp] at hlocal hcounted
    refine ⟨?_,(counted_by.mp hcounted).2⟩
    intro hret
    -- a returned waiter is settled, a handled one is still removed
    rcases hinv.returned w hret with hs | hs <;> cases hlocal.1.symm.trans hs
  rw [hinv.outstanding_eq]
  exact hinv.sum

lemma Syncpt.Reachable.step (h : s.Reachable) (hstep : Step s s') : s'.Reachable := by
  obtain ⟨now,hrun⟩ := h
  exact ⟨now,hrun.tail hstep⟩

lemma nothing_before (c : Completed) (hsubmit : c .submitComplete = []) (hctx : c .ctxsave = []) :
    ∀ a : IntrAction, a.ctorIdx < IntrAction.wakeup.ctorIdx → c a = [] := by
  intro a ha
  cases a with
  | submitComplete => exact hsubmit
  | ctxsave => exact hctx
  | _ => exact absurd ha (by decide)

/-- Two waiters that the interrupt thread removes together. The reference to the first is put after its
handler, and the one to the second while its handler runs. -/
theorem two_waiters_safe : ∃ s : Syncpt, s.begun 0 = 1 ∧ s.begun 1 = 1 ∧ s.freed 0 = 1 ∧ s.freed 1 = 0 ∧
    s.ref 0 = .returned ∧ s.pc 1 = .spin 1 ∧ s.Safe := by
  have added := ((Syncpt.Reachable.step ⟨5,.refl⟩
    (Step.add (t := 0) (w := 0) 3 .wakeup 7 true rfl (Finset.notMem_empty 0) (by simp))).step
    (Step.noIrq (t := 0) rfl rfl rfl)).step (Step.irqOk (t := 0) rfl)
  have queued := ((added.step (Step.insertSecond (t := 0) rfl rfl)).step
    (Step.add (t := 0) (w := 1) 4 .wakeup 8 true rfl (by decide) (by simp))).step
    (Step.insertFirst (t := 0) rfl rfl rfl)
  have removed := ((((queued.step (Step.interrupt (t := 0) rfl)).step (Step.read (t := 0) rfl)).step
    (Step.enter (t := 0) rfl rfl)).step (Step.remove (t := 0) rfl rfl rfl)).step (Step.remove (t := 0) rfl rfl rfl)
  have first := ((removed.step (Step.leave (t := 0) rfl (fun w hw => by cases hw))).step
    (@Step.handle _ 0 .irq _ .wakeup 0 [1] rfl rfl (nothing_before _ rfl rfl))).step (Step.handled (t := 0) rfl)
  have second := (first.step (Step.putHandled (t := 0) rfl)).step
    (@Step.handle _ 0 .irq _ .wakeup 1 [] rfl rfl (nothing_before _ rfl rfl))
  have spinning := ((second.step (Step.callPut (t := 1) (w := 1) rfl rfl)).step
    (Step.callPut (t := 2) (w := 0) rfl rfl)).step (Step.spinDone (t := 2) rfl (by decide) (by decide))
  have scanned := ((spinning.step (Step.read (t := 2) rfl)).step (Step.enter (t := 2) rfl rfl)).step
    (Step.leave (t := 2) rfl (fun w hw => by cases hw))
  have final := (scanned.step (Step.processed (t := 2) rfl (fun _ => rfl))).step (Step.returnRef (t := 2) rfl)
  exact ⟨_,rfl,rfl,rfl,rfl,rfl,rfl,reachable_safe final⟩

end LinuxToradex.Nvhost
