import LinuxToradex.Timer.Wheel

/-! From the call that queues a timer, and until another call queues or deletes it, the pass for the time
it is due at takes it off the wheel, and no other pass does. -/
namespace LinuxToradex.Timer
open Option List Function Prod UInt32

namespace Base

variable {b b' : Base} {t u : Nat} {e : UInt32}
variable {op : Op} {ops : List Op} {b₂ : Base} {passes : List Pass}

lemma erase_of_unplaced (hinv : b.Inv) (h : b.pending t = false) :
    (∀ k, (b.vec k).erase t = b.vec k) ∧ b.workList.erase t = b.workList := by
  have hnot : ¬(b.OnWheel t ∨ t ∈ b.workList) := by
    rw [← hinv.pending_iff,h]
    decide
  refine ⟨fun k => erase_of_not_mem fun hk => hnot (.inl ⟨k,hk⟩),?_⟩
  exact erase_of_not_mem fun hw => hnot (.inr hw)

lemma dropNext_keeps (b : Base) (t : Nat) : Keeps b (b.dropNext t) := by
  unfold dropNext
  split
  · exact ⟨rfl,rfl,rfl,rfl,rfl,rfl⟩
  · exact Keeps.refl b

lemma takeNext_keeps (b : Base) (t : Nat) : Keeps b (b.takeNext t) := by
  unfold takeNext
  split
  · exact ⟨rfl,rfl,rfl,rfl,rfl,rfl⟩
  · exact Keeps.refl b

lemma queueTimer_spec (b : Base) (t : Nat) (e : UInt32) :
    (b.queueTimer t e).timerJiffies = b.timerJiffies ∧ (∀ k, (b.queueTimer t e).vec k =
      b.vec k++if k = bucketOf b.timerJiffies e then [t] else []) ∧
    (b.queueTimer t e).workList = b.workList ∧ (b.queueTimer t e).expires = Function.update b.expires t e ∧
    (b.queueTimer t e).pending = Function.update b.pending t true ∧ (b.queueTimer t e).deferrable = b.deferrable := by
  have h := takeNext_keeps (b.setExpires t e) t
  unfold queueTimer
  generalize (b.setExpires t e).takeNext t = c at h
  have hexp : c.expires t = e := by
    rw [h.expires]
    exact update_self ..
  refine ⟨h.timerJiffies,?_,h.workList,h.expires,?_,h.deferrable⟩
  · intro k
    dsimp only [internalAddTimer]
    rw [hexp,h.timerJiffies,h.vec]
    split
    · next hk =>
      rw [hk]
      exact update_self ..
    next hk =>
    rw [append_nil]
    exact update_of_ne hk ..
  dsimp only [internalAddTimer]
  rw [h.pending]
  rfl

lemma queueTimer_queues (hinv : b.Inv) (h : b.pending t = false) : Queues b (b.queueTimer t e) t e := by
  obtain ⟨htj,hvec,hwork,hexp,hpend,hdef⟩ := queueTimer_spec b t e
  obtain ⟨hlists,hlist⟩ := erase_of_unplaced hinv h
  refine ⟨htj,?_,?_,hexp,hpend,hdef⟩
  · intro k
    rw [hlists]
    exact hvec k
  rw [hlist]
  exact hwork

lemma modTimerCore_queues (hinv : b.Inv) (pendingOnly : Bool) (h : b.pending t = true ∨ pendingOnly = false) :
    Queues b (b.modTimerCore t e pendingOnly).1 t e := by
  unfold modTimerCore
  split
  · next hp =>
    have hkeep := dropNext_keeps (b.detachTimer t false) t
    obtain ⟨htj,hvec,hwork,hexp,hpend,hdef⟩ := queueTimer_spec ((b.detachTimer t false).dropNext t) t e
    rw [hkeep.timerJiffies] at htj
    rw [hkeep.workList] at hwork
    rw [hkeep.expires] at hexp
    rw [hkeep.pending] at hpend
    rw [hkeep.timerJiffies,hkeep.vec] at hvec
    exact ⟨htj,hvec,hwork,hexp,hpend,hdef.trans hkeep.deferrable⟩
  next hp =>
  rw [if_neg (by rw [h.resolve_left hp]; decide)]
  exact queueTimer_queues hinv (by simpa using hp)

lemma delTimer_cases (b : Base) (t : Nat) : Removes b (b.delTimer t).1 t ∨ Keeps b (b.delTimer t).1 := by
  unfold delTimer
  split
  · have h := dropNext_keeps (b.detachTimer t true) t
    refine .inl ⟨h.timerJiffies,?_,h.workList,h.expires,h.pending,h.deferrable⟩
    intro k
    rw [h.vec]
    rfl
  · exact .inr (Keeps.refl b)

lemma runFirst_spec (h : b.runFirst = some b') : ∃ t ∈ b.workList, Removes b b' t := by
  unfold runFirst at h
  split at h
  · cases h
  rename_i t rest hwork
  refine ⟨t,hwork ▸ mem_cons_self,?_⟩
  rw [← some.inj h]
  exact ⟨rfl,fun _ => rfl,rfl,rfl,rfl,rfl⟩

end Base

open Base

variable {b b' : Base} {t : Nat}

/-- What one step can do to the lists. -/
theorem step_cases (hinv : b.Inv) (h : step b op = some b') :
    (∃ t e, armed b op = some (t,e) ∧ op ≠ .beginPass ∧ Queues b b' t e) ∨
    (∃ t, (deletes op t = true ∨ t ∈ b.workList) ∧ armed b op = none ∧ op ≠ .beginPass ∧
      Removes b b' t) ∨ (armed b op = none ∧ op ≠ .beginPass ∧ Keeps b b') ∨ (op = .beginPass ∧ Passes b b') := by
  cases op with
  | addTimer t e =>
    refine .inl ⟨t,_,rfl,nofun,?_⟩
    unfold step addTimer at h
    dsimp only at h
    split at h
    · cases h
    rename_i hp
    replace hp : b.pending t = false := by simpa using hp
    rw [← some.inj h]
    unfold modTimer
    have hcond : ¬((b.setExpires t e).pending t = true ∧ (b.setExpires t e).expires t =
        applySlack ((b.setExpires t e).slack t) (b.setExpires t e).jiffies e) := by
      rintro ⟨hp',-⟩
      change b.pending t = true at hp'
      rw [hp] at hp'
      cases hp'
    rw [if_neg hcond]
    unfold modTimerCore
    have hnot : ¬(b.setExpires t e).pending t = true := by
      change ¬b.pending t = true
      rw [hp]
      decide
    rw [if_neg hnot,if_neg Bool.false_ne_true]
    obtain ⟨htj,hvec,hwork,hexp,hpend,hdef⟩ := queueTimer_spec (b.setExpires t e) t
      (applySlack ((b.setExpires t e).slack t) (b.setExpires t e).jiffies e)
    obtain ⟨hlists,hlist⟩ := erase_of_unplaced hinv hp
    refine ⟨htj,?_,?_,?_,hpend,hdef⟩
    · intro k
      rw [hlists]
      exact hvec k
    · rw [hlist]
      exact hwork
    rw [hexp]
    exact update_idem ..
  | addTimerOn t e =>
    refine .inl ⟨t,_,rfl,nofun,?_⟩
    unfold step addTimerOn at h
    dsimp only at h
    split at h
    · cases h
    rename_i hp
    rw [← some.inj h]
    exact queueTimer_queues hinv (by simpa using hp)
  | modTimer t e =>
    rw [← some.inj h]
    unfold armed modTimer
    dsimp only
    split
    · exact .inr (.inr (.inl ⟨rfl,nofun,Keeps.refl b⟩))
    · exact .inl ⟨t,_,rfl,nofun,modTimerCore_queues hinv false (.inr rfl)⟩
  | modTimerPending t e =>
    rw [← some.inj h]
    unfold armed
    dsimp only
    split
    · next hp => exact .inl ⟨t,e,rfl,nofun,modTimerCore_queues hinv true (.inl hp)⟩
    next hp =>
    unfold modTimerPending modTimerCore
    rw [if_neg hp,if_pos rfl]
    exact .inr (.inr (.inl ⟨rfl,nofun,Keeps.refl b⟩))
  | modTimerPinned t e =>
    rw [← some.inj h]
    unfold armed modTimerPinned
    dsimp only
    split
    · exact .inr (.inr (.inl ⟨rfl,nofun,Keeps.refl b⟩))
    · exact .inl ⟨t,e,rfl,nofun,modTimerCore_queues hinv false (.inr rfl)⟩
  | delTimer t =>
    rw [← some.inj h]
    rcases delTimer_cases b t with hdel | hkeep
    · exact .inr (.inl ⟨t,.inl (beq_self_eq_true t),rfl,nofun,hdel⟩)
    · exact .inr (.inr (.inl ⟨rfl,nofun,hkeep⟩))
  | tryToDelTimerSync t =>
    rw [← some.inj h]
    unfold tryToDelTimerSync
    split
    · exact .inr (.inr (.inl ⟨rfl,nofun,Keeps.refl b⟩))
    rcases delTimer_cases b t with hdel | hkeep
    · exact .inr (.inl ⟨t,.inl (beq_self_eq_true t),rfl,nofun,hdel⟩)
    · exact .inr (.inr (.inl ⟨rfl,nofun,hkeep⟩))
  | setTimerSlack t s | setJiffies j =>
    rw [← some.inj h]
    exact .inr (.inr (.inl ⟨rfl,nofun,⟨rfl,rfl,rfl,rfl,rfl,rfl⟩⟩))
  | beginPass => exact .inr (.inr (.inr ⟨rfl,beginPass_spec hinv h⟩))
  | runFirst =>
    obtain ⟨t,ht,hremoves⟩ := runFirst_spec h
    exact .inr (.inl ⟨t,.inr ht,rfl,nofun,hremoves⟩)
  | endRun =>
    unfold step endRun at h
    dsimp only at h
    split at h
    · rw [← some.inj h]
      exact .inr (.inr (.inl ⟨rfl,nofun,⟨rfl,rfl,rfl,rfl,rfl,rfl⟩⟩))
    · cases h

lemma step_inv (hinv : b.Inv) (h : step b op = some b') : b'.Inv := by
  rcases step_cases hinv h with ⟨t,e,-,-,hq⟩ | ⟨t,-,-,-,hr⟩ | ⟨-,-,hk⟩ | ⟨-,hp⟩
  · exact hq.inv hinv
  · exact hr.inv hinv
  · exact hk.inv hinv
  · exact hp.inv

lemma Reaches.inv (h : Reaches b) : b.Inv := by
  induction h with
  | init jiffies deferrable => exact inv_initTimers jiffies deferrable
  | step op _ hstep ih => exact step_inv ih hstep

/-- Outside the head of a pass, a step that leaves the timer alone does not move it on or off the
wheel, and does not change what it waits for. -/
theorem step_leavesAlone (hinv : b.Inv) (h : step b op = some b')
    (hleft : leavesAlone b t op = true) (hop : op ≠ .beginPass) :
    (b'.OnWheel t ↔ b.OnWheel t) ∧ (b.OnWheel t → b'.expires t = b.expires t) ∧ b'.timerJiffies = b.timerJiffies := by
  obtain ⟨harms,hdels⟩ := Bool.and_eq_true_iff.mp hleft
  replace hdels : deletes op t = false := by simpa using hdels
  rcases step_cases hinv h with ⟨u,e,harm,-,hq⟩ | ⟨u,hdel,-,-,hr⟩ | ⟨-,-,hk⟩ | ⟨hpass,-⟩
  · have hne : t ≠ u := by
      rw [harm] at harms
      exact fun htu => by simp [htu] at harms
    refine ⟨?_,?_,hq.timerJiffies⟩
    · rw [hq.onWheel_iff hinv]
      exact or_iff_right hne
    intro _
    rw [hq.expires,update_of_ne hne]
  · have hne : b.OnWheel t → t ≠ u := by
      rintro hon rfl
      rcases hdel with hdel | hwork
      · rw [hdels] at hdel
        cases hdel
      · exact hinv.apart hon hwork
    refine ⟨?_,fun _ => by rw [hr.expires],hr.timerJiffies⟩
    rw [hr.onWheel_iff hinv]
    exact ⟨And.right,fun hon => ⟨hne hon,hon⟩⟩
  · exact ⟨by rw [OnWheel,OnWheel,hk.vec],fun _ => by rw [hk.expires],hk.timerJiffies⟩
  · exact absurd hpass hop

lemma runAround_cons (hinv : b.Inv) (h : runAround t b (op::ops) = some (b₂,passes)) :
    (∃ b1 rest, Passes b b1 ∧ runAround t b1 ops = some (b₂,rest) ∧ passes = ⟨b.timerJiffies,b1.workList⟩::rest) ∨
    ∃ b1, b1.Inv ∧ runAround t b1 ops = some (b₂,passes) ∧ (b1.OnWheel t ↔ b.OnWheel t) ∧
      (b.OnWheel t → b1.expires t = b.expires t) ∧ b1.timerJiffies = b.timerJiffies := by
  unfold runAround at h
  split at h
  swap
  · cases h
  rename_i hleft
  obtain ⟨b1,hstep,hrun⟩ := bind_eq_some_iff.mp h
  obtain ⟨r,hr,heq⟩ := map_eq_some_iff.mp hrun
  obtain ⟨rfl,rfl⟩ := mk.inj heq
  by_cases hop : op = .beginPass
  · subst hop
    exact .inl ⟨b1,r.2,beginPass_spec hinv hstep,hr,if_pos rfl⟩
  refine .inr ⟨b1,step_inv hinv hstep,?_,step_leavesAlone hinv hstep hleft hop⟩
  rw [if_neg hop]
  exact hr

section
variable (hinv : b.Inv) (h : runAround t b ops = some (b₂,passes))
include hinv h

/-- The passes of a run are for consecutive times. -/
theorem runAround_jiffies (j : Nat) (hj : j < passes.length) :
    passes[j].jiffies = b.timerJiffies+ofNat j ∧ passes[j].taken.Nodup := by
  induction ops generalizing b passes j with
  | nil =>
    obtain ⟨-,rfl⟩ := mk.inj (some.inj h)
    exact absurd hj (Nat.not_lt_zero j)
  | cons op ops ih =>
    rcases runAround_cons hinv h with ⟨b1,rest,hspec,hrun,rfl⟩ | ⟨b1,hinv1,hrun,hwheel,hexp,htj⟩
    · rcases j with _ | j
      · refine ⟨?_,hspec.inv.work_nodup⟩
        exact (UInt32.add_zero _).symm
      obtain ⟨hjiffies,hnodup⟩ := ih hspec.inv hrun j (by simpa using hj)
      refine ⟨?_,hnodup⟩
      rw [hspec.timerJiffies] at hjiffies
      rw [getElem_cons_succ,hjiffies,ofNat_add,UInt32.add_assoc,UInt32.add_comm (ofNat j)]
      rfl
    obtain ⟨hjiffies,hnodup⟩ := ih hinv1 hrun j hj
    rw [htj] at hjiffies
    exact ⟨hjiffies,hnodup⟩

lemma runAround_off (hoff : ¬b.OnWheel t) : (∀ p ∈ passes, t ∉ p.taken) ∧ ¬b₂.OnWheel t := by
  induction ops generalizing b passes with
  | nil =>
    obtain ⟨rfl,rfl⟩ := mk.inj (some.inj h)
    exact ⟨fun p hp => absurd hp not_mem_nil,hoff⟩
  | cons op ops ih =>
    rcases runAround_cons hinv h with ⟨b1,rest,hspec,hrun,rfl⟩ | ⟨b1,hinv1,hrun,hwheel,hexp,htj⟩
    · obtain ⟨hrest,hend⟩ := ih hspec.inv hrun fun hon => hoff ((hspec.onWheel t).mp hon).1
      refine ⟨?_,hend⟩
      exact forall_mem_cons.mpr ⟨fun hmem => hoff ((hspec.taken t).mp hmem).1,hrest⟩
    · exact ih hinv1 hrun fun hon => hoff (hwheel.mp hon)

/-- A timer on the wheel is taken by the pass it waits for, and by no other. -/
theorem runAround_on (hon : b.OnWheel t) : (∀ (j : Nat) (hj : j < passes.length),
      t ∈ passes[j].taken ↔ j = wait b.timerJiffies (b.expires t)) ∧
    (b₂.OnWheel t ↔ passes.length ≤ wait b.timerJiffies (b.expires t)) := by
  induction ops generalizing b passes with
  | nil =>
    obtain ⟨rfl,rfl⟩ := mk.inj (some.inj h)
    exact ⟨fun j hj => absurd hj (Nat.not_lt_zero j),iff_of_true hon (Nat.zero_le _)⟩
  | cons op ops ih =>
    rcases runAround_cons hinv h with ⟨b1,rest,hspec,hrun,rfl⟩ | ⟨b1,hinv1,hrun,hwheel,hexp,htj⟩
    · by_cases hzero : wait b.timerJiffies (b.expires t) = 0
      · -- the timer is due in this pass, and off the wheel in the others
        obtain ⟨hrest,hend⟩ := runAround_off hspec.inv hrun
          fun hon1 => absurd ((hspec.onWheel t).mp hon1).2 (by omega)
        rw [hzero]
        refine ⟨?_,iff_of_false hend (by simp)⟩
        intro j hj
        cases j with
        | zero => exact iff_of_true ((hspec.taken t).mpr ⟨hon,hzero⟩) rfl
        | succ j =>
          refine iff_of_false ?_ (by omega)
          exact hrest _ (getElem_mem _)
      have hpos := Nat.pos_of_ne_zero hzero
      have hwait := wait_succ hpos
      obtain ⟨hrest,hend⟩ := ih hspec.inv hrun ((hspec.onWheel t).mpr ⟨hon,hpos⟩)
      rw [hspec.timerJiffies,hspec.expires] at hrest hend
      refine ⟨?_,?_⟩
      · intro j hj
        cases j with
        | zero =>
          refine iff_of_false ?_ (by omega)
          exact fun hmem => hzero ((hspec.taken t).mp hmem).2
        | succ j =>
          rw [getElem_cons_succ,hrest j (by simpa using hj)]
          omega
      rw [hend,length_cons]
      omega
    have hgoal := ih hinv1 hrun (hwheel.mpr hon)
    rw [htj,hexp hon] at hgoal
    exact hgoal

end

/-- **A timer runs when it is due.** In any run after a call that queues `t` with the expiry `e`, and that
neither queues `t` again nor deletes it, the pass that takes `t` off the wheel, once, is the one for the time
`e`, or the next one if `e` is in the past; until then `t` stays on the wheel. -/
theorem fires_exactly_when_due {e : UInt32} {op : Op} {b₁ b₂ : Base} {ops : List Op}
    {passes : List Pass} (hreach : Reaches b) (harm : armed b op = some (t,e))
    (hstep : step b op = some b₁) (hrun : runAround t b₁ ops = some (b₂,passes)) :
    (∀ (j : Nat) (hj : j < passes.length), passes[j].jiffies = b.timerJiffies+ofNat j ∧ passes[j].taken.Nodup ∧
      (t ∈ passes[j].taken ↔ j = (due b.timerJiffies e-b.timerJiffies).toNat) ∧
      (t ∈ passes[j].taken → passes[j].jiffies = due b.timerJiffies e)) ∧
    (b₂.OnWheel t ↔ passes.length ≤ (due b.timerJiffies e-b.timerJiffies).toNat) := by
  have hinv := hreach.inv
  have hinv1 := step_inv hinv hstep
  have hqueues : Queues b b₁ t e := by
    rcases step_cases hinv hstep with ⟨u,x,hux,-,hq⟩ | ⟨u,-,hnone,-⟩ | ⟨hnone,-⟩ | ⟨rfl,-⟩
    · rw [harm] at hux
      obtain ⟨rfl,rfl⟩ := mk.inj (some.inj hux)
      exact hq
    · rw [harm] at hnone
      cases hnone
    · rw [harm] at hnone
      cases hnone
    · cases harm
  have hon : b₁.OnWheel t := (hqueues.onWheel_iff hinv).mpr (.inl rfl)
  obtain ⟨htaken,hend⟩ := runAround_on hinv1 hrun hon
  have hexp : b₁.expires t = e := by
    rw [hqueues.expires,update_self]
  rw [hqueues.timerJiffies,hexp] at htaken hend
  rw [due_sub]
  refine ⟨?_,hend⟩
  intro j hj
  obtain ⟨hjiffies,hnodup⟩ := runAround_jiffies hinv1 hrun j hj
  rw [hqueues.timerJiffies] at hjiffies
  refine ⟨hjiffies,hnodup,htaken j hj,?_⟩
  intro hmem
  rw [hjiffies,(htaken j hj).mp hmem,due_eq]

/-- A timer two passes ahead, with another that the cascade for 256 brings down from `tv2`. -/
theorem fires_exactly_when_due_cascade : ∃ b b₁ b₂ : Base,
      step (initTimers 255 fun _ => false) (.addTimerOn 1 511) = some b ∧ step b (.modTimerPinned 0 257) = some b₁ ∧
      runAround 0 b₁ [.setJiffies 300,.beginPass,.beginPass,.beginPass] = some (b₂,[⟨255,[]⟩,⟨256,[]⟩,⟨257,[0]⟩]) ∧
      b.vec (.tv2 1) = [1] ∧ b₂.vec (.tv1 255) = [1] ∧ ¬b₂.OnWheel 0 := by
  refine ⟨_,_,_,rfl,rfl,rfl,rfl,rfl,?_⟩
  have hreach := Reaches.step (.addTimerOn 1 511) (Reaches.init 255 fun _ => false) rfl
  have hdue := fires_exactly_when_due hreach (show armed _ (.modTimerPinned 0 257) = some (0,257) from rfl) rfl
    (show runAround 0 _ [.setJiffies 300,.beginPass,.beginPass,.beginPass] =
      some (_,[⟨255,[]⟩,⟨256,[]⟩,⟨257,[0]⟩]) from rfl)
  rw [hdue.2]
  decide

end LinuxToradex.Timer
