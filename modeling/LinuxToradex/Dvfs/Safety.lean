import LinuxToradex.Dvfs.Tegra2

/-! `tegra3_dvfs.c`: the core must not be below a floor that depends on the cpu, and the cpu not more than
300 mV below the core unless it is off. -/
namespace LinuxToradex.Dvfs.Tegra3
open Option List Outcome

variable {B : State 2 → Prop} {target m new : Nat} {jump res up : Bool}
variable {x y f : Nat}

def vddCpuBelowVddCore : Nat := 300

def vddSafeStep : Nat := 100

/-- `tegra3_dvfs_rail_vdd_cpu`, connected, with its voltages and what is asked for. -/
def vddCpu (millivolts new : Nat) (resolving : Bool) (dvfs : List Nat) : Rail :=
  { minMillivolts := 725, maxMillivolts := 1250, step := vddSafeStep, jmpToZero := true, reg := true
    disabled := false, suspended := false, resolvingTo := resolving, millivolts := millivolts
    newMillivolts := new, dvfs := dvfs }

def vddCore (millivolts new : Nat) (resolving : Bool) (dvfs : List Nat) : Rail :=
  { minMillivolts := 950, maxMillivolts := 1350, step := vddSafeStep, jmpToZero := false, reg := true
    disabled := false, suspended := false, resolvingTo := resolving, millivolts := millivolts
    newMillivolts := new, dvfs := dvfs }

def getCoreFloorMv (speedo : Int) (cpuMv : Nat) : Option Nat :=
  if cpuMv < 800 then some 950
  else if cpuMv < 900 then some 1000
  else if cpuMv < 1000 then some 1100
  else if speedo < 2 ∨ speedo = 4 ∨ speedo = 7 ∨ speedo = 8 then some 1200
  else if cpuMv < 1100 then some 1200
  else if cpuMv ≤ 1250 then some 1300
  else none

def relVddCpuVddCore (speedo : Int) (cpu core : Rail) : Option Nat :=
  (getCoreFloorMv speedo (max cpu.newMillivolts cpu.millivolts)).map fun coreFloor =>
    max core.newMillivolts coreFloor

def relVddCoreVddCpu (core cpu : Rail) : Option Nat :=
  if cpu.newMillivolts = 0 then some 0
  else some (max cpu.newMillivolts (max core.newMillivolts core.millivolts-vddCpuBelowVddCore))

/-- `tegra3_dvfs_relationships`. -/
def relationships (speedo : Int) : List (Relationship 2) :=
  [{fromRail := 0, toRail := 1, solve := relVddCpuVddCore speedo},
    {fromRail := 1, toRail := 0, solve := relVddCoreVddCpu}]

def Constraint (speedo : Int) (v : Fin 2 → Nat) : Prop :=
  (v 0 = 0 ∨ v 1 ≤ v 0+300) ∧ ∃ floor ∈ getCoreFloorMv speedo (v 0), floor ≤ v 1

instance (speedo : Int) (v : Fin 2 → Nat) : Decidable (Constraint speedo v) :=
  inferInstanceAs (Decidable ((v 0 = 0 ∨ v 1 ≤ v 0+300) ∧
    ∃ floor ∈ getCoreFloorMv speedo (v 0), floor ≤ v 1))

section Floor

variable {speedo : Int} {g : Nat}

lemma floor_mono (hxy : x ≤ y) (hy : getCoreFloorMv speedo y = some g) :
    ∃ f, getCoreFloorMv speedo x = some f ∧ f ≤ g := by
  unfold getCoreFloorMv at hy ⊢
  grind

lemma le_floor (hx : getCoreFloorMv speedo x = some f) : 950 ≤ f := by
  unfold getCoreFloorMv at hx
  grind

lemma lt_of_floor_none (hx : getCoreFloorMv speedo x = none) : 1250 < x := by
  unfold getCoreFloorMv at hx
  grind

lemma floor_le_cpu (hx : 650 ≤ x) (hxy : y ≤ x+100) (hy : getCoreFloorMv speedo y = some f) : f ≤ x+300 := by
  unfold getCoreFloorMv at hy
  grind

lemma floor_le_core (hy : 950 ≤ y) (hxy : x+200 ≤ y) (hx : getCoreFloorMv speedo x = some f) : f ≤ y := by
  unfold getCoreFloorMv at hx
  grind

end Floor

def state (da dc : List Nat) (a an : Nat) (ra : Bool) (c cn : Nat) (rc : Bool)
    (log : List (Fin 2 → Nat)) : State 2 :=
  ⟨![vddCpu a an ra da,vddCore c cn rc dc],log⟩

def LogOk (speedo : Int) (log : List (Fin 2 → Nat)) : Prop := ∀ v ∈ log, Constraint speedo v

variable {speedo : Int} {da dc : List Nat} {a an c cn k : Nat} {ra rc : Bool}
  {log : List (Fin 2 → Nat)} {small : Prop}

lemma place_core (m new : Nat) (res : Bool) (log' : List (Fin 2 → Nat)) :
    (state da dc a an ra c cn rc log).place 1 m new res log' = state da dc a an ra m new res log' := by
  unfold State.place state
  congr 1
  funext i
  fin_cases i <;> rfl

lemma place_cpu (m new : Nat) (res : Bool) (log' : List (Fin 2 → Nat)) :
    (state da dc a an ra c cn rc log).place 0 m new res log' = state da dc m new res c cn rc log' := by
  unfold State.place state
  congr 1
  funext i
  fin_cases i <;> rfl

lemma volts_core (x : Nat) : Function.update (state da dc a an ra c cn rc log).volts 1 x = ![a,x] := by
  funext i
  fin_cases i <;> rfl

lemma volts_cpu (x : Nat) : Function.update (state da dc a an ra c cn rc log).volts 0 x = ![x,c] := by
  funext i
  fin_cases i <;> rfl

def Stopped (speedo : Int) (small : Prop) (s : State 2) : Prop := LogOk speedo s.log ∧ ¬small

/-- While the cpu is being moved, the core goes where the cpu and its clocks need it. -/
theorem core_follows (hlog : LogOk speedo log) (hsmall : getCoreFloorMv speedo (max an a) = none → ¬small)
    (hok : ∀ f, getCoreFloorMv speedo (max an a) = some f → ∀ x,
      c ≤ x ∧ x ≤ max (demand dc) f ∨ max (demand dc) f ≤ x ∧ x ≤ c → Constraint speedo ![a,x]) :
    (dvfsRailUpdate (relationships speedo) (k+2) 1 (state da dc a an true c cn false log)).Ends
      (fun s => ∃ f log', getCoreFloorMv speedo (max an a) = some f ∧
        s = state da dc a an true (max (demand dc) f) (max (demand dc) f) false log' ∧
        LogOk speedo log') (Stopped speedo small) := by
  rcases hfloor : getCoreFloorMv speedo (max an a) with _ | f
  · have hsolve : solveAll 1 (relationshipsFrom (relationships speedo) 1)
        ((state da dc a an true c cn false log).modify 1 fun rail =>
          { rail with newMillivolts := demand dc }) =
        .bug ((state da dc a an true c cn false log).modify 1 fun rail =>
          { rail with newMillivolts := demand dc }) := by
      refine solveAll_bug ?_
      change (getCoreFloorMv speedo (max an a)).map _ = none
      rw [hfloor,map_none]
    have hbug := (dvfsRailUpdate_eq _ rfl rfl rfl rfl (k+1)).trans (updateLoop_bug hsolve _ 0)
    rw [hbug]
    exact ⟨hlog,hsmall hfloor⟩
  have hpos : 0 < vddSafeStep := by decide
  refine (dvfsRailUpdate_alone (state da dc a an true c cn false log) 1 (max (demand dc) f)
    (Constraint speedo) rfl rfl rfl rfl hpos ?_ ?_ hlog ?_).mono ?_
  · intro rel hrel
    rw [mem_singleton.mp hrel]
    exact ⟨by decide,rfl⟩
  · intro m log' _
    rw [place_core,place_core]
    have hrel : relVddCpuVddCore speedo (vddCpu a an true da) (vddCore m (demand dc) false dc) =
        some (max (demand dc) f) := by
      simp only [relVddCpuVddCore,vddCpu,vddCore,hfloor,map_some]
    refine (solveAll_cons hrel).trans ?_
    exact congrArg (Run.done · 0) (place_core ..)
  · intro x hx
    rw [volts_core]
    refine hok f hfloor x ?_
    rcases hx with rfl | ⟨-,hx⟩
    · omega
    · exact hx
  rintro _ ⟨log',rfl,hlog'⟩
  exact ⟨f,log',rfl,place_core ..,hlog'⟩

def cpuTarget (d cn c : Nat) : Nat := if d = 0 then 0 else max d (max cn c-300)

lemma le_cpuTarget (d cn c : Nat) : d ≤ cpuTarget d cn c := by
  unfold cpuTarget
  split <;> omega

lemma cpu_follows (hlog : LogOk speedo log)
    (hok : ∀ x, Visits (decide (cpuTarget (demand da) cn c = 0) || decide (a = 0)) a (cpuTarget (demand da) cn c) x →
      Constraint speedo ![x,c]) :
    (dvfsRailUpdate (relationships speedo) (k+2) 0 (state da dc a an false c cn true log)).Ends
      (fun s => ∃ log', s = state da dc (cpuTarget (demand da) cn c) (cpuTarget (demand da) cn c)
        false c cn true log' ∧ LogOk speedo log') B := by
  have hpos : 0 < vddSafeStep := by decide
  refine (dvfsRailUpdate_alone (state da dc a an false c cn true log) 0
    (cpuTarget (demand da) cn c) (Constraint speedo) rfl rfl rfl rfl hpos ?_ ?_ hlog ?_).mono ?_
  · intro rel hrel
    rw [mem_singleton.mp hrel]
    exact ⟨(by decide : (1 : Fin 2) ≠ 0),rfl⟩
  · intro m log' _
    rw [place_cpu,place_cpu]
    have hsolve : relVddCoreVddCpu (vddCore c cn true dc) (vddCpu m (demand da) false da) =
        some (cpuTarget (demand da) cn c) := (apply_ite some _ _ _).symm
    exact (solveAll_cons hsolve).trans (congrArg (Run.done · 0) (place_cpu ..))
  · intro x hx
    rw [volts_cpu]
    exact hok x hx
  rintro _ ⟨log',rfl,hlog'⟩
  exact ⟨log',place_cpu ..,hlog'⟩

lemma floor_le_max (hx : getCoreFloorMv speedo x = some f) : f ≤ 1300 := by
  unfold getCoreFloorMv at hx
  grind

lemma constraint_iff : Constraint speedo ![x,y] ↔
    (x = 0 ∨ y ≤ x+300) ∧ ∃ f, getCoreFloorMv speedo x = some f ∧ f ≤ y := Iff.rfl

structure CpuWay (speedo : Int) (dc : List Nat) (small : Prop) (target : Nat) (jump : Bool)
    (a c : Nat) : Prop where
  constraint : Constraint speedo ![a,c]
  core : demand dc ≤ c
  reach : target = 0 ∨ c ≤ target+300
  bounded : small → c ≤ 1350
  leap : jump = true → a = target ∨ target = 0 ∨ a = 0
  walk : jump = false → target ≠ 0 ∧ a ≠ 0

/-- A step of the cpu, with the core in front of it and behind it. -/
theorem CpuWay.step (h : CpuWay speedo dc small target jump a c) (hne : a ≠ target)
    (hsmall : small → target ≤ 1250) (hx : x = stepTo vddSafeStep target jump a) :
    (getCoreFloorMv speedo (max x a) = none → ¬small) ∧ ∀ f, getCoreFloorMv speedo (max x a) = some f →
      (∀ y, c ≤ y ∧ y ≤ max (demand dc) f ∨ max (demand dc) f ≤ y ∧ y ≤ c →
        Constraint speedo ![a,y]) ∧ Constraint speedo ![x,max (demand dc) f] ∧
      ∀ g, getCoreFloorMv speedo x = some g → (∀ y, max (demand dc) f ≤ y ∧ y ≤ max (demand dc) g ∨
            max (demand dc) g ≤ y ∧ y ≤ max (demand dc) f → Constraint speedo ![x,y]) ∧
        CpuWay speedo dc small target jump x (max (demand dc) g) := by
  obtain ⟨hcpu,f0,hf0,hf₀c⟩ := constraint_iff.mp h.constraint
  have hcore := h.core
  have hreach := h.reach
  have hc := le_floor hf0
  have hbtw := stepTo_between vddSafeStep target jump a
  -- either the cpu jumps, from or to zero, or it takes a step
  have hmove : (x = target ∧ (target = 0 ∨ a = 0)) ∨ (jump = false ∧ x ≤ a+100 ∧ target ≠ 0 ∧ a ≠ 0) := by
    cases jump with
    | true =>
      refine .inl ⟨by rw [hx,stepTo_jump],?_⟩
      exact (h.leap rfl).resolve_left hne
    | false =>
      refine .inr ⟨rfl,?_,h.walk rfl⟩
      rw [hx]
      exact stepTo_le _ _ _
  refine ⟨?_,?_⟩
  · intro hnone hs
    have hlt := lt_of_floor_none hnone
    have hT := hsmall hs
    have hax : x ≤ a := by omega
    rw [max_eq_right hax] at hnone
    cases hnone.symm.trans hf0
  intro f hf
  obtain ⟨f1,hf1,hle⟩ := floor_mono (le_max_right x a) hf
  obtain rfl : f1 = f0 := some.inj (hf1.symm.trans hf0)
  -- the core stays within reach of the cpu
  have hfa : a = 0 ∨ f ≤ a+300 := by
    by_cases ha : a = 0
    · exact .inl ha
    · exact .inr (floor_le_cpu (by omega) (by omega) hf)
  have hfx : x = 0 ∨ f ≤ x+300 := by
    by_cases hx0 : x = 0
    · exact .inl hx0
    by_cases hax : a ≤ x
    · rw [max_eq_left hax] at hf
      exact .inr (floor_le_cpu (by omega) (by omega) hf)
    rw [max_eq_right (by omega)] at hf
    have hff : f = f1 := some.inj (hf.symm.trans hf0)
    omega
  obtain ⟨f2,hf2,hle2⟩ := floor_mono (le_max_left x a) hf
  refine ⟨?_,constraint_iff.mpr ⟨by omega,f2,hf2,by omega⟩,?_⟩
  · intro y hy
    exact constraint_iff.mpr ⟨by omega,f1,hf0,by omega⟩
  intro g hg
  obtain rfl : f2 = g := some.inj (hf2.symm.trans hg)
  have hg1300 := floor_le_max hg
  have hgT : target = 0 ∨ f2 ≤ target+300 := by
    by_cases hxa : x ≤ a
    · obtain ⟨f3,hf3,hle3⟩ := floor_mono hxa hf0
      have hff : f3 = f2 := some.inj (hf3.symm.trans hf2)
      omega
    · omega
  refine ⟨fun y hy => constraint_iff.mpr ⟨by omega,f2,hf2,by omega⟩,?_⟩
  refine ⟨constraint_iff.mpr ⟨by omega,f2,hf2,by omega⟩,by omega,by omega,?_,?_,?_⟩
  · intro hs
    have hbound := h.bounded hs
    omega
  · intro hj
    subst hj
    exact .inl (by rw [hx,stepTo_jump])
  intro hj
  obtain ⟨hT,ha⟩ := h.walk hj
  exact ⟨hT,by omega⟩

section Moves

variable (da dc)

lemma modify_cpu {da' : List Nat} (f : Rail → Rail) (hf : f (vddCpu a an ra da) = vddCpu m new res da') :
    (state da dc a an ra c cn rc log).modify 0 f = state da' dc m new res c cn rc log := by
  unfold State.modify
  congr 1
  funext i
  fin_cases i
  · exact hf
  · rfl

lemma modify_core {dc' : List Nat} (f : Rail → Rail) (hf : f (vddCore c cn rc dc) = vddCore m new res dc') :
    (state da dc a an ra c cn rc log).modify 1 f = state da dc' a an ra m new res log := by
  unfold State.modify
  congr 1
  funext i
  fin_cases i
  · rfl
  · exact hf

lemma volts_state : (state da dc a an ra c cn rc log).volts = ![a,c] := by
  funext i
  fin_cases i <;> rfl

lemma regulator_cpu : (state da dc a an ra c cn rc log).regulatorSetVoltage 0 =
    state da dc an an ra c cn rc (![an,c]::log) :=
  regulator_eq (modify_cpu _ _ _ rfl) (volts_state ..)

lemma regulator_core : (state da dc a an ra c cn rc log).regulatorSetVoltage 1 =
    state da dc a an ra cn cn rc (![a,cn]::log) :=
  regulator_eq (modify_core _ _ _ rfl) (volts_state ..)

end Moves

lemma setStep_cpu (hlog : LogOk speedo log) (hway : CpuWay speedo dc small target jump a c)
    (hne : a ≠ target) (hsmall : small → target ≤ 1250) (hup : up = decide (a < target))
    (hx : x = stepTo vddSafeStep target jump a) :
    (setStep (relationships speedo) (dvfsRailUpdate (relationships speedo) (k+2)) 0 target up jump
      (state da dc a an true c c false log)).Ends
      (fun s => ∃ c' log', s = state da dc x x true c' c' false log' ∧ LogOk speedo log' ∧
        CpuWay speedo dc small target jump x c') (Stopped speedo small) := by
  obtain ⟨hnone,hsome⟩ := hway.step hne hsmall hx
  refine setStep_ends hup hx ?_ ?_ (P := fun s => ∃ f log1, getCoreFloorMv speedo (max x a) = some f ∧
    s = state da dc a x true (max (demand dc) f) (max (demand dc) f) false log1 ∧
    LogOk speedo log1)
  · rw [modify_cpu _ _ _ rfl]
    exact notify_one rfl (core_follows hlog hnone fun f hf => (hsome f hf).1)
  rintro _ ⟨f,log1,hf,rfl,hlog1⟩
  obtain ⟨-,hset,hlast⟩ := hsome f hf
  obtain ⟨g,hg,-⟩ := floor_mono (le_max_left x a) hf
  have hlog2 : LogOk speedo (![x,max (demand dc) f]::log1) :=
    forall_mem_cons.mpr ⟨hset,hlog1⟩
  have hself := Nat.max_self x
  rw [regulator_cpu]
  refine (notify_one rfl (core_follows (k := k) hlog2 (fun hnone' => ?_) fun g' hg' => ?_)).mono ?_
  · rw [hself] at hnone'
    cases hnone'.symm.trans hg
  · rw [hself] at hg'
    exact (hlast g' hg').1
  rintro _ ⟨g',log3,hg',rfl,hlog3⟩
  rw [hself] at hg'
  exact ⟨_,log3,rfl,hlog3,(hlast g' hg').2⟩

lemma setVoltage_cpu (hlog : LogOk speedo log) (hne : target ≠ a) (hsmall : small → target ≤ 1250)
    (hway : CpuWay speedo dc small target (decide (target = 0) || decide (a = 0)) a c) :
    (dvfsRailSetVoltage (relationships speedo) (dvfsRailUpdate (relationships speedo) (k+2)) 0
      target (state da dc a an false c c false log)).Ends
      (fun s => ∃ c' log', s = state da dc target target false c' c' false log' ∧
        LogOk speedo log' ∧ Constraint speedo ![target,c'] ∧ demand dc ≤ c' ∧
        (small → c' ≤ 1350)) (Stopped speedo small) := by
  have hpos : 0 < vddSafeStep := by decide
  refine dvfsRailSetVoltage_ends (I := fun s => ∃ a' an' c' log', s = state da dc a' an' true c' c' false log' ∧
      LogOk speedo log' ∧ CpuWay speedo dc small target (decide (target = 0) || decide (a = 0)) a' c')
    (vddCpu a an false da) rfl rfl rfl hpos hne ⟨a,an,c,log,modify_cpu _ _ _ rfl,hlog,hway⟩ ?_ ?_
  · rintro _ ⟨a',an',c',log',rfl,hlog',hway'⟩ _ rfl hne' - hup
    refine (setStep_cpu hlog' hway' hne' hsmall hup rfl).mono ?_
    rintro _ ⟨c1,log1,rfl,hlog1,hway1⟩
    exact ⟨⟨_,_,c1,log1,rfl,hlog1,hway1⟩,rfl,rfl⟩
  rintro _ ⟨a',an',c',log',rfl,hlog',hway'⟩ rfl hm
  obtain rfl : a' = an' := hm
  exact ⟨c',log',modify_cpu _ _ _ rfl,hlog',hway'.constraint,hway'.core,hway'.bounded⟩

def Rest (speedo : Int) (small : Prop) (da dc : List Nat) (s : State 2) : Prop :=
  ∃ a c log, s = state da dc a a false c c false log ∧ LogOk speedo log ∧
    Constraint speedo ![a,c] ∧ demand da ≤ a ∧ demand dc ≤ c ∧ (small → c ≤ 1350)

lemma update_cpu (hlog : LogOk speedo log) (hcon : Constraint speedo ![a,c])
    (hcore : demand dc ≤ c) (hbound : small → c ≤ 1350) (hda : demand da ≤ 1250) :
    (dvfsRailUpdate (relationships speedo) (k+3) 0 (state da dc a a false c c false log)).Ends
      (Rest speedo small da dc) (Stopped speedo small) := by
  rw [dvfsRailUpdate_eq (vddCpu a a false da) rfl rfl rfl rfl]
  refine updateLoop_ends (J := fun s => ∃ a' an' c' log', s = state da dc a' an' false c' c' false log' ∧
      LogOk speedo log' ∧ Constraint speedo ![a',c'] ∧ demand dc ≤ c' ∧ (small → c' ≤ 1350))
    ?_ _ _ ⟨a,a,c,log,rfl,hlog,hcon,hcore,hbound⟩ (fun hk => absurd hk (by simp))
  rintro _ ⟨a',an',c',log',rfl,hlog',hcon',hcore',hbound'⟩
  have hsolve : solveAll 0 (relationshipsFrom (relationships speedo) 0)
      ((state da dc a' an' false c' c' false log').modify 0 fun rail =>
        { rail with newMillivolts := demand da }) =
      .done (state da dc a' (cpuTarget (demand da) c' c') false c' c' false log') 0 := by
    rw [modify_cpu _ _ _ rfl]
    have hrel : relVddCoreVddCpu (vddCore c' c' false dc) (vddCpu a' (demand da) false da) =
        some (cpuTarget (demand da) c' c') := (apply_ite some _ _ _).symm
    exact (solveAll_cons hrel).trans (congrArg (Run.done · 0) (modify_cpu _ _ _ rfl))
  have hle := le_cpuTarget (demand da) c' c'
  change (solveAll 0 _ (State.modify _ 0 fun rail => { rail with newMillivolts := demand da })).Ends _ _
  rw [hsolve]
  refine ends_done ⟨?_,?_⟩
  · intro heq
    change cpuTarget (demand da) c' c' = a' at heq
    rw [heq] at hle ⊢
    exact ⟨a',c',log',rfl,hlog',hcon',hle,hcore',hbound'⟩
  intro hne
  have hreach : cpuTarget (demand da) c' c' = 0 ∨ c' ≤ cpuTarget (demand da) c' c'+300 := by
    unfold cpuTarget
    split <;> omega
  have hsmall : small → cpuTarget (demand da) c' c' ≤ 1250 := by
    intro hs
    have hb := hbound' hs
    unfold cpuTarget
    split <;> omega
  refine (setVoltage_cpu hlog' hne hsmall ⟨hcon',hcore',hreach,hbound',?_,?_⟩).mono ?_
  · simp only [Bool.or_eq_true,decide_eq_true_eq]
    exact .inr
  · simp only [Bool.or_eq_false_iff,decide_eq_false_iff_not]
    exact id
  rintro _ ⟨c1,log1,rfl,hlog1,hcon1,hcore1,hbound1⟩
  exact ⟨⟨_,_,c1,log1,rfl,hlog1,hcon1,hcore1,hbound1⟩, _,c1,log1,rfl,hlog1,hcon1,hle,hcore1,hbound1⟩

structure CoreWay (speedo : Int) (da : List Nat) (target a c : Nat) : Prop where
  constraint : Constraint speedo ![a,c]
  cpu : demand da ≤ a
  floor : target ≤ c → ∃ f, getCoreFloorMv speedo a = some f ∧ f ≤ target

/-- A step of the core, with the cpu in front of it and behind it. -/
theorem CoreWay.step (h : CoreWay speedo da target a c) (hlow : 950 ≤ target)
    (hhigh : target ≤ 1350) (hx : x = stepTo vddSafeStep target false c) :
    (∀ y, Visits (decide (cpuTarget (demand da) x c = 0) || decide (a = 0)) a
      (cpuTarget (demand da) x c) y → Constraint speedo ![y,c]) ∧
    Constraint speedo ![cpuTarget (demand da) x c,x] ∧ (∀ y, Visits (decide (cpuTarget (demand da) x x = 0) ||
        decide (cpuTarget (demand da) x c = 0)) (cpuTarget (demand da) x c)
      (cpuTarget (demand da) x x) y → Constraint speedo ![y,x]) ∧
    CoreWay speedo da target (cpuTarget (demand da) x x) x := by
  obtain ⟨hcpu,f0,hf0,hf₀c⟩ := constraint_iff.mp h.constraint
  have hda := h.cpu
  have hc := le_floor hf0
  have hbtw := stepTo_between vddSafeStep target false c
  have hstep : x ≤ c+100 := hx ▸ stepTo_le vddSafeStep target c
  have hzero : getCoreFloorMv speedo 0 = some 950 := rfl
  by_cases hd : demand da = 0
  · -- the cpu is not needed: it is switched off
    have htarget : ∀ cn c, cpuTarget (demand da) cn c = 0 := fun cn c => if_pos hd
    have hoff : ∀ y, 950 ≤ y → Constraint speedo ![0,y] := fun y hy =>
      constraint_iff.mpr ⟨.inl rfl,950,hzero,hy⟩
    simp only [htarget,decide_true,Bool.true_or,Visits,Bool.true_eq_false,false_and,or_false]
    refine ⟨?_,hoff x (by omega),?_,hoff x (by omega),by omega,fun _ => ⟨950,hzero,hlow⟩⟩
    · rintro y rfl
      exact hoff c (hc.trans hf₀c)
    rintro y rfl
    exact hoff x (by omega)
  have htarget : ∀ cn c, cpuTarget (demand da) cn c = max (demand da) (max cn c-300) :=
    fun cn c => if_neg hd
  simp only [htarget]
  -- below the cpu the floor is lower, and above it there is room up to the next step
  have hfloor : ∀ y, y ≤ max a (max (demand da) (max x c-300)) →
      ∃ f, getCoreFloorMv speedo y = some f ∧ f ≤ c ∧ (y ≤ a → f ≤ f0) := by
    intro y hy
    by_cases hya : y ≤ a
    · obtain ⟨f,hf,hle⟩ := floor_mono hya hf0
      exact ⟨f,hf,by omega,fun _ => hle⟩
    cases hf : getCoreFloorMv speedo y with
    | none =>
      have hlt := lt_of_floor_none hf
      omega
    | some f => exact ⟨f,rfl,floor_le_core (by omega) (by omega) hf,fun hle => absurd hle hya⟩
  obtain ⟨f1,hf1,hf₁c,hf₁a⟩ := hfloor (max (demand da) (max x c-300)) (by omega)
  have hdown : target ≤ c → f1 ≤ target := by
    intro hdown
    obtain ⟨f,hf,hle⟩ := h.floor hdown
    have hff : f = f0 := some.inj (hf.symm.trans hf0)
    omega
  have hf₁x : f1 ≤ x := by
    rcases lt_or_ge c target with hup | hge
    · omega
    have hle := hdown hge
    omega
  refine ⟨?_,constraint_iff.mpr ⟨by omega,f1,hf1,hf₁x⟩,?_,?_⟩
  · intro y hy
    have hy' : a ≤ y ∧ y ≤ max (demand da) (max x c-300) ∨ max (demand da) (max x c-300) ≤ y ∧ y ≤ a := by
      rcases hy with rfl | ⟨-,hy⟩ <;> omega
    obtain ⟨f,hf,hle,-⟩ := hfloor y (by omega)
    exact constraint_iff.mpr ⟨by omega,f,hf,hle⟩
  · intro y hy
    have hy' : max (demand da) (max x x-300) ≤ y ∧ y ≤ max (demand da) (max x c-300) := by
      rcases hy with rfl | ⟨-,hy⟩ <;> omega
    obtain ⟨f,hf,hle⟩ := floor_mono hy'.2 hf1
    exact constraint_iff.mpr ⟨by omega,f,hf,by omega⟩
  have hle2 : max (demand da) (max x x-300) ≤ max (demand da) (max x c-300) := by omega
  obtain ⟨f2,hf2,hf21⟩ := floor_mono hle2 hf1
  refine ⟨constraint_iff.mpr ⟨by omega,f2,hf2,by omega⟩,by omega,fun hT => ⟨f2,hf2,?_⟩⟩
  rcases lt_or_ge c target with hup | hge
  · omega
  · exact hf21.trans (hdown hge)

lemma setStep_core (hlog : LogOk speedo log) (hway : CoreWay speedo da target a c)
    (hlow : 950 ≤ target) (hhigh : target ≤ 1350) (hup : up = decide (c < target))
    (hx : x = stepTo vddSafeStep target false c) :
    (setStep (relationships speedo) (dvfsRailUpdate (relationships speedo) (k+2)) 1 target up false
      (state da dc a a false c cn true log)).Ends
      (fun s => ∃ a' log', s = state da dc a' a' false x x true log' ∧ LogOk speedo log' ∧
        CoreWay speedo da target a' x) B := by
  obtain ⟨hbefore,hset,hafter,hnext⟩ := hway.step hlow hhigh hx
  refine setStep_ends hup hx ?_ ?_ (P := fun s => ∃ log1,
    s = state da dc (cpuTarget (demand da) x c) (cpuTarget (demand da) x c) false c x true log1 ∧
    LogOk speedo log1)
  · rw [modify_core _ _ _ rfl]
    exact notify_one rfl (cpu_follows hlog hbefore)
  rintro _ ⟨log1,rfl,hlog1⟩
  have hlog2 : LogOk speedo (![cpuTarget (demand da) x c,x]::log1) :=
    forall_mem_cons.mpr ⟨hset,hlog1⟩
  rw [regulator_core]
  refine (notify_one rfl (cpu_follows (k := k) hlog2 hafter)).mono ?_
  rintro _ ⟨log3,rfl,hlog3⟩
  exact ⟨_,log3,rfl,hlog3,hnext⟩

lemma setVoltage_core (hlog : LogOk speedo log) (hne : target ≠ c)
    (hway : CoreWay speedo da target a c) (hlow : 950 ≤ target) (hhigh : target ≤ 1350) :
    (dvfsRailSetVoltage (relationships speedo) (dvfsRailUpdate (relationships speedo) (k+2)) 1
      target (state da dc a a false c cn false log)).Ends
      (fun s => ∃ a' log', s = state da dc a' a' false target target false log' ∧
        LogOk speedo log' ∧ Constraint speedo ![a',target] ∧ demand da ≤ a') B := by
  have hpos : 0 < vddSafeStep := by decide
  refine dvfsRailSetVoltage_ends (I := fun s => ∃ a' c' cn' log', s = state da dc a' a' false c' cn' true log' ∧
      LogOk speedo log' ∧ CoreWay speedo da target a' c')
    (vddCore c cn false dc) rfl rfl rfl hpos hne ⟨a,c,cn,log,modify_core _ _ _ rfl,hlog,hway⟩ ?_ ?_
  · rintro _ ⟨a',c',cn',log',rfl,hlog',hway'⟩ _ rfl - - hup
    refine (setStep_core hlog' hway' hlow hhigh hup rfl).mono ?_
    rintro _ ⟨a1,log1,rfl,hlog1,hway1⟩
    exact ⟨⟨a1,_,_,log1,rfl,hlog1,hway1⟩,rfl,rfl⟩
  rintro _ ⟨a',c',cn',log',rfl,hlog',hway'⟩ rfl hm
  obtain rfl : c' = cn' := hm
  exact ⟨a',log',modify_core _ _ _ rfl,hlog',hway'.constraint,hway'.cpu⟩

lemma update_core (hlog : LogOk speedo log) (hcon : Constraint speedo ![a,c])
    (hcpu : demand da ≤ a) (hbound : small → c ≤ 1350) (hdc : demand dc ≤ 1350) :
    (dvfsRailUpdate (relationships speedo) (k+3) 1 (state da dc a a false c c false log)).Ends
      (Rest speedo small da dc) (Stopped speedo small) := by
  rw [dvfsRailUpdate_eq (vddCore c c false dc) rfl rfl rfl rfl]
  refine updateLoop_ends (J := fun s => ∃ a' c' cn' log',
      s = state da dc a' a' false c' cn' false log' ∧ LogOk speedo log' ∧
      Constraint speedo ![a',c'] ∧ demand da ≤ a' ∧ (small → c' ≤ 1350))
    ?_ _ _ ⟨a,c,c,log,rfl,hlog,hcon,hcpu,hbound⟩ (fun hk => absurd hk (by simp))
  rintro _ ⟨a',c',cn',log',rfl,hlog',hcon',hcpu',hbound'⟩
  obtain ⟨-,f,hf,hfc⟩ := constraint_iff.mp hcon'
  have hsolve : solveAll 1 (relationshipsFrom (relationships speedo) 1)
      ((state da dc a' a' false c' cn' false log').modify 1 fun rail =>
        { rail with newMillivolts := demand dc }) =
      .done (state da dc a' a' false c' (max (demand dc) f) false log') 0 := by
    rw [modify_core _ _ _ rfl]
    have hrel : relVddCpuVddCore speedo (vddCpu a' a' false da) (vddCore c' (demand dc) false dc) =
        some (max (demand dc) f) := by
      simp only [relVddCpuVddCore,vddCpu,vddCore,Nat.max_self,hf,map_some]
    exact (solveAll_cons hrel).trans (congrArg (Run.done · 0) (modify_core _ _ _ rfl))
  change (solveAll 1 _ (State.modify _ 1 fun rail => { rail with newMillivolts := demand dc })).Ends _ _
  rw [hsolve]
  have hlow := le_floor hf
  have hhigh := floor_le_max hf
  refine ends_done ⟨?_,?_⟩
  · intro heq
    change max (demand dc) f = c' at heq
    rw [heq]
    exact ⟨a',c',log',rfl,hlog',hcon',hcpu',by omega,hbound'⟩
  intro hne
  change max (demand dc) f ≠ c' at hne
  refine (setVoltage_core hlog' hne ⟨hcon',hcpu',fun _ => ⟨f,hf,by omega⟩⟩ (by omega) (by omega)).mono ?_
  rintro _ ⟨a1,log1,rfl,hlog1,hcon1,hcpu1⟩
  exact ⟨⟨a1,_,_,log1,rfl,hlog1,hcon1,hcpu1,fun _ => by omega⟩,
    a1,_,log1,rfl,hlog1,hcon1,hcpu1,by omega,fun _ => by omega⟩

def initial (na nc a c : Nat) : State 2 :=
  state (replicate na 0) (replicate nc 0) a a false c c false []

/-- A demand within the limits of its rail; the cpu may also be switched off. -/
def Valid (d : Demand 2) : Prop :=
  InRange (initial 0 0 0 0) d ∨ (d.rail = 0 ∧ d.millivolts = 0)

instance (d : Demand 2) : Decidable (Valid d) := inferInstanceAs (Decidable (_ ∨ _))

def Kept (speedo : Int) (small : Prop) (s : State 2) : Prop :=
  ∃ da dc, Rest speedo small da dc s ∧ (∀ x ∈ da, x ≤ 1250) ∧ ∀ x ∈ dc, x ≤ 1350

lemma forall_mem_set {l : List Nat} {i b : Nat} (hl : ∀ y ∈ l, y ≤ b) (hx : x ≤ b) : ∀ y ∈ l.set i x, y ≤ b := by
  intro y hy
  rcases mem_or_eq_of_mem_set hy with hy | rfl
  · exact hl y hy
  · exact hx

lemma setRate_kept {s : State 2} {d : Demand 2} (hs : Kept speedo small s) (hd : Valid d) :
    (setRate (relationships speedo) d s).Ends (Kept speedo small) (Stopped speedo small) := by
  obtain ⟨da,dc,⟨a,c,log,rfl,hlog,hcon,hcpu,hcore,hbound⟩,hda,hdc⟩ := hs
  obtain ⟨r,clock,mv⟩ := d
  fin_cases r
  · have hmv : mv ≤ 1250 := by
      rcases hd with hd | ⟨-,hd⟩
      · exact hd.2
      · exact (Nat.le_of_eq hd).trans (Nat.zero_le _)
    have hda' := forall_mem_set (i := clock) hda hmv
    change (dvfsRailUpdate _ 3 0 ((state da dc a a false c c false log).modify 0 _)).Ends _ _
    rw [modify_cpu _ _ _ rfl]
    refine (update_cpu hlog hcon hcore hbound ?_).mono fun s' hs' => ⟨_,_,hs',hda',hdc⟩
    exact demand_le hda'
  have hmv : mv ≤ 1350 := by
    rcases hd with hd | ⟨hr,-⟩
    · exact hd.2
    · cases hr
  have hdc' := forall_mem_set (i := clock) hdc hmv
  change (dvfsRailUpdate _ 3 1 ((state da dc a a false c c false log).modify 1 _)).Ends _ _
  rw [modify_core _ _ _ rfl]
  refine (update_core hlog hcon hcpu hbound ?_).mono fun s' hs' => ⟨_,_,hs',hda,hdc'⟩
  exact demand_le hdc'

lemma kept_initial (na nc : Nat) (hcon : Constraint speedo ![a,c]) : Kept speedo (c ≤ 1350) (initial na nc a c) := by
  have hzero : ∀ n b, ∀ x ∈ replicate n 0, x ≤ b := by
    intro n b x hx
    rw [eq_of_mem_replicate hx]
    exact Nat.zero_le b
  have hdemand : ∀ n b, demand (replicate n 0) ≤ b := fun n b =>
    demand_le (hzero n b)
  refine ⟨_,_,⟨a,c,[],rfl,?_,hcon,hdemand _ _,hdemand _ _,id⟩,hzero _ _,hzero _ _⟩
  exact fun v hv => nomatch hv

end LinuxToradex.Dvfs.Tegra3

namespace LinuxToradex.Dvfs
open Outcome

/-- Whatever voltages within the limits are asked for, the constraints hold after each single
call of a regulator, also of those made before a `BUG`. There is no `BUG` on Tegra 2, and on
Tegra 3 none unless the core starts above its limit. -/
theorem constraints_hold_after_each_call : (∀ (speedo : Int) (na nc a c : Nat) (ds : List (Demand 2)),
      Tegra3.Constraint speedo ![a,c] → (∀ d ∈ ds, Tegra3.Valid d) →
      (∃ s, (runDemands (Tegra3.relationships speedo) ds (Tegra3.initial na nc a c)).state? = some s ∧
        ∀ v ∈ s.log, Tegra3.Constraint speedo v) ∧ (c ≤ 1350 → ∃ s,
        runDemands (Tegra3.relationships speedo) ds (Tegra3.initial na nc a c) = .done s 0)) ∧
    ∀ (na nc nn a c o : Nat) (ds : List (Demand 3)), Tegra2.Constraint ![a,c,o] →
      ∃ s, runDemands Tegra2.relationships ds (Tegra2.initial na nc nn a c o) = .done s 0 ∧
        ∀ v ∈ s.log, Tegra2.Constraint v := by
  refine ⟨?_,?_⟩
  · intro speedo na nc a c ds hcon hds
    have hends := runDemands_ends (fun s d => Tegra3.setRate_kept) ds _ (Tegra3.kept_initial na nc hcon) hds
    refine ⟨hends.leaves ?_ fun s hs => hs.1,?_⟩
    · rintro _ ⟨da,dc,⟨a',c',log,rfl,hlog,-⟩,-⟩
      exact hlog
    intro hc
    obtain ⟨s,hs,-⟩ := hends.returns fun s hs => hs.2 hc
    exact ⟨s,hs⟩
  intro na nc nn a c o ds hcon
  have hends := runDemands_ends (B := fun _ => False) (fun s d hs (_ : True) => Tegra2.setRate_kept d hs) ds _
    (Tegra2.kept_initial na nc nn hcon) fun _ _ => trivial
  obtain ⟨_,hrun,da,dc,dn,a',an,c',cn,o',on,log,rfl,hlog,-⟩ :=
    hends.returns fun _ => id
  exact ⟨_,hrun,hlog⟩

theorem constraints_hold_after_each_call_cpu_up_and_off :
    (∃ s, (runDemands (Tegra3.relationships 2) [⟨0,0,1250⟩,⟨1,0,1350⟩,⟨0,0,0⟩]
        (Tegra3.initial 1 1 800 1000)).state? = some s ∧ ∀ v ∈ s.log, Tegra3.Constraint 2 v) ∧
    (∃ s, runDemands (Tegra3.relationships 2) [⟨0,0,1250⟩,⟨1,0,1350⟩,⟨0,0,0⟩]
      (Tegra3.initial 1 1 800 1000) = .done s 0) ∧
    ∃ s, runDemands Tegra2.relationships [⟨0,0,1125⟩,⟨1,0,1300⟩,⟨0,0,750⟩]
        (Tegra2.initial 1 1 0 750 950 1000) = .done s 0 ∧ ∀ v ∈ s.log, Tegra2.Constraint v := by
  have h3 := constraints_hold_after_each_call.1 2 1 1 800 1000 [⟨0,0,1250⟩,⟨1,0,1350⟩,⟨0,0,0⟩] (by decide) (by decide)
  exact ⟨h3.1,h3.2 (by decide),constraints_hold_after_each_call.2 1 1 0 750 950 1000 _ (by decide)⟩

end LinuxToradex.Dvfs
