import LinuxToradex.Dvfs.Rails
import Mathlib.Data.Fin.VecNotation
import Mathlib.Data.Fintype.Basic
import Mathlib.Tactic.FinCases

/-! `tegra2_dvfs.c`: the core and the always-on rail must be 120 mV above the cpu and close to each other. -/
namespace LinuxToradex.Dvfs.Tegra2
open List Outcome Nat

variable {x m new target : Nat}

/-- `tegra2_dvfs_rail_vdd_cpu`, connected, with its voltages and what is asked for. -/
def vddCpu (millivolts new : Nat) (resolving : Bool) (dvfs : List Nat) : Rail :=
  { minMillivolts := 750, maxMillivolts := 1125, step := initStep 0 1125, jmpToZero := false
    reg := true, disabled := false, suspended := false, resolvingTo := resolving
    millivolts := millivolts, newMillivolts := new, dvfs := dvfs }

def vddCore (millivolts new : Nat) (resolving : Bool) (dvfs : List Nat) : Rail :=
  { minMillivolts := 950, maxMillivolts := 1300, step := initStep 150 1300, jmpToZero := false
    reg := true, disabled := false, suspended := false, resolvingTo := resolving
    millivolts := millivolts, newMillivolts := new, dvfs := dvfs }

def vddAon (millivolts new : Nat) (resolving : Bool) (dvfs : List Nat) : Rail :=
  { minMillivolts := 950, maxMillivolts := 1300, step := initStep 0 1300, jmpToZero := false
    reg := true, disabled := false, suspended := false, resolvingTo := resolving
    millivolts := millivolts, newMillivolts := new, dvfs := dvfs }

def relVddCpuVddCore (cpu core : Rail) : Option Nat :=
  if cpu.newMillivolts > cpu.millivolts ∧ core.newMillivolts < cpu.newMillivolts+120 then
    some (cpu.newMillivolts+120)
  else if core.newMillivolts < cpu.millivolts+120 then some (cpu.millivolts+120)
  else some core.newMillivolts

def relVddCoreVddAon (core aon : Rail) : Option Nat :=
  if dist aon.millivolts core.millivolts > aon.step then none else some core.millivolts

/-- `tegra2_dvfs_relationships`. -/
def relationships : List (Relationship 3) :=
  [{fromRail := 0, toRail := 1, solve := relVddCpuVddCore}, {fromRail := 0, toRail := 2, solve := relVddCpuVddCore},
    {fromRail := 1, toRail := 2, solve := relVddCoreVddAon}]

/-- What must hold of the voltages of the cpu, the core and the always-on rail. -/
def Constraint (v : Fin 3 → Nat) : Prop :=
  v 0+120 ≤ v 1 ∧ v 0+120 ≤ v 2 ∧ dist (v 1) (v 2) ≤ 170

instance (v : Fin 3 → Nat) : Decidable (Constraint v) :=
  inferInstanceAs (Decidable (v 0+120 ≤ v 1 ∧ v 0+120 ≤ v 2 ∧ dist (v 1) (v 2) ≤ 170))

def LogOk (log : List (Fin 3 → Nat)) : Prop := ∀ v ∈ log, Constraint v

def state (da dc dn : List Nat) (a an : Nat) (ra : Bool) (c cn : Nat) (rc : Bool) (o on : Nat)
    (log : List (Fin 3 → Nat)) : State 3 :=
  ⟨![vddCpu a an ra da,vddCore c cn rc dc,vddAon o on false dn],log⟩

variable {da dc dn : List Nat} {a an c cn o on k : Nat} {ra rc : Bool}
  {log : List (Fin 3 → Nat)} {B : State 3 → Prop}

lemma constraint_iff {y z : Nat} : Constraint ![x,y,z] ↔ x+120 ≤ y ∧ x+120 ≤ z ∧ y ≤ z+170 ∧ z ≤ y+170 := by
  change x+120 ≤ y ∧ x+120 ≤ z ∧ dist y z ≤ 170 ↔ _
  unfold dist
  omega

section Moves

variable (da dc dn)

lemma modify_cpu (f : Rail → Rail) {res : Bool} {da' : List Nat} (hf : f (vddCpu a an ra da) = vddCpu m new res da') :
    (state da dc dn a an ra c cn rc o on log).modify 0 f = state da' dc dn m new res c cn rc o on log := by
  unfold State.modify
  congr 1
  funext i
  fin_cases i
  · exact hf
  · rfl
  · rfl

lemma modify_core (f : Rail → Rail) {res : Bool} {dc' : List Nat}
    (hf : f (vddCore c cn rc dc) = vddCore m new res dc') :
    (state da dc dn a an ra c cn rc o on log).modify 1 f = state da dc' dn a an ra m new res o on log := by
  unfold State.modify
  congr 1
  funext i
  fin_cases i
  · rfl
  · exact hf
  · rfl

lemma modify_aon (f : Rail → Rail) {dn' : List Nat} (hf : f (vddAon o on false dn) = vddAon m new false dn') :
    (state da dc dn a an ra c cn rc o on log).modify 2 f = state da dc dn' a an ra c cn rc m new log := by
  unfold State.modify
  congr 1
  funext i
  fin_cases i
  · rfl
  · rfl
  · exact hf

lemma volts_state : (state da dc dn a an ra c cn rc o on log).volts = ![a,c,o] := by
  funext i
  fin_cases i <;> rfl

lemma regulator_cpu : (state da dc dn a an ra c cn rc o on log).regulatorSetVoltage 0 =
    state da dc dn an an ra c cn rc o on (![an,c,o]::log) :=
  regulator_eq (modify_cpu _ _ _ _ rfl) (volts_state ..)

lemma regulator_core : (state da dc dn a an ra c cn rc o on log).regulatorSetVoltage 1 =
    state da dc dn a an ra cn cn rc o on (![a,cn,o]::log) :=
  regulator_eq (modify_core _ _ _ _ rfl) (volts_state ..)

end Moves

lemma place_aon (m new : Nat) (log' : List (Fin 3 → Nat)) :
    (state da dc dn a an ra c cn rc o on log).place 2 m new false log' =
      state da dc dn a an ra c cn rc m new log' := by
  unfold State.place state
  congr 1
  funext i
  fin_cases i <;> rfl

lemma volts_aon (x : Nat) : Function.update (state da dc dn a an ra c cn rc o on log).volts 2 x = ![a,c,x] := by
  funext i
  fin_cases i <;> rfl

def above (a an d : Nat) : Nat :=
  if an > a ∧ d < an+120 then an+120 else if d < a+120 then a+120 else d

lemma relVddCpuVddCore_eq (cpu core : Rail) : relVddCpuVddCore cpu core =
    some (above cpu.millivolts cpu.newMillivolts core.newMillivolts) := by
  unfold relVddCpuVddCore above
  split
  · rfl
  · split <;> rfl

lemma le_above (a an d : Nat) : a+120 ≤ above a an d ∧ an+120 ≤ above a an d := by
  unfold above
  split
  · omega
  · split <;> omega

/-- The always-on rail goes where the core is. -/
theorem aon_follows (hlog : LogOk log) (hcon : Constraint ![a,c,o]) :
    (dvfsRailUpdate relationships (k+2) 2 (state da dc dn a an ra c cn rc o on log)).Ends
      (fun s => ∃ log', s = state da dc dn a an ra c cn rc c c log' ∧ LogOk log') B := by
  have hcon' := constraint_iff.mp hcon
  have hpos : 0 < (vddAon o on false dn).step := zero_lt_succ 1299
  refine (dvfsRailUpdate_alone (state da dc dn a an ra c cn rc o on log) 2 c Constraint
    rfl rfl rfl rfl hpos ?_ ?_ hlog ?_).mono ?_
  · intro rel hrel
    cases hrel
  · intro m log' hm
    have hnear : ¬dist m c > 1300 := by
      change m = o ∨ m = c at hm
      unfold dist
      omega
    rw [place_aon,place_aon]
    refine (solveAll_cons (relVddCpuVddCore_eq _ _)).trans ?_
    rw [modify_aon _ _ _ _ rfl]
    refine (solveAll_cons (if_neg hnear)).trans ?_
    exact congrArg (Run.done · 0) (modify_aon _ _ _ _ rfl)
  · intro x hx
    rw [volts_aon]
    have hx' : x = c ∨ o ≤ x ∧ x ≤ c ∨ c ≤ x ∧ x ≤ o := hx.imp id And.right
    exact constraint_iff.mpr (by omega)
  rintro _ ⟨log',rfl,hlog'⟩
  exact ⟨log',place_aon ..,hlog'⟩

lemma setStep_core {up : Bool} (hlog : LogOk log) (hcon : Constraint ![a,c,o])
    (htarget : a+120 ≤ target) (hup : up = decide (c < target)) (hx : x = stepTo (initStep 150 1300) target false c) :
    (setStep relationships (dvfsRailUpdate relationships (k+2)) 1 target up false
      (state da dc dn a an ra c cn true o on log)).Ends
      (fun s => ∃ log', s = state da dc dn a an ra x x true x x log' ∧ LogOk log' ∧ Constraint ![a,x,x]) B := by
  have hcon' := constraint_iff.mp hcon
  have hbtw := stepTo_between (initStep 150 1300) target false c
  have hnear := stepTo_near (initStep 150 1300) target c
  have hstep : initStep 150 1300 = 150 := rfl
  have hset : Constraint ![a,x,c] := constraint_iff.mpr (by omega)
  refine setStep_ends hup hx ?_ ?_ (P := fun s => ∃ log1, s = state da dc dn a an ra c x true c c log1 ∧ LogOk log1)
  · rw [modify_core _ _ _ _ rfl]
    exact notify_one rfl (aon_follows hlog hcon)
  rintro _ ⟨log1,rfl,hlog1⟩
  have hlog2 : LogOk (![a,x,c]::log1) := forall_mem_cons.mpr ⟨hset,hlog1⟩
  rw [regulator_core]
  refine (notify_one rfl (aon_follows (k := k) hlog2 hset)).mono ?_
  rintro _ ⟨log3,rfl,hlog3⟩
  exact ⟨log3,rfl,hlog3,constraint_iff.mpr (by omega)⟩

lemma setVoltage_core (hlog : LogOk log) (hne : target ≠ c) (hcon : Constraint ![a,c,o])
    (htarget : a+120 ≤ target) : (dvfsRailSetVoltage relationships (dvfsRailUpdate relationships (k+2)) 1 target
      (state da dc dn a an ra c cn false o on log)).Ends
      (fun s => ∃ o' on' log', s = state da dc dn a an ra target target false o' on' log' ∧
        LogOk log' ∧ Constraint ![a,target,o']) B := by
  have hpos : 0 < (vddCore c cn false dc).step := zero_lt_succ 149
  refine dvfsRailSetVoltage_ends (I := fun s => ∃ c' cn' o' on' log',
      s = state da dc dn a an ra c' cn' true o' on' log' ∧ LogOk log' ∧ Constraint ![a,c',o'])
    (vddCore c cn false dc) rfl rfl rfl hpos hne ⟨c,cn,o,on,log,modify_core _ _ _ _ rfl,hlog,hcon⟩ ?_ ?_
  · rintro _ ⟨c',cn',o',on',log',rfl,hlog',hcon'⟩ _ rfl - - hup
    refine (setStep_core hlog' hcon' htarget hup rfl).mono ?_
    rintro _ ⟨log1,rfl,hlog1,hcon1⟩
    exact ⟨⟨_,_,_,_,log1,rfl,hlog1,hcon1⟩,rfl,rfl⟩
  rintro _ ⟨c',cn',o',on',log',rfl,hlog',hcon'⟩ rfl hm
  obtain rfl : c' = cn' := hm
  exact ⟨o',on',log',modify_core _ _ _ _ rfl,hlog',hcon'⟩

/-- The core goes where the cpu and its clocks need it. -/
theorem update_core (hlog : LogOk log) (hcon : Constraint ![a,c,o]) :
    (dvfsRailUpdate relationships (k+3) 1 (state da dc dn a an ra c cn false o on log)).Ends
      (fun s => ∃ o' on' log', s = state da dc dn a an ra (above a an (demand dc))
        (above a an (demand dc)) false o' on' log' ∧ LogOk log' ∧ Constraint ![a,above a an (demand dc),o']) B := by
  rw [dvfsRailUpdate_eq (vddCore c cn false dc) rfl rfl rfl rfl]
  refine updateLoop_ends (J := fun s => ∃ c' cn' o' on' log',
      s = state da dc dn a an ra c' cn' false o' on' log' ∧ LogOk log' ∧ Constraint ![a,c',o'])
    ?_ _ _ ⟨c,cn,o,on,log,rfl,hlog,hcon⟩ (fun hk => absurd hk (by simp))
  rintro _ ⟨c',cn',o',on',log',rfl,hlog',hcon'⟩
  have hsolve : solveAll 1 (relationshipsFrom relationships 1)
      ((state da dc dn a an ra c' cn' false o' on' log').modify 1 fun rail =>
        { rail with newMillivolts := demand dc }) =
      .done (state da dc dn a an ra c' (above a an (demand dc)) false o' on' log') 0 := by
    rw [modify_core _ _ _ _ rfl]
    refine (solveAll_cons (relVddCpuVddCore_eq _ _)).trans ?_
    exact congrArg (Run.done · 0) (modify_core _ _ _ _ rfl)
  change (solveAll 1 _ (State.modify _ 1 fun rail => { rail with newMillivolts := demand dc })).Ends _ _
  rw [hsolve]
  refine ends_done ⟨?_,?_⟩
  · intro heq
    change above a an (demand dc) = c' at heq
    rw [heq]
    exact ⟨o',on',log',rfl,hlog',hcon'⟩
  intro hne
  refine (setVoltage_core hlog' hne hcon' (le_above a an _).1).mono ?_
  rintro _ ⟨o1,on1,log1,rfl,hlog1,hcon1⟩
  exact ⟨⟨_,_,o1,on1,log1,rfl,hlog1,hcon1⟩,o1,on1,log1,rfl,hlog1,hcon1⟩

lemma others_follow (hlog : LogOk log) (hcon : Constraint ![a,c,o]) :
    (notify relationships (dvfsRailUpdate relationships (k+3)) 0 (state da dc dn a an ra c cn false o on log)).Ends
      (fun s => ∃ log', s = state da dc dn a an ra (above a an (demand dc))
        (above a an (demand dc)) false (above a an (demand dc)) (above a an (demand dc)) log' ∧ LogOk log') B := by
  refine (update_core hlog hcon).next ?_
  rintro _ ⟨o',on',log',rfl,hlog',hcon'⟩
  exact (aon_follows hlog' hcon').next fun s hs => ends_done hs

lemma setStep_cpu {up : Bool} (hlog : LogOk log) (hcon : Constraint ![a,c,o])
    (hup : up = decide (a < target)) (hx : x = stepTo (initStep 0 1125) target false a) :
    (setStep relationships (dvfsRailUpdate relationships (k+3)) 0 target up false
      (state da dc dn a an true c cn false o on log)).Ends
      (fun s => ∃ c' log', s = state da dc dn x x true c' c' false c' c' log' ∧ LogOk log' ∧
        Constraint ![x,c',c']) B := by
  have hbefore := le_above a x (demand dc)
  have hafter := le_above x x (demand dc)
  have hset : Constraint ![x,above a x (demand dc),above a x (demand dc)] :=
    constraint_iff.mpr (by omega)
  refine setStep_ends hup hx ?_ ?_ (P := fun s => ∃ log1,
    s = state da dc dn a x true (above a x (demand dc)) (above a x (demand dc)) false
      (above a x (demand dc)) (above a x (demand dc)) log1 ∧ LogOk log1)
  · rw [modify_cpu _ _ _ _ rfl]
    exact others_follow hlog hcon
  rintro _ ⟨log1,rfl,hlog1⟩
  have hlog2 : LogOk (![x,above a x (demand dc),above a x (demand dc)]::log1) :=
    forall_mem_cons.mpr ⟨hset,hlog1⟩
  rw [regulator_cpu]
  refine (others_follow (k := k) hlog2 hset).mono ?_
  rintro _ ⟨log3,rfl,hlog3⟩
  exact ⟨_,log3,rfl,hlog3,constraint_iff.mpr (by omega)⟩

lemma setVoltage_cpu (hlog : LogOk log) (hne : target ≠ a) (hcon : Constraint ![a,c,o]) :
    (dvfsRailSetVoltage relationships (dvfsRailUpdate relationships (k+3)) 0 target
      (state da dc dn a an false c cn false o on log)).Ends (fun s => ∃ c' cn' o' on' log',
        s = state da dc dn target target false c' cn' false o' on' log' ∧
        LogOk log' ∧ Constraint ![target,c',o']) B := by
  have hpos : 0 < (vddCpu a an false da).step := zero_lt_succ 1124
  refine dvfsRailSetVoltage_ends (I := fun s => ∃ a' an' c' cn' o' on' log',
      s = state da dc dn a' an' true c' cn' false o' on' log' ∧ LogOk log' ∧ Constraint ![a',c',o'])
    (vddCpu a an false da) rfl rfl rfl hpos hne ⟨a,an,c,cn,o,on,log,modify_cpu _ _ _ _ rfl,hlog,hcon⟩ ?_ ?_
  · rintro _ ⟨a',an',c',cn',o',on',log',rfl,hlog',hcon'⟩ _ rfl - - hup
    refine (setStep_cpu hlog' hcon' hup rfl).mono ?_
    rintro _ ⟨c1,log1,rfl,hlog1,hcon1⟩
    exact ⟨⟨_,_,c1,c1,c1,c1,log1,rfl,hlog1,hcon1⟩,rfl,rfl⟩
  rintro _ ⟨a',an',c',cn',o',on',log',rfl,hlog',hcon'⟩ rfl hm
  obtain rfl : a' = an' := hm
  exact ⟨c',cn',o',on',log',modify_cpu _ _ _ _ rfl,hlog',hcon'⟩

def Kept (s : State 3) : Prop :=
  ∃ da dc dn a an c cn o on log, s = state da dc dn a an false c cn false o on log ∧ LogOk log ∧
    Constraint ![a,c,o]

lemma update_cpu (hlog : LogOk log) (hcon : Constraint ![a,c,o]) :
    (dvfsRailUpdate relationships (k+4) 0 (state da dc dn a an false c cn false o on log)).Ends Kept B := by
  rw [dvfsRailUpdate_eq (vddCpu a an false da) rfl rfl rfl rfl]
  refine updateLoop_ends (J := fun s => ∃ a' an' c' cn' o' on' log',
      s = state da dc dn a' an' false c' cn' false o' on' log' ∧ LogOk log' ∧
      Constraint ![a',c',o'])
    ?_ _ _ ⟨a,an,c,cn,o,on,log,rfl,hlog,hcon⟩ (fun hk => absurd hk (by simp))
  rintro _ ⟨a',an',c',cn',o',on',log',rfl,hlog',hcon'⟩
  rw [modify_cpu _ _ _ _ rfl]
  refine ends_done ⟨?_,?_⟩
  · intro _
    exact ⟨da,dc,dn,a',_,c',cn',o',on',log',rfl,hlog',hcon'⟩
  intro hne
  refine (setVoltage_cpu hlog' hne hcon').mono ?_
  rintro _ ⟨c1,cn1,o1,on1,log1,rfl,hlog1,hcon1⟩
  exact ⟨⟨_,_,c1,cn1,o1,on1,log1,rfl,hlog1,hcon1⟩, da,dc,dn,_,_,c1,cn1,o1,on1,log1,rfl,hlog1,hcon1⟩

def initial (na nc nn a c o : Nat) : State 3 :=
  state (replicate na 0) (replicate nc 0) (replicate nn 0) a a false c c false o o []

lemma setRate_kept {s : State 3} (d : Demand 3) (hs : Kept s) : (setRate relationships d s).Ends Kept B := by
  obtain ⟨da,dc,dn,a,an,c,cn,o,on,log,rfl,hlog,hcon⟩ := hs
  obtain ⟨r,clock,mv⟩ := d
  fin_cases r
  · change (dvfsRailUpdate _ 4 0 ((state da dc dn a an false c cn false o on log).modify 0 _)).Ends _ _
    rw [modify_cpu _ _ _ _ rfl]
    exact update_cpu hlog hcon
  · change (dvfsRailUpdate _ 4 1 ((state da dc dn a an false c cn false o on log).modify 1 _)).Ends _ _
    rw [modify_core _ _ _ _ rfl]
    refine (update_core hlog hcon).mono ?_
    rintro _ ⟨o',on',log',rfl,hlog',hcon'⟩
    exact ⟨da,_,dn,a,an,_,_,o',on',log',rfl,hlog',hcon'⟩
  change (dvfsRailUpdate _ 4 2 ((state da dc dn a an false c cn false o on log).modify 2 _)).Ends _ _
  rw [modify_aon _ _ _ _ rfl]
  refine (aon_follows hlog hcon).mono ?_
  rintro _ ⟨log',rfl,hlog'⟩
  refine ⟨da,dc,_,a,an,c,cn,c,c,log',rfl,hlog',?_⟩
  have hcon' := constraint_iff.mp hcon
  exact constraint_iff.mpr (by omega)

lemma kept_initial (na nc nn : Nat) (hcon : Constraint ![a,c,o]) : Kept (initial na nc nn a c o) :=
  ⟨_,_,_,a,a,c,c,o,o,[],rfl,fun _ hv => (nomatch hv),hcon⟩

end LinuxToradex.Dvfs.Tegra2
