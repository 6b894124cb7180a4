import LinuxToradex.Foundation.Outcome

/-! Power rails, `arch/arm/mach-tegra/dvfs.c`. A rail is moved in steps; before and after each step the
rails that depend on it are updated in the same way. A rail that is being moved is not updated again; the
depth of the recursion is the fuel. All calls of the regulators succeed. -/
namespace LinuxToradex.Dvfs
open Outcome Function

/-- `struct dvfs_rail`; `reg` tells whether its regulator is connected, and `dvfs` are the
voltages that its clocks ask for, `cur_millivolts`. -/
structure Rail where
  minMillivolts : Nat
  maxMillivolts : Nat
  step : Nat
  jmpToZero : Bool
  reg : Bool
  disabled : Bool
  suspended : Bool
  resolvingTo : Bool
  millivolts : Nat
  newMillivolts : Nat
  dvfs : List Nat
  deriving DecidableEq

/-- `struct dvfs_relationship`: what the rail `to` has to be set to for the sake of the rail
`from`; `none` is a `BUG`. -/
structure Relationship (n : Nat) where
  fromRail : Fin n
  toRail : Fin n
  solve : Rail → Rail → Option Nat

/-- The rails, and the voltages after each call of a regulator, the last one first. -/
structure State (n : Nat) where
  rail : Fin n → Rail
  log : List (Fin n → Nat)

variable {n : Nat}

namespace State

def modify (s : State n) (r : Fin n) (f : Rail → Rail) : State n :=
  {s with rail := Function.update s.rail r (f (s.rail r))}

def volts (s : State n) : Fin n → Nat := fun i => (s.rail i).millivolts

/-- `regulator_set_voltage` to `new_millivolts`, which is the voltage from now on. -/
def regulatorSetVoltage (s : State n) (r : Fin n) : State n :=
  let s := s.modify r fun rail => {rail with millivolts := rail.newMillivolts}
  {s with log := s.volts::s.log}

end State

def relationshipsTo (rels : List (Relationship n)) (r : Fin n) : List (Relationship n) :=
  rels.filter fun rel => decide (rel.fromRail = r)

def relationshipsFrom (rels : List (Relationship n)) (r : Fin n) : List (Relationship n) :=
  rels.filter fun rel => decide (rel.toRail = r)

def divRoundUp (a b : Nat) : Nat := (a+b-1)/b

def dist (a b : Nat) : Nat := (a-b)+(b-a)

def demand (dvfs : List Nat) : Nat := dvfs.foldl (fun mv d => max d mv) 0

def Rail.requested (rail : Rail) : Nat := demand rail.dvfs

def solveAll (r : Fin n) : List (Relationship n) → State n → Run (State n)
  | [], s => .done s 0
  | rel::rels, s =>
    match rel.solve (s.rail rel.fromRail) (s.rail rel.toRail) with
    | some mv => solveAll r rels (s.modify r fun rail => {rail with newMillivolts := mv})
    | none => .bug s

lemma solveAll_cons {r : Fin n} {rel : Relationship n} {rels : List (Relationship n)} {s : State n} {mv : Nat}
    (h : rel.solve (s.rail rel.fromRail) (s.rail rel.toRail) = some mv) : solveAll r (rel::rels) s =
      solveAll r rels (s.modify r fun rail => {rail with newMillivolts := mv}) := by
  rw [solveAll,h]

lemma solveAll_bug {r : Fin n} {rel : Relationship n} {rels : List (Relationship n)} {s : State n}
    (h : rel.solve (s.rail rel.fromRail) (s.rail rel.toRail) = none) : solveAll r (rel::rels) s = .bug s := by
  rw [solveAll,h]

section SetVoltage

variable (rels : List (Relationship n)) (update : Fin n → State n → Run (State n)) (r : Fin n)
  (millivolts : Nat)

def notify (s : State n) : Run (State n) :=
  forEach (fun rel => update rel.toRail) (relationshipsTo rels r) s

def setStep (up jump : Bool) (s : State n) : Run (State n) :=
  let rail := s.rail r
  let new := if jump = false ∧ dist millivolts rail.millivolts > rail.step then
      if up = true then rail.millivolts+rail.step else rail.millivolts-rail.step
    else millivolts
  (notify rels update r (s.modify r fun rail => {rail with newMillivolts := new})).next fun s =>
    notify rels update r (s.regulatorSetVoltage r)

def setLoop (up jump : Bool) : Nat → State n → Run (State n)
  | 0, s => .done s (if (s.rail r).millivolts ≠ millivolts then -22 else 0)
  | k+1, s => (setStep rels update r millivolts up jump s).next (setLoop up jump k)

def dvfsRailSetVoltage (s : State n) : Run (State n) :=
  let rail := s.rail r
  if rail.reg = false then
    .done s (if millivolts = rail.millivolts then 0 else -22)
  else if rail.disabled = true then .done s 0
  else
    let up := decide (millivolts > rail.millivolts)
    let jump := rail.jmpToZero && (decide (millivolts = 0) || decide (rail.millivolts = 0))
    let steps := if jump = true then 1 else divRoundUp (dist millivolts rail.millivolts) rail.step
    (setLoop rels update r millivolts up jump steps
      (s.modify r fun rail => {rail with resolvingTo := true})).finally fun s =>
        s.modify r fun rail => {rail with resolvingTo := false}

end SetVoltage

/-- The loop of `dvfs_rail_update`, with so many retries left; `ret` is what the last round
returned. -/
def updateLoop (rels : List (Relationship n)) (update : Fin n → State n → Run (State n))
    (r : Fin n) (millivolts : Nat) : Nat → Int → State n → Run (State n)
  | 0, ret, s => .done s ret
  | k+1, ret, s =>
    match solveAll r (relationshipsFrom rels r)
        (s.modify r fun rail => {rail with newMillivolts := millivolts}) with
    | .done s _ =>
      if (s.rail r).newMillivolts = (s.rail r).millivolts then .done s ret
      else
        match dvfsRailSetVoltage rels update r (s.rail r).newMillivolts s with
        | .done s ret => updateLoop rels update r millivolts k ret s
        | .bug s => .bug s
        | .fuel => .fuel
    | .bug s => .bug s
    | .fuel => .fuel

def dvfsRailUpdate (rels : List (Relationship n)) : Nat → Fin n → State n → Run (State n)
  | 0, _, _ => .fuel
  | k+1, r, s =>
    let rail := s.rail r
    if rail.suspended = true then .done s 0
    else if rail.reg = false then .done s 0
    else if rail.resolvingTo = true then .done s 0
    else
      let steps := divRoundUp (dist rail.requested rail.millivolts) rail.step
      updateLoop rels (dvfsRailUpdate rels k) r rail.requested (steps+1) 0 s

structure Demand (n : Nat) where
  rail : Fin n
  clock : Nat
  millivolts : Nat

/-- A demand is noted and its rail updated, as `__tegra_dvfs_set_rate` does it. -/
def setRate (rels : List (Relationship n)) (d : Demand n) (s : State n) : Run (State n) :=
  dvfsRailUpdate rels (n+1) d.rail
    (s.modify d.rail fun rail => {rail with dvfs := rail.dvfs.set d.clock d.millivolts})

def runDemands (rels : List (Relationship n)) : List (Demand n) → State n → Run (State n)
  | [], s => .done s 0
  | d::ds, s =>
    match setRate rels d s with
    | .done s _ => runDemands rels ds s
    | .bug s => .bug s
    | .fuel => .fuel

def InRange (s : State n) (d : Demand n) : Prop :=
  (s.rail d.rail).minMillivolts ≤ d.millivolts ∧ d.millivolts ≤ (s.rail d.rail).maxMillivolts

instance (s : State n) (d : Demand n) : Decidable (InRange s d) :=
  inferInstanceAs (Decidable (_ ∧ _))

/-- The step that `tegra_dvfs_init_rails` gives a rail: one without a step of its own moves at
once. -/
def initStep (step maxMillivolts : Nat) : Nat := if step = 0 then maxMillivolts else step

open List

variable {n : Nat} {rels : List (Relationship n)} {update : Fin n → State n → Run (State n)}
  {r : Fin n} {I J Q B : State n → Prop}

def stepTo (step target : Nat) (jump : Bool) (m : Nat) : Nat :=
  if jump = false ∧ dist target m > step then
    if m < target then m+step else m-step
  else target

def Left (step target : Nat) (jump : Bool) (k m : Nat) : Prop :=
  (k = 0 ∧ m = target) ∨
    (m ≠ target ∧ (jump = true ∧ k = 1 ∨ jump = false ∧ k = divRoundUp (dist target m) step))

lemma divRoundUp_pos {a b : Nat} (ha : 0 < a) (hb : 0 < b) : 0 < divRoundUp a b :=
  Nat.div_pos (by omega) hb

lemma divRoundUp_of_le {a b : Nat} (ha : 0 < a) (hab : a ≤ b) : divRoundUp a b = 1 := by
  unfold divRoundUp
  rw [Nat.div_eq_iff (by omega)]
  omega

lemma divRoundUp_sub {a b : Nat} (hb : 0 < b) (hab : b < a) : divRoundUp a b = divRoundUp (a-b) b+1 := by
  unfold divRoundUp
  rw [show a+b-1 = a-b+b-1+b by omega,Nat.add_div_right _ hb]

lemma dist_pos {a b : Nat} (h : b ≠ a) : 0 < dist a b := by
  unfold dist
  omega

lemma Left.step {step target k m : Nat} {jump : Bool} (hpos : 0 < step)
    (h : Left step target jump (k+1) m) : Left step target jump k (stepTo step target jump m) := by
  rcases h with ⟨hk,-⟩ | ⟨hm,hk⟩
  · cases hk
  unfold stepTo
  rcases hk with ⟨rfl,hk⟩ | ⟨rfl,hk⟩
  · rw [if_neg (by simp)]
    exact .inl ⟨by omega,rfl⟩
  have hd := dist_pos hm
  by_cases hfar : dist target m > step
  · rw [if_pos ⟨rfl,hfar⟩]
    rw [divRoundUp_sub hpos hfar] at hk
    have hnear : dist target (if m < target then m+step else m-step) = dist target m-step := by
      unfold dist at hfar ⊢
      split <;> omega
    refine .inr ⟨?_,.inr ⟨rfl,?_⟩⟩
    · intro he
      unfold dist at hnear hfar
      omega
    rw [hnear]
    omega
  rw [if_neg (by simp [hfar])]
  rw [divRoundUp_of_le hd (by omega)] at hk
  exact .inl ⟨by omega,rfl⟩

lemma stepTo_between (step target : Nat) (jump : Bool) (m : Nat) :
    (m ≤ target → m ≤ stepTo step target jump m ∧ stepTo step target jump m ≤ target) ∧
      (target ≤ m → target ≤ stepTo step target jump m ∧ stepTo step target jump m ≤ m) := by
  unfold stepTo dist
  split
  · split <;> omega
  · omega

lemma stepTo_jump (step target m : Nat) : stepTo step target true m = target :=
  if_neg fun h => nomatch h.1

lemma stepTo_le (step target m : Nat) : stepTo step target false m ≤ m+step := by
  unfold stepTo dist
  split
  · split <;> omega
  rename_i h
  have hnear : ¬target-m+(m-target) > step := fun hfar => h ⟨rfl,hfar⟩
  omega

lemma stepTo_near (step target m : Nat) :
    stepTo step target false m ≤ m+step ∧ m ≤ stepTo step target false m+step := by
  refine ⟨stepTo_le step target m,?_⟩
  unfold stepTo dist
  split
  · split <;> omega
  rename_i h
  have hnear : ¬target-m+(m-target) > step := fun hfar => h ⟨rfl,hfar⟩
  omega

/-- If each step keeps the invariant and makes the voltage what it should be, the loop ends at
the target. -/
theorem setLoop_ends {target step : Nat} {up jump : Bool} (hpos : 0 < step)
    (hstep : ∀ s, I s → (s.rail r).millivolts ≠ target →
      (setStep rels update r target up jump s).Ends (fun s' => I s' ∧
        (s'.rail r).millivolts = stepTo step target jump (s.rail r).millivolts) B) :
    ∀ k s, I s → Left step target jump k (s.rail r).millivolts → (setLoop rels update r target up jump k s).Ends
        (fun s' => I s' ∧ (s'.rail r).millivolts = target) B := by
  intro k
  induction k with
  | zero =>
    intro s hs hleft
    have hm : (s.rail r).millivolts = target := by
      rcases hleft with ⟨-,hm⟩ | ⟨hm,⟨-,hk⟩ | ⟨-,hk⟩⟩
      · exact hm
      · cases hk
      · exact absurd hk (Nat.ne_of_lt (divRoundUp_pos (dist_pos hm) hpos))
    rw [setLoop,if_neg (not_not.mpr hm)]
    exact ends_done ⟨hs,hm⟩
  | succ k ih =>
    intro s hs hleft
    have hm : (s.rail r).millivolts ≠ target := by
      rcases hleft with ⟨hk,-⟩ | ⟨hm,-⟩
      · cases hk
      · exact hm
    rw [setLoop]
    refine (hstep s hs hm).next fun s' hs' => ih s' hs'.1 ?_
    rw [hs'.2]
    exact hleft.step hpos

/-- The voltage goes step by step from where it is to the target, and not beyond. -/
lemma dvfsRailSetVoltage_ends {target : Nat} {s : State n} (rail : Rail) (hrail : s.rail r = rail)
    (hreg : rail.reg = true) (hdis : rail.disabled = false) (hpos : 0 < rail.step)
    (hne : target ≠ rail.millivolts) (hI : I (s.modify r fun rail => {rail with resolvingTo := true}))
    (hstep : ∀ s, I s → ∀ m, m = (s.rail r).millivolts → m ≠ target →
      rail.millivolts ≤ m ∧ m ≤ target ∨ target ≤ m ∧ m ≤ rail.millivolts →
      decide (target > rail.millivolts) = decide (m < target) →
      (setStep rels update r target (decide (target > rail.millivolts))
        (rail.jmpToZero && (decide (target = 0) || decide (rail.millivolts = 0))) s).Ends
        (fun s' => I s' ∧ (s'.rail r).newMillivolts = (s'.rail r).millivolts ∧
          (s'.rail r).millivolts = stepTo rail.step target
            (rail.jmpToZero && (decide (target = 0) || decide (rail.millivolts = 0))) m) B)
    (hQ : ∀ s, I s → (s.rail r).newMillivolts = target → (s.rail r).millivolts = target →
      Q (s.modify r fun rail => {rail with resolvingTo := false})) :
    (dvfsRailSetVoltage rels update r target s).Ends Q B := by
  subst hrail
  unfold dvfsRailSetVoltage
  dsimp only
  rw [hreg,hdis,if_neg (by simp),if_neg (by simp)]
  generalize hjump : ((s.rail r).jmpToZero && (decide (target = 0) || decide ((s.rail r).millivolts = 0))) =
      jump at hstep
  refine (setLoop_ends (I := fun s' => I s' ∧
      ((s'.rail r).millivolts = target → (s'.rail r).newMillivolts = target) ∧
      ((s.rail r).millivolts ≤ (s'.rail r).millivolts ∧ (s'.rail r).millivolts ≤ target ∨
        target ≤ (s'.rail r).millivolts ∧ (s'.rail r).millivolts ≤ (s.rail r).millivolts))
    hpos ?_ _ _ ⟨hI,?_⟩ ?_).finally fun s' ⟨⟨hs',hnew,_⟩,hm⟩ => hQ s' hs' (hnew hm) hm
  · rintro s' ⟨hs',-,hbtw⟩ hm
    have hmid := stepTo_between (s.rail r).step target jump (s'.rail r).millivolts
    refine (hstep s' hs' _ rfl hm hbtw (by rw [decide_eq_decide]; omega)).mono ?_
    rintro s2 ⟨hs2,hnew,hm2⟩
    exact ⟨⟨hs2,hnew.trans,by omega⟩,hm2⟩
  · simp only [State.modify,update_self]
    exact ⟨fun he => absurd he.symm hne,by omega⟩
  refine .inr ⟨?_,?_⟩
  · simp only [State.modify,update_self]
    exact hne.symm
  simp only [State.modify,update_self]
  cases jump with
  | false => exact .inr ⟨rfl,if_neg (by simp)⟩
  | true => exact .inl ⟨rfl,if_pos rfl⟩

lemma step_eq_stepTo {step target m : Nat} {up jump : Bool} (hup : up = decide (m < target)) :
    (if jump = false ∧ dist target m > step then if up = true then m+step else m-step
      else target) = stepTo step target jump m := by
  unfold stepTo
  simp only [hup,decide_eq_true_eq]

lemma setStep_ends {target x : Nat} {up jump : Bool} {s : State n} {P : State n → Prop}
    (hup : up = decide ((s.rail r).millivolts < target))
    (hx : x = stepTo (s.rail r).step target jump (s.rail r).millivolts) (hbefore : (notify rels update r
      (s.modify r fun rail => {rail with newMillivolts := x})).Ends P B)
    (hafter : ∀ s, P s → (notify rels update r (s.regulatorSetVoltage r)).Ends Q B) :
    (setStep rels update r target up jump s).Ends Q B := by
  unfold setStep
  dsimp only
  rw [step_eq_stepTo hup,← hx]
  exact hbefore.next hafter

lemma notify_one {rel : Relationship n} {s : State n} (hto : relationshipsTo rels r = [rel])
    (h : (update rel.toRail s).Ends Q B) : (notify rels update r s).Ends Q B := by
  unfold notify
  rw [hto]
  exact h.next fun s hs => ends_done hs

/-- If each round keeps `J` and ends in `Q`, so does the update. -/
theorem updateLoop_ends {millivolts : Nat} (hround : ∀ s, J s → (solveAll r (relationshipsFrom rels r)
        (s.modify r fun rail => {rail with newMillivolts := millivolts})).Ends
      (fun s => ((s.rail r).newMillivolts = (s.rail r).millivolts → Q s) ∧
        ((s.rail r).newMillivolts ≠ (s.rail r).millivolts →
          (dvfsRailSetVoltage rels update r (s.rail r).newMillivolts s).Ends (fun s' => J s' ∧ Q s') B)) B) :
    ∀ k s, J s → (k = 0 → Q s) → (updateLoop rels update r millivolts k 0 s).Ends Q B := by
  intro k
  induction k with
  | zero =>
    intro s _ hq
    exact ends_done (hq rfl)
  | succ k ih =>
    intro s hs _
    have hr := hround s hs
    rw [updateLoop]
    cases hsolve : solveAll r (relationshipsFrom rels r)
        (s.modify r fun rail => {rail with newMillivolts := millivolts}) with
    | bug s1 =>
      rw [hsolve] at hr
      exact hr
    | fuel =>
      rw [hsolve] at hr
      exact hr
    | done s1 ret =>
      rw [hsolve] at hr
      obtain ⟨-,hdone,hset⟩ := hr
      dsimp only
      split
      · next heq => exact ends_done (hdone heq)
      next heq =>
      have hs1 := hset heq
      cases hv : dvfsRailSetVoltage rels update r (s1.rail r).newMillivolts s1 with
      | bug s2 | fuel =>
        rw [hv] at hs1
        exact hs1
      | done s2 ret =>
        rw [hv] at hs1
        obtain ⟨rfl,hJ,hQ⟩ := hs1
        exact ih s2 hJ fun _ => hQ

lemma dvfsRailUpdate_resolving {s : State n} (h : (s.rail r).resolvingTo = true) (k : Nat) :
    dvfsRailUpdate rels (k+1) r s = .done s 0 := by
  rw [dvfsRailUpdate]
  rw [h]
  split
  · rfl
  · split <;> rfl

lemma updateLoop_bug {update : Fin n → State n → Run (State n)} {s s' : State n} {millivolts : Nat}
    (h : solveAll r (relationshipsFrom rels r) (s.modify r fun rail => {rail with newMillivolts := millivolts}) =
      .bug s') (k : Nat) (ret : Int) : updateLoop rels update r millivolts (k+1) ret s = .bug s' := by
  rw [updateLoop,h]

lemma dvfsRailUpdate_eq {s : State n} (rail : Rail) (hrail : s.rail r = rail)
    (hsus : rail.suspended = false) (hreg : rail.reg = true) (hres : rail.resolvingTo = false)
    (k : Nat) : dvfsRailUpdate rels (k+1) r s = updateLoop rels (dvfsRailUpdate rels k) r rail.requested
        (divRoundUp (dist rail.requested rail.millivolts) rail.step+1) 0 s := by
  subst hrail
  rw [dvfsRailUpdate]
  rw [hsus,hreg,hres]
  rfl

def State.place (s : State n) (r : Fin n) (m new : Nat) (res : Bool) (log : List (Fin n → Nat)) :
    State n :=
  ⟨Function.update s.rail r {s.rail r with
    millivolts := m, newMillivolts := new, resolvingTo := res},log⟩

section Place

variable {s : State n} {m new : Nat} {res : Bool} {log : List (Fin n → Nat)}

@[simp] lemma place_self : (s.place r m new res log).rail r =
    {s.rail r with millivolts := m, newMillivolts := new, resolvingTo := res} :=
  update_self ..

lemma place_other {j : Fin n} (h : j ≠ r) : (s.place r m new res log).rail j = s.rail j :=
  update_of_ne h ..

lemma place_modify (f : Rail → Rail) : (s.place r m new res log).modify r f =
    ⟨Function.update s.rail r (f {s.rail r with
      millivolts := m, newMillivolts := new, resolvingTo := res}),log⟩ := by
  simp [State.modify,State.place]

lemma place_volts : (s.place r m new res log).volts = Function.update s.volts r m := by
  funext j
  by_cases hj : j = r
  · subst hj
    simp [State.volts]
  · simp [State.volts,place_other hj,hj]

lemma regulator_eq {s t : State n} {v : Fin n → Nat} (hmodify : (s.modify r fun rail =>
      {rail with millivolts := rail.newMillivolts}) = t) (hvolts : t.volts = v) :
    s.regulatorSetVoltage r = ⟨t.rail,v::t.log⟩ := by
  rw [State.regulatorSetVoltage,hmodify,hvolts]

lemma place_regulator (s : State n) (r : Fin n) (m new : Nat) (res : Bool)
    (log : List (Fin n → Nat)) : (s.place r m new res log).regulatorSetVoltage r =
    s.place r new new res (Function.update s.volts r new::log) := by
  unfold State.regulatorSetVoltage
  rw [place_modify]
  have hplace : (⟨Function.update s.rail r {s.rail r with
      millivolts := new, newMillivolts := new, resolvingTo := res},log⟩ : State n) =
      s.place r new new res log := rfl
  dsimp only
  rw [hplace,place_volts]
  rfl

end Place

def Visits (jump : Bool) (m target x : Nat) : Prop :=
  x = target ∨ (jump = false ∧ (m ≤ x ∧ x ≤ target ∨ target ≤ x ∧ x ≤ m))

section Alone

variable {s : State n} {target k : Nat} {Ok : (Fin n → Nat) → Prop}

section
variable
    (hto : ∀ rel ∈ relationshipsTo rels r, rel.toRail ≠ r ∧ (s.rail rel.toRail).resolvingTo = true)
include hto

lemma notify_alone (m new : Nat) (res : Bool) (log : List (Fin n → Nat)) :
    notify rels (dvfsRailUpdate rels (k+1)) r (s.place r m new res log) = .done (s.place r m new res log) 0 := by
  refine forEach_idle fun rel hrel => dvfsRailUpdate_resolving ?_ k
  rw [place_other (hto rel hrel).1]
  exact (hto rel hrel).2

lemma setStep_alone {up jump : Bool} {m new : Nat} {res : Bool} {log : List (Fin n → Nat)}
    (hup : up = decide (m < target)) :
    setStep rels (dvfsRailUpdate rels (k+1)) r target up jump (s.place r m new res log) =
      .done (s.place r (stepTo (s.rail r).step target jump m) (stepTo (s.rail r).step target jump m)
        res (Function.update s.volts r (stepTo (s.rail r).step target jump m)::log)) 0 := by
  unfold setStep
  simp only [place_self]
  rw [step_eq_stepTo hup,place_modify]
  change (notify rels _ r (s.place r m (stepTo _ target jump m) res log)).next _ = _
  rw [notify_alone hto]
  change notify rels _ r ((s.place r m (stepTo _ target jump m) res log).regulatorSetVoltage r) = _
  rw [place_regulator,notify_alone hto]

end

lemma dvfsRailSetVoltage_alone (hreg : (s.rail r).reg = true) (hdis : (s.rail r).disabled = false)
    (hpos : 0 < (s.rail r).step) (hto : ∀ rel ∈ relationshipsTo rels r, rel.toRail ≠ r ∧
      (s.rail rel.toRail).resolvingTo = true) {new : Nat} {log : List (Fin n → Nat)} (hlog : ∀ v ∈ log, Ok v)
    (hne : target ≠ (s.rail r).millivolts) (hok : ∀ x, Visits
        ((s.rail r).jmpToZero && (decide (target = 0) || decide ((s.rail r).millivolts = 0)))
        (s.rail r).millivolts target x → Ok (Function.update s.volts r x)) :
    (dvfsRailSetVoltage rels (dvfsRailUpdate rels (k+1)) r target
      (s.place r (s.rail r).millivolts new false log)).Ends
      (fun s' => ∃ log', s' = s.place r target target false log' ∧ ∀ v ∈ log', Ok v) B := by
  refine dvfsRailSetVoltage_ends (I := fun s' => ∃ m' new' log', s' = s.place r m' new' true log' ∧ ∀ v ∈ log', Ok v)
    _ place_self hreg hdis hpos hne ⟨_,new,log,place_modify _,hlog⟩ ?_ ?_
  · rintro _ ⟨m',new',log',rfl,hlog'⟩ m hm - hbetween hup
    simp only [place_self] at hm hbetween hup ⊢
    subst hm
    generalize ((s.rail r).jmpToZero && (decide (target = 0) || decide ((s.rail r).millivolts = 0))) = jump at hok ⊢
    rw [setStep_alone hto hup]
    have hbtw := stepTo_between (s.rail r).step target jump m
    have hvisit : Visits jump (s.rail r).millivolts target (stepTo (s.rail r).step target jump m) := by
      cases jump with
      | false => exact .inr ⟨rfl,by omega⟩
      | true => exact .inl (stepTo_jump _ _ _)
    refine ends_done ⟨⟨_,_,_,rfl,?_⟩,by rw [place_self],by rw [place_self]⟩
    exact forall_mem_cons.mpr ⟨hok _ hvisit,hlog'⟩
  rintro _ ⟨m',new',log',rfl,hlog'⟩ hnew hm
  simp only [place_self] at hnew hm
  subst hnew hm
  exact ⟨log',place_modify _,hlog'⟩

/-- A rail that is updated while those that depend on it are being moved. Its relationships ask
for the target where it starts and when it is there. -/
theorem dvfsRailUpdate_alone (s : State n) (r : Fin n) (target : Nat) (Ok : (Fin n → Nat) → Prop)
    (hsus : (s.rail r).suspended = false) (hreg : (s.rail r).reg = true)
    (hdis : (s.rail r).disabled = false) (hres : (s.rail r).resolvingTo = false)
    (hpos : 0 < (s.rail r).step) (hto : ∀ rel ∈ relationshipsTo rels r, rel.toRail ≠ r ∧
      (s.rail rel.toRail).resolvingTo = true) (hsolve : ∀ m log, m = (s.rail r).millivolts ∨ m = target →
      solveAll r (relationshipsFrom rels r) (s.place r m (s.rail r).requested false log) =
        .done (s.place r m target false log) 0) (hlog : ∀ v ∈ s.log, Ok v) (hok : ∀ x, Visits
        ((s.rail r).jmpToZero && (decide (target = 0) || decide ((s.rail r).millivolts = 0)))
        (s.rail r).millivolts target x → Ok (Function.update s.volts r x)) : (dvfsRailUpdate rels (k+2) r s).Ends
      (fun s' => ∃ log, s' = s.place r target target false log ∧ ∀ v ∈ log, Ok v) B := by
  have hstart : s = s.place r (s.rail r).millivolts (s.rail r).newMillivolts false s.log := by
    unfold State.place
    rw [← hres]
    simp
  rw [dvfsRailUpdate_eq _ rfl hsus hreg hres]
  refine updateLoop_ends (J := fun s' => ∃ m new log, s' = s.place r m new false log ∧
      (∀ v ∈ log, Ok v) ∧ (m = (s.rail r).millivolts ∨ m = target)) ?_ _ s
    ⟨_,_,_,hstart,hlog,.inl rfl⟩ (fun hk => nomatch hk)
  rintro _ ⟨m,new,log,rfl,hlog,hm⟩
  rw [place_modify]
  change (solveAll r _ (s.place r m (s.rail r).requested false log)).Ends _ _
  rw [hsolve m log hm]
  refine ends_done ⟨?_,?_⟩
  · intro heq
    simp only [place_self] at heq
    subst heq
    exact ⟨log,rfl,hlog⟩
  intro hne
  simp only [place_self] at hne ⊢
  obtain rfl : m = (s.rail r).millivolts := hm.resolve_right fun he => hne he.symm
  refine (dvfsRailSetVoltage_alone hreg hdis hpos hto hlog hne hok).mono ?_
  rintro _ ⟨log',rfl,hlog'⟩
  exact ⟨⟨_,_,log',rfl,hlog',.inr rfl⟩,⟨log',rfl,hlog'⟩⟩

end Alone

lemma demand_le {dvfs : List Nat} {b : Nat} (h : ∀ x ∈ dvfs, x ≤ b) : demand dvfs ≤ b := by
  have hfold : ∀ (l : List Nat) (m : Nat), m ≤ b → (∀ x ∈ l, x ≤ b) → l.foldl (fun mv d => max d mv) m ≤ b := by
    intro l
    induction l with
    | nil => exact fun m hm _ => hm
    | cons x l ih =>
      intro m hm hl
      refine ih _ ?_ fun y hy => hl y (mem_cons_of_mem x hy)
      exact Nat.max_le.mpr ⟨hl x mem_cons_self,hm⟩
  exact hfold dvfs 0 (Nat.zero_le b) h

lemma runDemands_ends {Valid : Demand n → Prop} (hstep : ∀ s d, I s → Valid d → (setRate rels d s).Ends I B) :
    ∀ ds s, I s → (∀ d ∈ ds, Valid d) → (runDemands rels ds s).Ends I B := by
  intro ds
  induction ds with
  | nil => exact fun s hs _ => ends_done hs
  | cons d ds ih =>
    intro s hs hv
    have hd := hstep s d hs (hv d mem_cons_self)
    rw [runDemands]
    cases hrate : setRate rels d s with
    | done s' ret =>
      rw [hrate] at hd
      exact ih s' hd.2 fun e he => hv e (mem_cons_of_mem d he)
    | bug s' | fuel =>
      rw [hrate] at hd
      exact hd

end LinuxToradex.Dvfs
