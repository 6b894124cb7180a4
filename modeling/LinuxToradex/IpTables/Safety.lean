import LinuxToradex.IpTables.Passes

/-! The offsets that the loop check and the walks dereference are offsets of rules when jumps and fallthroughs
lead to rules. -/
namespace LinuxToradex.IpTables
open List ByteMem Prod Bool

variable {m m0 : Mem} {e size : Nat} {w w' : Walk}

section Matches
lemma ematchAll_of_fit (o : Outcome) (fuel i : Nat) (hfit : matchesFit m e fuel i = true) :
    ∃ b, ematchAll m e o fuel i = some b := by
  induction fuel generalizing i with
  | zero => cases hfit
  | succ fuel ih =>
    unfold matchesFit at hfit
    unfold ematchAll
    split
    · rename_i hlt
      rw [if_pos hlt,and_eq_true] at hfit
      split
      · exact ih _ hfit.2
      · exact ⟨false,rfl⟩
    · exact ⟨true,rfl⟩

end Matches

def RuleMatches (m : Mem) (e : Nat) (o : Outcome) : Prop :=
  ipPacketMatch m e o = true ∧ ematchAll m e o 65536 112 = some true

inductive Move (m0 : Mem) (info : XtTableInfo) (w : Walk) : Walk → Prop
  | next : ¬(chains m0).leaf w.e → Move m0 info w ⟨w.hook,iptNextEntry m0 w.e,w.stack⟩
  | jump {v : Nat} : ¬(chains m0).leaf w.e → (chains m0).jump w.e = some v → Move m0 info w ⟨w.hook,v,w.stack⟩
  | push {v : Nat} : ¬(chains m0).leaf w.e → (chains m0).jump w.e = some v →
      Move m0 info w ⟨w.hook,v,w.e::w.stack⟩
  | pull {s : Nat} {rest : List Nat} : w.stack = s::rest → Move m0 info w ⟨w.hook,iptNextEntry m0 s,rest⟩
  | underflow : isReturn m0 w.e = true → Move m0 info w ⟨w.hook,info.underflow w.hook,[]⟩

lemma proceed_going {o : Outcome} {stack : List Nat} (h : w.proceed o e stack = .going w') :
    w' = ⟨w.hook,e,stack⟩ := by
  unfold Walk.proceed at h
  split at h
  · cases h
  cases h
  rfl

section Installed
variable {reg : XtRegistry} {info : XtTableInfo} {base : Nat} {o : Outcome}

lemma addCounter_static (hlay : Layout m0 size) (he : e ∈ xtEntries m0 size) (m : Mem)
    (b p : Nat) : Static m0 size m (addCounter m e b p) :=
  (hlay.static_put m he (by omega) (by rw [le_length])).trans
    (hlay.static_put _ he (by omega) (by rw [le_length]; omega))

lemma not_leaf_of_verdict (h : 0 ≤ verdict m0 (getTarget m0 e)) : ¬(chains m0).leaf e := by
  have : ¬verdict m0 (getTarget m0 e) < 0 := by omega
  simp [chains,unconditionalEnd,this]

lemma RuleInstalled.iptNextEntry (h : RuleInstalled reg m0 m e) : iptNextEntry m e = iptNextEntry m0 e := by
  rw [IpTables.iptNextEntry,IpTables.iptNextEntry,h.next]

lemma RuleInstalled.getTarget (h : RuleInstalled reg m0 m e) : getTarget m e = getTarget m0 e := by
  rw [IpTables.getTarget,IpTables.getTarget,h.target]

lemma RuleInstalled.leaf_matches (h : RuleInstalled reg m0 m w.e) (hleaf : (chains m0).leaf w.e) :
    RuleMatches m w.e o := by
  have hend : unconditionalEnd m0 w.e = true := hleaf
  simp only [unconditionalEnd,and_eq_true,beq_iff_eq] at hend
  refine ⟨ipPacketMatch_unconditional (by rw [h.uncond]; exact hend.2) o,?_⟩
  rw [ematchAll,h.target,hend.1.1.1]
  rfl

section
variable (hrule : RuleInstalled reg m0 m w.e) (hstack : ∀ s ∈ w.stack, RuleInstalled reg m0 m s)
include hrule hstack

lemma standardTarget_move (hstd : isStandard m0 (getTarget m0 w.e) = true)
    (hround : standardTarget info base o w m = .going w') : Move m0 info w w' := by
  unfold standardTarget at hround
  rw [hrule.getTarget,hrule.verdict hstd,hrule.iptNextEntry] at hround
  dsimp only at hround
  split at hround
  · split at hround
    · cases hround
    rename_i hreturn
    split at hround
    · rw [proceed_going hround]
      refine .underflow ?_
      rw [isReturn,hstd,decide_eq_true (not_not.mp hreturn)]
      rfl
    · rename_i s rest hcons
      rw [proceed_going hround,(hstack s (by rw [hcons]; exact mem_cons_self)).iptNextEntry]
      exact .pull hcons
  · rename_i hv
    have hleaf : ¬(chains m0).leaf w.e := not_leaf_of_verdict (by omega)
    have hjump : (chains m0).jump w.e = some (verdict m0 (getTarget m0 w.e)).toNat := by
      have : 0 ≤ verdict m0 (getTarget m0 w.e) := by omega
      simp [chains,hstd,this]
    split at hround
    · split at hround
      · cases hround
      rw [proceed_going hround]
      exact .push hleaf hjump
    · rw [proceed_going hround]
      exact .jump hleaf hjump

lemma ruleTarget_move (hround : ruleTarget reg info base o w m = .going w') : Move m0 info w w' := by
  unfold ruleTarget at hround
  rw [hrule.getTarget,hrule.handler,Bool.not_not] at hround
  split at hround
  · rename_i hstd
    exact standardTarget_move hrule hstack hstd hround
  · rename_i hstd
    split at hround
    · rw [proceed_going hround,hrule.iptNextEntry]
      refine .next ?_
      simp [chains,unconditionalEnd,hstd]
    · cases hround

end

/-- One round: how the walk moves, and that the rules stay as they are. -/
theorem iptRound_move (hlay : Layout m0 size) (hrules : ∀ e ∈ xtEntries m0 size, RuleInstalled reg m0 m e)
    (he : w.e ∈ xtEntries m0 size) (hstack : ∀ s ∈ w.stack, s ∈ xtEntries m0 size) {m' : Mem}
    {r : Round} (hround : iptRound reg info base o w m = (r,m')) :
    Static m0 size m m' ∧ ∀ w', r = .going w' → Move m0 info w w' := by
  have hrule := hrules w.e he
  have hnext : ¬RuleMatches m w.e o → ∀ w', w.proceed o (iptNextEntry m w.e) w.stack = .going w' →
      Move m0 info w w' := by
    intro hno w' hgo
    rw [proceed_going hgo,hrule.iptNextEntry]
    exact .next fun hleaf => hno (hrule.leaf_matches hleaf)
  unfold iptRound at hround
  split at hround
  · rename_i hmatch
    cases hround
    refine ⟨Static.refl m0 size m,hnext fun h => ?_⟩
    rw [h.1] at hmatch
    cases hmatch
  split at hround
  · cases hround
    exact ⟨Static.refl m0 size m,fun _ h => by cases h⟩
  · rename_i hmatch
    cases hround
    refine ⟨Static.refl m0 size m,hnext fun h => ?_⟩
    have := hmatch.symm.trans h.2
    cases this
  cases hround
  have hst := addCounter_static hlay he m o.len 1
  refine ⟨hst,fun w' hgo => ruleTarget_move (hrule.congr (hlay _ he) (hst _ he)) ?_ hgo⟩
  intro s hs
  exact (hrules s (hstack s hs)).congr (hlay _ (hstack s hs)) (hst _ (hstack s hs))

end Installed

section Runs
variable {reg : XtRegistry} {repl : IptReplace} {entry0 : Mem} {table : Translated}

def OnEntries (reg : XtRegistry) (repl : IptReplace) (entry0 : Mem) (table : Translated) : Prop :=
  (∀ a ∈ table.log, a ∈ xtEntries entry0 repl.size) ∧
    ∀ c : Cpu, c.Reachable reg repl table → ∀ w ∈ c.walks.head?, ∀ o,
      ∀ a ∈ iptDerefs reg table.info o w c.mem, a ∈ xtEntries entry0 repl.size

/-- What the walks can come to lands on rules. The underflow counts when a RETURN can lead there. -/
def Closed (repl : IptReplace) (entry0 : Mem) : Prop :=
  ∀ h, repl.valid h = true → Lands entry0 repl.size (repl.hookEntry h) ∧
    (Returns entry0 (repl.hookEntry h) → Lands entry0 repl.size (repl.underflow h))

def Home (repl : IptReplace) (entry0 : Mem) (h : Fin 5) (e : Nat) : Prop :=
  (chains entry0).Reach (repl.hookEntry h) e ∨
    Returns entry0 (repl.hookEntry h) ∧ (chains entry0).Reach (repl.underflow h) e

lemma Home.child {h : Fin 5} {e' : Nat} (he : Home repl entry0 h e)
    (hc : (chains entry0).Child e e') : Home repl entry0 h e' :=
  he.imp (fun hr => hr.tail hc) (fun hr => ⟨hr.1,hr.2.tail hc⟩)

lemma Home.returns {h : Fin 5} (he : Home repl entry0 h e) (hret : isReturn entry0 e = true) :
    Returns entry0 (repl.hookEntry h) :=
  he.elim (fun hr => ⟨e,hr,hret⟩) fun hr => hr.1

structure WalkOk (repl : IptReplace) (entry0 : Mem) (w : Walk) : Prop where
  valid : repl.valid w.hook = true
  home : Home repl entry0 w.hook w.e
  stack : ∀ s ∈ w.stack, Home repl entry0 w.hook s ∧ ¬(chains entry0).leaf s

lemma WalkOk.move (h : WalkOk repl entry0 w) (hunder : table.info.underflow w.hook = repl.underflow w.hook)
    (hmove : Move entry0 table.info w w') : WalkOk repl entry0 w' := by
  cases hmove with
  | next hleaf => exact ⟨h.valid,h.home.child (.next hleaf),h.stack⟩
  | jump hleaf hj => exact ⟨h.valid,h.home.child (.jump hleaf hj),h.stack⟩
  | push hleaf hj =>
    exact ⟨h.valid,h.home.child (.jump hleaf hj),forall_mem_cons.mpr ⟨⟨h.home,hleaf⟩,h.stack⟩⟩
  | @pull s rest hcons =>
    have hs := h.stack s (by rw [hcons]; exact mem_cons_self)
    refine ⟨h.valid,hs.1.child (.next hs.2),fun s' hs' => h.stack s' ?_⟩
    rw [hcons]
    exact mem_cons_of_mem _ hs'
  | underflow hret =>
    refine ⟨h.valid,.inr ⟨h.home.returns hret,?_⟩,by simp⟩
    rw [hunder]
    exact Relation.ReflTransGen.refl

structure CpuOk (reg : XtRegistry) (repl : IptReplace) (entry0 : Mem) (c : Cpu) : Prop where
  rules : ∀ e ∈ xtEntries entry0 repl.size, RuleInstalled reg entry0 c.mem e
  walks : ∀ w ∈ c.walks, WalkOk repl entry0 w

variable {fuel : Nat} (hok : translateTable reg repl fuel entry0 = .ok table)
  (hlay : Layout entry0 repl.size) (hclosed : Closed repl entry0)
include hclosed

lemma Home.entry {h : Fin 5} (hv : repl.valid h = true) (he : Home repl entry0 h e) :
    e ∈ xtEntries entry0 repl.size := by
  rcases he with he | he
  · exact (hclosed h hv).1 e he
  · exact (hclosed h hv).2 he.1 e he.2

include hok hlay

lemma CpuOk.step {c c' : Cpu} (h : CpuOk reg repl entry0 c)
    (hstep : CpuStep reg repl table.info c c') : CpuOk reg repl entry0 c' := by
  cases hstep with
  | enter hook hv =>
    refine ⟨h.rules,forall_mem_cons.mpr ⟨⟨hv,.inl ?_,by simp⟩,h.walks⟩⟩
    rw [(translateTable_hooks hok hook hv).1.1]
    exact Relation.ReflTransGen.refl
  | @round m m' w w' outer o hround =>
    obtain ⟨hw,houter⟩ := forall_mem_cons.mp h.walks
    obtain ⟨hst,hmove⟩ := iptRound_move hlay h.rules (hw.home.entry hclosed hw.valid)
      (fun s hs => (hw.stack s hs).1.entry hclosed hw.valid) hround
    refine ⟨fun e he => (h.rules e he).congr (hlay e he) (hst e he),forall_mem_cons.mpr ⟨?_,houter⟩⟩
    exact hw.move (translateTable_hooks hok _ hw.valid).2.1 (hmove _ rfl)
  | @leave m m' w outer o v hround =>
    have hw := h.walks w mem_cons_self
    obtain ⟨hst,_⟩ := iptRound_move hlay h.rules (hw.home.entry hclosed hw.valid)
      (fun s hs => (hw.stack s hs).1.entry hclosed hw.valid) hround
    exact ⟨fun e he => (h.rules e he).congr (hlay e he) (hst e he),
      fun w1 hw1 => h.walks w1 (mem_cons_of_mem _ hw1)⟩

lemma cpuOk_reachable {c : Cpu} (hc : c.Reachable reg repl table) : CpuOk reg repl entry0 c := by
  have hinstalled := (translateTable_spec hok hlay (.inl fun h hv => (hclosed h hv).1)).2.2.1
  induction hc with
  | refl => exact ⟨hinstalled,by simp⟩
  | tail _ hstep ih => exact ih.step hok hlay hclosed hstep

omit hok hclosed in
lemma tracePacket_entries (hrules : ∀ e ∈ xtEntries entry0 repl.size, RuleInstalled reg entry0 m e) (e n iter : Nat)
    (hiter : iter < repl.size → iter ∈ xtEntries entry0 repl.size) :
    ∀ a ∈ tracePacket reg m repl.size e n iter, a ∈ xtEntries entry0 repl.size := by
  induction n generalizing iter with
  | zero => simp [tracePacket]
  | succ n ih =>
    intro a ha
    unfold tracePacket at ha
    split at ha
    · rename_i hlt
      have hmem := hiter hlt
      split at ha
      · rw [mem_singleton.mp ha]
        exact hmem
      rcases mem_cons.mp ha with rfl | ha
      · exact hmem
      refine ih _ (fun hlt' => ?_) a ha
      rw [(hrules iter hmem).next] at hlt' ⊢
      exact entriesFrom_next (by omega) (fun b hb => by have := hlay.next_ge hb; omega) hmem hlt'
    · cases ha

lemma onEntries_of_closed : OnEntries reg repl entry0 table := by
  obtain ⟨hsize,hlog,_⟩ := translateTable_spec hok hlay (.inl fun h hv => (hclosed h hv).1)
  refine ⟨hlog,fun c hc w hw o a ha => ?_⟩
  have hcpu := cpuOk_reachable hok hlay hclosed hc
  have hwalk := hcpu.walks w (mem_of_mem_head? hw)
  rcases mem_append.mp ha with ha | ha
  · rcases mem_cons.mp ha with rfl | ha
    · exact hwalk.home.entry hclosed hwalk.valid
    · exact (hwalk.stack a (mem_of_mem_take ha)).1.entry hclosed hwalk.valid
  split at ha
  · rw [hsize] at ha
    refine tracePacket_entries hlay hcpu.rules w.e _ _ (fun _ => ?_) a ha
    rw [(translateTable_hooks hok _ hwalk.valid).1.1]
    exact (translateTable_hooks hok _ hwalk.valid).1.2
  · cases ha

end Runs

lemma Searched.lands {root : Nat} (h : Searched m0 size root) : Lands m0 size root := by
  obtain ⟨fin,htopo,hroot,hfin⟩ := h
  intro e he
  exact hfin e (htopo.reach hroot he)

def sampleRegistry : XtRegistry where
  findMatch name _ := if name = [109] then .ok 2 else .error (-2)
  findTarget name _ := if name = [] then .ok 1 else if name = errorTarget then .ok 3 else .error (-2)
  matchAt _ := ⟨[109],some 0,none,0,0,none,true⟩
  targetAt p := if p = 3 then ⟨errorTarget,some 30,none,0,0,none,true⟩ else ⟨[],some 4,none,0,0,none,false⟩
  named name _ p h := by
    split at h
    · cases h
      simp [*]
    · split at h
      · cases h
        simp [*]
      · cases h
  standard _ p h := by
    cases h
    exact ⟨rfl,rfl,rfl⟩
  extension name _ p hne h := by
    rw [if_neg hne] at h
    split at h
    · cases h
      rfl
    · cases h
  small p n h := by
    split at h
    · cases h
      decide
    · cases h
      decide

def plainRule (e next v : Nat) (m : Mem) : Mem :=
  put (put (put m (e+88) (le 2 112++le 2 next)) (e+112) (le 2 40)) (e+144) (le 4 v)

/-- A rule of 184 bytes with one match. -/
def matchRule (e v : Nat) (m : Mem) : Mem :=
  let m := put (put m (e+88) (le 2 144++le 2 184)) (e+112) (le 2 32++[109])
  put (put m (e+144) (le 2 40)) (e+176) (le 4 v)

/-- A jump to offset 152, inside the padding of the first rule, where an ACCEPT is hidden;
and the ACCEPT that is the chain's policy. -/
def hiddenBlob : Mem :=
  plainRule 0 304 152 (plainRule 152 152 4294967294 (plainRule 304 152 4294967294 fun _ => 0))

def hiddenReplace : IptReplace where
  name := []
  validHooks := 1
  numEntries := 2
  size := 456
  hookEntry _ := 0
  underflow _ := 304
  fits := by decide

/-- A jump behind a match to a user chain, a RETURN, and the ACCEPT that is the policy; then the user chain, its
head and a RETURN. -/
def chainBlob : Mem :=
  let m := matchRule 0 664 fun _ => 0
  let m := plainRule 336 152 4294967294 (plainRule 184 152 4294967291 m)
  let m := put (put m 576 (le 2 112++le 2 176)) 600 (le 2 64++errorTarget)
  plainRule 664 152 4294967291 m

def chainReplace : IptReplace where
  name := []
  validHooks := 1
  numEntries := 5
  size := 816
  hookEntry _ := 0
  underflow _ := 336
  fits := by decide

/-- The rules of a list that no jump or fallthrough leaves. -/
lemma lands_of_closed {root : Nat} {l : List Nat} (hroot : root ∈ l) (hclosed : ∀ e ∈ l,
      unconditionalEnd m e = true ∨ iptNextEntry m e ∈ l ∧ ∀ v ∈ (chains m).jump e, v ∈ l)
    (hentries : ∀ e ∈ l, e ∈ xtEntries m size) : Lands m size root := by
  intro e hreach
  refine hentries e ?_
  induction hreach with
  | refl => exact hroot
  | tail _ hc ih =>
    have hstep := hclosed _ ih
    cases hc with
    | next hleaf => exact (hstep.resolve_left hleaf).1
    | jump hleaf hj => exact (hstep.resolve_left hleaf).2 _ hj

lemma chainBlob_closed : Closed chainReplace chainBlob := by
  refine fun h _ => ⟨?_,fun _ => ?_⟩
  · exact lands_of_closed (show 0 ∈ [0,184,664] by decide) (by decide +kernel) (by decide +kernel)
  · exact lands_of_closed (show 336 ∈ [336] by decide) (by decide +kernel) (by decide +kernel)

lemma chainBlob_ok : ∃ table, translateTable sampleRegistry chainReplace 16 chainBlob = .ok table := by
  have hok : (translateTable sampleRegistry chainReplace 16 chainBlob).toOption.isSome = true := by
    decide +kernel
  cases hrun : translateTable sampleRegistry chainReplace 16 chainBlob with
  | error _ =>
    rw [hrun] at hok
    cases hok
  | ok table => exact ⟨table,rfl⟩

variable {m0 m entry0 : Mem} {reg : XtRegistry} {info : XtTableInfo} {w : Walk}

def iptRun (reg : XtRegistry) (info : XtTableInfo) (base : Nat) (o : Nat → Outcome) (w : Walk)
    (m : Mem) : Nat → Round × Mem
  | 0 => (.going w,m)
  | n+1 =>
    match iptRun reg info base o w m n with
    | (.going w',m') => iptRound reg info base (o n) w' m'
    | stopped => stopped

def iptDoTable (reg : XtRegistry) (info : XtTableInfo) (c : Cpu) (hook : Fin 5)
    (o : Nat → Outcome) : Nat → Round × Mem :=
  iptRun reg info (origptr c.walks) o ⟨hook,info.hookEntry hook,[]⟩ c.mem

section Weight
variable {fin : List Nat}

def walkWeight (weight : Nat → Nat) (m0 : Mem) (w : Walk) : Nat :=
  weight w.e+(w.stack.map fun s => weight (iptNextEntry m0 s)).sum

structure WalkIn (m0 : Mem) (root : Nat) (w : Walk) : Prop where
  here : (chains m0).Reach root w.e
  stack : ∀ s ∈ w.stack, (chains m0).Reach root s ∧ ¬(chains m0).leaf s

/-- A rule weighs more than what follows it, and more than that and what it jumps to together. -/
def Weighs (m0 : Mem) (fin : List Nat) (weight : Nat → Nat) : Prop :=
  (∀ e, 0 < weight e) ∧ ∀ e ∈ fin, ¬(chains m0).leaf e → weight ((chains m0).next e) < weight e ∧
    ∀ v, (chains m0).jump e = some v → weight v+weight ((chains m0).next e) < weight e

/-- A move lowers the weight, unless it is the one to the underflow rule. -/
theorem Move.lowers {root : Nat} {w' : Walk} (hin : ∀ e, (chains m0).Reach root e → e ∈ fin)
    {weight : Nat → Nat} (hweight : Weighs m0 fin weight) (h : WalkIn m0 root w) (hmove : Move m0 info w w') :
    (walkWeight weight m0 w' < walkWeight weight m0 w ∧ WalkIn m0 root w') ∨
      Returns m0 root ∧ w' = ⟨w.hook,info.underflow w.hook,[]⟩ := by
  have hhere := hin _ h.here
  cases hmove with
  | next hleaf =>
    refine .inl ⟨?_,h.here.tail (.next hleaf),h.stack⟩
    exact Nat.add_lt_add_right (hweight.2 _ hhere hleaf).1 _
  | jump hleaf hj =>
    refine .inl ⟨?_,h.here.tail (.jump hleaf hj),h.stack⟩
    have := (hweight.2 _ hhere hleaf).2 _ hj
    dsimp only [walkWeight]
    omega
  | push hleaf hj =>
    refine .inl ⟨?_,h.here.tail (.jump hleaf hj),forall_mem_cons.mpr ⟨⟨h.here,hleaf⟩,h.stack⟩⟩
    have : weight _+weight (iptNextEntry m0 w.e) < weight w.e := (hweight.2 _ hhere hleaf).2 _ hj
    simp only [walkWeight,map_cons,sum_cons]
    omega
  | @pull s rest hcons =>
    have hs := h.stack s (by rw [hcons]; exact mem_cons_self)
    refine .inl ⟨?_,hs.1.tail (.next hs.2),fun s' hs' => h.stack s' ?_⟩
    · have := hweight.1 w.e
      simp only [walkWeight,hcons,map_cons,sum_cons]
      omega
    · rw [hcons]
      exact mem_cons_of_mem _ hs'
  | underflow hret => exact .inr ⟨⟨w.e,h.here,hret⟩,rfl⟩

end Weight

section Rounds
variable {base size : Nat} {o : Outcome}

lemma iptRound_ne_hang (hrule : RuleInstalled reg m0 m w.e) {m' : Mem} :
    iptRound reg info base o w m ≠ (.hang,m') := by
  obtain ⟨b,hb⟩ := ematchAll_of_fit (o := o) 65536 112 hrule.fit
  have hproceed (e : Nat) (stack : List Nat) : w.proceed o e stack ≠ .hang := by
    unfold Walk.proceed
    split <;> intro h <;> cases h
  have hstandard (m : Mem) : standardTarget info base o w m ≠ .hang := by
    unfold standardTarget Outcome.finish
    dsimp only
    repeat' split
    all_goals first | exact hproceed _ _ | (intro h; cases h)
  have htarget (m : Mem) : ruleTarget reg info base o w m ≠ .hang := by
    unfold ruleTarget Outcome.finish
    repeat' split
    all_goals first | exact hproceed _ _ | exact hstandard m | (intro h; cases h)
  intro hround
  unfold iptRound at hround
  rw [hb] at hround
  split at hround
  · exact hproceed _ _ (congrArg fst hround)
  cases b with
  | false => exact hproceed _ _ (congrArg fst hround)
  | true => exact htarget _ (congrArg fst hround)

lemma iptRound_hit (hmatches : RuleMatches m w.e o) : iptRound reg info base o w m =
      (ruleTarget reg info base o w (addCounter m w.e o.len 1),addCounter m w.e o.len 1) := by
  rw [iptRound,hmatches.1,hmatches.2]
  rfl

lemma ruleTarget_standard (hrule : RuleInstalled reg m0 m w.e) (hstd : isStandard m0 (getTarget m0 w.e) = true) :
    ruleTarget reg info base o w m = standardTarget info base o w m := by
  rw [ruleTarget,hrule.getTarget,hrule.handler,hstd]
  rfl

lemma iptRound_underflow (hlay : Layout m0 size) (he : w.e ∈ xtEntries m0 size)
    (hrule : RuleInstalled reg m0 m w.e) (hunder : checkUnderflow m0 w.e = true)
    (hmatches : ematchAll m w.e o 65536 112 = some true) :
    ∃ v m', iptRound reg info base o w m = (.verdict v,m') := by
  unfold checkUnderflow at hunder
  split at hunder
  · cases hunder
  rename_i huncond
  split at hunder
  · cases hunder
  rename_i hstd
  rw [not_eq_true,not_eq_false'] at huncond hstd
  have hip := ipPacketMatch_unconditional (by rw [hrule.uncond]; exact huncond) o
  have hrule' := hrule.congr (hlay _ he) (addCounter_static hlay he m o.len 1 _ he)
  have hneg : verdict m0 (getTarget m0 w.e) < 0 ∧ verdict m0 (getTarget m0 w.e) ≠ -5 := by
    simp only [or_eq_true,beq_iff_eq] at hunder
    omega
  rw [iptRound_hit ⟨hip,hmatches⟩,ruleTarget_standard hrule' hstd,standardTarget,
    hrule'.getTarget,hrule'.verdict hstd]
  rw [if_pos hneg.1,if_pos hneg.2]
  exact ⟨_,_,rfl⟩

end Rounds

section Run
variable {repl : IptReplace} {base : Nat} {o : Nat → Outcome} {w0 : Walk} {m1 : Mem}

def Ends (reg : XtRegistry) (info : XtTableInfo) (base : Nat) (o : Nat → Outcome) (w : Walk) (m : Mem) : Prop :=
  ∃ n v m', iptRun reg info base o w m n = (.verdict v,m')

/-- A run that is on the rules behind `root` ends, if it does once a RETURN has led it to the underflow. -/
lemma iptRun_verdict (hlay : Layout entry0 repl.size) {root : Nat} {fin : List Nat}
    (hin : ∀ e, (chains entry0).Reach root e → e ∈ fin) (hfin : ∀ e ∈ fin, e ∈ xtEntries entry0 repl.size)
    {weight : Nat → Nat} (hweight : Weighs entry0 fin weight)
    {hook : Fin 5} (hreturn : Returns entry0 root → ∀ k m,
      iptRun reg info base o w0 m1 k = (.going ⟨hook,info.underflow hook,[]⟩,m) →
      (∀ e ∈ xtEntries entry0 repl.size, RuleInstalled reg entry0 m e) → Ends reg info base o w0 m1)
    (bound : Nat) {k : Nat} (hhook : w.hook = hook) (hrun : iptRun reg info base o w0 m1 k = (.going w,m))
    (hrules : ∀ e ∈ xtEntries entry0 repl.size, RuleInstalled reg entry0 m e) (hwalk : WalkIn entry0 root w)
    (hbound : walkWeight weight entry0 w < bound) : Ends reg info base o w0 m1 := by
  -- on the weight; only a RETURN to the underflow rule does not lower it
  induction bound generalizing k w m with
  | zero => omega
  | succ bound ih =>
    have hnext : iptRun reg info base o w0 m1 (k+1) = iptRound reg info base (o k) w m := by
      rw [iptRun,hrun]
    have he := hfin _ (hin _ hwalk.here)
    obtain ⟨⟨r,m'⟩,hround⟩ : ∃ out, iptRound reg info base (o k) w m = out := ⟨_,rfl⟩
    rw [hround] at hnext
    obtain ⟨hst,hmove⟩ :=
      iptRound_move hlay hrules he (fun s hs => hfin _ (hin _ (hwalk.stack s hs).1)) hround
    have hrules' : ∀ e ∈ xtEntries entry0 repl.size, RuleInstalled reg entry0 m' e :=
      fun e he => (hrules e he).congr (hlay e he) (hst e he)
    cases r with
    | hang => exact absurd hround (iptRound_ne_hang (hrules _ he))
    | verdict v => exact ⟨k+1,v,m',hnext⟩
    | going w' =>
      rcases (hmove w' rfl).lowers hin hweight hwalk with ⟨hlt,hwalk'⟩ | ⟨hret,rfl⟩
      · have hhook' : w'.hook = w.hook := by cases hmove w' rfl <;> rfl
        exact ih (hhook'.trans hhook) hnext hrules' hwalk' (by omega)
      · rw [hhook] at hnext
        exact hreturn hret (k+1) m' hnext hrules'

lemma RuleInstalled.ematchAll_bare {o : Outcome} (h : RuleInstalled reg m0 m w.e)
    (hbare : targetOffset m0 w.e = 112) : ematchAll m w.e o 65536 112 = some true := by
  rw [ematchAll,h.target,hbare]
  rfl

end Run

/-- An ACCEPT behind one match at the start, and a RETURN after it. The ACCEPT is both the
entry and the underflow of the hook. -/
def returnBlob : Mem := matchRule 0 4294967294 (plainRule 184 152 4294967291 fun _ => 0)

def returnReplace : IptReplace where
  name := []
  validHooks := 1
  numEntries := 2
  size := 336
  hookEntry _ := 0
  underflow _ := 0
  fits := by decide

def missOutcome : Outcome :=
  ⟨0,0,0,fun _ => 0,fun _ => 0,0,0,false,fun _ => false,0,false⟩

lemma returnBlob_lands : Lands returnBlob 336 0 :=
  lands_of_closed (show 0 ∈ [0,184] by decide) (by decide +kernel) (by decide +kernel)

section Returns
section
variable (base : Nat) (hinfo : info.underflow 0 = 0)
    (hrules : ∀ e ∈ xtEntries returnBlob 336, RuleInstalled reg returnBlob m e)
include base hinfo hrules

/-- The ACCEPT is passed by, the RETURN after it goes back to it. -/
theorem returnBlob_round : (∃ m', iptRound reg info base missOutcome ⟨0,0,[]⟩ m = (.going ⟨0,184,[]⟩,m')) ∧
      ∃ m', iptRound reg info base missOutcome ⟨0,184,[]⟩ m = (.going ⟨0,0,[]⟩,m') := by
  have haccept := hrules 0 (by decide +kernel)
  have hreturn := hrules 184 (by decide +kernel)
  have hlay : Layout returnBlob 336 := by decide +kernel
  constructor
  · have hnext : iptNextEntry m 0 = 184 := by
      rw [haccept.iptNextEntry]
      decide +kernel
    have hmiss : ematchAll m 0 missOutcome 65536 112 = some false := by
      rw [ematchAll,haccept.target,if_pos (by decide +kernel)]
      rfl
    refine ⟨m,?_⟩
    rw [iptRound,hmiss,hnext]
    split <;> rfl
  have hleaf : (chains returnBlob).leaf 184 := by
    change unconditionalEnd returnBlob 184 = true
    decide +kernel
  have hmatches := hreturn.leaf_matches (w := ⟨0,184,[]⟩) (o := missOutcome) hleaf
  have hmem : 184 ∈ xtEntries returnBlob 336 := by decide +kernel
  have hrule := hreturn.congr (hlay _ hmem) (addCounter_static hlay hmem m missOutcome.len 1 _ hmem)
  have hstd : isStandard returnBlob (getTarget returnBlob 184) = true := by decide +kernel
  have hret : verdict returnBlob (getTarget returnBlob 184) = -5 := by decide +kernel
  have htarget : ruleTarget reg info base missOutcome ⟨0,184,[]⟩
      (addCounter m 184 missOutcome.len 1) = .going ⟨0,0,[]⟩ := by
    rw [ruleTarget_standard (w := ⟨0,184,[]⟩) hrule hstd,standardTarget,hrule.getTarget, hrule.verdict hstd,hret]
    simp [Walk.proceed,missOutcome,hinfo]
  refine ⟨addCounter m 184 missOutcome.len 1,?_⟩
  rw [iptRound_hit hmatches]
  exact congrArg (·,_) htarget

lemma returnBlob_run (n : Nat) : ∃ w m', iptRun reg info base (fun _ => missOutcome) ⟨0,0,[]⟩ m n = (.going w,m') ∧
      (w = ⟨0,0,[]⟩ ∨ w = ⟨0,184,[]⟩) ∧ ∀ e ∈ xtEntries returnBlob 336, RuleInstalled reg returnBlob m' e := by
  have hlay : Layout returnBlob 336 := by decide +kernel
  induction n with
  | zero => exact ⟨_,_,rfl,.inl rfl,hrules⟩
  | succ n ih =>
    obtain ⟨w,m1,hrun,hw,hrules1⟩ := ih
    have hmem : w.e ∈ xtEntries returnBlob 336 ∧ ∀ s ∈ w.stack, s ∈ xtEntries returnBlob 336 := by
      rcases hw with rfl | rfl
      · exact ⟨by decide +kernel,by simp⟩
      · exact ⟨by decide +kernel,by simp⟩
    obtain ⟨w',m2,hround,hw'⟩ : ∃ w' m2, iptRound reg info base missOutcome w m1 = (.going w',m2) ∧
          (w' = ⟨0,0,[]⟩ ∨ w' = ⟨0,184,[]⟩) := by
      obtain ⟨⟨ma,ha⟩,mb,hb⟩ := returnBlob_round base hinfo hrules1
      rcases hw with rfl | rfl
      · exact ⟨_,_,ha,.inr rfl⟩
      · exact ⟨_,_,hb,.inl rfl⟩
    have hst := (iptRound_move hlay hrules1 hmem.1 hmem.2 hround).1
    refine ⟨w',m2,by rw [iptRun,hrun]; exact hround,hw',fun e he => ?_⟩
    exact (hrules1 e he).congr (hlay e he) (hst e he)

end

end Returns

end LinuxToradex.IpTables
