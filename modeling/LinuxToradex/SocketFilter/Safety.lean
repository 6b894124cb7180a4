import LinuxToradex.SocketFilter.Insn

/-! `sk_chk_filter` with its in-place rewriting, and the forward pass `check_load_and_stores` over the scratch
cells. -/
namespace LinuxToradex.SocketFilter
open BpfS

inductive Errno where
  | einval
  | enomem
  deriving DecidableEq

def reciprocalValue (k : UInt32) : UInt32 := UInt32.ofNat ((2^32+(k.toNat-1))/k.toNat)

def ancillary (s : BpfS) (k : UInt32) : BpfS :=
  if k = 0xfffff000 then ancProtocol
  else if k = 0xfffff000+4 then ancPkttype
  else if k = 0xfffff000+8 then ancIfindex
  else if k = 0xfffff000+12 then ancNlattr
  else if k = 0xfffff000+16 then ancNlattrNest
  else if k = 0xfffff000+20 then ancMark
  else if k = 0xfffff000+24 then ancQueue
  else if k = 0xfffff000+28 then ancHatype
  else if k = 0xfffff000+32 then ancRxhash
  else if k = 0xfffff000+36 then ancCpu
  else s

def chkInsn (flen pc : Nat) (f : SockFilter) : Except Errno SockFilter :=
  match codes f.code with
  | none => .error .einval
  | some s =>
    match s with
    | aluDivK =>
      if f.k = 0 then .error .einval
      else .ok {f with code := aluDivK.code, k := reciprocalValue f.k}
    | ldMem | ldxMem | st | stx =>
      if bpfMemwords ≤ f.k.toNat then .error .einval else .ok {f with code := s.code}
    | jmpJa =>
      -- flen-pc-1 is an int, at least zero inside the loop, compared as unsigned
      if UInt32.ofNat (flen - pc - 1) ≤ f.k then .error .einval else .ok {f with code := s.code}
    | jmpJeqK | jmpJeqX | jmpJgeK | jmpJgeX | jmpJgtK | jmpJgtX | jmpJsetX | jmpJsetK =>
      if flen ≤ pc+f.jt.toNat+1 ∨ flen ≤ pc+f.jf.toNat+1 then .error .einval
      else .ok {f with code := s.code}
    | ldWAbs | ldHAbs | ldBAbs => .ok {f with code := (ancillary s f.k).code}
    | _ => .ok {f with code := s.code}

def chkLoop (flen : Nat) : Nat → List SockFilter → Except Errno (List SockFilter)
  | _, [] => .ok []
  | pc, f::fs =>
    match chkInsn flen pc f with
    | .error e => .error e
    | .ok f' =>
      match chkLoop flen (pc+1) fs with
      | .error e => .error e
      | .ok fs' => .ok (f'::fs')

structure Masks where
  masks : Nat → BitVec 16
  memvalid : BitVec 16

def Masks.meet (masks : Nat → BitVec 16) (pc : Nat) (v : BitVec 16) : Nat → BitVec 16 :=
  Function.update masks pc (masks pc &&& v)

def cell (k : UInt32) : BitVec 16 := 1#16 <<< k.toNat

def checkLoadStore (pc : Nat) (f : SockFilter) (m : Masks) : Except Errno Masks :=
  let memvalid := m.memvalid &&& m.masks pc
  match BpfS.ofCode f.code with
  | some st | some stx => .ok {m with memvalid := memvalid ||| cell f.k}
  | some ldMem | some ldxMem =>
    if memvalid &&& cell f.k = 0 then .error .einval else .ok {m with memvalid}
  | some jmpJa => .ok ⟨Masks.meet m.masks (pc+1+f.k.toNat) memvalid,BitVec.allOnes 16⟩
  | some jmpJeqK | some jmpJeqX | some jmpJgeK | some jmpJgeX
  | some jmpJgtK | some jmpJgtX | some jmpJsetX | some jmpJsetK =>
    .ok ⟨Masks.meet (Masks.meet m.masks (pc+1+f.jt.toNat) memvalid) (pc+1+f.jf.toNat) memvalid, BitVec.allOnes 16⟩
  | _ => .ok {m with memvalid}

def checkLoadStoreLoop : Nat → List SockFilter → Masks → Except Errno Masks
  | _, [], m => .ok m
  | pc, f::fs, m =>
    match checkLoadStore pc f m with
    | .error e => .error e
    | .ok m' => checkLoadStoreLoop (pc+1) fs m'

def initialMasks : Masks := ⟨fun _ => BitVec.allOnes 16,0⟩

def checkLoadAndStores (kmalloc : Bool) (filter : List SockFilter) : Except Errno Unit :=
  if kmalloc then
    match checkLoadStoreLoop 0 filter initialMasks with
    | .error e => .error e
    | .ok _ => .ok ()
  else .error .enomem

/-- `sk_chk_filter`; on success the answer is the array as rewritten in place. -/
def skChkFilter (kmalloc : Bool) (filter : List SockFilter) : Except Errno (List SockFilter) :=
  if filter.length = 0 ∨ bpfMaxinsns < filter.length then .error .einval
  else
    match chkLoop filter.length 0 filter with
    | .error e => .error e
    | .ok prog =>
      match prog[filter.length - 1]?.bind (fun f => BpfS.ofCode f.code) with
      | some retK | some retA =>
        match checkLoadAndStores kmalloc prog with
        | .error e => .error e
        | .ok _ => .ok prog
      | _ => .error .einval

structure InsnOk (flen pc : Nat) (f : SockFilter) (s : BpfS) : Prop where
  decodes : BpfS.ofCode f.code = some s
  mem_lt : s.isMem = true → f.k.toNat < bpfMemwords
  ja_lt : s = jmpJa → pc+1+f.k.toNat < flen
  jt_lt : s.isCondJump = true → pc+1+f.jt.toNat < flen
  jf_lt : s.isCondJump = true → pc+1+f.jf.toNat < flen

lemma ancillary_cases (s : BpfS) (k : UInt32) :
    ancillary s k = s ∨ (ancillary s k).isMem = false ∧ ancillary s k ≠ jmpJa ∧
      (ancillary s k).isCondJump = false := by
  unfold ancillary
  repeat' split
  all_goals simp [BpfS.isMem,BpfS.isCondJump]

lemma plain_insnOk {flen pc : Nat} {f : SockFilter} {s : BpfS}
    (hm : s.isMem = false) (hj : s ≠ jmpJa) (hc : s.isCondJump = false) : InsnOk flen pc {f with code := s.code} s :=
  ⟨BpfS.ofCode_code s,by simp [hm],fun h => absurd h hj,by simp [hc],by simp [hc]⟩

lemma chkInsn_ok {flen pc : Nat} {f f' : SockFilter} (hpc : pc < flen)
    (h : chkInsn flen pc f = .ok f') : ∃ s, InsnOk flen pc f' s := by
  unfold chkInsn at h
  split at h
  · cases h
  rename_i s _
  cases s <;> dsimp only at h
  case jmpJa =>
    split at h
    · cases h
    rename_i hk
    cases h
    refine ⟨jmpJa,BpfS.ofCode_code _,by simp [BpfS.isMem],fun _ => ?_,
      by simp [BpfS.isCondJump],by simp [BpfS.isCondJump]⟩
    rw [UInt32.not_le,UInt32.lt_iff_toNat_lt,UInt32.toNat_ofNat'] at hk
    dsimp only
    omega
  case aluDivK =>
    split at h <;> cases h
    exact ⟨_,BpfS.ofCode_code _,by simp [BpfS.isMem],by simp,by simp [BpfS.isCondJump], by simp [BpfS.isCondJump]⟩
  case ldMem | ldxMem | st | stx =>
    all_goals
      split at h
      · cases h
      rename_i hk
      cases h
      exact ⟨_,BpfS.ofCode_code _,fun _ => Nat.lt_of_not_le hk,by simp,
        by simp [BpfS.isCondJump],by simp [BpfS.isCondJump]⟩
  case ldWAbs | ldHAbs | ldBAbs =>
    all_goals
      cases h
      refine ⟨_,BpfS.ofCode_code _,?_,?_,?_,?_⟩
      all_goals
        rcases ancillary_cases _ f.k with ha | ⟨hm,hj,hc⟩
        · rw [ha]; simp [BpfS.isMem,BpfS.isCondJump]
        · simp [hm,hj,hc]
  case jmpJeqK | jmpJeqX | jmpJgeK | jmpJgeX | jmpJgtK | jmpJgtX | jmpJsetK | jmpJsetX =>
    all_goals
      split at h
      · cases h
      rename_i hk
      cases h
      refine ⟨_,BpfS.ofCode_code _,by simp [BpfS.isMem],by simp,fun _ => ?_,fun _ => ?_⟩ <;>
      · dsimp only
        omega
  all_goals
    cases h
    exact ⟨_,plain_insnOk rfl (by simp) rfl⟩

lemma chkLoop_ok {flen pc : Nat} {fs fs' : List SockFilter}
    (hpc : pc+fs.length ≤ flen) (h : chkLoop flen pc fs = .ok fs') :
    fs'.length = fs.length ∧ ∀ i f', fs'[i]? = some f' → ∃ s, InsnOk flen (pc+i) f' s := by
  induction fs generalizing pc fs' with
  | nil => cases h; simp
  | cons f fs ih =>
    simp only [List.length_cons] at hpc
    unfold chkLoop at h
    split at h
    · cases h
    rename_i f1 hf1
    split at h
    · cases h
    rename_i fs1 hfs1
    cases h
    obtain ⟨hlen,hall⟩ := ih (by omega) hfs1
    refine ⟨by simp [hlen],?_⟩
    intro i f' hi
    cases i with
    | zero =>
      simp only [List.getElem?_cons_zero,Option.some.injEq] at hi
      subst hi
      exact chkInsn_ok (by omega) hf1
    | succ i =>
      obtain ⟨s,hs⟩ := hall i f' hi
      exact ⟨s,by simpa only [Nat.add_assoc,Nat.add_comm 1 i] using hs⟩

structure Accepted (prog : List SockFilter) : Prop where
  insn : ∀ pc f, prog[pc]? = some f → ∃ s, InsnOk prog.length pc f s
  last : ∀ f s, prog[prog.length-1]? = some f → BpfS.ofCode f.code = some s → s.isRet = true
  pos : 0 < prog.length
  scratch : ∃ m, checkLoadStoreLoop 0 prog initialMasks = .ok m

lemma skChkFilter_ok {kmalloc : Bool} {filter prog : List SockFilter}
    (h : skChkFilter kmalloc filter = .ok prog) : prog.length = filter.length ∧ Accepted prog := by
  unfold skChkFilter at h
  split at h
  · cases h
  rename_i hlen
  split at h
  · cases h
  rename_i prog' hloop
  obtain ⟨hl,hall⟩ := chkLoop_ok (by omega) hloop
  simp only [Nat.zero_add] at hall
  have hscratch : ∀ s : BpfS, s.isRet = true → prog'[filter.length-1]?.bind (fun f => BpfS.ofCode f.code) = some s →
      checkLoadAndStores kmalloc prog' = .ok () → prog' = prog →
      prog.length = filter.length ∧ Accepted prog := by
    intro s hs hcode hck he
    subst he
    refine ⟨hl,⟨?_,?_,by omega,?_⟩⟩
    · rw [hl]; exact hall
    · intro f s' hf hs'
      rw [hl] at hf
      rw [hf,Option.bind_some,hs',Option.some.injEq] at hcode
      exact hcode ▸ hs
    unfold checkLoadAndStores at hck
    split at hck
    · split at hck
      · cases hck
      · exact ⟨_,by assumption⟩
    · cases hck
  split at h
  · rename_i hc
    split at h
    · cases h
    cases h
    exact hscratch retK rfl hc (by assumption) rfl
  · rename_i hc
    split at h
    · cases h
    cases h
    exact hscratch retA rfl hc (by assumption) rfl
  · cases h

open List

inductive Succ (f : SockFilter) (op : BpfS) (pc : Nat) : Nat → Prop
  | next : op.isRet = false → op ≠ jmpJa → op.isCondJump = false → Succ f op pc (pc+1)
  | ja : op = jmpJa → Succ f op pc (pc+1+f.k.toNat)
  | jt : op.isCondJump = true → Succ f op pc (pc+1+f.jt.toNat)
  | jf : op.isCondJump = true → Succ f op pc (pc+1+f.jf.toNat)

/-- What one instruction of a checked program can do: continue at a successor or return. -/
inductive Flow (f : SockFilter) (op : BpfS) (pc : Nat) : Except Stop State → Prop
  | cont {s : State} : Succ f op pc s.pc → Flow f op pc (.ok s)
  | ret (v : UInt32) : Flow f op pc (.error (.ret v))

def BpfS.falls (op : BpfS) : Bool := !op.isRet && op != jmpJa && !op.isCondJump

variable {f : SockFilter} {op : BpfS} {prog : List SockFilter} {s : State} {pc : Nat}

lemma flow_next (hop : op.falls = true) (hs : s.pc = pc) : Flow f op pc (.ok s.next) := by
  subst hs
  simp only [BpfS.falls,Bool.and_eq_true,Bool.not_eq_true',bne_iff_ne,ne_eq] at hop
  exact .cont (.next hop.1.1 hop.1.2 hop.2)

lemma flow_branch (hop : op.isCondJump = true) (s : State) (c : Bool) : Flow f op s.pc (branch s f c) := by
  apply Flow.cont
  simp only [State.jump]
  split
  · rw [Nat.add_right_comm]; exact .jt hop
  · rw [Nat.add_right_comm]; exact .jf hop

lemma flow_loadA (hop : op.falls = true) (skb : SkBuff) (s : State) (k : Int) (size : Nat) :
    Flow f op s.pc (loadA skb s k size) := by
  unfold loadA
  split
  · exact flow_next hop rfl
  · exact .ret 0

lemma flow_ancDev (hop : op.falls = true) (skb : SkBuff) (s : State)
    (field : NetDevice → UInt32) : Flow f op s.pc (ancDev s skb field) := by
  unfold ancDev
  split
  · exact .ret 0
  · exact flow_next hop rfl

lemma flow_nlattr (hop : op.falls = true) (s : State) (nla : Option Int) : Flow f op s.pc (nlattrResult s nla) := by
  cases nla <;> exact flow_next hop rfl

lemma exec_flow (host : Host) (skb : SkBuff) {flen : Nat} (ok : InsnOk flen s.pc f op) :
    Flow f op s.pc (exec host skb op f s) := by
  cases op <;> unfold exec <;> dsimp only
  case retK | retA => all_goals exact .ret _
  case jmpJa =>
    apply Flow.cont
    simp only [State.jump,Nat.add_right_comm]
    exact .ja rfl
  case jmpJgtK | jmpJgeK | jmpJeqK | jmpJsetK | jmpJgtX | jmpJgeX | jmpJeqX | jmpJsetX =>
    all_goals exact flow_branch rfl s _
  case ldMem | ldxMem | st | stx =>
    all_goals
      rw [dif_pos (ok.mem_lt rfl)]
      exact flow_next rfl rfl
  case ldWAbs | ldHAbs | ldBAbs | ldWInd | ldHInd | ldBInd => all_goals exact flow_loadA rfl _ s _ _
  case ancIfindex | ancHatype => all_goals exact flow_ancDev rfl _ s _
  case aluDivX =>
    split
    · exact .ret 0
    · exact flow_next rfl rfl
  case ldxBMsh =>
    split
    · exact flow_next rfl rfl
    · exact .ret 0
  case ancNlattr =>
    split
    · exact .ret 0
    split
    · exact .ret 0
    · exact flow_nlattr rfl s _
  case ancNlattrNest =>
    split
    · exact .ret 0
    split
    · exact .ret 0
    split
    · exact .ret 0
    · exact flow_nlattr rfl s _
  all_goals exact flow_next rfl rfl

lemma Accepted.succ_forward (acc : Accepted prog) {pc' : Nat} (hf : prog[pc]? = some f)
    (ok : InsnOk prog.length pc f op) (hs : Succ f op pc pc') : pc < pc' ∧ pc' < prog.length := by
  have hpc : pc < prog.length := (List.getElem?_eq_some_iff.mp hf).1
  cases hs with
  | next hret _ _ =>
    refine ⟨by omega,?_⟩
    -- the last instruction is a return, so an instruction that falls through is not the last
    by_contra hge
    have hlast : pc = prog.length-1 := by omega
    have := acc.last f op (by rw [← hlast]; exact hf) ok.decodes
    rw [hret] at this
    cases this
  | ja h => exact ⟨by omega,ok.ja_lt h⟩
  | jt h => exact ⟨by omega,ok.jt_lt h⟩
  | jf h => exact ⟨by omega,ok.jf_lt h⟩

lemma step_eq_exec (host : Host) (skb : SkBuff) (hf : prog[s.pc]? = some f)
    (hop : BpfS.ofCode f.code = some op) : step host skb prog s = exec host skb op f s := by
  simp only [step,hf,hop]

lemma step_forward (acc : Accepted prog) (host : Host) (skb : SkBuff) (hs : s.pc < prog.length) :
    (∃ s', step host skb prog s = .ok s' ∧ s.pc < s'.pc ∧ s'.pc < prog.length) ∨
      ∃ v, step host skb prog s = .error (.ret v) := by
  have hf : prog[s.pc]? = some prog[s.pc] := getElem?_eq_getElem hs
  obtain ⟨op,ok⟩ := acc.insn s.pc prog[s.pc] hf
  have flow := exec_flow host skb ok
  rw [step_eq_exec host skb hf ok.decodes]
  generalize exec host skb op prog[s.pc] s = r at flow
  cases flow with
  | cont hsucc => exact .inl ⟨_,rfl,acc.succ_forward hf ok hsucc⟩
  | ret v => exact .inr ⟨v,rfl⟩

/-- A complete run: the positions it fetches increase strictly and it ends by a return. -/
structure SafeRun (flen start : Nat) (pcs : List Nat) : Prop where
  increasing : pcs.Pairwise (· < ·)
  inside : ∀ pc ∈ pcs, start ≤ pc ∧ pc < flen
  short : pcs.length ≤ flen-start

lemma run_safe (acc : Accepted prog) (host : Host) (skb : SkBuff) (n : Nat)
    (hs : s.pc < prog.length) (hn : prog.length-s.pc ≤ n) : ∃ pcs v, SafeRun prog.length s.pc pcs ∧
      ∀ fuel, n ≤ fuel → run host skb prog fuel s = (pcs,some (.ret v)) := by
  induction n generalizing s with
  | zero => omega
  | succ n ih =>
    rcases step_forward acc host skb hs with ⟨s',hstep,hlt,hin⟩ | ⟨v,hstep⟩
    · obtain ⟨pcs,v,safe,hrun⟩ := ih hin (by omega)
      refine ⟨s.pc::pcs,v,⟨?_,?_,?_⟩,?_⟩
      · refine pairwise_cons.mpr ⟨?_,safe.increasing⟩
        intro pc hpc
        exact hlt.trans_le (safe.inside pc hpc).1
      · intro pc hpc
        rcases mem_cons.mp hpc with rfl | later
        · exact ⟨le_rfl,hs⟩
        have := safe.inside pc later
        omega
      · have := safe.short
        simp only [length_cons]
        omega
      intro fuel hfuel
      obtain ⟨m,rfl⟩ : ∃ m, fuel = m+1 := ⟨fuel-1,by omega⟩
      simp only [run,hstep,hrun m (by omega)]
    refine ⟨[s.pc],v,⟨by simp,by simpa using hs,by simp only [length_singleton]; omega⟩,?_⟩
    intro fuel hfuel
    obtain ⟨m,rfl⟩ : ∃ m, fuel = m+1 := ⟨fuel-1,by omega⟩
    simp only [run,hstep]

def cellOf (p : BpfS → Bool) (prog : List SockFilter) (pc : Nat) : Option Nat :=
  match prog[pc]? with
  | none => none
  | some f =>
    match BpfS.ofCode f.code with
    | none => none
    | some op => if p op then some f.k.toNat else none

def memIndex (prog : List SockFilter) (pc : Nat) : Option Nat := cellOf BpfS.isMem prog pc

lemma cellOf_eq {p : BpfS → Bool} (hf : prog[pc]? = some f) (hop : BpfS.ofCode f.code = some op) :
    cellOf p prog pc = if p op then some f.k.toNat else none := by
  simp only [cellOf,hf,hop]

lemma memIndex_lt (acc : Accepted prog) {k : Nat} (hpc : pc < prog.length)
    (h : memIndex prog pc = some k) : k < bpfMemwords := by
  have hf : prog[pc]? = some prog[pc] := getElem?_eq_getElem hpc
  obtain ⟨op,ok⟩ := acc.insn pc prog[pc] hf
  rw [memIndex,cellOf_eq hf ok.decodes,Option.ite_none_right_eq_some,Option.some.injEq] at h
  exact h.2 ▸ ok.mem_lt h.1

/-- An accepted filter runs to a return within its own length on every packet,
never revisits an instruction and never leaves the program or the scratch array. -/
theorem skRunFilter_safe {kmalloc : Bool} {filter prog : List SockFilter}
    (h : skChkFilter kmalloc filter = .ok prog) (host : Host) (skb : SkBuff)
    (mem : Fin bpfMemwords → UInt32) : ∃ pcs v, (∀ fuel, filter.length ≤ fuel →
        run host skb prog fuel (start mem) = (pcs,some (.ret v))) ∧ pcs.length ≤ filter.length ∧ pcs.Nodup ∧
      ∀ pc ∈ pcs, pc < filter.length ∧ ∀ k, memIndex prog pc = some k → k < bpfMemwords := by
  obtain ⟨hlen,acc⟩ := skChkFilter_ok h
  obtain ⟨pcs,v,safe,hrun⟩ :=
    run_safe acc host skb filter.length (s := start mem) acc.pos (by simp only [start]; omega)
  refine ⟨pcs,v,hrun,?_,?_,?_⟩
  · have := safe.short
    omega
  · exact safe.increasing.imp ne_of_lt
  intro pc hpc
  have hin := (safe.inside pc hpc).2
  exact ⟨hlen ▸ hin,fun k hk => memIndex_lt acc hin hk⟩

def sampleHost : Host := ⟨fun _ _ => 0,fun _ _ => 0,fun _ => 0⟩

def samplePacket : SkBuff :=
  {len := 4, dataLen := 0, byte := fun i => if i = 0 then 0x45 else 0, head := 0, tail := 4,
    networkHeader := 0, macHeader := 0, frags := [], fragList := [], protocol := 0x0008,
    pktType := 0, dev := none, mark := 0, queueMapping := 0, rxhash := 0}

def sampleFilter : List SockFilter :=
  [⟨bpfLd ||| bpfB ||| bpfAbs,0,0,0⟩,⟨bpfSt,0,0,3⟩, ⟨bpfJmp ||| bpfJeq ||| bpfK,1,0,0x45⟩,⟨bpfRet ||| bpfK,0,0,0⟩,
    ⟨bpfLd ||| bpfMem,0,0,3⟩,⟨bpfRet ||| bpfA,0,0,0⟩]

def sampleProg : List SockFilter :=
  [⟨ldBAbs.code,0,0,0⟩,⟨st.code,0,0,3⟩,⟨jmpJeqK.code,1,0,0x45⟩,
    ⟨retK.code,0,0,0⟩,⟨ldMem.code,0,0,3⟩,⟨retA.code,0,0,0⟩]

theorem sampleFilter_safe : skChkFilter true sampleFilter = .ok sampleProg ∧
    ∃ pcs v, (∀ fuel, sampleFilter.length ≤ fuel →
        run sampleHost samplePacket sampleProg fuel (start fun _ => 0) = (pcs,some (.ret v))) ∧
      pcs.length ≤ sampleFilter.length ∧ pcs.Nodup ∧ ∀ pc ∈ pcs, pc < sampleFilter.length ∧
        ∀ k, memIndex sampleProg pc = some k → k < bpfMemwords :=
  have accepted : skChkFilter true sampleFilter = .ok sampleProg := by decide
  ⟨accepted,skRunFilter_safe accepted sampleHost samplePacket fun _ => 0⟩

end LinuxToradex.SocketFilter
