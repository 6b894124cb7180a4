import Mathlib.Data.List.Pairwise
import Mathlib.Data.List.FinRange
import LinuxToradex.Foundation.ByteMem

/-! A table is one buffer (`net/ipv4/netfilter/ip_tables.c`, `include/linux/netfilter/x_tables.h`). A rule is a
`struct ipt_entry` of 112 bytes, its matches, and its target. It comes from user space, so a rule is read from
the bytes at any offset, on a 32-bit little-endian machine. -/
namespace LinuxToradex.IpTables
open List ByteMem

variable {e fuel pos : Nat}

/-! Fields of `struct ipt_entry`. -/

def targetOffset (m : Mem) (e : Nat) : Nat := u16 m (e+88)
def nextOffset (m : Mem) (e : Nat) : Nat := u16 m (e+90)
def comefrom (m : Mem) (e : Nat) : Nat := u32 m (e+92)

def pcnt (m : Mem) (e : Nat) : Nat := u32 m (e+96)

def setComefrom (m : Mem) (e v : Nat) : Mem := put m (e+92) (le 4 v)
def setPcnt (m : Mem) (e v : Nat) : Mem := put m (e+96) (le 8 v)

def clearCounters (m : Mem) (e : Nat) : Mem := put m (e+96) (le 16 0)

def addCounter (m : Mem) (e b p : Nat) : Mem :=
  let m := put m (e+104) (le 8 (u64 m (e+104)+b))
  put m (e+96) (le 8 (u64 m (e+96)+p))

/-! Fields of `struct ipt_ip`, the first member of the entry. -/

def ipSrc (m : Mem) (e : Nat) : Nat := u32 m e
def ipDst (m : Mem) (e : Nat) : Nat := u32 m (e+4)
def ipSmsk (m : Mem) (e : Nat) : Nat := u32 m (e+8)
def ipDmsk (m : Mem) (e : Nat) : Nat := u32 m (e+12)
def ipIniface (m : Mem) (e i : Nat) : UInt8 := m (e+16+i)
def ipOutiface (m : Mem) (e i : Nat) : UInt8 := m (e+32+i)
def ipInifaceMask (m : Mem) (e i : Nat) : UInt8 := m (e+48+i)
def ipOutifaceMask (m : Mem) (e i : Nat) : UInt8 := m (e+64+i)
def ipProto (m : Mem) (e : Nat) : Nat := u16 m (e+80)
def ipFlags (m : Mem) (e : Nat) : Nat := u8 m (e+82)
def ipInvflags (m : Mem) (e : Nat) : Nat := u8 m (e+83)

def unconditional (m : Mem) (e : Nat) : Bool := (List.range 84).all fun i => m (e+i) == 0

/-! Fields of `struct xt_entry_match` and `struct xt_entry_target`. The kernel overlays
its pointer on the name user space gave. -/

def getTarget (m : Mem) (e : Nat) : Nat := e+targetOffset m e
def extSize (m : Mem) (a : Nat) : Nat := u16 m a
def userName (m : Mem) (a : Nat) : List UInt8 := (bytes m (a+2) 29).takeWhile (· != 0)
def revision (m : Mem) (a : Nat) : UInt8 := m (a+31)
def kernelPtr (m : Mem) (a : Nat) : UInt32 := UInt32.ofNat (u32 m (a+4))
def setKernelPtr (m : Mem) (a : Nat) (p : UInt32) : Mem := put m (a+4) (le 4 p.toNat)
def verdict (m : Mem) (t : Nat) : Int := s32 m (t+32)

def isStandard (m : Mem) (t : Nat) : Bool := userName m t == []

def errorTarget : List UInt8 := [69,82,82,79,82]

def iptNextEntry (m : Mem) (e : Nat) : Nat := (e+nextOffset m e)%4294967296

def entriesFrom (m : Mem) (size : Nat) : Nat → Nat → List Nat
  | 0, _ => []
  | fuel+1, pos =>
    if pos < size then pos::entriesFrom m size fuel (pos+nextOffset m pos) else []

/-- The entries of a table: `xt_entry_foreach` over the whole buffer. A rule is never
shorter than a byte, so `size` rounds are enough. -/
def xtEntries (m : Mem) (size : Nat) : List Nat := entriesFrom m size size 0

lemma unconditional_iff {m : Mem} : unconditional m e = true ↔ ∀ i < 84, m (e+i) = 0 := by
  simp [unconditional]

lemma isStandard_iff {m : Mem} {t : Nat} : isStandard m t = true ↔ m (t+2) = 0 := by
  unfold isStandard userName bytes
  rw [show List.range 29 = 0::(List.range 28).map Nat.succ from range_succ_eq_map]
  by_cases h : m (t+2) = 0 <;> simp [h]

section Enumeration
variable {m : Mem} {size : Nat}

lemma entriesFrom_bounds (h : e ∈ entriesFrom m size fuel pos) : pos ≤ e ∧ e < size := by
  induction fuel generalizing pos with
  | zero => cases h
  | succ fuel ih =>
    unfold entriesFrom at h
    split at h
    · rcases mem_cons.mp h with rfl | h
      · omega
      have := ih h
      omega
    · cases h

lemma entriesFrom_pairwise (fuel pos : Nat) :
    (entriesFrom m size fuel pos).Pairwise fun a b => a+nextOffset m a ≤ b := by
  induction fuel generalizing pos with
  | zero => exact .nil
  | succ fuel ih =>
    unfold entriesFrom
    split
    · exact .cons (fun b hb => (entriesFrom_bounds hb).1) (ih _)
    · exact .nil

lemma entriesFrom_next (hfuel : size ≤ fuel+pos) (hpos : ∀ a ∈ entriesFrom m size fuel pos, 0 < nextOffset m a)
    (h : e ∈ entriesFrom m size fuel pos) (hlt : e+nextOffset m e < size) :
    e+nextOffset m e ∈ entriesFrom m size fuel pos := by
  induction fuel generalizing pos with
  | zero => cases h
  | succ fuel ih =>
    have hin : pos < size := by
      have := entriesFrom_bounds h
      omega
    unfold entriesFrom at h hpos ⊢
    rw [if_pos hin] at h hpos ⊢
    have hnext : 0 < nextOffset m pos := hpos pos mem_cons_self
    rcases mem_cons.mp h with rfl | h
    · refine mem_cons_of_mem _ ?_
      rcases fuel with _ | fuel
      · omega
      unfold entriesFrom
      rw [if_pos hlt]
      exact mem_cons_self
    refine mem_cons_of_mem _ (ih (by omega) ?_ h)
    intro a ha
    exact hpos a (mem_cons_of_mem _ ha)

lemma xtEntries_disjoint {a b : Nat} (ha : a ∈ xtEntries m size) (hb : b ∈ xtEntries m size) :
    a = b ∨ a+nextOffset m a ≤ b ∨ b+nextOffset m b ≤ a := by
  have hsymm : Std.Symm fun x y => x+nextOffset m x ≤ y ∨ y+nextOffset m y ≤ x :=
    ⟨fun _ _ h => h.symm⟩
  have hpair : (xtEntries m size).Pairwise fun x y =>
      x+nextOffset m x ≤ y ∨ y+nextOffset m y ≤ x :=
    (entriesFrom_pairwise size 0).imp fun h => .inl h
  by_cases hab : a = b
  · exact .inl hab
  · exact .inr (hpair.forall ha hb hab)

lemma xtEntries_lt (h : e ∈ xtEntries m size) : e < size := (entriesFrom_bounds h).2

end Enumeration

inductive Fault where
  | errno (code : Int)
  | hang
  deriving DecidableEq

def eio : Int := 5
def einval : Int := 22
def eloop : Int := 40

/-- `struct ipt_replace`. The blob is an allocation inside a 32-bit address space whose
last pages hold no allocations. -/
structure IptReplace where
  name : List UInt8
  validHooks : Nat
  numEntries : Nat
  size : Nat
  hookEntry : Fin 5 → Nat
  underflow : Fin 5 → Nat
  fits : size+65536 ≤ 4294967296

structure XtTableInfo where
  size : Nat
  number : Nat
  stacksize : Nat
  hookEntry : Fin 5 → Nat
  underflow : Fin 5 → Nat

/-- `valid_hooks & (1 << hook)`. -/
def IptReplace.valid (repl : IptReplace) (hook : Fin 5) : Bool := repl.validHooks.testBit hook

def checkUnderflow (m : Mem) (e : Nat) : Bool :=
  if !unconditional m e then false
  else if !isStandard m (getTarget m e) then false
  else
    let verdict := -verdict m (getTarget m e)-1
    verdict == 0 || verdict == 1 -- NF_DROP, NF_ACCEPT

def checkHook (repl : IptReplace) (m : Mem) (e : Nat) (newinfo : XtTableInfo) (h : Fin 5) :
    Except Fault XtTableInfo :=
  if !repl.valid h then .ok newinfo
  else
    let newinfo := if e = repl.hookEntry h then
        {newinfo with hookEntry := Function.update newinfo.hookEntry h (repl.hookEntry h)}
      else newinfo
    if e = repl.underflow h then
      if !checkUnderflow m e then .error (.errno (-einval))
      else .ok {newinfo with underflow := Function.update newinfo.underflow h (repl.underflow h)}
    else .ok newinfo

def checkEntrySizeAndHooks (repl : IptReplace) (m : Mem) (e : Nat) (newinfo : XtTableInfo) :
    Except Fault (Mem × XtTableInfo) :=
  if e%8 ≠ 0 ∨ e+112 ≥ repl.size then .error (.errno (-einval))
  else if nextOffset m e < 112+32 then .error (.errno (-einval))
  else do
    let newinfo ← (finRange 5).foldlM (checkHook repl m e) newinfo
    pure (setComefrom (clearCounters m e) e 0,newinfo)

def checkEntries (repl : IptReplace) : Nat → Mem → Nat → Nat → XtTableInfo →
    Except Fault (Mem × Nat × XtTableInfo)
  | 0, _, _, _, _ => .error .hang
  | fuel+1, m, iter, i, newinfo =>
    if iter < repl.size then do
      let (m,newinfo) ← checkEntrySizeAndHooks repl m iter newinfo
      let newinfo := if userName m (getTarget m iter) = errorTarget then
          {newinfo with stacksize := newinfo.stacksize+1}
        else newinfo
      checkEntries repl fuel m (iter+nextOffset m iter) (i+1) newinfo
    else .ok (m,i,newinfo)

/-- Where the search of `mark_source_chains` is: at the top of its `for` loop, or
backtracking in its `do` loop. -/
inductive MarkMode where
  | visit
  | back
  deriving DecidableEq

structure MarkState where
  mode : MarkMode
  pos : Nat
  mem : Mem

inductive MarkOut where
  | more (s : MarkState)
  | next (m : Mem)
  | loop

def unconditionalEnd (m : Mem) (e : Nat) : Bool :=
  targetOffset m e == 112 && isStandard m (getTarget m e) &&
    decide (verdict m (getTarget m e) < 0) && unconditional m e

/-- One round of the `for` loop, up to the point where the search moves on. The mark of
`NF_INET_NUMHOOKS` (bit 5) says that the rule is on the current path. -/
def markVisit (size : Nat) (hook : Fin 5) (pos : Nat) (m : Mem) : MarkOut :=
  let t := getTarget m pos
  let visited := (comefrom m pos).testBit hook
  if (comefrom m pos).testBit 5 then .loop
  else
    let m := setComefrom m pos (comefrom m pos ||| (1 <<< hook.val ||| 1 <<< 5))
    if unconditionalEnd m pos || visited then
      if isStandard m t && decide (verdict m t < -5-1) then .loop -- bad negative verdict
      else .more ⟨.back,pos,m⟩
    else if isStandard m t && decide (0 ≤ verdict m t) then
      let newpos := (verdict m t).toNat
      -- the subtraction is unsigned
      if newpos > (size+4294967296-112)%4294967296 then .loop -- bad verdict
      else .more ⟨.visit,newpos,setPcnt m newpos pos⟩
    else
      let newpos := iptNextEntry m pos
      .more ⟨.visit,newpos,setPcnt m newpos pos⟩

def markBack (oldpos : Nat) (m : Mem) : MarkOut :=
  let m := setComefrom m oldpos (comefrom m oldpos ^^^ 1 <<< 5)
  let pos := pcnt m oldpos
  let m := setPcnt m oldpos 0
  if pos = oldpos then .next m
  else if oldpos = iptNextEntry m pos then .more ⟨.back,pos,m⟩
  else
    let newpos := iptNextEntry m pos
    .more ⟨.visit,newpos,setPcnt m newpos pos⟩

def markStep (size : Nat) (hook : Fin 5) (s : MarkState) : MarkOut :=
  match s.mode with
  | .visit => markVisit size hook s.pos s.mem
  | .back => markBack s.pos s.mem

/-- The entry offsets a step dereferences. The rule it moves to is dereferenced too (its
back pointer is set), and is the position of the next state. -/
def markDerefs (s : MarkState) : List Nat :=
  match s.mode with
  | .visit => [s.pos]
  | .back => [s.pos,pcnt s.mem s.pos]

def markLoop (size : Nat) (hook : Fin 5) : Nat → MarkState → Except Fault (Mem × List Nat)
  | 0, _ => .error .hang
  | fuel+1, s =>
    match markStep size hook s with
    | .loop => .error (.errno (-eloop))
    | .next m => .ok (m,markDerefs s)
    | .more s' => do
      let (m,log) ← markLoop size hook fuel s'
      pure (m,markDerefs s++log)

def markHook (fuel : Nat) (newinfo : XtTableInfo) (repl : IptReplace) (acc : Mem × List Nat)
    (hook : Fin 5) : Except Fault (Mem × List Nat) :=
  if !repl.valid hook then .ok acc
  else do
    let pos := newinfo.hookEntry hook
    let (m,log) ← markLoop newinfo.size hook fuel ⟨.visit,pos,setPcnt acc.1 pos pos⟩
    pure (m,acc.2++log)

def markSourceChains (fuel : Nat) (newinfo : XtTableInfo) (repl : IptReplace) (m : Mem) :
    Except Fault (Mem × List Nat) :=
  (finRange 5).foldlM (markHook fuel newinfo repl) (m,[])

/-- `struct xt_match` and `struct xt_target`: what the checks read of a registered
extension. `checkentry` sees the memory and the offset of the extension's data, and
rewrites that data. `handler` says that the function called for a packet is set. -/
structure XtExt where
  name : List UInt8
  extsize : Option Nat -- none is -1
  table : Option (List UInt8)
  hooks : Nat
  proto : Nat
  checkentry : Option (Mem → Nat → Int × List UInt8)
  handler : Bool

/-- The registered extensions, by address. A target is found under its own name. The standard target is the one
without a handler, of the size of an `int`. The sizes of targets are those of C structures that fit the 16 bits
of `target_size`. -/
structure XtRegistry where
  findMatch : List UInt8 → UInt8 → Except Int UInt32
  findTarget : List UInt8 → UInt8 → Except Int UInt32
  matchAt : UInt32 → XtExt
  targetAt : UInt32 → XtExt
  named : ∀ name rev p, findTarget name rev = .ok p → (targetAt p).name = name
  standard : ∀ rev p, findTarget [] rev = .ok p →
    (targetAt p).handler = false ∧ (targetAt p).extsize = some 4 ∧ (targetAt p).checkentry = none
  extension : ∀ name rev p, name ≠ [] → findTarget name rev = .ok p → (targetAt p).handler = true
  small : ∀ p n, (targetAt p).extsize = some n → n+8 ≤ 65536

def xtAlign (n : Nat) : Nat := (n+7)/8*8

/-- The `size` argument of the checks: `u.match_size - sizeof(*m)`, unsigned. -/
def dataSize (m : Mem) (a : Nat) : Nat := (extSize m a+4294967296-32)%4294967296

def callCheckentry (ext : XtExt) (m : Mem) (a : Nat) : Except Fault Mem :=
  match ext.checkentry with
  | none => .ok m
  | some check =>
    let (ret,data) := check m (a+32)
    if ret < 0 then .error (.errno ret)
    else if ret > 0 then .error (.errno (-eio))
    else .ok (put m (a+32) (data.take (dataSize m a)))

/-- What `xt_check_match` and `xt_check_target` check of the extension at `a` of entry `e`.
A match of size -1 is exempt from the size check. -/
def xtCheck (exempt : Bool) (repl : IptReplace) (ext : XtExt) (m : Mem) (e a : Nat) :
    Except Fault Mem :=
  if ext.extsize.map xtAlign ≠ some (dataSize m a) ∧ ¬(exempt ∧ ext.extsize = none) then
    .error (.errno (-einval))
  else if ext.table.any (· ≠ repl.name) then .error (.errno (-einval))
  else if ext.hooks ≠ 0 ∧ comefrom m e &&& (4294967295 ^^^ ext.hooks) ≠ 0 then
    .error (.errno (-einval))
  else if ext.proto ≠ 0 ∧ (ext.proto ≠ ipProto m e%256 ∨ (ipInvflags m e).testBit 6) then
    .error (.errno (-einval))
  else callCheckentry ext m a

def xtCheckMatch := xtCheck true
def xtCheckTarget := xtCheck false

def ipCheckentry (m : Mem) (e : Nat) : Bool :=
  if ipFlags m e &&& (255 ^^^ 0x03) ≠ 0 then false
  else if ipInvflags m e &&& (255 ^^^ 0x7F) ≠ 0 then false
  else true

def checkEntry (m : Mem) (e : Nat) : Except Fault Unit :=
  if !ipCheckentry m e then .error (.errno (-einval))
  else if targetOffset m e+32 > nextOffset m e then .error (.errno (-einval))
  else if targetOffset m e+extSize m (getTarget m e) > nextOffset m e then
    .error (.errno (-einval))
  else .ok ()

def xtRequestFind (find : List UInt8 → UInt8 → Except Int UInt32) (m : Mem) (a : Nat) :
    Except Fault UInt32 :=
  match find (userName m a) (revision m a) with
  | .error code => .error (.errno code)
  | .ok p => .ok p

def findCheckMatch (reg : XtRegistry) (repl : IptReplace) (m : Mem) (e a : Nat) :
    Except Fault Mem := do
  let p ← xtRequestFind reg.findMatch m a
  xtCheckMatch repl (reg.matchAt p) (setKernelPtr m a p) e a

def findCheckMatches (reg : XtRegistry) (repl : IptReplace) (e : Nat) :
    Nat → Mem → Nat → Except Fault Mem
  | 0, _, _ => .error .hang
  | fuel+1, m, i =>
    if i < targetOffset m e then do
      let m ← findCheckMatch reg repl m e (e+i)
      findCheckMatches reg repl e fuel m (i+extSize m (e+i))
    else .ok m

def findCheckTarget (reg : XtRegistry) (repl : IptReplace) (m : Mem) (e : Nat) :
    Except Fault Mem := do
  let t := getTarget m e
  let p ← xtRequestFind reg.findTarget m t
  xtCheckTarget repl (reg.targetAt p) (setKernelPtr m t p) e t

def findCheckEntry (reg : XtRegistry) (repl : IptReplace) (fuel : Nat) (m : Mem) (e : Nat) :
    Except Fault Mem := do
  checkEntry m e
  let m ← findCheckMatches reg repl e fuel m 112
  findCheckTarget reg repl m e

def findCheckEntries (reg : XtRegistry) (repl : IptReplace) : Nat → Mem → Nat → Except Fault Mem
  | 0, _, _ => .error .hang
  | fuel+1, m, iter =>
    if iter < repl.size then do
      let m ← findCheckEntry reg repl fuel m iter
      findCheckEntries reg repl fuel m (iter+nextOffset m iter)
    else .ok m

def hooksAssigned (repl : IptReplace) (newinfo : XtTableInfo) : Bool :=
  (finRange 5).all fun i =>
    !repl.valid i || newinfo.hookEntry i != 0xFFFFFFFF && newinfo.underflow i != 0xFFFFFFFF

/-- A table that was accepted: the translated blob, and the log of `mark_source_chains`. -/
structure Translated where
  mem : Mem
  info : XtTableInfo
  log : List Nat

def initInfo (repl : IptReplace) : XtTableInfo :=
  ⟨repl.size,repl.numEntries,0,fun _ => 0xFFFFFFFF,fun _ => 0xFFFFFFFF⟩

def translateTable (reg : XtRegistry) (repl : IptReplace) (fuel : Nat) (entry0 : Mem) :
    Except Fault Translated := do
  let (m,i,newinfo) ← checkEntries repl fuel entry0 0 0 (initInfo repl)
  if i ≠ repl.numEntries then .error (.errno (-einval))
  else if !hooksAssigned repl newinfo then .error (.errno (-einval))
  else
    let (m,log) ← markSourceChains fuel newinfo repl m
    let m ← findCheckEntries reg repl fuel m 0
    pure ⟨m,newinfo,log⟩

/-- One round's input: the header fields and device names the rule is compared with, and
what the functions called in this round return. -/
structure Outcome where
  saddr : Nat
  daddr : Nat
  protocol : Nat
  indev : Nat → UInt8
  outdev : Nat → UInt8
  fragoff : Nat
  len : Nat
  trace : Bool -- skb->nf_trace
  ematch : Nat → Bool -- what the match at this offset returns
  target : Nat -- what the target function returns
  hotdrop : Bool -- one of them sets acpar.hotdrop

def ifnameDiffers (a b mask : Nat → UInt8) : Bool :=
  (List.range 16).any fun i => (a i ^^^ b i) &&& mask i != 0

/-- The `FWINV` of `ip_packet_match`: the test, inverted when the flag is set. -/
def fwinv (m : Mem) (e : Nat) (test : Bool) (flag : Nat) : Bool :=
  test ^^ (ipInvflags m e).testBit flag

def ipPacketMatch (m : Mem) (e : Nat) (o : Outcome) : Bool :=
  if fwinv m e (o.saddr &&& ipSmsk m e != ipSrc m e) 3
      || fwinv m e (o.daddr &&& ipDmsk m e != ipDst m e) 4 then false
  else if fwinv m e (ifnameDiffers o.indev (ipIniface m e) (ipInifaceMask m e)) 0 then false
  else if fwinv m e (ifnameDiffers o.outdev (ipOutiface m e) (ipOutifaceMask m e)) 1 then false
  else if ipProto m e != 0 && fwinv m e (o.protocol != ipProto m e) 6 then false
  else if fwinv m e ((ipFlags m e).testBit 0 && o.fragoff == 0) 5 then false
  else true

/-- The `xt_ematch_foreach` of the walk, from offset `i` of the rule on; `none` when the
matches never end. -/
def ematchAll (m : Mem) (e : Nat) (o : Outcome) : Nat → Nat → Option Bool
  | 0, _ => none
  | fuel+1, i =>
    if i < targetOffset m e then
      if o.ematch (e+i) then ematchAll m e o fuel (i+extSize m (e+i)) else some false
    else some true

/-- A walk under way: its hook, the current rule, and the rules it has pushed on the jump
stack (those above `origptr`, the last one first). -/
structure Walk where
  hook : Fin 5
  e : Nat
  stack : List Nat
  deriving DecidableEq

inductive Round where
  | going (w : Walk)
  | verdict (v : Nat)
  | hang
  deriving DecidableEq

/-- `continue`: the loop goes on unless a function asked for the packet to be dropped. -/
def Walk.proceed (w : Walk) (o : Outcome) (e : Nat) (stack : List Nat) : Round :=
  if o.hotdrop then .verdict 0 else .going ⟨w.hook,e,stack⟩

def Outcome.finish (o : Outcome) (v : Nat) : Round := .verdict (if o.hotdrop then 0 else v)

/-- A rule with a standard target that matched. `base` is `origptr`; `xt_jumpstack_alloc`
makes room for `xt_jumpstack_multiplier` times as many rules as there are user chains. -/
def standardTarget (info : XtTableInfo) (base : Nat) (o : Outcome) (w : Walk) (m : Mem) : Round :=
  let v := verdict m (getTarget m w.e)
  if v < 0 then
    if v ≠ -5 then o.finish (-v-1).toNat -- not XT_RETURN
    else match w.stack with
      | [] => w.proceed o (info.underflow w.hook) []
      | s::rest => w.proceed o (iptNextEntry m s) rest
  else if v.toNat ≠ iptNextEntry m w.e ∧ (ipFlags m w.e).testBit 1 = false then
    if base+w.stack.length ≥ info.stacksize*2 then o.finish 0
    else w.proceed o v.toNat (w.e::w.stack)
  else w.proceed o v.toNat w.stack

def ruleTarget (reg : XtRegistry) (info : XtTableInfo) (base : Nat) (o : Outcome) (w : Walk)
    (m : Mem) : Round :=
  if !(reg.targetAt (kernelPtr m (getTarget m w.e))).handler then standardTarget info base o w m
  else if o.target = 0xFFFFFFFF then w.proceed o (iptNextEntry m w.e) w.stack -- XT_CONTINUE
  else o.finish o.target

def iptRound (reg : XtRegistry) (info : XtTableInfo) (base : Nat) (o : Outcome) (w : Walk)
    (m : Mem) : Round × Mem :=
  if !ipPacketMatch m w.e o then (w.proceed o (iptNextEntry m w.e) w.stack,m)
  else match ematchAll m w.e o 65536 112 with
    | none => (.hang,m)
    | some false => (w.proceed o (iptNextEntry m w.e) w.stack,m)
    | some true =>
      let m := addCounter m w.e o.len 1
      (ruleTarget reg info base o w m,m)

/-- Whether the trace ends at `s`. The head of a user chain only sets the chain's name, also when it is the rule
that matched. -/
def getChainnameRulenum (reg : XtRegistry) (m : Mem) (s e : Nat) : Bool :=
  if (reg.targetAt (kernelPtr m (getTarget m s))).name = errorTarget then false else s == e

def tracePacket (reg : XtRegistry) (m : Mem) (size e : Nat) : Nat → Nat → List Nat
  | 0, _ => []
  | fuel+1, iter =>
    if iter < size then
      if getChainnameRulenum reg m iter e then [iter]
      else iter::tracePacket reg m size e fuel (iter+nextOffset m iter)
    else []

/-- The entry offsets a round dereferences: the rule itself, the rule a RETURN pulls off the
stack, and those the trace goes through. -/
def iptDerefs (reg : XtRegistry) (info : XtTableInfo) (o : Outcome) (w : Walk) (m : Mem) : List Nat :=
  w.e::w.stack.take 1 ++
    if o.trace then tracePacket reg m info.size w.e info.size (info.hookEntry w.hook) else []

structure Cpu where
  mem : Mem
  walks : List Walk

def origptr (outer : List Walk) : Nat := (outer.map fun w => w.stack.length).sum

inductive CpuStep (reg : XtRegistry) (repl : IptReplace) (info : XtTableInfo) : Cpu → Cpu → Prop
  | enter {m : Mem} {walks : List Walk} (hook : Fin 5) : repl.valid hook = true →
      CpuStep reg repl info ⟨m,walks⟩ ⟨m,⟨hook,info.hookEntry hook,[]⟩::walks⟩
  | round {m m' : Mem} {w w' : Walk} {outer : List Walk} (o : Outcome) :
      iptRound reg info (origptr outer) o w m = (.going w',m') →
      CpuStep reg repl info ⟨m,w::outer⟩ ⟨m',w'::outer⟩
  | leave {m m' : Mem} {w : Walk} {outer : List Walk} (o : Outcome) (v : Nat) :
      iptRound reg info (origptr outer) o w m = (.verdict v,m') →
      CpuStep reg repl info ⟨m,w::outer⟩ ⟨m',outer⟩

def Cpu.Reachable (reg : XtRegistry) (repl : IptReplace) (table : Translated) (c : Cpu) : Prop :=
  Relation.ReflTransGen (CpuStep reg repl table.info) ⟨table.mem,[]⟩ c

lemma u32_zero {m : Mem} {a : Nat} (h : ∀ i < 4, m (a+i) = 0) : u32 m a = 0 := by
  have h0 : m a = 0 := h 0 (by omega)
  simp [u32,u16,u8,h0,h 1,h 2,h 3,add_assoc]

lemma ipPacketMatch_unconditional {m : Mem} {e : Nat} (h : unconditional m e = true)
    (o : Outcome) : ipPacketMatch m e o = true := by
  have hz := unconditional_iff.mp h
  have hword (k : Nat) (hk : k+4 ≤ 84) : u32 m (e+k) = 0 := by
    refine u32_zero fun i hi => ?_
    rw [add_assoc]
    exact hz (k+i) (by omega)
  have hsrc : ipSrc m e = 0 := hword 0 (by omega)
  have hdst : ipDst m e = 0 := hword 4 (by omega)
  have hsmsk : ipSmsk m e = 0 := hword 8 (by omega)
  have hdmsk : ipDmsk m e = 0 := hword 12 (by omega)
  have hproto : ipProto m e = 0 := by
    simp [ipProto,u16,u8,hz 80,hz 81,add_assoc]
  have hinv : ipInvflags m e = 0 := by simp [ipInvflags,u8,hz 83]
  have hflags : ipFlags m e = 0 := by simp [ipFlags,u8,hz 82]
  have hdiff (a b : Nat → UInt8) (k : Nat) (hk : k+16 ≤ 84) : ifnameDiffers a b (fun i => m (e+k+i)) = false := by
    unfold ifnameDiffers
    rw [any_eq_false]
    intro i hi
    have : m (e+k+i) = 0 := by
      rw [add_assoc]
      exact hz (k+i) (by have := mem_range.mp hi; omega)
    simp [this]
  have hin : ifnameDiffers o.indev (ipIniface m e) (ipInifaceMask m e) = false :=
    hdiff _ _ 48 (by omega)
  have hout : ifnameDiffers o.outdev (ipOutiface m e) (ipOutifaceMask m e) = false :=
    hdiff _ _ 64 (by omega)
  simp [ipPacketMatch,fwinv,hsrc,hdst,hsmsk,hdmsk,hproto,hinv,hflags,hin,hout]

end LinuxToradex.IpTables
