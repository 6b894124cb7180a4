import Mathlib

/-! The instruction word of `include/linux/filter.h`, its user-visible opcodes and the dense `BPF_S_*`
enumeration that `sk_chk_filter` writes back in place. -/
namespace LinuxToradex.SocketFilter

/-- Filter block: `struct sock_filter`. -/
structure SockFilter where
  code : UInt16
  jt : UInt8
  jf : UInt8
  k : UInt32
  deriving DecidableEq

def bpfMaxinsns : Nat := 4096
def bpfMemwords : Nat := 16

/-! Instruction classes. -/
def bpfLd : UInt16 := 0x00
def bpfLdx : UInt16 := 0x01
def bpfSt : UInt16 := 0x02
def bpfStx : UInt16 := 0x03
def bpfAlu : UInt16 := 0x04
def bpfJmp : UInt16 := 0x05
def bpfRet : UInt16 := 0x06
def bpfMisc : UInt16 := 0x07

/-! ld/ldx fields. -/
def bpfW : UInt16 := 0x00
def bpfH : UInt16 := 0x08
def bpfB : UInt16 := 0x10
def bpfImm : UInt16 := 0x00
def bpfAbs : UInt16 := 0x20
def bpfInd : UInt16 := 0x40
def bpfMem : UInt16 := 0x60
def bpfLen : UInt16 := 0x80
def bpfMsh : UInt16 := 0xa0

/-! alu/jmp fields. -/
def bpfAdd : UInt16 := 0x00
def bpfSub : UInt16 := 0x10
def bpfMul : UInt16 := 0x20
def bpfDiv : UInt16 := 0x30
def bpfOr : UInt16 := 0x40
def bpfAnd : UInt16 := 0x50
def bpfLsh : UInt16 := 0x60
def bpfRsh : UInt16 := 0x70
def bpfNeg : UInt16 := 0x80
def bpfJa : UInt16 := 0x00
def bpfJeq : UInt16 := 0x10
def bpfJgt : UInt16 := 0x20
def bpfJge : UInt16 := 0x30
def bpfJset : UInt16 := 0x40
def bpfK : UInt16 := 0x00
def bpfX : UInt16 := 0x08
def bpfA : UInt16 := 0x10
def bpfTax : UInt16 := 0x00
def bpfTxa : UInt16 := 0x80

/-- The kernel-internal opcodes, in the order of the `BPF_S_*` enumeration. -/
inductive BpfS where
  | retK | retA
  | aluAddK | aluAddX | aluSubK | aluSubX | aluMulK | aluMulX | aluDivX
  | aluAndK | aluAndX | aluOrK | aluOrX | aluLshK | aluLshX | aluRshK | aluRshX | aluNeg
  | ldWAbs | ldHAbs | ldBAbs | ldWLen | ldWInd | ldHInd | ldBInd | ldImm
  | ldxWLen | ldxBMsh | ldxImm | miscTax | miscTxa | aluDivK
  | ldMem | ldxMem | st | stx
  | jmpJa | jmpJeqK | jmpJeqX | jmpJgeK | jmpJgeX | jmpJgtK | jmpJgtX | jmpJsetK | jmpJsetX
  | ancProtocol | ancPkttype | ancIfindex | ancNlattr | ancNlattrNest
  | ancMark | ancQueue | ancHatype | ancRxhash | ancCpu
  deriving DecidableEq

open BpfS

def BpfS.all : List BpfS :=
  [retK,retA,aluAddK,aluAddX,aluSubK,aluSubX,aluMulK,aluMulX,aluDivX,
    aluAndK,aluAndX,aluOrK,aluOrX,aluLshK,aluLshX,aluRshK,aluRshX,aluNeg,
    ldWAbs,ldHAbs,ldBAbs,ldWLen,ldWInd,ldHInd,ldBInd,ldImm,
    ldxWLen,ldxBMsh,ldxImm,miscTax,miscTxa,aluDivK,ldMem,ldxMem,st,stx,
    jmpJa,jmpJeqK,jmpJeqX,jmpJgeK,jmpJgeX,jmpJgtK,jmpJgtX,jmpJsetK,jmpJsetX,
    ancProtocol,ancPkttype,ancIfindex,ancNlattr,ancNlattrNest,
    ancMark,ancQueue,ancHatype,ancRxhash,ancCpu]

def BpfS.code (s : BpfS) : UInt16 := UInt16.ofNat (all.idxOf s+1)

/-- The case label selected by `switch (fentry->code)`; `none` is the default branch. -/
def BpfS.ofCode (c : UInt16) : Option BpfS :=
  if c = 0 then none else all[c.toNat-1]?

@[simp] lemma BpfS.ofCode_code (s : BpfS) : ofCode s.code = some s := by
  cases s <;> decide

def codesTable : List (UInt16 × BpfS) :=
  [(bpfAlu ||| bpfAdd ||| bpfK,aluAddK),(bpfAlu ||| bpfAdd ||| bpfX,aluAddX),
    (bpfAlu ||| bpfSub ||| bpfK,aluSubK),(bpfAlu ||| bpfSub ||| bpfX,aluSubX),
    (bpfAlu ||| bpfMul ||| bpfK,aluMulK),(bpfAlu ||| bpfMul ||| bpfX,aluMulX),
    (bpfAlu ||| bpfDiv ||| bpfX,aluDivX),
    (bpfAlu ||| bpfAnd ||| bpfK,aluAndK),(bpfAlu ||| bpfAnd ||| bpfX,aluAndX),
    (bpfAlu ||| bpfOr ||| bpfK,aluOrK),(bpfAlu ||| bpfOr ||| bpfX,aluOrX),
    (bpfAlu ||| bpfLsh ||| bpfK,aluLshK),(bpfAlu ||| bpfLsh ||| bpfX,aluLshX),
    (bpfAlu ||| bpfRsh ||| bpfK,aluRshK),(bpfAlu ||| bpfRsh ||| bpfX,aluRshX),
    (bpfAlu ||| bpfNeg,aluNeg),
    (bpfLd ||| bpfW ||| bpfAbs,ldWAbs),(bpfLd ||| bpfH ||| bpfAbs,ldHAbs),
    (bpfLd ||| bpfB ||| bpfAbs,ldBAbs),(bpfLd ||| bpfW ||| bpfLen,ldWLen),
    (bpfLd ||| bpfW ||| bpfInd,ldWInd),(bpfLd ||| bpfH ||| bpfInd,ldHInd),
    (bpfLd ||| bpfB ||| bpfInd,ldBInd),(bpfLd ||| bpfImm,ldImm),
    (bpfLdx ||| bpfW ||| bpfLen,ldxWLen),(bpfLdx ||| bpfB ||| bpfMsh,ldxBMsh),
    (bpfLdx ||| bpfImm,ldxImm),(bpfMisc ||| bpfTax,miscTax),(bpfMisc ||| bpfTxa,miscTxa),
    (bpfRet ||| bpfK,retK),(bpfRet ||| bpfA,retA),(bpfAlu ||| bpfDiv ||| bpfK,aluDivK),
    (bpfLd ||| bpfMem,ldMem),(bpfLdx ||| bpfMem,ldxMem),(bpfSt,st),(bpfStx,stx),
    (bpfJmp ||| bpfJa,jmpJa),
    (bpfJmp ||| bpfJeq ||| bpfK,jmpJeqK),(bpfJmp ||| bpfJeq ||| bpfX,jmpJeqX),
    (bpfJmp ||| bpfJge ||| bpfK,jmpJgeK),(bpfJmp ||| bpfJge ||| bpfX,jmpJgeX),
    (bpfJmp ||| bpfJgt ||| bpfK,jmpJgtK),(bpfJmp ||| bpfJgt ||| bpfX,jmpJgtX),
    (bpfJmp ||| bpfJset ||| bpfK,jmpJsetK),(bpfJmp ||| bpfJset ||| bpfX,jmpJsetX)]

/-- `codes[code]`: both an index past the array and a zero entry are `none`. -/
def codes (c : UInt16) : Option BpfS := codesTable.lookup c

def BpfS.isCondJump : BpfS → Bool
  | jmpJeqK | jmpJeqX | jmpJgeK | jmpJgeX | jmpJgtK | jmpJgtX | jmpJsetK | jmpJsetX => true
  | _ => false

def BpfS.isMem : BpfS → Bool
  | ldMem | ldxMem | st | stx => true
  | _ => false

def BpfS.isStore : BpfS → Bool
  | st | stx => true
  | _ => false

def BpfS.isLoad : BpfS → Bool
  | ldMem | ldxMem => true
  | _ => false

def BpfS.isRet : BpfS → Bool
  | retK | retA => true
  | _ => false

def toInt32 (v : UInt32) : Int := v.toBitVec.toInt

structure Frag where
  size : UInt32
  byte : Int → UInt8

structure NetDevice where
  ifindex : UInt32
  type : UInt16

structure SkBuff where
  len : UInt32
  dataLen : UInt32
  byte : Int → UInt8
  head : Int
  tail : Int
  networkHeader : Int
  macHeader : Int
  frags : List Frag
  fragList : List SkBuff
  protocol : UInt16
  pktType : UInt8
  dev : Option NetDevice
  mark : UInt32
  queueMapping : UInt16
  rxhash : UInt32

def skbHeadlen (skb : SkBuff) : UInt32 := skb.len-skb.dataLen

def skbIsNonlinear (skb : SkBuff) : Bool := skb.dataLen != 0

def readBytes (byte : Int → UInt8) (offset : Int) (count : Nat) : List UInt8 :=
  (List.range count).map fun i => byte (offset+i)

/-- The loop of `skb_copy_bits` over `frags`; the answer is the copied bytes and
the `start`, `offset` and `len` with which the frag list is entered. -/
def copyFrags : List Frag → Int → Int → Int → List UInt8 × Int × Int × Int
  | [], start, offset, len => ([],start,offset,len)
  | f::fs, start, offset, len =>
    let stop := start+toInt32 f.size
    let copy := min (stop-offset) len
    if 0 < stop-offset then
      if len-copy = 0 then (readBytes f.byte (offset-start) copy.toNat,stop,offset+copy,0)
      else
        let rest := copyFrags fs stop (offset+copy) (len-copy)
        (readBytes f.byte (offset-start) copy.toNat++rest.1,rest.2)
    else copyFrags fs stop offset len

mutual
def skbCopyBits : SkBuff → Int → Int → Option (List UInt8)
  | skb@⟨total,paged,byte,_,_,_,_,frags,fragList,_,_,_,_,_,_⟩, offset, len =>
    let start := toInt32 (total-paged)
    if toInt32 skb.len-len < offset then none
    else
      let copy := if 0 < start-offset then min (start-offset) len else 0
      let linear := readBytes byte offset copy.toNat
      if 0 < copy ∧ len-copy = 0 then some linear
      else
        let paged := copyFrags frags start (offset+copy) (len-copy)
        if paged.2.2.2 = 0 then some (linear++paged.1)
        else (walkFrags fragList paged.2.1 paged.2.2.1 paged.2.2.2).map ((linear++paged.1) ++ ·)

def walkFrags : List SkBuff → Int → Int → Int → Option (List UInt8)
  | [], _, _, len => if len = 0 then some [] else none
  | fragIter@⟨total,_,_,_,_,_,_,_,_,_,_,_,_,_,_⟩::rest, start, offset, len =>
    let stop := start+toInt32 total
    let copy := min (stop-offset) len
    if 0 < stop-offset then
      match skbCopyBits fragIter (offset - start) copy with
      | none => none
      | some bytes =>
        if len-copy = 0 then some bytes
        else (walkFrags rest stop (offset+copy) (len-copy)).map (bytes ++ ·)
    else walkFrags rest stop offset len
end

/-- `skb_header_pointer`, answering with the bytes the returned pointer refers to. -/
def skbHeaderPointer (skb : SkBuff) (offset : Int) (len : Nat) : Option (List UInt8) :=
  if (len : Int) ≤ toInt32 (skbHeadlen skb)-offset then some (readBytes skb.byte offset len)
  else skbCopyBits skb offset len

def skfNetOff : Int := -0x100000
def skfLlOff : Int := -0x200000

/-- `__load_pointer`: the negative offsets relative to the network and link headers. -/
def slowLoadPointer (skb : SkBuff) (k : Int) (size : Nat) : Option (List UInt8) :=
  let ptr :=
    if skfNetOff ≤ k then some (skb.networkHeader+k-skfNetOff)
    else if skfLlOff ≤ k then some (skb.macHeader+k-skfLlOff)
    else none
  match ptr with
  | none => none
  | some p => if skb.head ≤ p ∧ p+size ≤ skb.tail then some (readBytes skb.byte p size) else none

def loadPointer (skb : SkBuff) (k : Int) (size : Nat) : Option (List UInt8) :=
  if 0 ≤ k then skbHeaderPointer skb k size else slowLoadPointer skb k size

def bigEndian (bytes : List UInt8) : UInt32 :=
  bytes.foldl (fun v b => v <<< 8 ||| b.toUInt32) 0

def ntohs (v : UInt16) : UInt16 := v <<< 8 ||| v >>> 8

def nlaHdrlen : Int := 4

def nlaU16 (skb : SkBuff) (at_ : Int) : Nat :=
  (skb.byte at_).toNat+256*(skb.byte (at_+1)).toNat

def nlaLenField (skb : SkBuff) (nla : Int) : Nat := nlaU16 skb nla
def nlaType (skb : SkBuff) (nla : Int) : Nat := nlaU16 skb (nla+2)%2^14

def nlaOk (skb : SkBuff) (nla remaining : Int) : Bool :=
  4 ≤ remaining && 4 ≤ nlaLenField skb nla && (nlaLenField skb nla : Int) ≤ remaining

def nlaAlign (len : Nat) : Nat := (len+3)/4*4

/-- `nla_find`: every accepted attribute consumes at least its four header bytes. -/
def nlaFind (skb : SkBuff) (nla rem attrtype : Int) : Option Int :=
  if h : nlaOk skb nla rem then
    if (nlaType skb nla : Int) = attrtype then some nla
    else nlaFind skb (nla+nlaAlign (nlaLenField skb nla)) (rem-nlaAlign (nlaLenField skb nla)) attrtype
  else none
termination_by rem.toNat
decreasing_by
  simp only [nlaOk,Bool.and_eq_true,decide_eq_true_eq] at h
  simp only [nlaAlign]
  omega

def nlaFindNested (skb : SkBuff) (nla attrtype : Int) : Option Int :=
  nlaFind skb (nla+nlaHdrlen) (nlaLenField skb nla-nlaHdrlen) attrtype

open BpfS

/-- What the source leaves to the machine: the value of a shift by 32 or more,
and the processor on which the instruction at a given position happens to run. -/
structure Host where
  wideLsh : UInt32 → UInt32 → UInt32
  wideRsh : UInt32 → UInt32 → UInt32
  smpProcessorId : Nat → UInt32

structure State where
  pc : Nat
  a : UInt32
  x : UInt32
  mem : Fin bpfMemwords → UInt32

/-- How the loop ends. Only `ret` and `unknownCode` are exits of the source; the
others stand for a fetch or a scratch access outside its array. -/
inductive Stop where
  | ret (v : UInt32)
  | unknownCode
  | badPc
  | badMem
  deriving DecidableEq

def State.next (s : State) : State := {s with pc := s.pc+1}

def State.jump (s : State) (off : Nat) : State := {s with pc := s.pc+off+1}

def branch (s : State) (f : SockFilter) (c : Bool) : Except Stop State :=
  .ok (s.jump (if c then f.jt.toNat else f.jf.toNat))

def loadA (skb : SkBuff) (s : State) (k : Int) (size : Nat) : Except Stop State :=
  match loadPointer skb k size with
  | some bytes => .ok {s with a := bigEndian bytes}.next
  | none => .error (.ret 0)

def lsh (host : Host) (a n : UInt32) : UInt32 := if n < 32 then a <<< n else host.wideLsh a n
def rsh (host : Host) (a n : UInt32) : UInt32 := if n < 32 then a >>> n else host.wideRsh a n

def reciprocalDivide (a r : UInt32) : UInt32 := UInt32.ofNat (a.toNat*r.toNat/2^32)

def ancDev (s : State) (skb : SkBuff) (field : NetDevice → UInt32) : Except Stop State :=
  match skb.dev with
  | none => .error (.ret 0)
  | some dev => .ok {s with a := field dev}.next

def nlattrResult (s : State) (nla : Option Int) : Except Stop State :=
  match nla with
  | some p => .ok {s with a := UInt32.ofInt p}.next
  | none => .ok {s with a := 0}.next

def exec (host : Host) (skb : SkBuff) (op : BpfS) (f : SockFilter) (s : State) : Except Stop State :=
  match op with
  | aluAddX => .ok {s with a := s.a+s.x}.next
  | aluAddK => .ok {s with a := s.a+f.k}.next
  | aluSubX => .ok {s with a := s.a - s.x}.next
  | aluSubK => .ok {s with a := s.a - f.k}.next
  | aluMulX => .ok {s with a := s.a*s.x}.next
  | aluMulK => .ok {s with a := s.a*f.k}.next
  | aluDivX => if s.x = 0 then .error (.ret 0) else .ok {s with a := s.a/s.x}.next
  | aluDivK => .ok {s with a := reciprocalDivide s.a f.k}.next
  | aluAndX => .ok {s with a := s.a &&& s.x}.next
  | aluAndK => .ok {s with a := s.a &&& f.k}.next
  | aluOrX => .ok {s with a := s.a ||| s.x}.next
  | aluOrK => .ok {s with a := s.a ||| f.k}.next
  | aluLshX => .ok {s with a := lsh host s.a s.x}.next
  | aluLshK => .ok {s with a := lsh host s.a f.k}.next
  | aluRshX => .ok {s with a := rsh host s.a s.x}.next
  | aluRshK => .ok {s with a := rsh host s.a f.k}.next
  | aluNeg => .ok {s with a := -s.a}.next
  | jmpJa => .ok (s.jump f.k.toNat)
  | jmpJgtK => branch s f (f.k < s.a)
  | jmpJgeK => branch s f (f.k ≤ s.a)
  | jmpJeqK => branch s f (s.a = f.k)
  | jmpJsetK => branch s f (s.a &&& f.k ≠ 0)
  | jmpJgtX => branch s f (s.x < s.a)
  | jmpJgeX => branch s f (s.x ≤ s.a)
  | jmpJeqX => branch s f (s.a = s.x)
  | jmpJsetX => branch s f (s.a &&& s.x ≠ 0)
  | ldWAbs => loadA skb s (toInt32 f.k) 4
  | ldHAbs => loadA skb s (toInt32 f.k) 2
  | ldBAbs => loadA skb s (toInt32 f.k) 1
  | ldWLen => .ok {s with a := skb.len}.next
  | ldxWLen => .ok {s with x := skb.len}.next
  | ldWInd => loadA skb s (toInt32 (s.x+f.k)) 4
  | ldHInd => loadA skb s (toInt32 (s.x+f.k)) 2
  | ldBInd => loadA skb s (toInt32 (s.x+f.k)) 1
  | ldxBMsh =>
    match loadPointer skb (toInt32 f.k) 1 with
    | some bytes => .ok {s with x := (bigEndian bytes &&& 0xf) <<< 2}.next
    | none => .error (.ret 0)
  | ldImm => .ok {s with a := f.k}.next
  | ldxImm => .ok {s with x := f.k}.next
  | ldMem => if h : f.k.toNat < bpfMemwords then .ok {s with a := s.mem ⟨f.k.toNat,h⟩}.next else .error .badMem
  | ldxMem => if h : f.k.toNat < bpfMemwords then .ok {s with x := s.mem ⟨f.k.toNat,h⟩}.next else .error .badMem
  | miscTax => .ok {s with x := s.a}.next
  | miscTxa => .ok {s with a := s.x}.next
  | retK => .error (.ret f.k)
  | retA => .error (.ret s.a)
  | st =>
    if h : f.k.toNat < bpfMemwords then .ok {s with mem := Function.update s.mem ⟨f.k.toNat,h⟩ s.a}.next
    else .error .badMem
  | stx =>
    if h : f.k.toNat < bpfMemwords then .ok {s with mem := Function.update s.mem ⟨f.k.toNat,h⟩ s.x}.next
    else .error .badMem
  | ancProtocol => .ok {s with a := (ntohs skb.protocol).toUInt32}.next
  | ancPkttype => .ok {s with a := skb.pktType.toUInt32}.next
  | ancIfindex => ancDev s skb (·.ifindex)
  | ancMark => .ok {s with a := skb.mark}.next
  | ancQueue => .ok {s with a := skb.queueMapping.toUInt32}.next
  | ancHatype => ancDev s skb (·.type.toUInt32)
  | ancRxhash => .ok {s with a := skb.rxhash}.next
  | ancCpu => .ok {s with a := host.smpProcessorId s.pc}.next
  | ancNlattr =>
    if skbIsNonlinear skb then .error (.ret 0)
    else if skb.len-4 < s.a then .error (.ret 0)
    else nlattrResult s (nlaFind skb s.a.toNat (toInt32 (skb.len-s.a)) (toInt32 s.x))
  | ancNlattrNest =>
    if skbIsNonlinear skb then .error (.ret 0)
    else if skb.len-4 < s.a then .error (.ret 0)
    else if s.a-skb.len < UInt32.ofNat (nlaLenField skb s.a.toNat) then .error (.ret 0)
    else nlattrResult s (nlaFindNested skb s.a.toNat (toInt32 s.x))

/-- Fetch and execute; the fetch is the only use of the program's length. -/
def step (host : Host) (skb : SkBuff) (prog : List SockFilter) (s : State) : Except Stop State :=
  match prog[s.pc]? with
  | none => .error .badPc
  | some f =>
    match BpfS.ofCode f.code with
    | none => .error .unknownCode
    | some op => exec host skb op f s

/-- A run of at most `fuel` instructions: the positions fetched, in order, and
how the run ended, `none` when the fuel did not suffice. -/
def run (host : Host) (skb : SkBuff) (prog : List SockFilter) : Nat → State → List Nat × Option Stop
  | 0, _ => ([],none)
  | fuel+1, s =>
    match step host skb prog s with
    | .ok s' => (s.pc::(run host skb prog fuel s').1,(run host skb prog fuel s').2)
    | .error e => ([s.pc],some e)

def start (mem : Fin bpfMemwords → UInt32) : State := ⟨0,0,0,mem⟩

def Stop.value : Stop → UInt32
  | .ret v => v
  | _ => 0

def skRunFilter (host : Host) (skb : SkBuff) (prog : List SockFilter) (fuel : Nat)
    (mem : Fin bpfMemwords → UInt32) : Option UInt32 :=
  (run host skb prog fuel (start mem)).2.map Stop.value

end LinuxToradex.SocketFilter
