import LinuxToradex.SocketFilter.Safety

/-! The bytes that the ancillary loads of netlink attributes read. The first guard wraps in a packet shorter
than an attribute header, and the second one of the nested load has its operands exchanged. -/
namespace LinuxToradex.SocketFilter
open BpfS

/-- The offsets that `nla_find` reads, through `nla_ok`, `nla_type` and `nla_next`. -/
def nlaFindReads (skb : SkBuff) (nla rem attrtype : Int) : List Int :=
  if h : nlaOk skb nla rem then
    [nla,nla+1,nla+2,nla+3] ++
      if (nlaType skb nla : Int) = attrtype then []
      else nlaFindReads skb (nla+nlaAlign (nlaLenField skb nla)) (rem-nlaAlign (nlaLenField skb nla)) attrtype
  else if 4 ≤ rem then [nla,nla+1]
  else []
termination_by rem.toNat
decreasing_by
  simp only [nlaOk,Bool.and_eq_true,decide_eq_true_eq] at h
  simp only [nlaAlign]
  omega

def ancReads (skb : SkBuff) (s : State) : BpfS → List Int
  | ancNlattr =>
    if skbIsNonlinear skb ∨ skb.len-4 < s.a then []
    else nlaFindReads skb s.a.toNat (toInt32 (skb.len-s.a)) (toInt32 s.x)
  | ancNlattrNest =>
    if skbIsNonlinear skb ∨ skb.len-4 < s.a then []
    else [(s.a.toNat : Int),s.a.toNat+1] ++
      if s.a-skb.len < UInt32.ofNat (nlaLenField skb s.a.toNat) then []
      else nlaFindReads skb (s.a.toNat+nlaHdrlen) (nlaLenField skb s.a.toNat-nlaHdrlen) (toInt32 s.x)
  | _ => []

/-- A load reads only bytes of the packet and leaves 0 or an offset in it. -/
def Stays (host : Host) (skb : SkBuff) (f : SockFilter) (s : State) (op : BpfS) : Prop :=
  (∀ i ∈ ancReads skb s op, 0 ≤ i ∧ i < skb.len.toNat) ∧
    ∀ s', exec host skb op f s = .ok s' → s'.a = 0 ∨ s'.a < skb.len

lemma nlaFind_inside (skb : SkBuff) (nla rem attrtype : Int) :
    (∀ i ∈ nlaFindReads skb nla rem attrtype, 4 ≤ rem ∧ nla ≤ i ∧ i < nla+rem) ∧
      ∀ p, nlaFind skb nla rem attrtype = some p → nla ≤ p ∧ p+4 ≤ nla+rem := by
  fun_induction nlaFindReads skb nla rem attrtype with
  | case1 nla rem hok ih =>
    have hall := hok
    simp only [nlaOk,Bool.and_eq_true,decide_eq_true_eq] at hok
    refine ⟨fun i hi => ?_,fun p hp => ?_⟩
    · rcases List.mem_append.mp hi with hi | hi
      · simp only [List.mem_cons,List.not_mem_nil,or_false] at hi
        omega
      split at hi
      · cases hi
      have := ih.1 i hi
      omega
    rw [nlaFind,dif_pos hall] at hp
    split at hp
    · cases hp
      omega
    have := ih.2 p hp
    omega
  | case2 nla rem hok hrem | case3 nla rem hok hrem =>
    refine ⟨by simp; try omega,fun p hp => ?_⟩
    rw [nlaFind,dif_neg hok] at hp
    cases hp

variable {host : Host} {skb : SkBuff} {f : SockFilter} {s : State} {op : BpfS}

/-- A walk over bytes of the packet, after the reads `l`. -/
lemma stays_find {l : List Int} {nla rem t : Int} (hreads : ancReads skb s op = l++nlaFindReads skb nla rem t)
    (hexec : exec host skb op f s = nlattrResult s (nlaFind skb nla rem t))
    (hfirst : ∀ i ∈ l, 0 ≤ i ∧ i < skb.len.toNat) (hnla : 0 ≤ nla) (hrem : 4 ≤ rem → nla+rem ≤ skb.len.toNat) :
    Stays host skb f s op := by
  obtain ⟨hin,hfound⟩ := nlaFind_inside skb nla rem t
  refine ⟨fun i hi => ?_,fun s' hs' => ?_⟩
  · rw [hreads] at hi
    rcases List.mem_append.mp hi with hi | hi
    · exact hfirst i hi
    have := hin i hi
    omega
  rw [hexec] at hs'
  rcases hp : nlaFind skb nla rem t with _ | p
  · rw [hp] at hs'
    cases hs'
    exact .inl rfl
  rw [hp] at hs'
  cases hs'
  refine .inr ?_
  have hp := hfound p hp
  obtain ⟨q,rfl⟩ := Int.eq_ofNat_of_zero_le (show 0 ≤ p by omega)
  have hlen := skb.len.toNat_lt
  show UInt32.ofInt q < skb.len
  rw [UInt32.lt_iff_toNat_lt]
  simp only [UInt32.ofInt,UInt32.toNat_ofNat']
  omega

lemma stays_of_refused (hreads : ancReads skb s op = [])
    (hexec : exec host skb op f s = .error (.ret 0)) : Stays host skb f s op := by
  refine ⟨by rw [hreads]; exact nofun,fun s' hs' => ?_⟩
  rw [hexec] at hs'
  cases hs'

lemma toInt32_eq {v : UInt32} (h : 0 ≤ toInt32 v) : toInt32 v = v.toNat := by
  have hlt := v.toNat_lt
  simp only [toInt32,BitVec.toInt_eq_toNat_cond,UInt32.toNat_toBitVec] at h ⊢
  omega

/-- The attribute that the load starts from has its header in the packet, or the load is refused. -/
def NlattrFits (skb : SkBuff) (s : State) : Prop :=
  skbIsNonlinear skb ∨ skb.len-4 < s.a ∨ toInt32 (skb.len-s.a) < 4 ∨ 4 ≤ skb.len

/-- The nested load is refused, or the attribute is in the packet as a whole. -/
def NestFits (skb : SkBuff) (s : State) : Prop :=
  skbIsNonlinear skb ∨ skb.len-4 < s.a ∨
    (s.a.toNat+2 ≤ skb.len.toNat ∧ s.a.toNat+nlaLenField skb s.a.toNat ≤ skb.len.toNat)

lemma stays_nlattr_iff : Stays host skb f s ancNlattr ↔ NlattrFits skb s := by
  by_cases hlinear : skbIsNonlinear skb = true
  · exact iff_of_true (stays_of_refused (by simp [ancReads,hlinear]) (by simp [exec,hlinear])) (.inl hlinear)
  by_cases hguard : skb.len-4 < s.a
  · exact iff_of_true (stays_of_refused (by simp [ancReads,hguard]) (by simp [exec,hlinear,hguard]))
      (.inr (.inl hguard))
  have hreads : ancReads skb s ancNlattr = nlaFindReads skb s.a.toNat (toInt32 (skb.len-s.a)) (toInt32 s.x) := by
    rw [ancReads,if_neg (not_or.mpr ⟨hlinear,hguard⟩)]
  have hlen := skb.len.toNat_lt
  have ha := s.a.toNat_lt
  constructor
  · intro hstays
    by_contra hfits
    simp only [NlattrFits,not_or,Int.not_lt,UInt32.not_le,UInt32.lt_iff_toNat_lt] at hfits
    obtain ⟨-,-,hrem,hshort⟩ := hfits
    have hfirst : (s.a.toNat : Int) ∈ ancReads skb s ancNlattr := by
      rw [hreads,nlaFindReads,if_pos hrem]
      split <;> simp
    have hin := (hstays.1 _ hfirst).2
    rw [toInt32_eq (by omega),UInt32.toNat_sub] at hrem
    simp at hshort
    omega
  · intro hfits
    refine stays_find (l := []) hreads (by rw [exec,if_neg hlinear,if_neg hguard]) (fun _ hi => nomatch hi)
      (by omega) fun hrem => ?_
    have hfour : 4 ≤ skb.len :=
      ((hfits.resolve_left hlinear).resolve_left hguard).resolve_left (by omega)
    rw [UInt32.not_lt,UInt32.le_iff_toNat_le,UInt32.toNat_sub_of_le _ _ hfour] at hguard
    rw [toInt32_eq (by omega),UInt32.toNat_sub]
    simp at hguard
    omega

lemma stays_nest (hfits : NestFits skb s) : Stays host skb f s ancNlattrNest := by
  by_cases hlinear : skbIsNonlinear skb = true
  · exact stays_of_refused (by simp [ancReads,hlinear]) (by simp [exec,hlinear])
  by_cases hguard : skb.len-4 < s.a
  · exact stays_of_refused (by simp [ancReads,hguard]) (by simp [exec,hlinear,hguard])
  obtain ⟨hhead,hlen⟩ := (hfits.resolve_left hlinear).resolve_left hguard
  have hfirst : ∀ i ∈ [(s.a.toNat : Int),s.a.toNat+1], 0 ≤ i ∧ i < skb.len.toNat := by
    simp
    omega
  have hpass := not_or.mpr ⟨hlinear,hguard⟩
  by_cases hnest : s.a-skb.len < UInt32.ofNat (nlaLenField skb s.a.toNat)
  · refine ⟨?_,fun s' hs' => ?_⟩
    · rwa [ancReads,if_neg hpass,if_pos hnest,List.append_nil]
    rw [exec,if_neg hlinear,if_neg hguard,if_pos hnest] at hs'
    cases hs'
  refine stays_find (by rw [ancReads,if_neg hpass,if_neg hnest])
    (by rw [exec,if_neg hlinear,if_neg hguard,if_neg hnest,nlaFindNested]) hfirst ?_ ?_ <;>
  · unfold nlaHdrlen
    omega

/-- The load of an attribute stays in the packet just if its header does, or the load is refused; the nested load
does if the attribute is in the packet as a whole. -/
theorem nlattr_stays (host : Host) (skb : SkBuff) (f : SockFilter) (s : State) :
    (Stays host skb f s ancNlattr ↔ NlattrFits skb s) ∧ (NestFits skb s → Stays host skb f s ancNlattrNest) :=
  ⟨stays_nlattr_iff,stays_nest⟩

/-- An attribute of eight bytes, which is the packet, with one of four bytes in it that the nested load finds. -/
theorem nlattr_stays_nested : let skb := {samplePacket with
      len := 8, tail := 8, byte := fun i => if i = 0 then 8 else if i = 4 then 4 else if i = 6 then 1 else 0}
    let s := {start fun _ => 0 with x := 1}
    ancReads skb s ancNlattrNest = [0,1,4,5,6,7] ∧ Stays sampleHost skb ⟨0,0,0,0⟩ s ancNlattr ∧
      Stays sampleHost skb ⟨0,0,0,0⟩ s ancNlattrNest := by
  refine ⟨?_,(nlattr_stays ..).1.mpr (.inr (.inr (.inr (by decide)))),
    (nlattr_stays ..).2 (.inr (.inr ⟨by decide,by decide⟩))⟩
  rw [ancReads,if_neg (by decide),if_neg (by decide),nlaFindReads,dif_pos (by decide),if_pos (by decide)]
  decide

/-- The program loads a nested attribute at offset 0; the packet has four bytes, which announce 65535. -/
theorem nest_reads_behind_packet : let skb := {samplePacket with byte := fun i => if i < 2 then 0xff else 0}
    skChkFilter true [⟨bpfLd ||| bpfW ||| bpfAbs,0,0,0xfffff000+16⟩,⟨bpfRet ||| bpfA,0,0,0⟩] =
      .ok [⟨ancNlattrNest.code,0,0,0xfffff000+16⟩,⟨retA.code,0,0,0⟩] ∧
    ¬Stays sampleHost skb ⟨ancNlattrNest.code,0,0,0xfffff000+16⟩ (start fun _ => 0) ancNlattrNest := by
  refine ⟨by decide,fun hstays => ?_⟩
  have hread := hstays.1 4 (by
    rw [ancReads,if_neg (by decide),if_neg (by decide),nlaFindReads,dif_neg (by decide),if_pos (by decide)]
    decide)
  exact absurd hread.2 (by decide)

end LinuxToradex.SocketFilter
