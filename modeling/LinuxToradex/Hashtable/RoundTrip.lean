import LinuxToradex.Hashtable.Refines

/-! The importer reads each line of an exported text as the entry it was written for, and does not
look beyond it. What it writes into its copy stays behind the place it reads from. -/
namespace LinuxToradex.Hashtable
open Option List

variable {sep : UInt8} {P Q R xs key value : Bytes}

@[simp] lemma getElem?_at (P R : Bytes) (c : UInt8) : (P++c::R)[P.length]? = some c := by
  simp

lemma getElem?_after (P R : Bytes) (c c' : UInt8) : (P++c::c'::R)[P.length+1]? = some c' := by
  simp

lemma skipWhile_eq {p : UInt8 → Bool} {c : UInt8} (hc : p c = false) :
    ∀ xs P k, (∀ x ∈ xs, p x = true) → xs.length < k →
      skipWhile p (P++(xs++c::R)) k P.length = some (P.length+xs.length) := by
  intro xs
  induction xs with
  | nil =>
    intro P k _ hk
    obtain ⟨k,rfl⟩ := Nat.exists_eq_succ_of_ne_zero hk.ne'
    rw [skipWhile,nil_append,getElem?_at]
    simp [hc]
  | cons x xs ih =>
    intro P k hxs hk
    obtain ⟨k,rfl⟩ := Nat.exists_eq_succ_of_ne_zero (Nat.ne_zero_of_lt hk)
    have hstep := ih (P++[x]) k (fun y hy => hxs y (mem_cons_of_mem x hy)) (Nat.lt_of_succ_lt_succ hk)
    rw [append_assoc,length_append,length_singleton] at hstep
    rw [skipWhile,cons_append,getElem?_at]
    simp only [bind_eq_bind,bind_some,hxs x mem_cons_self,if_true]
    rw [length_cons,add_comm xs.length,← add_assoc]
    exact hstep

lemma skipWhile_none {p : UInt8 → Bool} {c : UInt8} (hc : p c = false) {k : Nat} (hk : 0 < k) :
    skipWhile p (P++c::R) k P.length = some P.length :=
  skipWhile_eq hc [] P k (fun _ hx => nomatch hx) hk

lemma cstring_eq (hs : 0 ∉ xs) : cstring (P++(xs++0::R)) P.length = some xs := by
  unfold cstring
  rw [drop_left,if_pos (mem_append_right xs mem_cons_self)]
  congr 1
  have hall : ∀ x ∈ xs, decide (x ≠ 0) = true := by
    intro x hx
    exact decide_eq_true fun he => hs (he ▸ hx)
  rw [takeWhile_append_of_pos hall]
  simp

lemma store_at (P R : Bytes) (c c' : UInt8) : store (P++c::R) P.length c' = some (P++c'::R) := by
  unfold store
  rw [if_pos (by simp)]
  simp

def escapeByte (sep c : UInt8) : Bytes := if c = sep ∨ c = backslash then [backslash,c] else [c]

lemma escape_cons (sep c : UInt8) (value : Bytes) : escape sep (c::value) = escapeByte sep c++escape sep value :=
  flatMap_cons ..

lemma set_grow (A J : Bytes) (c x : UInt8) (R : Bytes) : ∃ J', J'.length = J.length ∧
    (A++(J++x::R)).set A.length c = (A++[c])++(J' ++ R) := by
  cases J with
  | nil => exact ⟨[],rfl,by simp⟩
  | cons j J => exact ⟨J++[x],by simp,by simp⟩

lemma valueLoop_step (hsep : sep ≠ backslash) {c : UInt8} (hc : c ≠ 0) (A J R : Bytes) (k : Nat) :
    ∃ J', J'.length+1 = J.length+(escapeByte sep c).length ∧
      valueLoop sep (k+1) (A++(J++(escapeByte sep c++R))) (A.length+J.length) A.length =
        valueLoop sep k (A++[c]++(J' ++ R)) ((A++[c]).length+J'.length) (A++[c]).length := by
  unfold escapeByte
  by_cases hesc : c = sep ∨ c = backslash
  · -- the backslash is left out
    have hread : (A++(J++backslash::c::R))[A.length+J.length]? = some backslash := by
      rw [← append_assoc,← length_append,getElem?_at]
    have hread' : (A++(J++backslash::c::R))[A.length+J.length+1]? = some c := by
      rw [← append_assoc,← length_append,getElem?_after]
    obtain ⟨J',hlen,hset⟩ := set_grow A (J++[backslash]) c c R
    rw [append_assoc,singleton_append] at hset
    rw [length_append,length_singleton] at hlen
    rw [if_pos hesc]
    refine ⟨J',by rw [hlen]; rfl,?_⟩
    rw [valueLoop,cons_append,singleton_append,hread]
    simp only [bind_eq_bind,bind_some]
    rw [if_pos ⟨by decide,hsep.symm⟩,if_pos trivial,hread']
    simp only [map_some,bind_some,ne_eq,hc,not_false_eq_true,decide_true,if_true,hread',hset]
    congr 1
    · rw [length_append,length_singleton]
      omega
    · rw [length_append,length_singleton]
  have hread : (A++(J++c::R))[A.length+J.length]? = some c := by
    rw [← append_assoc,← length_append,getElem?_at]
  obtain ⟨J',hlen,hset⟩ := set_grow A J c c R
  rw [if_neg hesc]
  obtain ⟨hns,hnb⟩ := not_or.mp hesc
  refine ⟨J',by rw [hlen]; rfl,?_⟩
  rw [valueLoop,singleton_append,hread]
  simp only [bind_eq_bind,bind_some]
  rw [if_pos ⟨hc,hns⟩,if_neg hnb]
  simp only [bind_some,Bool.false_eq_true,if_false,hread,hset]
  congr 1
  · rw [length_append,length_singleton]
    omega
  · rw [length_append,length_singleton]

lemma valueLoop_eq (hsep : sep ≠ backslash) (R : Bytes) : ∀ value A J k, 0 ∉ value → value.length < k →
      ∃ J', J'.length+value.length = J.length+(escape sep value).length ∧
        valueLoop sep k (A++(J++(escape sep value++sep::R))) (A.length+J.length) A.length =
          some (A++value++(J' ++ sep::R),(A++value).length+J'.length,(A++value).length) := by
  intro value
  induction value with
  | nil =>
    intro A J k _ hk
    obtain ⟨k,rfl⟩ := Nat.exists_eq_succ_of_ne_zero hk.ne'
    refine ⟨J,rfl,?_⟩
    rw [valueLoop]
    simp [escape]
  | cons c value ih =>
    intro A J k hzero hk
    obtain ⟨k,rfl⟩ := Nat.exists_eq_succ_of_ne_zero (Nat.ne_zero_of_lt hk)
    have hc : c ≠ 0 := fun he => hzero (he ▸ mem_cons_self)
    obtain ⟨J1,hJ1,hstep⟩ := valueLoop_step hsep hc A J (escape sep value++sep::R) k
    obtain ⟨J',hJ',hloop⟩ := ih (A++[c]) J1 k
      (fun hmem => hzero (mem_cons_of_mem c hmem)) (Nat.lt_of_succ_lt_succ hk)
    rw [escape_cons]
    refine ⟨J',?_,?_⟩
    · rw [length_append,length_cons]
      omega
    rw [append_assoc (escapeByte sep c),Nat.succ_eq_add_one,hstep,hloop,append_assoc A [c] value]
    rfl

/-- A name that can be exported with this separator: not empty, without equals signs, zeros and
separators, and not starting like a blank or a comment. -/
structure ValidName (sep : UInt8) (key : Bytes) : Prop where
  nonempty : key ≠ []
  plain : ∀ c ∈ key, c ≠ equals ∧ c ≠ 0 ∧ c ≠ sep
  start : ∀ c ∈ key.head?, c ≠ space ∧ c ≠ tab ∧ c ≠ hashMark

structure ValidValue (value : Bytes) : Prop where
  nonempty : value ≠ []
  plain : 0 ∉ value

instance (sep : UInt8) (key : Bytes) : Decidable (ValidName sep key) :=
  decidable_of_iff (key ≠ [] ∧ (∀ c ∈ key, c ≠ equals ∧ c ≠ 0 ∧ c ≠ sep) ∧
    ∀ c ∈ key.head?, c ≠ space ∧ c ≠ tab ∧ c ≠ hashMark)
    ⟨fun h => ⟨h.1,h.2.1,h.2.2⟩,fun h => ⟨h.nonempty,h.plain,h.start⟩⟩

instance (value : Bytes) : Decidable (ValidValue value) :=
  decidable_of_iff (value ≠ [] ∧ 0 ∉ value) ⟨fun h => ⟨h.1,h.2⟩,fun h => ⟨h.nonempty,h.plain⟩⟩

def entered (data : Bytes) (dp : Nat) (r : Result × Htab) : Option Import :=
  match r.1 with
  | .ok _ _ => some (.go data dp r.2)
  | .fail _ => some (.fail r.2)

lemma length_le_escape (sep : UInt8) (value : Bytes) : value.length ≤ (escape sep value).length := by
  induction value with
  | nil => exact Nat.zero_le _
  | cons c value ih =>
    have hone : 1 ≤ (escapeByte sep c).length := by
      unfold escapeByte
      split
      · exact Nat.le_succ 1
      · exact Nat.le_refl 1
    rw [escape_cons,length_append,length_cons]
    omega

section
variable (hsep : sep ≠ backslash)
include hsep

lemma readValue_eq (hvalue : 0 ∉ value) (A R : Bytes) :
    ∃ data dp sp J, valueLoop sep (A++(escape sep value++sep::R)).length
        (A++(escape sep value++sep::R)) A.length A.length = some (data,dp,sp) ∧
      store data sp 0 = some (A++(value++0::(J++R))) ∧ dp+1 = (A++(value++0::J)).length ∧
      J.length+value.length = (escape sep value).length := by
  have hlen := length_le_escape sep value
  obtain ⟨J,hJ,hloop⟩ := valueLoop_eq hsep R value A [] (A++(escape sep value++sep::R)).length hvalue (by
      simp only [length_append,length_cons]
      omega)
  obtain ⟨J',hJ',hset⟩ := set_grow (A++value) J 0 sep R
  refine ⟨_,_,_,J',hloop,?_,?_,?_⟩
  · unfold store
    rw [if_pos,hset]
    · simp
    simp only [length_append,length_cons]
    omega
  · simp only [length_append,length_cons]
    omega
  rw [length_nil] at hJ
  omega

lemma importEnter_eq (hkey : 0 ∉ key) (hvalue : 0 ∉ value) (h : Htab) (P R : Bytes) :
    ∃ Q, Q.length = P.length+(exportLine sep (key,value)).length ∧
      importEnter sep (P++(exportLine sep (key,value)++R)) P.length (P.length+key.length) h =
        (hsearchR h ⟨key,some value⟩ .enter).bind (entered (Q++R) Q.length) := by
  have hdata : P++(exportLine sep (key,value)++R) = (P++key)++equals::(escape sep value++sep::R) := by
    simp [exportLine]
  have hcut : (P++key)++0::(escape sep value++sep::R) =
      (P++key++[0])++(escape sep value++sep::R) := by simp
  have hstart : P.length+key.length+1 = (P++key++[0]).length := by
    simp only [length_append,length_singleton]
  obtain ⟨data,dp,sp,J,hloop,hstore,hdp,hJ⟩ := readValue_eq hsep hvalue (P++key++[0]) R
  have hname : cstring (P++key++[0]++(value++0::(J++R))) P.length = some key := by
    rw [append_assoc,append_assoc]
    exact cstring_eq hkey
  have hval := cstring_eq (P := P++key++[0]) (R := J++R) hvalue
  refine ⟨P++key++[0]++(value++0::J),?_,?_⟩
  · simp only [exportLine,length_append,length_cons,length_nil]
    omega
  have hend : P++key++[0]++(value++0::J)++R = P++key++[0]++(value++0::(J++R)) := by simp
  rw [importEnter,hdata,← length_append,store_at,length_append]
  simp only [bind_eq_bind,bind_some]
  rw [hstart,hcut,hloop]
  simp only [bind_some]
  rw [hstore]
  simp only [bind_some]
  rw [hname,hval,hdp,hend]
  rfl

lemma head_escape_ne (hvalue : ValidValue value) : ∃ c rest, escape sep value = c::rest ∧ c ≠ 0 ∧ c ≠ sep := by
  obtain ⟨c,rest,rfl⟩ := exists_cons_of_ne_nil hvalue.nonempty
  rw [escape_cons]
  unfold escapeByte
  split
  · next hesc => exact ⟨backslash,_,rfl,by decide,hsep.symm⟩
  next hesc =>
  exact ⟨c,_,rfl,fun he => hvalue.plain (he ▸ mem_cons_self),fun he => hesc (.inl he)⟩

/-- A line of the text is read as the entry it was written for. -/
theorem importEntry_eq (hequals : sep ≠ equals) (hkey : ValidName sep key)
    (hvalue : ValidValue value) (h : Htab) (P R : Bytes) :
    ∃ Q, Q.length = P.length+(exportLine sep (key,value)).length ∧
      importEntry sep (P++(exportLine sep (key,value)++R)) P.length h =
        (hsearchR h ⟨key,some value⟩ .enter).bind (entered (Q++R) Q.length) := by
  obtain ⟨c,rest,rfl⟩ := exists_cons_of_ne_nil hkey.nonempty
  obtain ⟨hspace,htab,hmark⟩ := hkey.start c rfl
  obtain ⟨c',rest',hescape,hc',hcsep⟩ := head_escape_ne hsep hvalue
  have hzero : 0 ∉ c::rest := fun hmem => (hkey.plain 0 hmem).2.1 rfl
  obtain ⟨Q,hQ,henter⟩ := importEnter_eq hsep hzero hvalue.plain h P R
  have hline : P++(exportLine sep (c::rest,value)++R) = P++((c::rest)++equals::c'::(rest' ++ sep::R)) := by
    simp [exportLine,hescape]
  have hblank : isBlank c = false := by simp [isBlank,hspace,htab]
  have hname : ∀ x ∈ c::rest, inName sep x = true := by
    intro x hx
    simp [inName,hkey.plain x hx]
  have hend : inName sep equals = false := by simp [inName]
  have hread : (P++((c::rest)++equals::c'::(rest' ++ sep::R)))[P.length + (c::rest).length]? = some equals := by
    rw [← append_assoc,← length_append,getElem?_at]
  have hread' : (P++((c::rest)++equals::c'::(rest' ++ sep::R)))[P.length + (c::rest).length+1]? = some c' := by
    rw [← append_assoc,← length_append,getElem?_after]
  have hlen : (c::rest).length < (P++((c::rest)++equals::c'::(rest' ++ sep::R))).length := by
    simp only [length_append,length_cons]
    omega
  refine ⟨Q,hQ,?_⟩
  rw [importEntry,hline]
  have hskip : skipWhile isBlank (P++((c::rest)++equals::c'::(rest' ++ sep::R)))
      (P++((c::rest)++equals::c'::(rest' ++ sep::R))).length P.length =
      some P.length := skipWhile_none hblank (Nat.zero_lt_of_lt hlen)
  have hfirst : (P++((c::rest)++equals::c'::(rest' ++ sep::R)))[P.length]? = some c :=
    getElem?_at ..
  rw [hskip]
  simp only [bind_eq_bind,bind_some]
  rw [hfirst]
  simp only [bind_some]
  rw [if_neg hmark,skipWhile_eq hend (c::rest) P _ hname hlen]
  simp only [bind_some]
  rw [hread]
  simp only [bind_some]
  rw [if_neg (by decide),hread']
  simp only [map_some,bind_some]
  rw [if_neg (by simp [hc',hcsep,hequals.symm]),← hline]
  exact henter

end

def Clean (h : Htab) : Prop := ∀ i, (h.table i).used ≠ -1

variable {h : Htab} {m m0 : Env}

lemma Rep.fits_of_clean (hr : Rep h m) (hclean : Clean h) (key value : Bytes) : h.Fits (.enter key value) := by
  by_contra hfits
  simp only [Htab.Fits,not_or,not_exists,not_and] at hfits
  obtain ⟨-,hroom,-,hused⟩ := hfits
  have hlive : ∀ i ∈ Finset.Icc 1 h.size, ∃ key data, (h.table i).entry = some (key,data) := by
    intro i hi
    obtain ⟨hpos,hle⟩ := Finset.mem_Icc.mp hi
    rcases hentry : (h.table i).entry with _ | ⟨key,data⟩
    · rcases hr.reach.idle i hentry with hzero | hmark
      · exact absurd hzero (hused i (Nat.lt_succ_of_le hle) hpos)
      · exact absurd hmark (hclean i)
    · exact ⟨key,data,rfl⟩
  choose! k hk using hlive
  have hcard : (Finset.Icc 1 h.size).card ≤ m.keys.card := by
    apply Finset.card_le_card_of_injOn k
    · intro i hi
      obtain ⟨data,hdata⟩ := hk i hi
      exact Finmap.mem_keys.mpr (Finmap.mem_of_lookup_eq_some ((hr.lookup (k i) data).mpr ⟨i,hdata⟩))
    intro i hi j hj heq
    obtain ⟨data,hdata⟩ := hk i hi
    obtain ⟨data',hdata'⟩ := hk j hj
    exact hr.reach.once i j (k i) data data' hdata (heq ▸ hdata')
  rw [Nat.card_Icc,Nat.add_sub_cancel,← hr.filled] at hcard
  exact hroom (hr.room.antisymm hcard)

lemma Clean.setSlot (hclean : Clean h) (i : Nat) {slot : Slot} (filled : Nat)
    (hslot : slot.used ≠ -1) : Clean {h.setSlot i slot with filled := filled} := by
  intro j
  rw [entry_setSlot]
  split
  · exact hslot
  · exact hclean j

lemma hsearchR_clean (hclean : Clean h) {r : Result × Htab}
    (hs : hsearchR h ⟨key,some value⟩ .enter = some r) : Clean r.2 := by
  unfold hsearchR at hs
  split at hs
  · cases hs
  · cases hs
    exact hclean.setSlot _ h.filled (hclean _)
  rw [if_pos rfl] at hs
  split at hs
  · cases hs
    exact hclean
  cases hs
  apply hclean.setSlot
  dsimp only
  omega

lemma Rep.hsearchR_enter (hr : Rep h m0) (hclean : Clean h) (hcard : m.keys.card ≤ h.size)
    (hsub : ∀ key data, m0.lookup key = some data → m.lookup key = some data) (hentry : m.lookup key = some value) :
    ∃ ret slot h', hsearchR h ⟨key,some value⟩ .enter = some (.ok ret slot,h') ∧
      Rep h' (m0.insert key value) ∧ Clean h' ∧ h'.size = h.size := by
  have hroom : key ∈ m0 ∨ m0.keys.card ≠ h.size := by
    by_contra hnot
    obtain ⟨hkey,hfull⟩ := not_or.mp hnot
    have hss : insert key m0.keys ⊆ m.keys := by
      intro k hk
      rcases Finset.mem_insert.mp hk with rfl | hk
      · exact Finmap.mem_keys.mpr (Finmap.mem_of_lookup_eq_some hentry)
      obtain ⟨data,hdata⟩ := Finmap.mem_iff.mp (Finmap.mem_keys.mp hk)
      exact Finmap.mem_keys.mpr (Finmap.mem_of_lookup_eq_some (hsub k data hdata))
    have hlt := Finset.card_le_card hss
    rw [Finset.card_insert_of_notMem fun hmem => hkey (Finmap.mem_keys.mp hmem)] at hlt
    omega
  obtain ⟨h',happly,hr',hsize⟩ := hr.step (hr.fits_of_clean hclean key value)
  have hspec : m0.apply h.size (.enter key value) = (.done,m0.insert key value) := if_pos hroom
  rw [hspec] at happly hr'
  obtain ⟨⟨r,h''⟩,hs,heq⟩ := map_eq_some_iff.mp happly
  cases r with
  | fail e => cases heq
  | ok ret slot =>
    cases heq
    exact ⟨ret,slot,_,hs,hr',hsearchR_clean hclean hs,hsize⟩

def exportLines (sep : UInt8) (es : List (Bytes × Bytes)) : Bytes := es.flatMap (exportLine sep)

lemma length_le_exportLines (sep : UInt8) (es : List (Bytes × Bytes)) : es.length ≤ (exportLines sep es).length := by
  induction es with
  | nil => exact le_refl 0
  | cons e es ih =>
    have hline : 1 ≤ (exportLine sep e).length := by
      simp only [exportLine,length_append,length_cons]
      omega
    rw [exportLines,flatMap_cons,length_append,length_cons]
    exact add_comm _ 1 ▸ Nat.add_le_add hline ih

lemma importLoop_eq (hsep : sep ≠ backslash) (hequals : sep ≠ equals) (tail : Bytes)
    (htail : ∀ c ∈ tail.head?, c = 0) (hvalid : ∀ key value, m.lookup key = some value →
      ValidName sep key ∧ ValidValue value) :
    ∀ es P k h m0, es ≠ [] → es.length ≤ k → Rep h m0 → Clean h → m.keys.card ≤ h.size →
      (∀ key data, m0.lookup key = some data → m.lookup key = some data) →
      (∀ key data, (key,data) ∈ es → m.lookup key = some data) →
      (∀ key data, m.lookup key = some data → (key,data) ∈ es ∨ m0.lookup key = some data) →
      ∃ h', importLoop sep k (P++(exportLines sep es++tail)) P.length h = some (true,h') ∧ Rep h' m := by
  intro es
  induction es with
  | nil => exact fun _ _ _ _ hne => absurd rfl hne
  | cons e es ih =>
    intro P k h m0 _ hk hr hclean hcard hsub hes hcover
    obtain ⟨key,value⟩ := e
    have hentry := hes key value mem_cons_self
    obtain ⟨hkey,hvalue⟩ := hvalid key value hentry
    obtain ⟨k,rfl⟩ := Nat.exists_eq_succ_of_ne_zero (Nat.ne_zero_of_lt hk)
    obtain ⟨Q,-,himport⟩ :=
      importEntry_eq hsep hequals hkey hvalue h P (exportLines sep es++tail)
    obtain ⟨ret,slot,h1,hs,hr1,hclean1,hsize1⟩ := hr.hsearchR_enter hclean hcard hsub hentry
    have hsub1 : ∀ key' data, (m0.insert key value).lookup key' = some data → m.lookup key' = some data := by
      intro key' data hlook
      by_cases hkk : key' = key
      · subst hkk
        rw [Finmap.lookup_insert] at hlook
        rw [← hlook]
        exact hentry
      rw [Finmap.lookup_insert_of_ne _ hkk] at hlook
      exact hsub key' data hlook
    have hcover1 : ∀ key' data, m.lookup key' = some data →
        (key',data) ∈ es ∨ (m0.insert key value).lookup key' = some data := by
      intro key' data hlook
      by_cases hkk : key' = key
      · subst hkk
        rw [Finmap.lookup_insert]
        exact .inr (hentry.symm.trans hlook)
      rw [Finmap.lookup_insert_of_ne _ hkk]
      rcases hcover key' data hlook with hmem | hold
      · rcases mem_cons.mp hmem with heq | hmem
        · exact absurd (congrArg Prod.fst heq) hkk
        · exact .inl hmem
      · exact .inr hold
    have hdata : P++(exportLines sep ((key,value)::es)++tail) =
        P++(exportLine sep (key,value)++(exportLines sep es++tail)) := by
      simp [exportLines]
    have hgo : importEntry sep (P++(exportLines sep ((key,value)::es)++tail)) P.length h =
        some (.go (Q++(exportLines sep es++tail)) Q.length h1) := by
      rw [hdata,himport,hs]
      rfl
    rw [importLoop,hgo]
    simp only [bind_eq_bind,bind_some]
    rcases es with _ | ⟨e',es⟩
    · -- the last line: the text ends, with or without a zero
      have hdone : m0.insert key value = m := by
        apply Finmap.ext_lookup
        intro key'
        ext data
        constructor
        · exact hsub1 key' data
        · exact fun hlook => (hcover1 key' data hlook).resolve_left not_mem_nil
      have hstop : ¬(Q.length < (Q++(exportLines sep []++tail)).length ∧
          (Q++(exportLines sep []++tail))[Q.length]? ≠ some 0) := by
        rintro ⟨hlt,hne⟩
        rcases tail with _ | ⟨c,tail⟩
        · simp [exportLines] at hlt
        apply hne
        rw [htail c rfl]
        exact getElem?_at ..
      rw [if_neg hstop]
      exact ⟨h1,rfl,hdone ▸ hr1⟩
    obtain ⟨key2,value2⟩ := e'
    have hkey2 := (hvalid key2 value2 (hes _ _ (mem_cons_of_mem _ mem_cons_self))).1
    obtain ⟨c,rest,rfl⟩ := exists_cons_of_ne_nil hkey2.nonempty
    have hnext : (Q++(exportLines sep ((c::rest,value2)::es)++tail))[Q.length]? = some c := by
      simp [exportLines,exportLine]
    have hmore : Q.length < (Q++(exportLines sep ((c::rest,value2)::es)++tail)).length ∧
        (Q++(exportLines sep ((c::rest,value2)::es)++tail))[Q.length]? ≠ some 0 := by
      refine ⟨(List.getElem?_eq_some_iff.mp hnext).1,?_⟩
      rw [hnext]
      exact fun heq => (hkey2.plain c mem_cons_self).2.1 (some.inj heq)
    rw [if_pos hmore]
    exact ih Q k h1 _ (cons_ne_nil _ _) (Nat.le_of_succ_le_succ hk) hr1 hclean1
      (hsize1 ▸ hcard) hsub1 (fun key' data hmem => hes key' data (mem_cons_of_mem _ hmem))
      hcover1

/-- An empty text deletes a variable without a name, which there is not. -/
theorem importLoop_empty (hr : Rep h ∅) (n k : Nat) :
    importLoop sep (k+1) (replicate (n+1) 0) 0 h = some (true,h) := by
  have hnone : ∀ i data, (h.table i).entry ≠ some ([],data) := hr.not_mem Finmap.notMem_empty
  obtain ⟨i,hfind,-⟩ := hr.reach.findSlot_free hnone
  have hdelete : hdeleteR h [] = some (.fail .esrch,h) := by
    rw [hdeleteR,hsearchR]
    rw [hfind]
    rfl
  have hcons : replicate (n+1) (0 : UInt8) = []++0::replicate n 0 := rfl
  have hread : (replicate (n+1) (0 : UInt8))[0]? = some 0 := by
    rw [hcons]
    exact getElem?_at ..
  have hskip : ∀ p : UInt8 → Bool, p 0 = false →
      skipWhile p (replicate (n+1) 0) (replicate (n+1) (0 : UInt8)).length 0 = some 0 := by
    intro p hp
    rw [hcons]
    exact skipWhile_none (P := []) hp (Nat.succ_pos _)
  have hstore : store (replicate (n+1) 0) 0 0 = some (replicate (n+1) 0) := by
    rw [hcons]
    exact store_at ..
  have hname : cstring (replicate (n+1) 0) 0 = some [] := by
    have hnil : (0 : UInt8) ∉ ([] : Bytes) := not_mem_nil
    rw [hcons]
    exact cstring_eq (P := []) hnil
  have hentry : importEntry sep (replicate (n+1) 0) 0 h = some (.go (replicate (n+1) 0) 1 h) := by
    rw [importEntry,hskip isBlank rfl]
    simp only [bind_eq_bind,bind_some]
    rw [hread]
    simp only [bind_some]
    rw [if_neg (by decide),hskip (inName sep) (by simp [inName])]
    simp only [bind_some]
    rw [hread]
    simp only [bind_some]
    rw [if_pos trivial,if_pos trivial,importDelete,hread]
    simp only [bind_eq_bind,bind_some]
    rw [if_neg (by decide),if_neg (by decide),hstore]
    simp only [bind_some]
    rw [hname]
    simp only [bind_some]
    rw [hdelete]
    rfl
  rw [importLoop,hentry]
  simp only [bind_eq_bind,bind_some]
  rw [if_neg]
  rintro ⟨hlt,hne⟩
  exact hne (getElem?_replicate_of_lt (by simpa using hlt))

lemma mem_entries (hr : Rep h m) (key value : Bytes) : (key,value) ∈ h.entries ↔ m.lookup key = some value := by
  unfold Htab.entries
  rw [mem_filterMap,hr.lookup]
  constructor
  · rintro ⟨i,-,hi⟩
    split at hi
    · exact ⟨i,hi⟩
    · cases hi
  rintro ⟨i,hi⟩
  obtain ⟨hpos,hle⟩ := hr.reach.range hi
  refine ⟨i,mem_range'_1.mpr ⟨hpos,by omega⟩,?_⟩
  have hused := (hr.reach.live i key value hi).1
  have hhash := (hash_range hr.reach.low key).1
  rw [if_pos (by omega),hi]

/-- The buffer of an export is large enough: for the room that is counted, and for the text. -/
def BufferFits (h : Htab) (sep : UInt8) (size : Nat) : Prop :=
  (size = 0 ∨ (h.entries.map (exportRoom sep)).sum+1 ≤ size) ∧
    (exportText h sep).length+1 ≤
      if size = 0 then (h.entries.map (exportRoom sep)).sum+1 else size

instance (h : Htab) (sep : UInt8) (size : Nat) : Decidable (BufferFits h sep size) :=
  inferInstanceAs (Decidable (_ ∧ _))

lemma hexportR_eq {size : Nat} (hbuf : BufferFits h sep size) : ∃ n, 0 < n ∧
    hexportR h sep size = some (.ok (exportText h sep++replicate n 0)) := by
  obtain ⟨hcheck,hlen⟩ := hbuf
  refine ⟨(if size = 0 then (h.entries.map (exportRoom sep)).sum+1 else size) - (exportText h sep).length,by omega,?_⟩
  unfold hexportR
  rw [if_neg (by omega),if_pos hlen]

def escapes (sep : UInt8) (e : Bytes × Bytes) : Nat := e.2.countP fun c => c = sep ∨ c = backslash

lemma length_escape (sep : UInt8) (e : Bytes × Bytes) : (escape sep e.2).length = e.2.length+escapes sep e := by
  unfold escapes
  induction e.2 with
  | nil => rfl
  | cons c value ih =>
    have hone : (escapeByte sep c).length = if c = sep ∨ c = backslash then 2 else 1 := by
      unfold escapeByte
      split <;> rfl
    rw [escape_cons,length_append,ih,hone,countP_cons,length_cons]
    simp only [decide_eq_true_eq]
    split <;> omega

/-- The first pass counts two bytes too many for an entry, and no escapes if the separator is zero. -/
lemma sum_length_exportLine (sep : UInt8) (es : List (Bytes × Bytes)) :
    (es.map fun e => (exportLine sep e).length).sum+2*es.length =
      (es.map (exportRoom sep)).sum+if sep = 0 then (es.map (escapes sep)).sum else 0 := by
  induction es with
  | nil => simp
  | cons e es ih =>
    have hescape := length_escape sep e
    simp only [map_cons,sum_cons,length_cons,exportLine,exportRoom,length_append,length_nil] at ih ⊢
    by_cases hsep : sep = 0
    · simp only [if_pos hsep] at ih ⊢
      omega
    simp only [if_neg hsep] at ih ⊢
    omega

lemma length_exportText (h : Htab) (sep : UInt8) : (exportText h sep).length+2*h.entries.length =
    (h.entries.map (exportRoom sep)).sum+if sep = 0 then (h.entries.map (escapes sep)).sum else 0 := by
  have hperm := qsort_perm (fun a b : Bytes × Bytes => strcmp a.1 b.1) h.entries
  rw [← sum_length_exportLine,exportText,length_flatMap,(hperm.map fun e => (exportLine sep e).length).sum_eq]

/-- The exported text stays within the size that was checked or allocated exactly when the separator is not
zero, or the size is refused, or the escapes fit into what was counted too much and what the caller has left. -/
theorem hexportR_fits_iff (h : Htab) (sep : UInt8) (size : Nat) : hexportR h sep size ≠ none ↔
    let room := (h.entries.map (exportRoom sep)).sum+1
    sep ≠ 0 ∨ (size ≠ 0 ∧ size < room) ∨ (h.entries.map (escapes sep)).sum ≤ 2*h.entries.length+(size-room) := by
  have hlen := length_exportText h sep
  unfold hexportR
  dsimp only
  split
  · next hrefused => exact iff_of_true (some_ne_none _) (.inr (.inl hrefused))
  next hrefused =>
  split at hlen
  · next hsep =>
    simp only [hsep,ne_eq,not_true,false_or]
    rw [← hsep]
    split <;> split <;> simp <;> omega
  next hsep =>
  rw [if_pos (by split <;> omega)]
  exact iff_of_true (some_ne_none _) (.inl hsep)

/-- One variable of three backslashes, exported with zeros between the entries into an allocated buffer. -/
theorem hexportR_overruns : ((({table := fun _ => ⟨0,none⟩, size := 67, filled := 0} : Htab).run
      [.enter [97] [92,92,92]]).map fun r => hexportR r.2 0 0) = some none := by
  decide +kernel

/-- Exporting an environment and importing the text gives the same environment. The size that is
imported covers the text and is within the buffer. -/
theorem import_of_export (h : Htab) (m : Env) (sep : UInt8) (size : Nat) (old : Option Htab)
    (hr : Rep h m) (hvalid : ∀ key value, m.lookup key = some value → ValidName sep key ∧ ValidValue value)
    (hsep : sep ≠ backslash) (hequals : sep ≠ equals) (hbuf : BufferFits h sep size) :
    ∃ buf, hexportR h sep size = some (.ok buf) ∧
      ∀ isize, (exportText h sep).length ≤ isize → 0 < isize → isize ≤ buf.length →
        (∀ h₀, hcreateR (importEntries isize) none = some h₀ → m.keys.card ≤ h₀.size) →
        ∃ h', himportR old buf isize sep false = some (true,h') ∧ Agrees h' m := by
  obtain ⟨n,hn,hexport⟩ := hexportR_eq hbuf
  refine ⟨_,hexport,fun isize hcover hpos hwithin hroom => ?_⟩
  have hentries : 64 ≤ importEntries isize ∧ importEntries isize ≤ 2^27 := by
    unfold importEntries
    omega
  obtain ⟨tsize,hprime,hge,-,hcreate⟩ := hcreateR_spec hentries.1 hentries.2
  have hr0 := rep_created hprime (by omega)
  have hcard := hroom _ hcreate
  have hperm := qsort_perm (fun a b : Bytes × Bytes => strcmp a.1 b.1) h.entries
  have hmem : ∀ key value, (key,value) ∈ qsort (fun a b => strcmp a.1 b.1) h.entries ↔
      m.lookup key = some value := fun key value =>
    hperm.mem_iff.trans (mem_entries hr key value)
  have himport : himportR old (exportText h sep++replicate n 0) isize sep false =
      importLoop sep (isize+1) ((exportText h sep++replicate n 0).take isize) 0
        {table := fun _ => ⟨0,none⟩, size := tsize, filled := 0} := by
    unfold himportR
    rw [if_pos hwithin,if_neg Bool.false_ne_true]
    simp only [hcreate]
    rfl
  rw [length_append,length_replicate] at hwithin
  have hdata : (exportText h sep++replicate n 0).take isize =
      exportText h sep++replicate (isize-(exportText h sep).length) 0 := by
    rw [take_append,take_of_length_le hcover,take_replicate]
    congr 2
    omega
  rw [himport,hdata]
  generalize hes : qsort (fun a b => strcmp a.1 b.1) h.entries = es at hmem
  have htext : exportText h sep = exportLines sep es := by
    rw [← hes]
    rfl
  rw [htext] at hcover ⊢
  rcases es with _ | ⟨e,es⟩
  · have hempty : m = ∅ := by
      apply Finmap.ext_lookup
      intro key
      rw [Finmap.lookup_empty,eq_none_iff_forall_ne_some]
      exact fun value hlook => nomatch (hmem key value).mpr hlook
    obtain ⟨k,rfl⟩ := Nat.exists_eq_succ_of_ne_zero hpos.ne'
    subst hempty
    exact ⟨_,importLoop_empty hr0 k _,hr0.agrees⟩
  have hfuel : (e::es).length ≤ isize+1 :=
    Nat.le_succ_of_le ((length_le_exportLines sep _).trans hcover)
  have hzeros : ∀ c ∈ (replicate (isize-(exportLines sep (e::es)).length) (0 : UInt8)).head?, c = 0 := fun c hc =>
    eq_of_mem_replicate (mem_of_mem_head? hc)
  obtain ⟨h',hloop,hr'⟩ := importLoop_eq hsep hequals
    _ hzeros hvalid (e::es) [] (isize+1) _ ∅ (cons_ne_nil e es) hfuel hr0
    (fun _ => (by decide : (0 : Int) ≠ -1)) hcard
    (fun key data hlook => by cases hlook) (fun key data => (hmem key data).mp)
    (fun key data hlook => .inl ((hmem key data).mpr hlook))
  exact ⟨h',hloop,hr'.agrees⟩

def sampleOps : List Op :=
  [.enter [97] [120,10,121],.enter [98,99] [92,61]]

def sampleTable : Htab :=
  ((({table := fun _ => ⟨0,none⟩, size := 67, filled := 0} : Htab).run sampleOps).map
    Prod.snd).getD {table := fun _ => ⟨0,none⟩, size := 67, filled := 0}

def sampleEnv : Env := (Env.run 67 ∅ sampleOps).2

lemma rep_sample : Rep sampleTable sampleEnv := by
  have hprime : Nat.Prime 67 := by norm_num
  have hfit : Htab.AllFit {table := fun _ => ⟨0,none⟩, size := 67, filled := 0} sampleOps := by
    decide +kernel
  obtain ⟨h',hrun,hr,-⟩ := (rep_created hprime (by decide)).run hfit
  have htable : sampleTable = h' := by
    unfold sampleTable
    rw [hrun]
    rfl
  rw [htable]
  exact hr

theorem import_of_export_two_variables : ∃ buf, hexportR sampleTable 10 0 = some (.ok buf) ∧
      ∃ h', himportR none buf 16 10 false = some (true,h') ∧ Agrees h' sampleEnv := by
  have hvalid : ∀ key value, sampleEnv.lookup key = some value → ValidName 10 key ∧ ValidValue value := by
    intro key value hlook
    have hmem := (mem_entries rep_sample key value).mpr hlook
    have hall : ∀ e ∈ [([97],[120,10,121]),([98,99],[92,61])], ValidName 10 e.1 ∧ ValidValue e.2 := by decide +kernel
    exact hall _ hmem
  have hbuf : BufferFits sampleTable 10 0 := by decide +kernel
  have hconcrete : hexportR sampleTable 10 0 =
      some (.ok ([97,61,120,92,10,121,10,98,99,61,92,92,61,10]++[0,0,0,0,0])) := by
    decide +kernel
  have hcard : sampleEnv.keys.card = 2 := by decide +kernel
  obtain ⟨buf,hexport,himport⟩ := import_of_export sampleTable sampleEnv 10 0 none rep_sample
    hvalid (by decide) (by decide) hbuf
  obtain rfl : _ = buf := Except.ok.inj (some.inj (hconcrete.symm.trans hexport))
  refine ⟨_,hexport,himport 16 (by decide +kernel) (by decide) (by decide) ?_⟩
  intro h0 hcreate
  obtain ⟨size,-,hge,-,hcreate'⟩ := hcreateR_spec (show 64 ≤ importEntries 16 by decide) (by decide)
  obtain rfl := some.inj (hcreate'.symm.trans hcreate)
  rw [hcard]
  exact le_trans (by decide) hge

end LinuxToradex.Hashtable
