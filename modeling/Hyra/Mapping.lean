import Hyra.Tree

namespace Hyra.Mapping

open Pte Memory Phys Walk Tree

/-- What a page-table operation leaves when the kernel survives it: its return value, the
memory, and whether it called `pmap_flush` on its address. -/
structure PmapRet where
  status : Int
  phys : Phys
  flushed : Bool

/-- Modify a page table by writing `val` to `va`'s leaf slot, allocating missing levels. -/
def pmapModifyTbl (vas : Vas) (va val : BitVec 64) (s : Phys) : Option PmapRet :=
  match pmapGetTbl vas va true s with
  | none => none
  | some (none, s) => some ⟨1, s, false⟩
  | some (some tbl, s) => some ⟨0, s.write tbl (idx 1 va) val, true⟩

/-- Modelled from the spec: the cache types of `vm/pmap.h`, which is not among the sources. -/
def vmCacheUc : Int := 0
def vmCacheWt : Int := 1

theorem vmCacheWt_ne_vmCacheUc : vmCacheWt ≠ vmCacheUc := by decide

def pmapSetCache (vas : Vas) (va : BitVec 64) (type : Int) (s : Phys) : Option PmapRet :=
  match pmapGetTbl vas va false s with
  | none => none
  | some (none, s) => some ⟨1, s, false⟩
  | some (some tbl, s) =>
    let i := idx 1 va
    if type = vmCacheUc then
      let s := s.write tbl i (s.mem tbl i ||| ptePcd)
      let s := s.write tbl i (s.mem tbl i &&& ~~~ptePwt)
      some ⟨0, s, true⟩
    else if type = vmCacheWt then
      let s := s.write tbl i (s.mem tbl i &&& ~~~ptePcd)
      let s := s.write tbl i (s.mem tbl i ||| ptePwt)
      some ⟨0, s, true⟩
    else some ⟨1, s, false⟩

/-- The flags pass through the `uint32_t` local `flags` on their way to the leaf. -/
def pmapMap (vas : Vas) (va pa : BitVec 64) (prot : VmProt) (s : Phys) : Option PmapRet :=
  let flags : BitVec 32 := (pmapProtToPte prot).setWidth 32
  pmapModifyTbl vas va (pa ||| flags.setWidth 64) s

def pmapUnmap (vas : Vas) (va : BitVec 64) (s : Phys) : Option PmapRet :=
  pmapModifyTbl vas va 0 s

inductive PmapOp
  | map (va pa : BitVec 64) (prot : VmProt)
  | unmap (va : BitVec 64)
  | setCache (va : BitVec 64) (type : Int)

def PmapOp.va : PmapOp → BitVec 64
  | .map va _ _ | .unmap va | .setCache va _ => va

def PmapOp.run (vas : Vas) : PmapOp → Phys → Option PmapRet
  | .map va pa prot => pmapMap vas va pa prot
  | .unmap va => pmapUnmap vas va
  | .setCache va type => pmapSetCache vas va type

def cacheEntry (type : Int) (e : BitVec 64) : BitVec 64 :=
  if type = vmCacheUc then (e ||| ptePcd) &&& ~~~ptePwt else (e &&& ~~~ptePcd) ||| ptePwt

theorem pmapSetCache_eq (vas : Vas) (va : BitVec 64) (type : Int) (s : Phys) :
    pmapSetCache vas va type s = some
      (match tableAt s vas.topLevel (upper va) with
      | some T =>
        if type = vmCacheUc ∨ type = vmCacheWt then
          ⟨0, s.write T (idx 1 va) (cacheEntry type (s.mem T (idx 1 va))), true⟩
        else ⟨1, s, false⟩
      | none => ⟨1, s, false⟩) := by
  unfold pmapSetCache
  rw [pmapGetTbl_false]
  cases tableAt s vas.topLevel (upper va) with
  | none => rfl
  | some T =>
    by_cases hu : type = vmCacheUc
    · simp [hu, cacheEntry]
    · by_cases hw : type = vmCacheWt <;> simp [hu, hw, cacheEntry, vmCacheWt_ne_vmCacheUc]

theorem run_isSome (vas : Vas) (o : PmapOp) {s : Phys} (h : 3 ≤ s.free.frames.length) :
    ∃ r, o.run vas s = some r := by
  cases o with
  | map va pa prot | unmap va =>
    obtain ⟨T, s', hw⟩ := walk_true_isSome va [4, 3, 2] vas.topLevel s h
    simp only [PmapOp.run, pmapMap, pmapUnmap, pmapModifyTbl, pmapGetTbl, hw]
    exact ⟨_, rfl⟩
  | setCache va type => exact ⟨_, pmapSetCache_eq vas va type s⟩

theorem modifyTbl_spec {vas : Vas} {va val : BitVec 64} {s : Phys} {r : PmapRet}
    {P : List Nat → BitVec 64 → Phys → Prop} (hP : WalkInv vas.topLevel va P)
    (hwf : WellFormed s vas.topLevel) (hp : P [] vas.topLevel s)
    (h : pmapModifyTbl vas va val s = some r) :
    ∃ T s', tableAt s' vas.topLevel (upper va) = some T ∧ WellFormed s' vas.topLevel ∧
      P (upper va) T s' ∧ r = ⟨0, s'.write T (idx 1 va) val, true⟩ := by
  unfold pmapModifyTbl at h
  cases hw : pmapGetTbl vas va true s with
  | none => rw [hw] at h; cases h
  | some res =>
    obtain ⟨T, s', rfl, hT, hwf', hp'⟩ := walk_true hP [4, 3, 2] [] _ s res rfl rfl hwf hp hw
    rw [hw] at h
    exact ⟨T, s', hT, hwf', hp', (Option.some.inj h).symm⟩

theorem tableAt_write_leaf {s : Phys} {R R' T : BitVec 64} {path : List Nat}
    (hc : Compat s R R') (hlen : path.length = 3) (hv : Valid path)
    (hT : tableAt s R path = some T) (i : Nat) (v : BitVec 64) {p : List Nat} (hp : Valid p) :
    tableAt (s.write T i v) R' p = tableAt s R' p := by
  refine tableAt_congr R' p fun q j u hq hu => write_mem_of_ne s v (.inl fun e => ?_)
  subst e
  have h1 := hc path q u hv (valid_of_isPrefixOf ((List.prefix_append q [j]).trans hq) hp) hT hu
  have h2 := hq.length_le
  have h3 := hp.1
  subst h1
  simp at h2
  omega

theorem translation_write_leaf {s : Phys} {R R' T : BitVec 64} {path : List Nat}
    (hc : Compat s R R') (hlen : path.length = 3) (hv : Valid path)
    (hT : tableAt s R path = some T) (i : Nat) (v va : BitVec 64) :
    translation (s.write T i v) R' va =
      if tableAt s R' (upper va) = some T ∧ idx 1 va = i then
        (if present v then some v else none)
      else translation s R' va := by
  unfold translation
  rw [tableAt_write_leaf hc hlen hv hT i v (valid_upper va)]
  cases tableAt s R' (upper va) with
  | none => simp
  | some u =>
    by_cases h : u = T ∧ idx 1 va = i
    · obtain ⟨rfl, hi⟩ := h
      simp [hi]
    · simp only [Option.some.injEq, h, if_false, Option.some_bind]
      rw [write_mem_of_ne s v (by tauto)]

theorem wellFormed_write_leaf {s : Phys} {R R' T : BitVec 64} {path : List Nat}
    (hwf : WellFormed s R') (hc : Compat s R R') (hlen : path.length = 3) (hv : Valid path)
    (hT : tableAt s R path = some T) (i : Nat) (v : BitVec 64) :
    WellFormed (s.write T i v) R' := by
  have e := fun {p} (hp : Valid p) => tableAt_write_leaf hc hlen hv hT i v hp
  refine ⟨fun p q t hp hq hpt hqt => hwf.inj p q t hp hq ((e hp) ▸ hpt) ((e hq) ▸ hqt),
    fun p t hp ht => hwf.not_free p t hp ((e hp) ▸ ht), fun p t j hp hlt ht hj hpr => ?_⟩
  rw [e hp] at ht
  have htT : t ≠ T := fun h => by
    have := hc path p T hv hp hT (h ▸ ht)
    subst this
    omega
  rw [write_mem_of_ne s v (.inl htT)] at hpr ⊢
  exact hwf.no_huge p t j hp hlt ht hj hpr

theorem modifyTbl_wellFormed {vas : Vas} {va val : BitVec 64} {s : Phys} {r : PmapRet}
    (hwf : WellFormed s vas.topLevel) (h : pmapModifyTbl vas va val s = some r) :
    WellFormed r.phys vas.topLevel := by
  obtain ⟨T, s', hT, hwf', -, rfl⟩ :=
    modifyTbl_spec (walkInv_const _ _ (fun _ => True) fun _ _ _ _ _ _ _ _ _ _ _ _ => trivial)
      hwf trivial h
  exact wellFormed_write_leaf hwf' hwf'.inj (by simp [upper]) (valid_upper va) hT _ _

theorem pmapMap_leaf {vas : Vas} {va pa : BitVec 64} {prot : VmProt} {s : Phys} {r : PmapRet}
    (hwf : WellFormed s vas.topLevel) (h : pmapMap vas va pa prot s = some r) :
    r.status = 0 ∧ ∃ T, tableAt r.phys vas.topLevel (upper va) = some T ∧
      r.phys.mem T (idx 1 va) = pa ||| ((pmapProtToPte prot).setWidth 32).setWidth 64 := by
  obtain ⟨T, s', hT, hwf', -, rfl⟩ :=
    modifyTbl_spec (walkInv_const _ _ (fun _ => True) fun _ _ _ _ _ _ _ _ _ _ _ _ => trivial)
      hwf trivial h
  exact ⟨rfl, T, by rw [tableAt_write_leaf hwf'.inj (by simp [upper]) (valid_upper va) hT _ _
    (valid_upper va), hT], write_mem_self _ _ _ _⟩

def emptyPhys : Phys :=
  ⟨fun _ _ => 0, ⟨[0x2000#64, 0x3000#64, 0x4000#64], by simp, by simp [pteAddrMask]⟩⟩

def emptyVas : Vas := ⟨0x1000#64, 0, false, 0⟩

theorem wellFormed_emptyPhys : WellFormed emptyPhys emptyVas.topLevel :=
  wellFormed_of_empty (fun _ _ => present_zero) (by simp [emptyPhys, emptyVas])

/-- The scenario of the spec: `0x400000` mapped to `0x100000` writable. The protection asks
for no-execute, the leaf written is `0x100003`, present and writable but executable. -/
theorem pmap_map_scenario_drops_nx :
    (pmapProtToPte ⟨true, false, false⟩).getLsbD 63 = true ∧
      ∃ r, pmapMap emptyVas 0x400000#64 0x100000#64 ⟨true, false, false⟩ emptyPhys = some r ∧
        r.status = 0 ∧ translation r.phys emptyVas.topLevel 0x400000#64 = some 0x100003#64 := by
  refine ⟨by decide, _, rfl, rfl, by decide⟩

/-- Bit 63 of the flags is lost in the `uint32_t` local: with enough free frames `pmap_map`
returns, and no leaf it writes is no-execute, whatever the protection. -/
theorem pmapMap_leaf_nx {vas : Vas} {va pa : BitVec 64} {prot : VmProt} {s : Phys}
    (hwf : WellFormed s vas.topLevel) (hpa : pa &&& pteAddrMask = pa) :
    (3 ≤ s.free.frames.length → ∃ r, pmapMap vas va pa prot s = some r) ∧
    ∀ r, pmapMap vas va pa prot s = some r → ∃ T, tableAt r.phys vas.topLevel (upper va) = some T ∧
      (r.phys.mem T (idx 1 va)).getLsbD 63 = false := by
  refine ⟨run_isSome vas (.map va pa prot), fun r h => ?_⟩
  obtain ⟨-, T, hT, hv⟩ := pmapMap_leaf hwf h
  exact ⟨T, hT, by simp [hv, getLsbD_of_aligned hpa (by omega : 63 < 12 ∨ 52 ≤ 63)]⟩

theorem pmapMap_leaf_nx_example :
    WellFormed emptyPhys emptyVas.topLevel ∧ 0x100000#64 &&& pteAddrMask = 0x100000#64 ∧
      ∃ r, pmapMap emptyVas 0x400000#64 0x100000#64 ⟨true, false, false⟩ emptyPhys = some r ∧
        ∃ T, tableAt r.phys emptyVas.topLevel (upper 0x400000#64) = some T ∧
          (r.phys.mem T (idx 1 0x400000#64)).getLsbD 63 = false :=
  have h := @pmapMap_leaf_nx emptyVas 0x400000#64 0x100000#64 ⟨true, false, false⟩ emptyPhys
    wellFormed_emptyPhys (by decide)
  have ⟨r, hr⟩ := h.1 (by decide)
  ⟨wellFormed_emptyPhys, by decide, r, hr, h.2 r hr⟩

theorem run_spec {vas : Vas} {o : PmapOp} {s : Phys} {r : PmapRet}
    {P : List Nat → BitVec 64 → Phys → Prop} (hP : WalkInv vas.topLevel o.va P)
    (hwf : WellFormed s vas.topLevel) (hp : P [] vas.topLevel s) (h : o.run vas s = some r) :
    (r.flushed = false ∧ r.status ≠ 0 ∧ r.phys = s) ∨
      (r.flushed = true ∧ r.status = 0 ∧ ∃ T s' v, tableAt s' vas.topLevel (upper o.va) = some T ∧
        WellFormed s' vas.topLevel ∧ P (upper o.va) T s' ∧ r.phys = s'.write T (idx 1 o.va) v) := by
  cases o with
  | map va pa prot =>
    obtain ⟨T, s', hT, hwf', hp', rfl⟩ := modifyTbl_spec hP hwf hp h
    exact .inr ⟨rfl, rfl, T, s', _, hT, hwf', hp', rfl⟩
  | unmap va =>
    obtain ⟨T, s', hT, hwf', hp', rfl⟩ := modifyTbl_spec hP hwf hp h
    exact .inr ⟨rfl, rfl, T, s', _, hT, hwf', hp', rfl⟩
  | setCache va type =>
    simp only [PmapOp.run, pmapSetCache_eq] at h
    cases hT : tableAt s vas.topLevel (upper va) with
    | none =>
      simp only [hT, Option.some.injEq] at h
      subst h
      exact .inl ⟨rfl, one_ne_zero, rfl⟩
    | some T =>
      simp only [hT] at h
      by_cases ht : type = vmCacheUc ∨ type = vmCacheWt
      · simp only [ht, if_true, Option.some.injEq] at h
        subst h
        obtain ⟨T', s', he, hT', hwf', hp'⟩ := walk_true hP [4, 3, 2] [] _ s _ rfl rfl hwf hp
          (walk_of_tableAt va true [4, 3, 2] hT)
        simp only [Prod.mk.injEq, Option.some.injEq] at he
        obtain ⟨rfl, rfl⟩ := he
        exact .inr ⟨rfl, rfl, _, _, _, hT', hwf', hp', rfl⟩
      · simp only [ht, if_false, Option.some.injEq] at h
        subst h
        exact .inl ⟨rfl, one_ne_zero, rfl⟩

theorem getLsbD_cacheEntry (type : Int) (e : BitVec 64) (b : Nat) :
    (cacheEntry type e).getLsbD b =
      if b = 4 then decide (type = vmCacheUc) else if b = 3 then decide (type ≠ vmCacheUc)
      else e.getLsbD b := by
  unfold cacheEntry ptePcd ptePwt
  by_cases h4 : b = 4
  · subst h4; by_cases hu : type = vmCacheUc <;> simp [hu]
  · by_cases h3 : b = 3
    · subst h3; by_cases hu : type = vmCacheUc <;> simp [hu]
    · have h4' : 4 ≠ b := Ne.symm h4
      have h3' : 3 ≠ b := Ne.symm h3
      by_cases hu : type = vmCacheUc <;> simp [hu, h4, h3, h4', h3'] <;>
        exact BitVec.lt_of_getLsbD

theorem cacheEntry_cacheEntry (p q : Int) (e : BitVec 64) :
    cacheEntry p (cacheEntry q e) = cacheEntry p e := by
  ext ⟨b, hb⟩
  simp only [getLsbD_cacheEntry]
  split_ifs <;> rfl

/-- A failed `pmap_set_cache` changes nothing; it fails exactly when a level on the way to
the leaf table is missing or the type is unknown, and otherwise rewrites the cache bits of the
leaf slot. Whether the leaf entry is present is not looked at. -/
theorem pmap_set_cache_fails_iff (vas : Vas) (va : BitVec 64) (type : Int) (s : Phys) :
    ∃ r, pmapSetCache vas va type s = some r ∧
      (r.status ≠ 0 ↔ tableAt s vas.topLevel (upper va) = none ∨
        type ≠ vmCacheUc ∧ type ≠ vmCacheWt) ∧
      (r.status ≠ 0 → r.phys = s) ∧
      (r.status = 0 → ∃ T, tableAt s vas.topLevel (upper va) = some T ∧
        r.phys = s.write T (idx 1 va) (cacheEntry type (s.mem T (idx 1 va)))) := by
  rw [pmapSetCache_eq]
  refine ⟨_, rfl, ?_⟩
  cases tableAt s vas.topLevel (upper va) with
  | none => simp
  | some T => by_cases h : type = vmCacheUc ∨ type = vmCacheWt <;> simp [h] <;> tauto

/-- After `pmap_unmap`, the leaf table exists and the leaf entry is 0; `pmap_set_cache`
still succeeds there and sets PCD in the entry, which stays not present. -/
theorem pmap_set_cache_on_absent_leaf :
    ∃ r, pmapUnmap emptyVas 0x400000#64 emptyPhys = some r ∧
      WellFormed r.phys emptyVas.topLevel ∧
      translation r.phys emptyVas.topLevel 0x400000#64 = none ∧
      ∃ r', pmapSetCache emptyVas 0x400000#64 vmCacheUc r.phys = some r' ∧ r'.status = 0 ∧
        translation r'.phys emptyVas.topLevel 0x400000#64 = none ∧
        tableAt r'.phys emptyVas.topLevel (upper 0x400000#64) = some 0x4000#64 ∧
        r'.phys.mem 0x4000#64 (idx 1 0x400000#64) = 0x10#64 := by
  obtain ⟨r, hr⟩ : ∃ r, pmapUnmap emptyVas 0x400000#64 emptyPhys = some r := ⟨_, rfl⟩
  refine ⟨r, hr, modifyTbl_wellFormed wellFormed_emptyPhys hr, ?_⟩
  cases hr
  exact ⟨by decide, _, rfl, rfl, by decide, by decide, by decide⟩

/-- Setting a cache type on a leaf of a well-formed tree changes only the PCD and PWT bits of
the leaf entry, and a second setting overrides the first. -/
theorem pmap_set_cache_last_wins {vas : Vas} {va T : BitVec 64} {s : Phys}
    (hwf : WellFormed s vas.topLevel) (hT : tableAt s vas.topLevel (upper va) = some T)
    {p q : Int} (hp : p = vmCacheUc ∨ p = vmCacheWt) (hq : q = vmCacheUc ∨ q = vmCacheWt) :
    ((pmapSetCache vas va q s).bind fun r => pmapSetCache vas va p r.phys).map PmapRet.phys =
      (pmapSetCache vas va p s).map PmapRet.phys ∧
    ∃ r, pmapSetCache vas va p s = some r ∧ r.status = 0 ∧ r.phys.free = s.free ∧
      (∀ t i, t ≠ T ∨ i ≠ idx 1 va → r.phys.mem t i = s.mem t i) ∧
      (∀ b, b ≠ 3 → b ≠ 4 →
        (r.phys.mem T (idx 1 va)).getLsbD b = (s.mem T (idx 1 va)).getLsbD b) ∧
      (r.phys.mem T (idx 1 va)).getLsbD 4 = decide (p = vmCacheUc) ∧
      (r.phys.mem T (idx 1 va)).getLsbD 3 = decide (p = vmCacheWt) := by
  have hT' : tableAt (s.write T (idx 1 va) (cacheEntry q (s.mem T (idx 1 va)))) vas.topLevel
      (upper va) = some T := by
    rw [tableAt_write_leaf hwf.inj (by simp [upper]) (valid_upper va) hT _ _ (valid_upper va), hT]
  refine ⟨?_, ⟨0, s.write T (idx 1 va) (cacheEntry p (s.mem T (idx 1 va))), true⟩,
    by simp [pmapSetCache_eq, hT, hp], rfl, rfl,
    fun t i h => write_mem_of_ne s _ h, fun b h3 h4 => ?_, ?_, ?_⟩
  · simp [pmapSetCache_eq, hT, hT', hp, hq, cacheEntry_cacheEntry]
  · simp [getLsbD_cacheEntry, h3, h4]
  · simp [getLsbD_cacheEntry]
  · rcases hp with rfl | rfl <;>
      simp [getLsbD_cacheEntry, vmCacheWt_ne_vmCacheUc, Ne.symm vmCacheWt_ne_vmCacheUc]

theorem pmap_set_cache_last_wins_example :
    ∃ r, pmapUnmap emptyVas 0x400000#64 emptyPhys = some r ∧
      WellFormed r.phys emptyVas.topLevel ∧
      tableAt r.phys emptyVas.topLevel (upper 0x400000#64) = some 0x4000#64 ∧
      ((pmapSetCache emptyVas 0x400000#64 vmCacheWt r.phys).bind fun r' =>
        pmapSetCache emptyVas 0x400000#64 vmCacheUc r'.phys).map PmapRet.phys =
        (pmapSetCache emptyVas 0x400000#64 vmCacheUc r.phys).map PmapRet.phys := by
  obtain ⟨r, hr⟩ : ∃ r, pmapUnmap emptyVas 0x400000#64 emptyPhys = some r := ⟨_, rfl⟩
  have hwf := modifyTbl_wellFormed wellFormed_emptyPhys hr
  have hT : tableAt r.phys emptyVas.topLevel (upper 0x400000#64) = some 0x4000#64 := by
    cases hr; decide
  exact ⟨r, hr, hwf, hT, (pmap_set_cache_last_wins hwf hT (.inl rfl) (.inr rfl)).1⟩

end Hyra.Mapping
