import Hyra.TreeInvariant

namespace Hyra.Refinement

open Pte Memory Phys Walk Tree Mapping TreeInvariant

/-- What one operation does to the meaning of an address space, the leaf entry each address
translates through: `pmap_map` makes the page translate through `pa` and the low 32 bits of
the flags, `pmap_unmap` removes the page, and `pmap_set_cache` with a known type rewrites the
cache bits of whatever the page translates through. -/
def absStep (m : BitVec 64 → Option (BitVec 64)) : PmapOp → BitVec 64 → Option (BitVec 64)
  | .map va pa prot => fun va' =>
    if page va' = page va then some (pa ||| ((pmapProtToPte prot).setWidth 32).setWidth 64)
    else m va'
  | .unmap va => fun va' => if page va' = page va then none else m va'
  | .setCache va type => fun va' =>
    if page va' = page va ∧ (type = vmCacheUc ∨ type = vmCacheWt) then (m va').map (cacheEntry type)
    else m va'

def runOps (vas : Vas) : List PmapOp → Phys → Option Phys
  | [], s => some s
  | o :: os, s => (o.run vas s).bind fun r => runOps vas os r.phys

theorem translation_congr_page {s : Phys} {R va va' : BitVec 64} (h : page va' = page va) :
    translation s R va' = translation s R va := by
  unfold page at h
  have hu := List.append_inj_left' h (by simp only [List.length_singleton])
  have hi : idx 1 va' = idx 1 va := by simpa [hu] using h
  unfold translation
  rw [hu, hi]

theorem present_mapEntry (pa : BitVec 64) (prot : VmProt) :
    present (pa ||| ((pmapProtToPte prot).setWidth 32).setWidth 64) = true := by
  have h0 : (pmapProtToPte prot).getLsbD 0 = true := (getLsbD_pmapProtToPte prot 0).2 (.inl rfl)
  rw [present_eq, BitVec.getLsbD_or, BitVec.getLsbD_setWidth, BitVec.getLsbD_setWidth, h0]
  simp

theorem present_cacheEntry (type : Int) (e : BitVec 64) :
    present (cacheEntry type e) = present e := by
  rw [present_eq, present_eq, getLsbD_cacheEntry, if_neg (by decide), if_neg (by decide)]

theorem translation_run {vas : Vas} {o : PmapOp} {s : Phys} {r : PmapRet}
    (hwf : WellFormed s vas.topLevel) (h : o.run vas s = some r) :
    translation r.phys vas.topLevel = absStep (translation s vas.topLevel) o := by
  funext va'
  cases o with
  | map va pa prot =>
    simp only [absStep]
    split_ifs with hp
    · obtain ⟨-, T, hT, hv⟩ := pmapMap_leaf hwf h
      rw [translation_congr_page hp, translation, hT, Option.some_bind, hv, present_mapEntry,
        if_pos rfl]
    · exact run_translation_of_page_ne hwf h hp
  | unmap va =>
    simp only [absStep]
    split_ifs with hp
    · rw [translation_congr_page hp]
      exact pmapUnmap_translation hwf h
    · exact run_translation_of_page_ne hwf h hp
  | setCache va type =>
    simp only [absStep]
    by_cases hp : page va' = page va
    · simp only [PmapOp.run, pmapSetCache_eq, Option.some.injEq] at h
      rw [translation_congr_page hp, translation_congr_page (s := s) hp]
      cases hT : tableAt s vas.topLevel (upper va) with
      | none =>
        simp only [hT] at h
        subst h
        simp [translation, hT]
      | some T =>
        simp only [hT] at h
        by_cases ht : type = vmCacheUc ∨ type = vmCacheWt
        · rw [if_pos ht] at h
          subst h
          rw [if_pos ⟨hp, ht⟩, translation, translation, hT,
            tableAt_write_leaf hwf.inj (by simp [upper]) (valid_upper va) hT _ _ (valid_upper va),
            hT, Option.some_bind, Option.some_bind, write_mem_self, present_cacheEntry]
          cases present (s.mem T (idx 1 va)) <;> rfl
        · rw [if_neg ht] at h
          subst h
          rw [if_neg fun hc => ht hc.2]
    · rw [if_neg fun hc => hp hc.1]
      exact run_translation_of_page_ne hwf h hp

def mapThenUncache : List PmapOp :=
  [.map 0x400000#64 0x100000#64 ⟨true, false, false⟩, .setCache 0x400000#64 vmCacheUc]

/-- Over a whole run of mapping operations, the tree stays well formed and means what the
operations say, one after the other. -/
theorem runOps_refines {vas : Vas} {os : List PmapOp} {s s' : Phys}
    (hwf : WellFormed s vas.topLevel) (h : runOps vas os s = some s') :
    WellFormed s' vas.topLevel ∧
      translation s' vas.topLevel = os.foldl absStep (translation s vas.topLevel) := by
  induction os generalizing s with
  | nil => cases h; exact ⟨hwf, rfl⟩
  | cons o os ih =>
    obtain ⟨r, hr, h'⟩ := Option.bind_eq_some.1 h
    obtain ⟨hwf', htr⟩ := ih (run_frame hwf hr).1 h'
    exact ⟨hwf', by rw [htr, List.foldl_cons, translation_run hwf hr]⟩

theorem runOps_refines_example :
    ∃ s', runOps emptyVas mapThenUncache emptyPhys = some s' ∧
      translation s' emptyVas.topLevel =
        mapThenUncache.foldl absStep (translation emptyPhys emptyVas.topLevel) := by
  obtain ⟨s', h⟩ : ∃ s', runOps emptyVas mapThenUncache emptyPhys = some s' := ⟨_, rfl⟩
  exact ⟨s', h, (runOps_refines wellFormed_emptyPhys h).2⟩

theorem run_frames {vas : Vas} {o : PmapOp} {s : Phys} {r : PmapRet}
    (hwf : WellFormed s vas.topLevel) (h : o.run vas s = some r) :
    (∀ p u, Valid p → tableAt s vas.topLevel p = some u → tableAt r.phys vas.topLevel p = some u) ∧
    (∃ l, s.free.frames = l ++ r.phys.free.frames ∧ l.length ≤ 3) ∧
    ∀ f ∈ s.free.frames, f ∉ r.phys.free.frames →
      ∃ p, Valid p ∧ p ≠ [] ∧ tableAt r.phys vas.topLevel p = some f := by
  rcases run_spec ((grown_walkInv vas.topLevel o.va s).and (taken_walkInv vas.topLevel o.va s))
      hwf ⟨grown_init _ s, [], rfl, Nat.zero_le _⟩ h with
    ⟨-, -, he⟩ | ⟨-, -, T, s', v, hT, hwf', ⟨hg, l, hl, hlen⟩, he⟩
  · rw [he]
    exact ⟨fun _ _ _ hu => hu, ⟨[], rfl, Nat.zero_le _⟩, fun f hf hf' => absurd hf hf'⟩
  · have hU : (upper o.va).length = 3 := by simp [upper]
    have keep := fun {p} (hp : Valid p) =>
      tableAt_write_leaf hwf'.inj hU (valid_upper _) hT (idx 1 o.va) v hp
    rw [he]
    refine ⟨fun p u hp hu => (keep hp).trans (hg.tables p u hp hu), ⟨l, hl, hU ▸ hlen⟩,
      fun f hf hf' => ?_⟩
    obtain ⟨m, hm1, hm, htab, -⟩ := hg.fresh f hf hf'
    have hv : Valid ((upper o.va).take m) :=
      valid_of_isPrefixOf (List.take_prefix _ _) (valid_upper _)
    refine ⟨_, hv, fun h0 => ?_, (keep hv).trans htab⟩
    have := congrArg List.length h0
    simp only [List.length_take, hU, List.length_nil] at this
    omega

/-- Over a whole run, no table is lost, the free list only loses a prefix of at most three
frames an operation, and every frame taken is a table of the tree below the root. -/
theorem runOps_frames {vas : Vas} {os : List PmapOp} {s s' : Phys}
    (hwf : WellFormed s vas.topLevel) (h : runOps vas os s = some s') :
    (∀ p u, Valid p → tableAt s vas.topLevel p = some u → tableAt s' vas.topLevel p = some u) ∧
    (∃ l, s.free.frames = l ++ s'.free.frames ∧ l.length ≤ 3 * os.length) ∧
    ∀ f ∈ s.free.frames, f ∉ s'.free.frames →
      ∃ p, Valid p ∧ p ≠ [] ∧ tableAt s' vas.topLevel p = some f := by
  induction os generalizing s with
  | nil =>
    cases h
    exact ⟨fun _ _ _ hu => hu, ⟨[], rfl, Nat.zero_le _⟩, fun f hf hf' => absurd hf hf'⟩
  | cons o os ih =>
    obtain ⟨r, hr, h'⟩ := Option.bind_eq_some.1 h
    obtain ⟨keep1, ⟨l1, hl1, hlen1⟩, taken1⟩ := run_frames hwf hr
    obtain ⟨keep2, ⟨l2, hl2, hlen2⟩, taken2⟩ := ih (run_frame hwf hr).1 h'
    refine ⟨fun p u hp hu => keep2 p u hp (keep1 p u hp hu),
      ⟨l1 ++ l2, by rw [hl1, hl2, List.append_assoc], by simp; omega⟩, fun f hf hf' => ?_⟩
    by_cases hr' : f ∈ r.phys.free.frames
    · exact taken2 f hr' hf'
    · obtain ⟨p, hp, hne, ht⟩ := taken1 f hf hr'
      exact ⟨p, hp, hne, keep2 p f hp ht⟩

theorem runOps_frames_example :
    ∃ s', runOps emptyVas mapThenUncache emptyPhys = some s' ∧
      ∃ l, emptyPhys.free.frames = l ++ s'.free.frames ∧ l.length ≤ 3 * 2 := by
  obtain ⟨s', h⟩ : ∃ s', runOps emptyVas mapThenUncache emptyPhys = some s' := ⟨_, rfl⟩
  exact ⟨s', h, (runOps_frames wellFormed_emptyPhys h).2.1⟩

/-- A run of `k` mapping operations on a well-formed tree with `3 k` free frames returns. -/
theorem runOps_isSome (vas : Vas) (os : List PmapOp) {s : Phys}
    (hwf : WellFormed s vas.topLevel) (h : 3 * os.length ≤ s.free.frames.length) :
    ∃ s', runOps vas os s = some s' := by
  induction os generalizing s with
  | nil => exact ⟨s, rfl⟩
  | cons o os ih =>
    obtain ⟨r, hr⟩ := run_isSome vas o (s := s) (by simp at h; omega)
    obtain ⟨-, ⟨l, hl, hlen⟩, -⟩ := run_frames hwf hr
    have hfr : 3 * os.length ≤ r.phys.free.frames.length := by
      have := congrArg List.length hl
      simp at this h
      omega
    obtain ⟨s', hs'⟩ := ih (run_frame hwf hr).1 hfr
    exact ⟨s', by simp [runOps, hr, hs']⟩

theorem runOps_isSome_example :
    WellFormed emptyPhys emptyVas.topLevel ∧
      3 * (mapThenUncache.take 1).length ≤ emptyPhys.free.frames.length ∧
      ∃ s', runOps emptyVas (mapThenUncache.take 1) emptyPhys = some s' :=
  ⟨wellFormed_emptyPhys, by decide, runOps_isSome emptyVas _ wellFormed_emptyPhys (by decide)⟩

theorem walk_fresh (va : BitVec 64) (levels : List Nat) {f : BitVec 64} {s : Phys}
    (hz : ∀ j, s.mem f j = 0) (hf : f ∉ s.free.frames) :
    (levels.length ≤ s.free.frames.length → ∃ T s', walk va true levels f s = some (some T, s') ∧
      s'.free.frames = s.free.frames.drop levels.length) ∧
    (s.free.frames.length < levels.length → walk va true levels f s = none) := by
  induction levels generalizing f s with
  | nil => exact ⟨fun _ => ⟨f, s, rfl, rfl⟩, fun h => absurd h (Nat.not_lt_zero _)⟩
  | cons level levels ih =>
    have hp : present (s.mem f (idx level va)) = false := by rw [hz]; exact present_zero
    cases hfr : s.free.frames with
    | nil => exact ⟨fun h => by simp at h, fun _ => by rw [walk, pmapExtract_halt hp hfr]⟩
    | cons g rest =>
      have hgf : g ≠ f := fun e => hf (e ▸ hfr ▸ List.mem_cons_self g rest)
      have hg : g ∉ rest := (List.nodup_cons.1 (hfr ▸ s.free.nodup)).1
      obtain ⟨h1, h2⟩ := ih (f := g) (s := install s.pop f (idx level va) g)
        (fun j => by rw [install_mem, if_neg fun h => hgf h.1, if_pos rfl])
        (by simpa [hfr] using hg)
      simp only [install_free, pop_frames, hfr, List.tail_cons] at h1 h2
      rw [walk, pmapExtract_alloc hp hfr]
      exact ⟨fun h => h1 (by simpa using h), fun h => h2 (by simpa using h)⟩

/-- Unmapping an address whose level-4 entry is absent builds the whole path to a leaf table
first: `pmap_unmap` takes three frames off the free list, and halts the kernel when fewer than
three are free. -/
theorem pmapUnmap_absent {vas : Vas} {va : BitVec 64} {s : Phys}
    (hwf : WellFormed s vas.topLevel) (h4 : present (s.mem vas.topLevel (idx 4 va)) = false) :
    (3 ≤ s.free.frames.length → ∃ r, pmapUnmap vas va s = some r ∧
      r.phys.free.frames = s.free.frames.drop 3) ∧
    (s.free.frames.length < 3 → pmapUnmap vas va s = none) := by
  have hR : vas.topLevel ∉ s.free.frames := hwf.not_free [] _ valid_nil rfl
  cases hfr : s.free.frames with
  | nil =>
    refine ⟨fun h => by simp at h, fun _ => ?_⟩
    simp only [pmapUnmap, pmapModifyTbl, pmapGetTbl, walk, pmapExtract_halt h4 hfr]
  | cons f rest =>
    have hfR : f ≠ vas.topLevel := fun e => hR (e ▸ hfr ▸ List.mem_cons_self f rest)
    have hf : f ∉ rest := (List.nodup_cons.1 (hfr ▸ s.free.nodup)).1
    obtain ⟨h1, h2⟩ := walk_fresh va [3, 2] (f := f) (s := install s.pop vas.topLevel (idx 4 va) f)
      (fun j => by rw [install_mem, if_neg fun h => hfR h.1, if_pos rfl]) (by simpa [hfr] using hf)
    simp only [install_free, pop_frames, hfr, List.tail_cons, List.length_cons,
      List.length_nil] at h1 h2
    have hw : pmapGetTbl vas va true s =
        walk va true [3, 2] f (install s.pop vas.topLevel (idx 4 va) f) := by
      rw [pmapGetTbl, walk, pmapExtract_alloc h4 hfr]
    refine ⟨fun h => ?_, fun h => ?_⟩
    · obtain ⟨T, s', hw', hfr'⟩ := h1 (by simp at h; omega)
      exact ⟨⟨0, s'.write T (idx 1 va) 0, true⟩, by simp only [pmapUnmap, pmapModifyTbl, hw, hw'],
        by simpa using hfr'⟩
    · simp only [pmapUnmap, pmapModifyTbl, hw, h2 (by simp at h; omega)]

theorem pmapUnmap_absent_example :
    WellFormed emptyPhys emptyVas.topLevel ∧
      present (emptyPhys.mem emptyVas.topLevel (idx 4 0x400000#64)) = false ∧
      ∃ r, pmapUnmap emptyVas 0x400000#64 emptyPhys = some r ∧ r.phys.free.frames = [] :=
  ⟨wellFormed_emptyPhys, present_zero,
    (pmapUnmap_absent wellFormed_emptyPhys present_zero).1 (by decide)⟩

end Hyra.Refinement
