import Hyra.Mapping

namespace Hyra.TreeInvariant

open Pte Memory Phys Walk Tree Mapping

theorem translation_walkInv (R va : BitVec 64) (s0 : Phys) :
    WalkInv R va fun _ _ s => ∀ va', translation s R va' = translation s0 R va' :=
  walkInv_const R va _ fun _ _ _ _ _ _ hpre hwf ht hT hf hI va' =>
    (translation_grow hT hf hwf.not_free va' (tableAt_upper_ne hwf.inj hpre ht va')).trans (hI va')

theorem run_frame {vas : Vas} {o : PmapOp} {s : Phys} {r : PmapRet}
    (hwf : WellFormed s vas.topLevel) (h : o.run vas s = some r) :
    WellFormed r.phys vas.topLevel ∧ (r.flushed = false → r.phys = s) := by
  rcases run_spec (walkInv_const _ _ (fun _ => True) fun _ _ _ _ _ _ _ _ _ _ _ _ => trivial)
      hwf trivial h with ⟨-, -, he⟩ | ⟨hfl, -, T, s', v, hT, hwf', -, he⟩
  · exact ⟨he ▸ hwf, fun _ => he⟩
  · exact ⟨he ▸ wellFormed_write_leaf hwf' hwf'.inj (by simp [upper]) (valid_upper _) hT _ _,
      fun h => absurd (hfl.symm.trans h) (by decide)⟩

theorem run_translation_of_page_ne {vas : Vas} {o : PmapOp} {s : Phys} {r : PmapRet}
    (hwf : WellFormed s vas.topLevel) (h : o.run vas s = some r) {va' : BitVec 64}
    (hva : page va' ≠ page o.va) :
    translation r.phys vas.topLevel va' = translation s vas.topLevel va' := by
  rcases run_spec (translation_walkInv vas.topLevel o.va s) hwf (fun _ => rfl) h with
    ⟨-, -, he⟩ | ⟨-, -, T, s', v, hT, hwf', hI, he⟩
  · rw [he]
  · rw [he, translation_write_leaf hwf'.inj (by simp [upper]) (valid_upper _) hT, if_neg, hI]
    rintro ⟨hT', hi⟩
    exact hva (by rw [page, page, hwf'.inj _ _ _ (valid_upper _) (valid_upper _) hT' hT, hi])

theorem pmapUnmap_translation {vas : Vas} {va : BitVec 64} {s : Phys} {r : PmapRet}
    (hwf : WellFormed s vas.topLevel) (h : pmapUnmap vas va s = some r) :
    translation r.phys vas.topLevel va = none := by
  obtain ⟨T, s', hT, hwf', -, rfl⟩ :=
    modifyTbl_spec (walkInv_const _ _ (fun _ => True) fun _ _ _ _ _ _ _ _ _ _ _ _ => trivial)
      hwf trivial h
  rw [translation_write_leaf hwf'.inj (by simp [upper]) (valid_upper _) hT, if_pos ⟨hT, rfl⟩]
  simp

/-- Map and unmap change the translation of exactly one page. -/
theorem pmap_map_unmap_change_one_page {vas : Vas} {s : Phys} (hwf : WellFormed s vas.topLevel)
    (va va' pa : BitVec 64) (prot : VmProt)
    (hva : ∃ b, 12 ≤ b ∧ b < 48 ∧ va.getLsbD b ≠ va'.getLsbD b) :
    (3 ≤ s.free.frames.length →
      (∃ r, pmapMap vas va pa prot s = some r) ∧ ∃ r, pmapUnmap vas va s = some r) ∧
    (∀ r, pmapMap vas va pa prot s = some r →
      translation r.phys vas.topLevel va' = translation s vas.topLevel va') ∧
    ∀ r, pmapUnmap vas va s = some r →
      translation r.phys vas.topLevel va' = translation s vas.topLevel va' ∧
      translation r.phys vas.topLevel va = none := by
  obtain ⟨b, hb12, hb48, hb⟩ := hva
  have hp : page va' ≠ page va := Ne.symm (page_ne_of_getLsbD_ne ⟨hb12, hb48⟩ hb)
  exact ⟨fun h3 => ⟨run_isSome vas (.map va pa prot) h3, run_isSome vas (.unmap va) h3⟩,
    fun r h => run_translation_of_page_ne (o := .map va pa prot) hwf h hp,
    fun r h => ⟨run_translation_of_page_ne (o := .unmap va) hwf h hp, pmapUnmap_translation hwf h⟩⟩

theorem pmap_map_unmap_change_one_page_example :
    WellFormed emptyPhys emptyVas.topLevel ∧
      (∃ b, 12 ≤ b ∧ b < 48 ∧ (0x400000#64).getLsbD b ≠ (0x401000#64).getLsbD b) ∧
      3 ≤ emptyPhys.free.frames.length ∧
      (∃ r, pmapMap emptyVas 0x400000#64 0x100000#64 ⟨true, false, false⟩ emptyPhys = some r ∧
        translation r.phys emptyVas.topLevel 0x401000#64 =
          translation emptyPhys emptyVas.topLevel 0x401000#64) ∧
      ∃ r, pmapUnmap emptyVas 0x400000#64 emptyPhys = some r ∧
        translation r.phys emptyVas.topLevel 0x401000#64 =
          translation emptyPhys emptyVas.topLevel 0x401000#64 ∧
        translation r.phys emptyVas.topLevel 0x400000#64 = none :=
  have hb : ∃ b, 12 ≤ b ∧ b < 48 ∧ (0x400000#64).getLsbD b ≠ (0x401000#64).getLsbD b :=
    ⟨12, by decide, by decide, by decide⟩
  have ⟨hex, hm, hu⟩ := pmap_map_unmap_change_one_page wellFormed_emptyPhys _ _ 0x100000#64
    ⟨true, false, false⟩ hb
  have ⟨⟨r1, h1⟩, ⟨r2, h2⟩⟩ := hex (by decide)
  ⟨wellFormed_emptyPhys, hb, by decide, ⟨r1, h1, hm r1 h1⟩, r2, h2, hu r2 h2⟩

structure Grown (R : BitVec 64) (s0 : Phys) (pre : List Nat) (s : Phys) : Prop where
  taken : ∃ l, s0.free.frames = l ++ s.free.frames
  kept : ∀ p u i, Valid p → p.length < 3 → tableAt s0 R p = some u → i < 512 →
    present (s0.mem u i) → s.mem u i = s0.mem u i
  tables : ∀ p u, Valid p → tableAt s0 R p = some u → tableAt s R p = some u
  fresh : ∀ f ∈ s0.free.frames, f ∉ s.free.frames → ∃ m, 1 ≤ m ∧ m ≤ pre.length ∧
    tableAt s R (pre.take m) = some f ∧ ∀ i, s.mem f i ≠ 0 → pre.take m ++ [i] <+: pre

theorem grown_init (R : BitVec 64) (s : Phys) : Grown R s [] s :=
  ⟨⟨[], rfl⟩, fun _ _ _ _ _ _ _ _ => rfl, fun _ _ _ h => h, fun _ h h' => absurd h h'⟩

theorem grown_walkInv (R va : BitVec 64) (s0 : Phys) :
    WalkInv R va fun pre _ s => Grown R s0 pre s := by
  refine ⟨fun pre j t s _ _ _ _ hg => ⟨hg.taken, hg.kept, hg.tables, fun f hf hf' => ?_⟩,
    fun pre j t s f rest hpre hwf ht hT hfr hg => ⟨?_, ?_, ?_, ?_⟩⟩
  · obtain ⟨m, hm1, hm, htab, hz⟩ := hg.fresh f hf hf'
    refine ⟨m, hm1, by simp; omega, by rwa [List.take_append_of_le_length hm], fun i hi => ?_⟩
    rw [List.take_append_of_le_length hm]
    exact (hz i hi).trans (List.prefix_append _ _)
  · obtain ⟨l, hl⟩ := hg.taken
    exact ⟨l ++ [f], by simp [install, hl, hfr]⟩
  · intro p u i hp hlen hu hi hpr
    have hu' := hg.tables p u hp hu
    have hs := hg.kept p u i hp hlen hu hi hpr
    have huf : u ≠ f := fun e => hwf.not_free p u hp hu' (by simp [hfr, e])
    have hij : ¬(u = t ∧ i = j) := fun ⟨e1, e2⟩ => by subst e1 e2; simp_all
    simp [install_mem, hij, huf, hs]
  · exact fun p u hp hu => tableAt_grow_old hT hfr hwf.not_free hp (hg.tables p u hp hu)
  · have hv : Valid (pre ++ [j]) := valid_of_isPrefixOf hpre (valid_upper va)
    have hvp : Valid pre := valid_of_isPrefixOf (List.prefix_append _ _) hv
    have hft : f ≠ t := fun e => hwf.not_free pre t hvp ht (by simp [hfr, ← e])
    intro f' hf0 hf'
    simp only [install, write_free, zero_free, pop_frames, hfr, List.tail_cons] at hf'
    by_cases hff : f' = f
    · subst hff
      refine ⟨pre.length + 1, by omega, by simp, ?_, fun i hi => ?_⟩
      · rw [List.take_of_length_le (by simp)]
        exact tableAt_grow_new hT hfr hwf.not_free hv ht
      · simp [install_mem, hft] at hi
    · have hfs : f' ∉ s.free.frames := by simp [hfr, hff, hf']
      obtain ⟨m, hm1, hm, htab, hz⟩ := hg.fresh f' hf0 hfs
      have hvm : Valid (pre.take m) := valid_of_isPrefixOf (List.take_prefix _ _) hvp
      refine ⟨m, hm1, by simp; omega, ?_, fun i hi => ?_⟩
      · rw [List.take_append_of_le_length hm]
        exact tableAt_grow_old hT hfr hwf.not_free hvm htab
      · rw [List.take_append_of_le_length hm]
        by_cases hij : f' = t ∧ i = j
        · obtain ⟨rfl, rfl⟩ := hij
          rw [hwf.inj _ _ _ hvm hvp htab ht]
        · simp only [install_mem, hij, hff, if_false, pop_mem] at hi
          exact (hz i hi).trans (List.prefix_append _ _)

theorem existsUnique_entry {s : Phys} {R f : BitVec 64} (hwf : WellFormed s R) {p : List Nat}
    (hp : Valid p) (hne : p ≠ []) (hf : tableAt s R p = some f) :
    ∃! e : BitVec 64 × Nat, ∃ q, Valid q ∧ q.length < 3 ∧ tableAt s R q = some e.1 ∧
      e.2 < 512 ∧ present (s.mem e.1 e.2) ∧ s.mem e.1 e.2 &&& pteAddrMask = f := by
  obtain ⟨q, j, rfl⟩ := (List.eq_nil_or_concat p).resolve_left hne
  rw [List.concat_eq_append] at hp hf
  rw [tableAt_concat] at hf
  cases ht : tableAt s R q with
  | none => simp [ht] at hf
  | some t =>
    have hpr : present (s.mem t j) := by by_contra h; simp [ht, h] at hf
    simp only [ht, hpr, if_true, Option.some_bind, Option.some.injEq] at hf
    have hlen := hp.1
    simp only [List.length_append, List.length_singleton] at hlen
    refine ⟨(t, j), ⟨q, valid_of_isPrefixOf (List.prefix_append _ _) hp, by omega, ht,
      hp.2 j (by simp), hpr, hf⟩, ?_⟩
    rintro ⟨t', j'⟩ ⟨q', hq', hlen', ht', hj', hpr', hf'⟩
    have hv' : Valid (q' ++ [j']) :=
      ⟨by simp; omega, fun i hi => by
        rcases List.mem_append.1 hi with hi | hi
        · exact hq'.2 i hi
        · simp at hi; omega⟩
    have hpath : tableAt s R (q' ++ [j']) = some f := by
      simp only at ht' hpr' hf'
      simp [tableAt_concat, ht', hpr', hf']
    obtain ⟨rfl, hjj⟩ := List.append_inj' (hwf.inj _ _ _ hv' hp hpath (by simp [tableAt_concat, ht, hpr, hf])) rfl
    simp only [List.cons.injEq, and_true] at hjj
    simp only at ht'
    rw [← Option.some.inj (ht.symm.trans ht'), hjj]

/-- Map, unmap and cache changes keep a well-formed tree well formed, never overwrite a
present upper entry, and hang each frame they take at exactly one place, on `va`'s path at
some depth `m`, empty but for the entry at the next index of the path. -/
theorem pmap_ops_keep_tree {vas : Vas} {o : PmapOp} {s : Phys} {r : PmapRet}
    (hwf : WellFormed s vas.topLevel) (h : o.run vas s = some r) :
    WellFormed r.phys vas.topLevel ∧
    (∀ p t i, Valid p → p.length < 3 → tableAt s vas.topLevel p = some t → i < 512 →
      present (s.mem t i) → r.phys.mem t i = s.mem t i) ∧
    ∀ f ∈ s.free.frames, f ∉ r.phys.free.frames →
      (∃! e : BitVec 64 × Nat, ∃ p, Valid p ∧ p.length < 3 ∧
        tableAt r.phys vas.topLevel p = some e.1 ∧ e.2 < 512 ∧ present (r.phys.mem e.1 e.2) ∧
        r.phys.mem e.1 e.2 &&& pteAddrMask = f) ∧
      ∃ m, 1 ≤ m ∧ m ≤ 3 ∧ tableAt r.phys vas.topLevel ((upper o.va).take m) = some f ∧
        ∀ i, i ≠ idx (4 - m) o.va → r.phys.mem f i = 0 := by
  rcases run_spec (grown_walkInv vas.topLevel o.va s) hwf (grown_init _ s) h with
    ⟨-, -, he⟩ | ⟨-, -, T, s', v, hT, hwf', hg, he⟩
  · rw [he]
    exact ⟨hwf, fun _ _ _ _ _ _ _ _ => rfl, fun f hf hf' => absurd hf hf'⟩
  · rw [he]
    have hU : (upper o.va).length = 3 := by simp [upper]
    have hwf'' := wellFormed_write_leaf hwf' hwf'.inj hU (valid_upper _) hT (idx 1 o.va) v
    refine ⟨hwf'', fun p t i hp hlen ht hi hpr => ?_, fun f hf hf' => ?_⟩
    · have hne : t ≠ T := fun e => by
        have := hwf'.inj _ _ _ hp (valid_upper _) (hg.tables p t hp ht) (e ▸ hT)
        subst this; omega
      rw [write_mem_of_ne _ _ (.inl hne)]
      exact hg.kept p t i hp hlen ht hi hpr
    · obtain ⟨m, hm1, hm, htab, hz⟩ := hg.fresh f hf hf'
      have hvm : Valid ((upper o.va).take m) :=
        valid_of_isPrefixOf (List.take_prefix _ _) (valid_upper _)
      have htab' : tableAt (s'.write T (idx 1 o.va) v) vas.topLevel ((upper o.va).take m) = some f :=
        by rw [tableAt_write_leaf hwf'.inj hU (valid_upper _) hT _ _ hvm, htab]
      refine ⟨existsUnique_entry hwf'' hvm (by simp [upper]; omega) htab', m, hm1, hU ▸ hm, htab',
        fun i hi => ?_⟩
      by_cases hfT : f = T
      · subst hfT
        have hm3 : (upper o.va).take m = upper o.va := hwf'.inj _ _ _ hvm (valid_upper _) htab hT
        have hm3' : m = 3 := by
          have := congrArg List.length hm3
          simp [hU] at this; omega
        subst hm3'
        rw [write_mem_of_ne _ _ (.inr hi)]
        by_contra h0
        exact absurd (eq_idx_of_prefix_upper (hz i h0)).1 (by omega)
      · rw [write_mem_of_ne _ _ (.inl hfT)]
        by_contra h0
        exact hi (eq_idx_of_prefix_upper (hz i h0)).2

theorem pmap_ops_keep_tree_example :
    ∃ r, (PmapOp.map 0x400000#64 0x100000#64 ⟨true, false, false⟩).run emptyVas emptyPhys = some r ∧
      WellFormed emptyPhys emptyVas.topLevel ∧ WellFormed r.phys emptyVas.topLevel := by
  obtain ⟨r, hr⟩ : ∃ r,
      (PmapOp.map 0x400000#64 0x100000#64 ⟨true, false, false⟩).run emptyVas emptyPhys = some r :=
    ⟨_, rfl⟩
  exact ⟨r, hr, wellFormed_emptyPhys, (pmap_ops_keep_tree wellFormed_emptyPhys hr).1⟩

end Hyra.TreeInvariant
