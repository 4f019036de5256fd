import Hyra.Walk

namespace Hyra.Tree

open Pte Memory Phys Walk

/-- Tables of the tree at `R'` that are tables of the tree at `R` too sit at the same path. -/
def Compat (s : Phys) (R R' : BitVec 64) : Prop :=
  ∀ p q t, Valid p → Valid q → tableAt s R p = some t → tableAt s R' q = some t → p = q

def NotFree (s : Phys) (R : BitVec 64) : Prop :=
  ∀ p t, Valid p → tableAt s R p = some t → t ∉ s.free.frames

def NoHuge (s : Phys) (R : BitVec 64) : Prop :=
  ∀ p t i, Valid p → p.length < 3 → tableAt s R p = some t → i < 512 → present (s.mem t i) →
    test (s.mem t i) ptePat = false

/-- A page-table tree: each table at one path only, none of them free, no large pages. -/
structure WellFormed (s : Phys) (root : BitVec 64) : Prop where
  inj : Compat s root root
  not_free : NotFree s root
  no_huge : NoHuge s root

theorem getLsbD_of_aligned {f : BitVec 64} (hf : f &&& pteAddrMask = f) {i : Nat}
    (hi : i < 12 ∨ 52 ≤ i) : f.getLsbD i = false := by
  rw [← hf]; simp; omega

theorem present_newEntry (f : BitVec 64) : present (f ||| (pteP ||| pteRw ||| pteUs)) = true := by
  simp [present_eq, pteP]

theorem newEntry_addr {f : BitVec 64} (hf : f &&& pteAddrMask = f) :
    (f ||| (pteP ||| pteRw ||| pteUs)) &&& pteAddrMask = f := by
  ext ⟨i, hi⟩
  by_cases h : 12 ≤ i ∧ i < 52
  · simp [pteP, pteRw, pteUs, h.1, h.2]; omega
  · simp [pteP, pteRw, pteUs, getLsbD_of_aligned hf (by omega : i < 12 ∨ 52 ≤ i)]; omega

theorem newEntry_pat {f : BitVec 64} (hf : f &&& pteAddrMask = f) :
    test (f ||| (pteP ||| pteRw ||| pteUs)) ptePat = false := by
  simp [ptePat, test_bit, pteP, pteRw, pteUs, getLsbD_of_aligned hf (by omega : 7 < 12 ∨ 52 ≤ 7)]

theorem install_mem (s : Phys) (T f t : BitVec 64) (j i : Nat) :
    (install s T j f).mem t i =
      if t = T ∧ i = j then f ||| (pteP ||| pteRw ||| pteUs) else if t = f then 0 else s.mem t i :=
  rfl

theorem tableAt_install {s : Phys} {T f : BitVec 64} {j : Nat} (hT : present (s.mem T j) = false)
    (hf : f &&& pteAddrMask = f) (u : BitVec 64) (p : List Nat)
    (havoid : ∀ q, q <+: p → tableAt s u q ≠ some f) :
    tableAt (install s T j f) u p = tableAt s u p ∨
      ∃ q, p = q ++ [j] ∧ tableAt s u q = some T ∧ tableAt (install s T j f) u p = some f := by
  induction p generalizing u with
  | nil => exact .inl rfl
  | cons i p ih =>
    have hu : u ≠ f := fun h => havoid [] (List.nil_prefix) (by simp [h])
    by_cases hij : u = T ∧ i = j
    · obtain ⟨rfl, rfl⟩ := hij
      cases p with
      | nil =>
        exact .inr ⟨[], rfl, rfl, by
          simp [tableAt_cons, install_mem, present_newEntry, newEntry_addr hf]⟩
      | cons k p =>
        left
        simp [tableAt_cons, install_mem, hT, present_newEntry, newEntry_addr hf, Ne.symm hu,
          present_eq]
    · have hmem : (install s T j f).mem u i = s.mem u i := by simp [install_mem, hij, hu]
      by_cases hp : present (s.mem u i)
      · have hav : ∀ q, q <+: p → tableAt s (s.mem u i &&& pteAddrMask) q ≠ some f :=
          fun q hq => by simpa [tableAt_cons, hp] using havoid (i :: q) (List.cons_prefix_cons.2 ⟨rfl, hq⟩)
        rcases ih _ hav with h | ⟨q, rfl, hq, h⟩
        · left; simp only [tableAt_cons, hmem, hp, if_true, h]
        · right
          exact ⟨i :: q, rfl, by simp [tableAt_cons, hp, hq], by simp [tableAt_cons, hmem, hp, h]⟩
      · left; simp [tableAt_cons, hmem, hp]

theorem avoid_of_notFree {s : Phys} {R f : BitVec 64} (h : NotFree s R)
    (hf : f ∈ s.free.frames) {p : List Nat} (hp : Valid p) :
    ∀ q, q <+: p → tableAt s R q ≠ some f :=
  fun q hq hq' => h q f (valid_of_isPrefixOf hq hp) hq' hf

theorem aligned_of_head {s : Phys} {f : BitVec 64} {rest : List (BitVec 64)}
    (hf : s.free.frames = f :: rest) : f &&& pteAddrMask = f :=
  (s.free.aligned f (by simp [hf])).2

theorem tableAt_grow {s : Phys} {R T f : BitVec 64} {j : Nat} {rest : List (BitVec 64)}
    (hT : present (s.mem T j) = false) (hf : s.free.frames = f :: rest) (hR : NotFree s R)
    {p : List Nat} (hp : Valid p) :
    tableAt (install s.pop T j f) R p = tableAt s R p ∨
      ∃ q, p = q ++ [j] ∧ tableAt s R q = some T ∧ tableAt (install s.pop T j f) R p = some f := by
  have e : tableAt (install s.pop T j f) R p = tableAt (install s T j f) R p :=
    tableAt_congr R p fun _ _ _ _ _ => rfl
  rw [e]
  exact tableAt_install hT (aligned_of_head hf) R p (avoid_of_notFree hR (by simp [hf]) hp)

theorem notFree_grow {s : Phys} {R T f : BitVec 64} {j : Nat} {rest : List (BitVec 64)}
    (hT : present (s.mem T j) = false) (hf : s.free.frames = f :: rest) (hR : NotFree s R) :
    NotFree (install s.pop T j f) R := by
  have hnd := s.free.nodup
  rw [hf] at hnd
  intro p t hp ht hmem
  simp only [install, write_free, zero_free, pop_frames, hf, List.tail_cons] at hmem
  rcases tableAt_grow hT hf hR hp with h | ⟨q, rfl, -, h⟩
  · exact hR p t hp (h ▸ ht) (by simp [hf, hmem])
  · exact (List.nodup_cons.1 hnd).1 (by rw [h] at ht; cases ht; exact hmem)

theorem compat_grow {s : Phys} {R R' T f : BitVec 64} {j : Nat} {rest : List (BitVec 64)}
    (hT : present (s.mem T j) = false) (hf : s.free.frames = f :: rest) (hc : Compat s R R')
    (hR : NotFree s R) (hR' : NotFree s R') : Compat (install s.pop T j f) R R' := by
  have hfree : f ∈ s.free.frames := by simp [hf]
  intro p q t hp hq htp htq
  rcases tableAt_grow hT hf hR hp with h | ⟨p0, rfl, hp0, h⟩ <;>
    rcases tableAt_grow hT hf hR' hq with h' | ⟨q0, rfl, hq0, h'⟩
  · exact hc p q t hp hq (h ▸ htp) (h' ▸ htq)
  · exact absurd hfree (hR p f hp (by rw [← h, htp, ← htq, h']))
  · exact absurd hfree (hR' q f hq (by rw [← h', htq, ← htp, h]))
  · rw [hc p0 q0 T (valid_of_isPrefixOf (List.prefix_append _ _) hp)
      (valid_of_isPrefixOf (List.prefix_append _ _) hq) hp0 hq0]

theorem noHuge_grow {s : Phys} {R T f : BitVec 64} {j : Nat} {rest : List (BitVec 64)}
    (hT : present (s.mem T j) = false) (hf : s.free.frames = f :: rest) (hn : NoHuge s R)
    (hR : NotFree s R) : NoHuge (install s.pop T j f) R := by
  have hal := aligned_of_head hf
  intro p t i hp hlen ht hi hpres
  rcases tableAt_grow hT hf hR hp with h | ⟨q, rfl, -, h⟩
  · have htf : t ≠ f := fun e => hR p t hp (h ▸ ht) (by simp [hf, e])
    rw [h] at ht
    by_cases hij : t = T ∧ i = j
    · simp [install_mem, hij, newEntry_pat hal]
    · simp only [install_mem, hij, htf, if_false, pop_mem] at hpres ⊢
      exact hn p t i hp hlen ht hi hpres
  · rw [h] at ht
    cases ht
    by_cases hij : f = T ∧ i = j
    · rw [install_mem, if_pos hij]; exact newEntry_pat hal
    · simp [install_mem, hij] at hpres

theorem wellFormed_grow {s : Phys} {R T f : BitVec 64} {j : Nat} {rest : List (BitVec 64)}
    (hT : present (s.mem T j) = false) (hf : s.free.frames = f :: rest) (h : WellFormed s R) :
    WellFormed (install s.pop T j f) R :=
  ⟨compat_grow hT hf h.inj h.not_free h.not_free, notFree_grow hT hf h.not_free,
    noHuge_grow hT hf h.no_huge h.not_free⟩

theorem translation_grow {s : Phys} {R' T f : BitVec 64} {j : Nat} {rest : List (BitVec 64)}
    (hT : present (s.mem T j) = false) (hf : s.free.frames = f :: rest) (hR' : NotFree s R')
    (va : BitVec 64) (hleaf : tableAt s R' (upper va) ≠ some T) :
    translation (install s.pop T j f) R' va = translation s R' va := by
  unfold translation
  rcases tableAt_grow hT hf hR' (valid_upper va) with h | ⟨q, hq, hq0, h⟩
  · rw [h]
    cases ht : tableAt s R' (upper va) with
    | none => rfl
    | some t =>
      have htf : t ≠ f := fun e => hR' _ t (valid_upper va) ht (by simp [hf, e])
      have htT : t ≠ T := fun e => hleaf (e ▸ ht)
      simp [install_mem, htf, htT]
  · have hfT : f ≠ T := fun e => hR' q f (valid_of_isPrefixOf (hq ▸ List.prefix_append _ _)
      (valid_upper va)) (e ▸ hq0) (by simp [hf])
    rw [h, hq, tableAt_concat, hq0]
    simp [install_mem, hfT, hT]

theorem tableAt_upper_ne {s : Phys} {R R' t va : BitVec 64} {pre : List Nat} {j : Nat}
    (hc : Compat s R R') (hpre : pre ++ [j] <+: upper va) (ht : tableAt s R pre = some t)
    (va' : BitVec 64) : tableAt s R' (upper va') ≠ some t := fun h => by
  have hv : Valid pre := valid_of_isPrefixOf ((List.prefix_append _ _).trans hpre) (valid_upper va)
  have hl := hpre.length_le
  simp [upper, hc _ _ _ hv (valid_upper va') ht h] at hl

theorem tableAt_of_empty {s : Phys} {R : BitVec 64}
    (h : ∀ i < 512, present (s.mem R i) = false) {p : List Nat} (hp : Valid p) {t : BitVec 64}
    (ht : tableAt s R p = some t) : p = [] ∧ t = R := by
  match p, hp, ht with
  | [], _, ht => exact ⟨rfl, (Option.some.inj ht).symm⟩
  | i :: _, hp, ht => simp [tableAt_cons, h i (hp.2 i (by simp))] at ht

theorem wellFormed_of_empty {s : Phys} {R : BitVec 64}
    (h : ∀ i < 512, present (s.mem R i) = false) (hR : R ∉ s.free.frames) : WellFormed s R := by
  refine ⟨fun p q t hp hq hpt hqt => ?_, fun p t hp ht => ?_, fun p t i hp _ ht hi hpr => ?_⟩
  · rw [(tableAt_of_empty h hp hpt).1, (tableAt_of_empty h hq hqt).1]
  · rwa [(tableAt_of_empty h hp ht).2]
  · rw [(tableAt_of_empty h hp ht).2, h i hi] at hpr
    cases hpr

theorem tableAt_grow_old {s : Phys} {R T f u : BitVec 64} {j : Nat} {rest : List (BitVec 64)}
    (hT : present (s.mem T j) = false) (hf : s.free.frames = f :: rest) (hR : NotFree s R)
    {p : List Nat} (hp : Valid p) (hu : tableAt s R p = some u) :
    tableAt (install s.pop T j f) R p = some u := by
  rcases tableAt_grow hT hf hR hp with h | ⟨q, rfl, hq, -⟩
  · rw [h, hu]
  · simp [tableAt_concat, hq, hT] at hu

theorem tableAt_grow_new {s : Phys} {R T f : BitVec 64} {j : Nat} {rest : List (BitVec 64)}
    (hT : present (s.mem T j) = false) (hf : s.free.frames = f :: rest) (hR : NotFree s R)
    {q : List Nat} (hq : Valid (q ++ [j])) (hqT : tableAt s R q = some T) :
    tableAt (install s.pop T j f) R (q ++ [j]) = some f := by
  rw [tableAt_concat, tableAt_grow_old hT hf hR (valid_of_isPrefixOf (List.prefix_append _ _) hq) hqT]
  simp [install_mem, present_newEntry, newEntry_addr (aligned_of_head hf)]

structure WalkInv (R va : BitVec 64) (P : List Nat → BitVec 64 → Phys → Prop) : Prop where
  follow : ∀ pre j t s, pre ++ [j] <+: upper va → WellFormed s R →
    tableAt s R pre = some t → present (s.mem t j) → P pre t s →
    P (pre ++ [j]) (s.mem t j &&& pteAddrMask) s
  grow : ∀ pre j t s f rest, pre ++ [j] <+: upper va → WellFormed s R →
    tableAt s R pre = some t → present (s.mem t j) = false → s.free.frames = f :: rest →
    P pre t s → P (pre ++ [j]) f (install s.pop t j f)

theorem walkInv_const (R va : BitVec 64) (I : Phys → Prop)
    (h : ∀ pre j t s f rest, pre ++ [j] <+: upper va → WellFormed s R →
      tableAt s R pre = some t → present (s.mem t j) = false → s.free.frames = f :: rest →
      I s → I (install s.pop t j f)) :
    WalkInv R va fun _ _ s => I s :=
  ⟨fun _ _ _ _ _ _ _ _ hp => hp, h⟩

theorem WalkInv.and {R va : BitVec 64} {P Q : List Nat → BitVec 64 → Phys → Prop}
    (hP : WalkInv R va P) (hQ : WalkInv R va Q) :
    WalkInv R va fun pre t s => P pre t s ∧ Q pre t s :=
  ⟨fun pre j t s hpre hwf ht hpr h =>
      ⟨hP.follow pre j t s hpre hwf ht hpr h.1, hQ.follow pre j t s hpre hwf ht hpr h.2⟩,
    fun pre j t s f rest hpre hwf ht hpr hf h =>
      ⟨hP.grow pre j t s f rest hpre hwf ht hpr hf h.1,
        hQ.grow pre j t s f rest hpre hwf ht hpr hf h.2⟩⟩

theorem taken_walkInv (R va : BitVec 64) (s0 : Phys) :
    WalkInv R va fun pre _ s => ∃ l, s0.free.frames = l ++ s.free.frames ∧ l.length ≤ pre.length :=
  ⟨fun _ _ _ _ _ _ _ _ ⟨l, hl, hlen⟩ => ⟨l, hl, by simp; omega⟩,
    fun _ _ _ s f rest _ _ _ _ hf ⟨l, hl, hlen⟩ =>
      ⟨l ++ [f], by simp [install, hl, hf], by simp; omega⟩⟩

theorem walk_true {R va : BitVec 64} {P : List Nat → BitVec 64 → Phys → Prop}
    (hP : WalkInv R va P)
    (levels pre : List Nat) (t : BitVec 64) (s : Phys) (r : Option (BitVec 64) × Phys)
    (hlev : pre ++ levels.map (idx · va) = upper va) (ht : tableAt s R pre = some t)
    (hwf : WellFormed s R) (hp : P pre t s) (h : walk va true levels t s = some r) :
    ∃ T s', r = (some T, s') ∧ tableAt s' R (upper va) = some T ∧ WellFormed s' R ∧
      P (upper va) T s' := by
  induction levels generalizing pre t s with
  | nil =>
    simp only [List.map_nil, List.append_nil] at hlev
    subst hlev
    exact ⟨t, s, (Option.some.inj h).symm, ht, hwf, hp⟩
  | cons level levels ih =>
    have hpre : pre ++ [idx level va] <+: upper va := ⟨levels.map (idx · va), by simpa using hlev⟩
    have hlev' : (pre ++ [idx level va]) ++ levels.map (idx · va) = upper va := by simpa using hlev
    have hv : Valid (pre ++ [idx level va]) := valid_of_isPrefixOf hpre (valid_upper va)
    by_cases hpr : present (s.mem t (idx level va))
    · rw [walk, pmapExtract_present true hpr] at h
      exact ih _ _ _ hlev' (by simp [tableAt_concat, ht, hpr]) hwf
        (hP.follow _ _ _ _ hpre hwf ht hpr hp) h
    · have hpr' : present (s.mem t (idx level va)) = false := by simpa using hpr
      cases hf : s.free.frames with
      | nil => rw [walk, pmapExtract_halt hpr' hf] at h; cases h
      | cons f rest =>
        rw [walk, pmapExtract_alloc hpr' hf] at h
        exact ih _ _ _ hlev' (tableAt_grow_new hpr' hf hwf.not_free hv ht)
          (wellFormed_grow hpr' hf hwf) (hP.grow _ _ _ _ _ _ hpre hwf ht hpr' hf hp) h

end Hyra.Tree
