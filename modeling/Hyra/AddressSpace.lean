import Mathlib.Logic.Relation
import Hyra.TreeInvariant

namespace Hyra.AddressSpace

open Pte Memory Phys Walk Tree Mapping TreeInvariant

def pmapReadVas (cr3Raw : BitVec 64) : Vas :=
  { cr3Flags := cr3Raw &&& ~~~pteAddrMask, topLevel := cr3Raw &&& pteAddrMask,
    useL5Paging := false, lock := 0 }

def pmapSwitchVas (vas : Vas) : BitVec 64 := vas.cr3Flags ||| vas.topLevel

/-- The loop of `pmap_create_vas` from index `i` on, with `n` rounds left: it zeroes the lower
half of `dest` and copies the upper half of `src`. -/
def copyRoot (src dest : BitVec 64) (i : Nat) : Nat → Phys → Phys
  | 0, s => s
  | n + 1, s => copyRoot src dest (i + 1) n (s.write dest i (if i < 256 then 0 else s.mem src i))

/-- `pmap_create_vas`, given CR3 and the old contents of `*res`: the status, `*res` and the
memory. -/
def pmapCreateVas (cr3Raw : BitVec 64) (res : Vas) (s : Phys) : Int × Vas × Phys :=
  let currentVas := pmapReadVas cr3Raw
  match vmAllocPageframe s with
  | (topLevel, s) =>
    if topLevel = 0 then (-1, res, s)
    else (0, { topLevel, cr3Flags := 0, useL5Paging := false, lock := 0 },
      copyRoot currentVas.topLevel topLevel 0 512 s)

theorem pmapReadVas_pmapSwitchVas {vas : Vas} (ht : vas.topLevel &&& pteAddrMask = vas.topLevel)
    (hf : vas.cr3Flags &&& pteAddrMask = 0) (hl5 : vas.useL5Paging = false) (hl : vas.lock = 0) :
    pmapReadVas (pmapSwitchVas vas) = vas := by
  obtain ⟨t, c, l5, l⟩ := vas
  simp only at ht hf hl5 hl
  subst hl5 hl
  simp only [pmapReadVas, pmapSwitchVas, Vas.mk.injEq, and_true]
  have hc : ∀ i, 12 ≤ i → i < 52 → c.getLsbD i = false := fun i h1 h2 => by
    simpa [h1, h2] using congrArg (BitVec.getLsbD · i) hf
  constructor <;> ext ⟨i, hi⟩ <;> by_cases h : 12 ≤ i ∧ i < 52
  · simp [h.1, h.2, hc i h.1 h.2]
  · simp [getLsbD_of_aligned ht (by omega : i < 12 ∨ 52 ≤ i)]; omega
  · simp [h.1, h.2, hc i h.1 h.2]
  · simp [getLsbD_of_aligned ht (by omega : i < 12 ∨ 52 ≤ i)]; omega

theorem copyRoot_free (src dest : BitVec 64) (i n : Nat) (s : Phys) :
    (copyRoot src dest i n s).free = s.free := by
  induction n generalizing i s with
  | zero => rfl
  | succ n ih => exact (ih _ _).trans rfl

theorem copyRoot_mem {src dest : BitVec 64} (hne : src ≠ dest) (i n : Nat) (s : Phys)
    (t : BitVec 64) (k : Nat) :
    (copyRoot src dest i n s).mem t k =
      if t = dest ∧ i ≤ k ∧ k < i + n then (if k < 256 then 0 else s.mem src k) else s.mem t k := by
  induction n generalizing i s with
  | zero => exact (if_neg fun h => absurd h.2.2 (by omega)).symm
  | succ n ih =>
    rw [copyRoot, ih, write_mem_of_ne _ _ (.inl hne), write_mem]
    by_cases ht : t = dest
    · by_cases hk : k = i
      · subst hk; simp [ht]
      · simp only [ht, hk, true_and, and_false, if_false]
        congr 1
        apply propext
        omega
    · simp [ht]

theorem pmapCreateVas_eq_nil {cr3Raw : BitVec 64} {res : Vas} {s : Phys}
    (h : s.free.frames = []) : pmapCreateVas cr3Raw res s = (-1, res, s) := by
  simp [pmapCreateVas, vmAllocPageframe_eq_nil h]

theorem pmapCreateVas_eq_cons {cr3Raw : BitVec 64} {res : Vas} {s : Phys} {f : BitVec 64}
    {rest : List (BitVec 64)} (h : s.free.frames = f :: rest) :
    pmapCreateVas cr3Raw res s =
      (0, ⟨f, 0, false, 0⟩, copyRoot (pmapReadVas cr3Raw).topLevel f 0 512 s.pop) := by
  have hf0 : f ≠ 0 := (s.free.aligned f (by simp [h])).1
  simp [pmapCreateVas, vmAllocPageframe_eq_cons h]
  exact hf0

theorem install_mem_of_present {s : Phys} {T f u : BitVec 64} {j i : Nat}
    (hT : present (s.mem T j) = false) (hu : u ≠ f) (hi : present (s.mem u i)) :
    (install s T j f).mem u i = s.mem u i := by
  rw [install_mem, if_neg (fun ⟨e1, e2⟩ => by subst e1 e2; simp_all), if_neg hu]

theorem root_ne_of_tableAt {s : Phys} {R R' T : BitVec 64} {path : List Nat}
    (hc : Compat s R R') (hlen : path.length = 3) (hv : Valid path)
    (hT : tableAt s R path = some T) : R' ≠ T := fun e => by
  have := hc path [] T hv valid_nil hT (by rw [e]; rfl)
  simp [this] at hlen

/-- Switching to a space `pmap_create_vas` made and reading CR3 back gives that space. -/
theorem pmapReadVas_switch_created {cr3Raw : BitVec 64} {res N : Vas} {s s1 : Phys}
    (h : pmapCreateVas cr3Raw res s = (0, N, s1)) : pmapReadVas (pmapSwitchVas N) = N := by
  cases hf : s.free.frames with
  | nil => rw [pmapCreateVas_eq_nil hf] at h; simp at h
  | cons f rest =>
    rw [pmapCreateVas_eq_cons hf, Prod.mk.injEq, Prod.mk.injEq] at h
    obtain ⟨-, rfl, -⟩ := h
    exact pmapReadVas_pmapSwitchVas (aligned_of_head hf) (by simp) rfl rfl

theorem pmapReadVas_switch_created_example :
    ∃ N s1, pmapCreateVas 0x1000#64 emptyVas emptyPhys = (0, N, s1) ∧
      pmapReadVas (pmapSwitchVas N) = N :=
  ⟨_, _, rfl, @pmapReadVas_switch_created 0x1000#64 emptyVas _ emptyPhys _ rfl⟩

/-- Two trees sharing the subtrees under the root indices `S`: the roots agree and are
present there, and a table of both trees sits at one path in each, below a shared index. -/
structure Shared (s : Phys) (K N : BitVec 64) (S : Nat → Prop) : Prop where
  wf_left : WellFormed s K
  wf_right : WellFormed s N
  cross : ∀ p q t, Valid p → Valid q → tableAt s K p = some t → tableAt s N q = some t →
    p = q ∧ ∃ a r, p = a :: r ∧ S a
  root : ∀ a, S a → s.mem N a = s.mem K a ∧ present (s.mem K a)

section Shared

variable {s : Phys} {K N : BitVec 64} {S : Nat → Prop}

theorem Shared.compat (h : Shared s K N S) : Compat s K N :=
  fun p q t hp hq hK hN => (h.cross p q t hp hq hK hN).1

theorem Shared.symm (h : Shared s K N S) : Shared s N K S := by
  refine ⟨h.wf_right, h.wf_left, fun p q t hp hq hN hK => ?_, fun a ha => ?_⟩
  · obtain ⟨rfl, hr⟩ := h.cross q p t hq hp hK hN
    exact ⟨rfl, hr⟩
  · obtain ⟨he, hpr⟩ := h.root a ha
    exact ⟨he.symm, he ▸ hpr⟩

theorem translation_shared (h : Shared s K N S) {va : BitVec 64} (ha : S (idx 4 va)) :
    translation s N va = translation s K va := by
  unfold translation upper
  rw [tableAt_cons s N, tableAt_cons s K, (h.root _ ha).1]

theorem shared_grow {T f : BitVec 64} {j : Nat} {rest : List (BitVec 64)}
    (hT : present (s.mem T j) = false) (hf : s.free.frames = f :: rest) (h : Shared s K N S) :
    Shared (install s.pop T j f) K N S := by
  have hfree : f ∈ s.free.frames := by simp [hf]
  refine ⟨wellFormed_grow hT hf h.wf_left, wellFormed_grow hT hf h.wf_right,
    fun p q t hp hq hK hN => ?_, fun a ha => ?_⟩
  · rcases tableAt_grow hT hf h.wf_left.not_free hp with e | ⟨p0, rfl, hp0, e⟩ <;>
      rcases tableAt_grow hT hf h.wf_right.not_free hq with e' | ⟨q0, rfl, hq0, e'⟩
    · exact h.cross p q t hp hq (e ▸ hK) (e' ▸ hN)
    · exact absurd hfree (h.wf_left.not_free p f hp (by rw [← e, hK, ← hN, e']))
    · exact absurd hfree (h.wf_right.not_free q f hq (by rw [← e', hN, ← hK, e]))
    · obtain ⟨rfl, a, r, rfl, ha⟩ := h.cross p0 q0 T
        (valid_of_isPrefixOf (List.prefix_append _ _) hp)
        (valid_of_isPrefixOf (List.prefix_append _ _) hq) hp0 hq0
      exact ⟨rfl, a, r ++ [j], rfl, ha⟩
  · obtain ⟨he, hpr⟩ := h.root a ha
    have hKf : K ≠ f := fun e => h.wf_left.not_free [] K valid_nil rfl (e ▸ hfree)
    have hNf : N ≠ f := fun e => h.wf_right.not_free [] N valid_nil rfl (e ▸ hfree)
    rw [install_mem_of_present (s := s.pop) hT hNf (he ▸ hpr),
      install_mem_of_present (s := s.pop) hT hKf hpr]
    exact ⟨he, hpr⟩

theorem shared_write_leaf {T : BitVec 64} {path : List Nat} (h : Shared s K N S)
    (hlen : path.length = 3) (hv : Valid path) (hT : tableAt s K path = some T) (i : Nat)
    (v : BitVec 64) : Shared (s.write T i v) K N S := by
  have eK := fun {p} (hp : Valid p) => tableAt_write_leaf h.wf_left.inj hlen hv hT i v hp
  have eN := fun {p} (hp : Valid p) => tableAt_write_leaf h.compat hlen hv hT i v hp
  refine ⟨wellFormed_write_leaf h.wf_left h.wf_left.inj hlen hv hT i v,
    wellFormed_write_leaf h.wf_right h.compat hlen hv hT i v,
    fun p q t hp hq hK hN => h.cross p q t hp hq (eK hp ▸ hK) (eN hq ▸ hN), fun a ha => ?_⟩
  rw [write_mem_of_ne s v (.inl (root_ne_of_tableAt h.compat hlen hv hT)),
    write_mem_of_ne s v (.inl (root_ne_of_tableAt h.wf_left.inj hlen hv hT))]
  exact h.root a ha

theorem run_shared {vas : Vas} {o : PmapOp} {r : PmapRet} (h : Shared s vas.topLevel N S)
    (hr : o.run vas s = some r) :
    Shared r.phys vas.topLevel N S ∧ ∀ va, translation r.phys N va ≠ translation s N va →
      page va = page o.va ∧ S (idx 4 o.va) := by
  have hP : WalkInv vas.topLevel o.va fun _ _ s' =>
      Shared s' vas.topLevel N S ∧ ∀ va, translation s' N va = translation s N va :=
    walkInv_const _ _ _ fun _ _ _ _ _ _ hpre _ ht hT hf ⟨hsh, htr⟩ =>
      ⟨shared_grow hT hf hsh, fun va => (translation_grow hT hf hsh.wf_right.not_free va
        (tableAt_upper_ne hsh.compat hpre ht va)).trans (htr va)⟩
  rcases run_spec hP h.wf_left ⟨h, fun _ => rfl⟩ hr with
    ⟨-, -, he⟩ | ⟨-, -, T, s', v, hT, -, ⟨hsh, htr⟩, he⟩
  · rw [he]
    exact ⟨h, fun va hne => absurd rfl hne⟩
  · have hU : (upper o.va).length = 3 := by simp [upper]
    rw [he]
    refine ⟨shared_write_leaf hsh hU (valid_upper _) hT _ _, fun va hne => ?_⟩
    rw [translation_write_leaf hsh.compat hU (valid_upper _) hT, ← htr va] at hne
    by_cases hc : tableAt s' N (upper va) = some T ∧ idx 1 va = idx 1 o.va
    · obtain ⟨e, a, q, hq, ha⟩ := hsh.cross _ _ _ (valid_upper _) (valid_upper _) hT hc.1
      refine ⟨by rw [page, page, e, hc.2], ?_⟩
      simp only [upper, List.cons.injEq] at hq
      exact hq.1 ▸ ha
    · exact absurd (if_neg hc) hne

end Shared

section Create

variable {s0 : Phys} {K f : BitVec 64} {rest : List (BitVec 64)}

theorem copyRoot_mem_of_ne (hKf : K ≠ f) {u : BitVec 64} (hu : u ≠ f) (j : Nat) :
    (copyRoot K f 0 512 s0.pop).mem u j = s0.mem u j := by
  rw [copyRoot_mem hKf, if_neg (fun h => hu h.1), pop_mem]

theorem copyRoot_mem_head (hKf : K ≠ f) {a : Nat} (ha : a < 512) :
    (copyRoot K f 0 512 s0.pop).mem f a = if a < 256 then 0 else s0.mem K a := by
  rw [copyRoot_mem hKf, if_pos ⟨rfl, Nat.zero_le _, ha⟩, pop_mem]

theorem ne_head_of_tableAt (hwf : WellFormed s0 K) (hf : s0.free.frames = f :: rest)
    {p : List Nat} {u : BitVec 64} (hp : Valid p) (hu : tableAt s0 K p = some u) : u ≠ f :=
  fun e => hwf.not_free p u hp hu (by simp [hf, e])

theorem tableAt_copyRoot_old (hwf : WellFormed s0 K) (hf : s0.free.frames = f :: rest)
    {p : List Nat} (hp : Valid p) : tableAt (copyRoot K f 0 512 s0.pop) K p = tableAt s0 K p :=
  tableAt_congr K p fun _ j _ hq hu => copyRoot_mem_of_ne (ne_head_of_tableAt hwf hf valid_nil rfl)
    (ne_head_of_tableAt hwf hf (valid_of_isPrefixOf ((List.prefix_append _ _).trans hq) hp) hu) j

theorem translation_copyRoot_old (hwf : WellFormed s0 K) (hf : s0.free.frames = f :: rest)
    (va : BitVec 64) : translation (copyRoot K f 0 512 s0.pop) K va = translation s0 K va := by
  unfold translation
  rw [tableAt_copyRoot_old hwf hf (valid_upper va)]
  cases ht : tableAt s0 K (upper va) with
  | none => simp only [Option.none_bind]
  | some t =>
    simp only [Option.some_bind, copyRoot_mem_of_ne (ne_head_of_tableAt hwf hf valid_nil rfl)
      (ne_head_of_tableAt hwf hf (valid_upper va) ht)]

theorem tableAt_copyRoot_new (hwf : WellFormed s0 K) (hf : s0.free.frames = f :: rest)
    {a : Nat} {r : List Nat} (hp : Valid (a :: r)) :
    tableAt (copyRoot K f 0 512 s0.pop) f (a :: r) =
      if 256 ≤ a then tableAt s0 K (a :: r) else none := by
  have hKf := ne_head_of_tableAt hwf hf valid_nil rfl
  rw [tableAt_cons, copyRoot_mem_head hKf (hp.2 a (by simp))]
  by_cases ha : a < 256
  · simp [ha, show ¬256 ≤ a by omega]
  · rw [if_neg ha, if_pos (show 256 ≤ a by omega), ← copyRoot_mem_of_ne hKf hKf, ← tableAt_cons,
      tableAt_copyRoot_old hwf hf hp]

theorem tableAt_copyRoot_eq_some (hwf : WellFormed s0 K) (hf : s0.free.frames = f :: rest)
    {p : List Nat} (hp : Valid p) {t : BitVec 64} :
    tableAt (copyRoot K f 0 512 s0.pop) f p = some t ↔
      p = [] ∧ t = f ∨ ∃ a r, p = a :: r ∧ 256 ≤ a ∧ tableAt s0 K p = some t := by
  cases p with
  | nil => simp [eq_comm]
  | cons a r =>
    rw [tableAt_copyRoot_new hwf hf hp]
    by_cases ha : 256 ≤ a <;> simp [ha]

theorem shared_copyRoot (hwf : WellFormed s0 K) (hf : s0.free.frames = f :: rest) :
    Shared (copyRoot K f 0 512 s0.pop) K f fun a => 256 ≤ a ∧ a < 512 ∧ present (s0.mem K a) := by
  have hKf := ne_head_of_tableAt hwf hf valid_nil rfl
  have hfr : (copyRoot K f 0 512 s0.pop).free.frames = rest := by simp [copyRoot_free, hf]
  have hsub : ∀ {u}, u ∈ rest → u ∈ s0.free.frames := fun hu => by simp [hf, hu]
  have hold := fun {p} (hp : Valid p) => tableAt_copyRoot_old hwf hf hp
  have hnew := fun {p} (hp : Valid p) {t} => (tableAt_copyRoot_eq_some hwf hf hp (t := t)).1
  refine ⟨⟨fun p q t hp hq hpt hqt => hwf.inj p q t hp hq (hold hp ▸ hpt) (hold hq ▸ hqt),
    fun p t hp ht hmem => hwf.not_free p t hp (hold hp ▸ ht) (hsub (hfr ▸ hmem)),
    fun p t i hp hlen ht hi hpr => ?_⟩, ⟨fun p q t hp hq hpt hqt => ?_, fun p t hp ht hmem => ?_,
    fun p t i hp hlen ht hi hpr => ?_⟩, fun p q t hp hq hK hN => ?_, fun a ⟨h256, h512, hpr⟩ => ?_⟩
  · rw [hold hp] at ht
    rw [copyRoot_mem_of_ne hKf (ne_head_of_tableAt hwf hf hp ht)] at hpr ⊢
    exact hwf.no_huge p t i hp hlen ht hi hpr
  · rcases hnew hp hpt with ⟨rfl, rfl⟩ | ⟨a, r, rfl, -, hpt'⟩ <;>
      rcases hnew hq hqt with ⟨rfl, e⟩ | ⟨b, r', rfl, -, hqt'⟩
    · rfl
    · exact absurd rfl (ne_head_of_tableAt hwf hf hq hqt')
    · exact absurd e (ne_head_of_tableAt hwf hf hp hpt')
    · exact hwf.inj _ _ t hp hq hpt' hqt'
  · rw [hfr] at hmem
    rcases hnew hp ht with ⟨-, rfl⟩ | ⟨a, r, -, -, ht'⟩
    · have hnd := s0.free.nodup
      rw [hf] at hnd
      exact (List.nodup_cons.1 hnd).1 hmem
    · exact hwf.not_free p t hp ht' (hsub hmem)
  · rcases hnew hp ht with ⟨rfl, rfl⟩ | ⟨a, r, -, -, ht'⟩
    · rw [copyRoot_mem_head hKf hi] at hpr ⊢
      by_cases hi' : i < 256
      · simp [hi'] at hpr
      · rw [if_neg hi'] at hpr ⊢
        exact hwf.no_huge [] K i valid_nil hlen rfl hi hpr
    · rw [copyRoot_mem_of_ne hKf (ne_head_of_tableAt hwf hf hp ht')] at hpr ⊢
      exact hwf.no_huge p t i hp hlen ht' hi hpr
  · rw [hold hp] at hK
    rcases hnew hq hN with ⟨rfl, rfl⟩ | ⟨a, r, rfl, ha, hN'⟩
    · exact absurd rfl (ne_head_of_tableAt hwf hf hp hK)
    · obtain rfl := hwf.inj _ _ t hp hq hK hN'
      exact ⟨rfl, a, r, rfl, ha, hq.2 a (by simp), present_of_tableAt_cons hN'⟩
  · rw [copyRoot_mem_head hKf h512, if_neg (by omega), copyRoot_mem_of_ne hKf hKf]
    exact ⟨rfl, hpr⟩

end Create

def OpStep (K N : Vas) (s s' : Phys) : Prop :=
  ∃ (vas : Vas) (o : PmapOp) (r : PmapRet), (vas = K ∨ vas = N) ∧ o.run vas s = some r ∧
    s' = r.phys

theorem shared_of_reachable {K N : Vas} {s s' : Phys} {S : Nat → Prop}
    (h : Shared s K.topLevel N.topLevel S) (hs : Relation.ReflTransGen (OpStep K N) s s') :
    Shared s' K.topLevel N.topLevel S := by
  induction hs with
  | refl => exact h
  | tail _ hstep ih =>
    obtain ⟨vas, o, r, rfl | rfl, hr, rfl⟩ := hstep
    · exact (run_shared ih hr).1
    · exact (run_shared ih.symm hr).1.symm

/-- `pmap_create_vas` copies the kernel half of the active address space and leaves the user
half empty. From then on, whatever mix of map, unmap and cache changes runs on the two spaces,
they translate alike every address under a root entry that was present at creation, and an
operation on one space changes the other's translation only at its own page there. -/
theorem pmap_create_vas_shares_upper_half (cr3Raw : BitVec 64) (res : Vas) (s0 : Phys)
    (hwf : WellFormed s0 (pmapReadVas cr3Raw).topLevel) :
    (s0.free.frames = [] → pmapCreateVas cr3Raw res s0 = (-1, res, s0)) ∧
    ∀ N s1, pmapCreateVas cr3Raw res s0 = (0, N, s1) →
      N.topLevel ≠ (pmapReadVas cr3Raw).topLevel ∧
      (∀ i < 256, s1.mem N.topLevel i = 0) ∧
      (∀ i, 256 ≤ i → i < 512 → s1.mem N.topLevel i = s1.mem (pmapReadVas cr3Raw).topLevel i) ∧
      (∀ va, idx 4 va < 256 → translation s1 N.topLevel va = none) ∧
      ∀ s, Relation.ReflTransGen (OpStep (pmapReadVas cr3Raw) N) s1 s →
        (∀ va, 256 ≤ idx 4 va → present (s0.mem (pmapReadVas cr3Raw).topLevel (idx 4 va)) →
          translation s N.topLevel va = translation s (pmapReadVas cr3Raw).topLevel va) ∧
        ∀ X Y, X = pmapReadVas cr3Raw ∧ Y = N ∨ X = N ∧ Y = pmapReadVas cr3Raw →
          ∀ (o : PmapOp) (r : PmapRet), o.run X s = some r → ∀ va,
            translation r.phys Y.topLevel va ≠ translation s Y.topLevel va →
            page va = page o.va ∧ 256 ≤ idx 4 o.va ∧
              present (s0.mem (pmapReadVas cr3Raw).topLevel (idx 4 o.va)) := by
  refine ⟨pmapCreateVas_eq_nil, fun N s1 h => ?_⟩
  cases hf : s0.free.frames with
  | nil =>
    rw [pmapCreateVas_eq_nil hf] at h
    simp at h
  | cons f rest =>
    rw [pmapCreateVas_eq_cons hf, Prod.mk.injEq, Prod.mk.injEq] at h
    obtain ⟨-, rfl, rfl⟩ := h
    have hKf := ne_head_of_tableAt hwf hf valid_nil rfl
    have hsh := shared_copyRoot hwf hf
    refine ⟨hKf.symm, fun i hi => by rw [copyRoot_mem_head hKf (by omega), if_pos hi],
      fun i h1 h2 => by rw [copyRoot_mem_head hKf h2, if_neg (by omega), copyRoot_mem_of_ne hKf hKf],
      fun va hva => ?_, fun s hs => ?_⟩
    · unfold translation upper
      rw [tableAt_copyRoot_new hwf hf (valid_upper va), if_neg (by omega)]
      rfl
    · have hs' := shared_of_reachable hsh hs
      refine ⟨fun va h1 h2 => translation_shared hs' ⟨h1, idx_lt 4 va, h2⟩,
        fun X Y hXY o r hr va hne => ?_⟩
      rcases hXY with ⟨rfl, rfl⟩ | ⟨rfl, rfl⟩
      · obtain ⟨hp, h1, -, h2⟩ := (run_shared hs' hr).2 va hne
        exact ⟨hp, h1, h2⟩
      · obtain ⟨hp, h1, -, h2⟩ := (run_shared hs'.symm hr).2 va hne
        exact ⟨hp, h1, h2⟩

def kernelPhys : Phys :=
  ⟨fun _ _ => 0, ⟨[0x2000#64, 0x3000#64, 0x4000#64, 0x5000#64], by simp, by simp [pteAddrMask]⟩⟩

theorem pmap_create_vas_shares_upper_half_example :
    ∃ r, pmapMap emptyVas 0xFFFF800000000000#64 0x100000#64 ⟨true, false, false⟩ kernelPhys =
        some r ∧ WellFormed r.phys (pmapReadVas 0x1000#64).topLevel ∧
      ∃ N s1, pmapCreateVas 0x1000#64 emptyVas r.phys = (0, N, s1) ∧
        translation s1 N.topLevel 0xFFFF800000000000#64 =
          translation s1 (pmapReadVas 0x1000#64).topLevel 0xFFFF800000000000#64 ∧
        translation s1 N.topLevel 0xFFFF800000000000#64 = some 0x100003#64 := by
  have hK : (pmapReadVas 0x1000#64).topLevel = emptyVas.topLevel := by decide
  have hwf0 : WellFormed kernelPhys emptyVas.topLevel :=
    wellFormed_of_empty (fun _ _ => present_zero) (by simp [kernelPhys, emptyVas])
  obtain ⟨r, hr⟩ : ∃ r, pmapMap emptyVas 0xFFFF800000000000#64 0x100000#64 ⟨true, false, false⟩
      kernelPhys = some r := ⟨_, rfl⟩
  have hwf : WellFormed r.phys (pmapReadVas 0x1000#64).topLevel := by
    rw [hK]; exact run_frame (o := .map 0xFFFF800000000000#64 0x100000#64 ⟨true, false, false⟩)
      hwf0 hr |>.1
  have hfr : r.phys.free.frames = [0x5000#64] := by cases hr; rfl
  have hc := @pmapCreateVas_eq_cons 0x1000#64 emptyVas r.phys _ _ hfr
  have hsh := (((pmap_create_vas_shares_upper_half _ _ _ hwf).2 _ _ hc).2.2.2.2 _ .refl).1
    0xFFFF800000000000#64 (by decide) (by cases hr; decide)
  refine ⟨r, hr, hwf, _, _, hc, hsh, ?_⟩
  rw [hsh, translation_copyRoot_old hwf hfr]
  cases hr
  decide

end Hyra.AddressSpace
