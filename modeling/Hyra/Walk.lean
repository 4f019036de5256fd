import Hyra.Memory

namespace Hyra.Walk

open Pte Memory Phys

/-- Modelled from the spec: `struct vas` is declared in a header that is not among the
sources; these are the fields `pmap.c` reads and writes. -/
structure Vas where
  topLevel : BitVec 64
  cr3Flags : BitVec 64
  useL5Paging : Bool
  lock : Nat

def install (s : Phys) (pmap : BitVec 64) (i : Nat) (levelAlloc : BitVec 64) : Phys :=
  (s.zero levelAlloc).write pmap i (levelAlloc ||| (pteP ||| pteRw ||| pteUs))

/-- Walk one level. `none` is the kernel halting on the assertion that the frame
allocation succeeded; `some (none, s)` is the NULL return. -/
def pmapExtract (level : Nat) (va pmap : BitVec 64) (allocate : Bool) (s : Phys) :
    Option (Option (BitVec 64) × Phys) :=
  if present (s.mem pmap (idx level va)) then
    some (some (s.mem pmap (idx level va) &&& pteAddrMask), s)
  else if !allocate then some (none, s)
  else
    match vmAllocPageframe s with
    | (levelAlloc, s) =>
      if levelAlloc = 0 then none else some (some levelAlloc, install s pmap (idx level va) levelAlloc)

/-- The calls of `pmap_get_tbl` to `pmap_extract`, one per level in order, stopping at the
first NULL. -/
def walk (va : BitVec 64) (alloc : Bool) : List Nat → BitVec 64 → Phys →
    Option (Option (BitVec 64) × Phys)
  | [], tbl, s => some (some tbl, s)
  | level :: levels, pmap, s =>
    match pmapExtract level va pmap alloc s with
    | some (some next, s) => walk va alloc levels next s
    | r => r

def pmapGetTbl (vas : Vas) (va : BitVec 64) (alloc : Bool) (s : Phys) :
    Option (Option (BitVec 64) × Phys) :=
  walk va alloc [4, 3, 2] vas.topLevel s

/-- The table reached from table `t` through the present entries at the indices `p`. -/
def tableAt (s : Phys) (t : BitVec 64) : List Nat → Option (BitVec 64)
  | [] => some t
  | i :: p => if present (s.mem t i) then tableAt s (s.mem t i &&& pteAddrMask) p else none

/-- The leaf entry the hardware uses for `va`: every level present, and the leaf too. -/
def translation (s : Phys) (root va : BitVec 64) : Option (BitVec 64) :=
  (tableAt s root (upper va)).bind fun t =>
    if present (s.mem t (idx 1 va)) then some (s.mem t (idx 1 va)) else none

def Valid (p : List Nat) : Prop := p.length ≤ 3 ∧ ∀ i ∈ p, i < 512

@[simp] theorem tableAt_nil (s : Phys) (t : BitVec 64) : tableAt s t [] = some t := rfl

theorem tableAt_cons (s : Phys) (t : BitVec 64) (i : Nat) (p : List Nat) :
    tableAt s t (i :: p) =
      if present (s.mem t i) then tableAt s (s.mem t i &&& pteAddrMask) p else none := rfl

theorem present_of_tableAt_cons {s : Phys} {t u : BitVec 64} {i : Nat} {p : List Nat}
    (h : tableAt s t (i :: p) = some u) : present (s.mem t i) := by
  by_contra hc
  simp [tableAt_cons, hc] at h

theorem tableAt_append (s : Phys) (t : BitVec 64) (p q : List Nat) :
    tableAt s t (p ++ q) = (tableAt s t p).bind (tableAt s · q) := by
  induction p generalizing t with
  | nil => rfl
  | cons i p ih => by_cases h : present (s.mem t i) <;> simp [tableAt_cons, h, ih]

theorem tableAt_singleton (s : Phys) (t : BitVec 64) (i : Nat) :
    tableAt s t [i] = if present (s.mem t i) then some (s.mem t i &&& pteAddrMask) else none := by
  by_cases h : present (s.mem t i) <;> simp [tableAt_cons, h]

theorem tableAt_concat (s : Phys) (t : BitVec 64) (p : List Nat) (i : Nat) :
    tableAt s t (p ++ [i]) = (tableAt s t p).bind fun u =>
      if present (s.mem u i) then some (s.mem u i &&& pteAddrMask) else none := by
  simp [tableAt_append, tableAt_singleton]

theorem tableAt_congr {s s' : Phys} (t : BitVec 64) (p : List Nat)
    (h : ∀ q j u, q ++ [j] <+: p → tableAt s t q = some u → s'.mem u j = s.mem u j) :
    tableAt s' t p = tableAt s t p := by
  induction p generalizing t with
  | nil => rfl
  | cons i p ih =>
    have hi : s'.mem t i = s.mem t i := h [] i t (by simp) rfl
    rw [tableAt_cons, tableAt_cons, hi]
    split
    · exact ih _ fun q j u hq hu => h (i :: q) j u (by simpa using hq) (by
        rwa [tableAt_cons, if_pos ‹_›])
    · rfl

theorem valid_nil : Valid [] := ⟨Nat.zero_le _, fun _ h => absurd h (List.not_mem_nil _)⟩

theorem valid_of_isPrefixOf {p q : List Nat} (hq : q <+: p) (hp : Valid p) : Valid q :=
  ⟨(hq.length_le).trans hp.1, fun i hi => hp.2 i (hq.subset hi)⟩

theorem valid_upper (va : BitVec 64) : Valid (upper va) :=
  ⟨by simp [upper], by simp [upper, idx_lt]⟩

theorem pmapExtract_present {level : Nat} {va pmap : BitVec 64} (allocate : Bool) {s : Phys}
    (h : present (s.mem pmap (idx level va))) :
    pmapExtract level va pmap allocate s =
      some (some (s.mem pmap (idx level va) &&& pteAddrMask), s) := by
  simp [pmapExtract, h]

theorem pmapExtract_false (level : Nat) (va pmap : BitVec 64) (s : Phys) :
    pmapExtract level va pmap false s = some (tableAt s pmap [idx level va], s) := by
  by_cases h : present (s.mem pmap (idx level va)) <;> simp [pmapExtract, h, tableAt_singleton]

theorem pmapExtract_alloc {level : Nat} {va pmap f : BitVec 64} {rest : List (BitVec 64)}
    {s : Phys} (h : present (s.mem pmap (idx level va)) = false) (hf : s.free.frames = f :: rest) :
    pmapExtract level va pmap true s =
      some (some f, install s.pop pmap (idx level va) f) := by
  have hf0 : f ≠ 0 := (s.free.aligned f (by simp [hf])).1
  simp [pmapExtract, h, vmAllocPageframe_eq_cons hf]
  exact hf0

theorem pmapExtract_halt {level : Nat} {va pmap : BitVec 64} {s : Phys}
    (h : present (s.mem pmap (idx level va)) = false) (hf : s.free.frames = []) :
    pmapExtract level va pmap true s = none := by
  simp [pmapExtract, h, vmAllocPageframe_eq_nil hf]

theorem walk_false (va : BitVec 64) (levels : List Nat) (t : BitVec 64) (s : Phys) :
    walk va false levels t s = some (tableAt s t (levels.map (idx · va)), s) := by
  induction levels generalizing t with
  | nil => rfl
  | cons level levels ih =>
    by_cases h : present (s.mem t (idx level va)) <;>
      simp [walk, pmapExtract_false, tableAt_singleton, tableAt_cons, h, ih]

theorem walk_of_tableAt (va : BitVec 64) (alloc : Bool) (levels : List Nat) {t T : BitVec 64}
    {s : Phys} (h : tableAt s t (levels.map (idx · va)) = some T) :
    walk va alloc levels t s = some (some T, s) := by
  induction levels generalizing t with
  | nil => exact congrArg (fun t => some (some t, s)) (Option.some.inj h)
  | cons level levels ih =>
    by_cases hp : present (s.mem t (idx level va))
    · simp only [List.map_cons, tableAt_cons, hp, if_true] at h
      rw [walk, pmapExtract_present alloc hp]
      exact ih h
    · simp [tableAt_cons, hp] at h

theorem pmapGetTbl_false (vas : Vas) (va : BitVec 64) (s : Phys) :
    pmapGetTbl vas va false s = some (tableAt s vas.topLevel (upper va), s) :=
  walk_false va [4, 3, 2] vas.topLevel s

/-- The non-allocating `pmap_get_tbl` writes no entry and takes no frame, and where it finds a
leaf table the allocating one finds the same table and changes nothing either. -/
theorem pmap_get_tbl_modes_agree (vas : Vas) (va : BitVec 64) (s : Phys) :
    (∃ r, pmapGetTbl vas va false s = some (r, s)) ∧
      ∀ T s', pmapGetTbl vas va false s = some (some T, s') →
        pmapGetTbl vas va true s = some (some T, s) := by
  refine ⟨⟨_, pmapGetTbl_false vas va s⟩, fun T s' h => ?_⟩
  rw [pmapGetTbl_false, Option.some.injEq, Prod.mk.injEq] at h
  exact walk_of_tableAt va true [4, 3, 2] h.1

@[simp] theorem install_free (s : Phys) (pmap : BitVec 64) (i : Nat) (f : BitVec 64) :
    (install s pmap i f).free = s.free := rfl

theorem walk_true_isSome (va : BitVec 64) (levels : List Nat) (t : BitVec 64) (s : Phys)
    (h : levels.length ≤ s.free.frames.length) :
    ∃ T s', walk va true levels t s = some (some T, s') := by
  induction levels generalizing t s with
  | nil => exact ⟨t, s, rfl⟩
  | cons level levels ih =>
    by_cases hpr : present (s.mem t (idx level va))
    · rw [walk, pmapExtract_present true hpr]
      exact ih _ _ (by simp at h; omega)
    · have hpr' : present (s.mem t (idx level va)) = false := by simpa using hpr
      cases hf : s.free.frames with
      | nil => simp [hf] at h
      | cons f rest =>
        rw [walk, pmapExtract_alloc hpr' hf]
        exact ih _ _ (by simp [hf] at h ⊢; omega)

end Hyra.Walk
