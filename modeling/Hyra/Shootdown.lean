import Mathlib.Logic.Relation
import Hyra.TreeInvariant

namespace Hyra.Shootdown

open Pte Memory Phys Walk Tree Mapping TreeInvariant

variable {n : Nat}

/-- The machine: the page tables and, for each core, its TLB (cached leaf entries by
address), its `tlb_flush_ptr` slot, the count of its `tlb_shootdown` interrupt record (`none`
while the record is NULL) and whether a shootdown IPI waits in its local APIC. -/
structure Smp (n : Nat) where
  phys : Phys
  tlb : Fin n → BitVec 64 → Option (BitVec 64)
  tlbFlushPtr : Fin n → BitVec 64
  tlbShootdown : Fin n → Option Nat
  pending : Fin n → Bool

/-- Modelled from the spec: `tlb_flush(va)` (`invlpg`) drops the cached translations of
`va`'s page. -/
def tlbFlush (tlb : BitVec 64 → Option (BitVec 64)) (va : BitVec 64) :
    BitVec 64 → Option (BitVec 64) :=
  fun va' => if page va' = page va then none else tlb va'

def tlbShootdown (c : Fin n) (flushVa : BitVec 64) (st : Smp n) : Smp n :=
  { st with
    tlbFlushPtr := (List.finRange n).foldl
      (fun slots ci => if ci = c then slots else Function.update slots ci flushVa) st.tlbFlushPtr
    pending := fun d => if d = c then st.pending d else true }

def pmapFlush (c : Fin n) (va : BitVec 64) (st : Smp n) : Smp n :=
  let st := if 1 < n then tlbShootdown c va st else st
  { st with tlb := Function.update st.tlb c (tlbFlush (st.tlb c) va) }

def tlbShootdownIsr (d : Fin n) (st : Smp n) : Smp n :=
  { st with
    tlbShootdown := Function.update st.tlbShootdown d (some ((st.tlbShootdown d).getD 0 + 1))
    tlb := Function.update st.tlb d (tlbFlush (st.tlb d) (st.tlbFlushPtr d))
    tlbFlushPtr := Function.update st.tlbFlushPtr d 0 }

inductive Event (n : Nat)
  | fill (d : Fin n) (va : BitVec 64)
  | change (c : Fin n) (o : PmapOp)
  | deliver (d : Fin n)

/-- One event on the machine running in the address space `vas`; `none` when it cannot happen
or the kernel halts. A mapping operation that wrote a leaf calls `pmap_flush` on its address;
taking the IPI clears its pending bit and runs the handler. -/
def next (vas : Vas) (st : Smp n) : Event n → Option (Smp n)
  | .fill d va => (translation st.phys vas.topLevel va).map fun e =>
      { st with tlb := Function.update st.tlb d (Function.update (st.tlb d) va (some e)) }
  | .change c o => (o.run vas st.phys).map fun r =>
      if r.flushed then pmapFlush c o.va { st with phys := r.phys } else { st with phys := r.phys }
  | .deliver d =>
      if st.pending d then
        some (tlbShootdownIsr d { st with pending := Function.update st.pending d false })
      else none

def Step (vas : Vas) (guard : Smp n → Event n → Prop) (st st' : Smp n) : Prop :=
  ∃ ev, guard st ev ∧ next vas st ev = some st'

def Smp.init (phys : Phys) : Smp n :=
  ⟨phys, fun _ _ => none, fun _ => 0, fun _ => none, fun _ => false⟩

def runEvents (vas : Vas) : List (Event n) → Smp n → Option (Smp n)
  | [], st => some st
  | ev :: evs, st => (next vas st ev).bind (runEvents vas evs)

theorem reachable_of_runEvents {vas : Vas} {evs : List (Event n)} {st st' : Smp n}
    (h : runEvents vas evs st = some st') :
    Relation.ReflTransGen (Step vas fun _ _ => True) st st' := by
  induction evs generalizing st with
  | nil => cases h; exact .refl
  | cons ev evs ih =>
    obtain ⟨st1, h1, h2⟩ := Option.bind_eq_some.1 h
    exact .head ⟨ev, trivial, h1⟩ (ih h2)

theorem tlbFlush_eq_some {tlb : BitVec 64 → Option (BitVec 64)} {va va' e : BitVec 64} :
    tlbFlush tlb va va' = some e ↔ page va' ≠ page va ∧ tlb va' = some e := by
  unfold tlbFlush
  split <;> simp_all

theorem foldl_slots (c : Fin n) (va : BitVec 64) (l : List (Fin n))
    (slots : Fin n → BitVec 64) (d : Fin n) :
    l.foldl (fun slots ci => if ci = c then slots else Function.update slots ci va) slots d =
      if d ∈ l ∧ d ≠ c then va else slots d := by
  induction l generalizing slots with
  | nil => simp
  | cons ci l ih =>
    rw [List.foldl_cons, ih]
    by_cases h2 : ci = c
    · subst h2
      by_cases hd : d = ci <;> simp [hd]
    · by_cases hd : d = ci
      · subst hd
        simp [h2]
      · simp [hd, h2, Function.update_noteq hd]

@[simp] theorem pmapFlush_phys (c : Fin n) (va : BitVec 64) (st : Smp n) :
    (pmapFlush c va st).phys = st.phys := by
  unfold pmapFlush tlbShootdown; split <;> rfl

theorem pmapFlush_tlb (c : Fin n) (va : BitVec 64) (st : Smp n) (d : Fin n) :
    (pmapFlush c va st).tlb d = if d = c then tlbFlush (st.tlb c) va else st.tlb d := by
  unfold pmapFlush tlbShootdown
  split <;> simp [Function.update_apply]

theorem pmapFlush_pending (c : Fin n) (va : BitVec 64) (st : Smp n) (d : Fin n) :
    (pmapFlush c va st).pending d = if d = c then st.pending d else true := by
  unfold pmapFlush tlbShootdown
  split
  · rfl
  · have : d = c := Fin.ext (by omega)
    simp [this]

theorem pmapFlush_tlbFlushPtr (c : Fin n) (va : BitVec 64) (st : Smp n) (d : Fin n) :
    (pmapFlush c va st).tlbFlushPtr d = if d = c then st.tlbFlushPtr d else va := by
  unfold pmapFlush tlbShootdown
  split
  · simp only [foldl_slots, List.mem_finRange, true_and]
    by_cases hd : d = c <;> simp [hd]
  · have : d = c := Fin.ext (by omega)
    simp [this]

def Coherent (vas : Vas) (st : Smp n) : Prop :=
  ∀ d va e, st.tlb d va = some e → translation st.phys vas.topLevel va = some e ∨
    st.pending d = true ∧ page va = page (st.tlbFlushPtr d)

/-- A mapping operation on core `c` starts only while every other core's pending shootdown,
if any, is for the page it changes. -/
def SamePagePending (st : Smp n) : Event n → Prop
  | .change c o => ∀ d, d ≠ c → st.pending d = true → page (st.tlbFlushPtr d) = page o.va
  | _ => True

structure Inv (vas : Vas) (st : Smp n) : Prop where
  wf : WellFormed st.phys vas.topLevel
  coherent : Coherent vas st

theorem inv_fill {vas : Vas} {st st' : Smp n} {d : Fin n} {va : BitVec 64} (hi : Inv vas st)
    (h : next vas st (.fill d va) = some st') : Inv vas st' := by
  obtain ⟨e, he, rfl⟩ := Option.map_eq_some'.1 h
  refine ⟨hi.wf, fun d' va' e' h' => ?_⟩
  dsimp only at h' ⊢
  by_cases hd : d' = d ∧ va' = va
  · obtain ⟨rfl, rfl⟩ := hd
    simp only [Function.update_same] at h'
    exact .inl (he.trans h')
  · refine hi.coherent d' va' e' ?_
    rw [Function.update_apply] at h'
    split_ifs at h' with h1
    · subst h1
      rwa [Function.update_noteq fun h => hd ⟨rfl, h⟩] at h'
    · exact h'

theorem inv_change {vas : Vas} {st st' : Smp n} {c : Fin n} {o : PmapOp} (hi : Inv vas st)
    (hg : SamePagePending st (.change c o)) (h : next vas st (.change c o) = some st') :
    Inv vas st' := by
  obtain ⟨r, hr, rfl⟩ := Option.map_eq_some'.1 h
  obtain ⟨hwf', hfl⟩ := run_frame hi.wf hr
  have htr := fun va' (hp : page va' ≠ page o.va) => run_translation_of_page_ne hi.wf hr hp
  cases hf : r.flushed
  · simp only [hf, hfl hf]
    exact ⟨hi.wf, hi.coherent⟩
  · simp only [hf, if_true]
    refine ⟨by rw [pmapFlush_phys]; exact hwf', fun d va' e h' => ?_⟩
    rw [pmapFlush_phys, pmapFlush_pending, pmapFlush_tlbFlushPtr]
    rw [pmapFlush_tlb] at h'
    by_cases hd : d = c
    · subst hd
      simp only [if_true] at h' ⊢
      obtain ⟨hp, h'⟩ := tlbFlush_eq_some.1 h'
      rw [htr va' hp]
      exact hi.coherent d va' e h'
    · rw [if_neg hd] at h'
      rw [if_neg hd, if_neg hd]
      by_cases hp : page va' = page o.va
      · exact .inr ⟨rfl, hp⟩
      · rw [htr va' hp]
        rcases hi.coherent d va' e h' with h1 | ⟨h1, h2⟩
        · exact .inl h1
        · exact absurd (h2.trans (hg d hd h1)) hp

theorem inv_deliver {vas : Vas} {st st' : Smp n} {d : Fin n} (hi : Inv vas st)
    (h : next vas st (.deliver d) = some st') : Inv vas st' := by
  simp only [next] at h
  split at h
  · cases h
    refine ⟨hi.wf, fun d' va' e h' => ?_⟩
    simp only [tlbShootdownIsr, Function.update_apply] at h' ⊢
    by_cases hd : d' = d
    · subst hd
      simp only [if_true] at h' ⊢
      obtain ⟨hp, h'⟩ := tlbFlush_eq_some.1 h'
      rcases hi.coherent d' va' e h' with h1 | ⟨-, h2⟩
      · exact .inl h1
      · exact absurd h2 hp
    · simp only [hd, if_false] at h' ⊢
      exact hi.coherent d' va' e h'
  · cases h

theorem inv_step {vas : Vas} {st st' : Smp n} (hi : Inv vas st)
    (h : Step vas SamePagePending st st') : Inv vas st' := by
  obtain ⟨ev, hg, h⟩ := h
  cases ev with
  | fill d va => exact inv_fill hi h
  | change c o => exact inv_change hi hg h
  | deliver d => exact inv_deliver hi h

theorem next_pending_one {vas : Vas} {st st' : Smp 1} {ev : Event 1}
    (hp : ∀ d, st.pending d = false) (h : next vas st ev = some st') :
    ∀ d, st'.pending d = false := by
  cases ev with
  | fill d va =>
    obtain ⟨e, -, rfl⟩ := Option.map_eq_some'.1 h
    exact hp
  | change c o =>
    obtain ⟨r, -, rfl⟩ := Option.map_eq_some'.1 h
    intro d
    cases r.flushed
    · exact hp d
    · simp only [if_true, pmapFlush_pending, Subsingleton.elim d c]
      exact hp c
  | deliver d => simp [next, hp d] at h

/-- On a single core every interleaving of TLB fills, mapping operations and IPI deliveries
keeps the TLB coherent: every cached translation is the current one. -/
theorem tlb_coherent_one_core {vas : Vas} {phys : Phys} (hwf : WellFormed phys vas.topLevel)
    {st : Smp 1} (h : Relation.ReflTransGen (Step vas fun _ _ => True) (Smp.init phys) st) :
    WellFormed st.phys vas.topLevel ∧
      ∀ va e, st.tlb 0 va = some e → translation st.phys vas.topLevel va = some e := by
  have hi : Inv vas st ∧ ∀ d, st.pending d = false := by
    induction h with
    | refl => exact ⟨⟨hwf, fun _ _ _ h => by cases h⟩, fun _ => rfl⟩
    | @tail b _ _ hs ih =>
      obtain ⟨ev, -, hs⟩ := hs
      have hg : SamePagePending b ev := by
        cases ev with
        | change c o => exact fun d hd => absurd (Subsingleton.elim d c) hd
        | _ => trivial
      exact ⟨inv_step ih.1 ⟨ev, hg, hs⟩, next_pending_one ih.2 hs⟩
  refine ⟨hi.1.wf, fun va e he => ?_⟩
  rcases hi.1.coherent 0 va e he with h1 | ⟨h1, -⟩
  · exact h1
  · simp [hi.2 0] at h1

theorem tlb_coherent_one_core_example :
    ∃ st : Smp 1, Relation.ReflTransGen (Step emptyVas fun _ _ => True) (Smp.init emptyPhys) st ∧
      st.tlb 0 0x400000#64 = some 0x100003#64 ∧
      translation st.phys emptyVas.topLevel 0x400000#64 = some 0x100003#64 := by
  obtain ⟨st, hst⟩ : ∃ st : Smp 1, runEvents emptyVas
      [.change 0 (.map 0x400000#64 0x100000#64 ⟨true, false, false⟩), .fill 0 0x400000#64]
      (Smp.init emptyPhys) = some st := ⟨_, rfl⟩
  have hr := reachable_of_runEvents hst
  have ht : st.tlb 0 0x400000#64 = some 0x100003#64 := by cases hst; decide
  exact ⟨st, hr, ht, (tlb_coherent_one_core wellFormed_emptyPhys hr).2 _ _ ht⟩

end Hyra.Shootdown
