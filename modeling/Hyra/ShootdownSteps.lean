import Mathlib.Logic.Relation
import Hyra.Shootdown

namespace Hyra.ShootdownSteps

open Pte Memory Phys Walk Tree Mapping TreeInvariant
open Shootdown (Smp tlbFlush tlbFlush_eq_some)

variable {n : Nat}

/-- Where a core is in a mapping operation: not in one, in the loop of `tlb_shootdown` at core
index `i` (the IPI goes out once `i` reaches the core count), or before the local `tlb_flush`
of `pmap_flush`. -/
inductive OpPc
  | idle
  | loop (va : BitVec 64) (i : Nat)
  | flush (va : BitVec 64)
  deriving DecidableEq

/-- Where a core is in `tlb_shootdown_isr`: outside it, inside before `tlb_flush`, or past
`tlb_flush` before `ci->tlb_flush_ptr = 0`. -/
inductive IsrPc
  | idle
  | entered
  | flushed
  deriving DecidableEq

structure Cores (n : Nat) extends Smp n where
  op : Fin n → OpPc
  isr : Fin n → IsrPc

inductive Ev (n : Nat)
  | fill (d : Fin n) (va : BitVec 64)
  | change (c : Fin n) (o : PmapOp)
  | shoot (c : Fin n)
  | flush (c : Fin n)
  | take (d : Fin n)
  | isrFlush (d : Fin n)
  | isrClear (d : Fin n)

/-- One step in the address space `vas`; `none` when the core is not at that point of its
code or the kernel halts. -/
def stepCore (vas : Vas) (st : Cores n) : Ev n → Option (Cores n)
  | .fill d va => (translation st.phys vas.topLevel va).map fun e =>
      { st with tlb := Function.update st.tlb d (Function.update (st.tlb d) va (some e)) }
  | .change c o =>
      if st.op c = .idle ∧ st.isr c = .idle then
        (o.run vas st.phys).map fun r =>
          { st with
            phys := r.phys
            op := if r.flushed then
                Function.update st.op c (if 1 < n then .loop o.va 0 else .flush o.va)
              else st.op }
      else none
  | .shoot c =>
      match st.op c, st.isr c with
      | .loop va i, .idle =>
        if hi : i < n then
          some { st with
            tlbFlushPtr := if (⟨i, hi⟩ : Fin n) = c then st.tlbFlushPtr
              else Function.update st.tlbFlushPtr ⟨i, hi⟩ va
            op := Function.update st.op c (.loop va (i + 1)) }
        else
          some { st with
            pending := fun d => if d = c then st.pending d else true
            op := Function.update st.op c (.flush va) }
      | _, _ => none
  | .flush c =>
      match st.op c, st.isr c with
      | .flush va, .idle =>
        some { st with
          tlb := Function.update st.tlb c (tlbFlush (st.tlb c) va)
          op := Function.update st.op c .idle }
      | _, _ => none
  | .take d =>
      if st.pending d = true ∧ st.isr d = .idle then
        some { st with
          pending := Function.update st.pending d false
          isr := Function.update st.isr d .entered }
      else none
  | .isrFlush d =>
      if st.isr d = .entered then
        some { st with
          tlbShootdown := Function.update st.tlbShootdown d (some ((st.tlbShootdown d).getD 0 + 1))
          tlb := Function.update st.tlb d (tlbFlush (st.tlb d) (st.tlbFlushPtr d))
          isr := Function.update st.isr d .flushed }
      else none
  | .isrClear d =>
      if st.isr d = .flushed then
        some { st with
          tlbFlushPtr := Function.update st.tlbFlushPtr d 0
          isr := Function.update st.isr d .idle }
      else none

def CoreStep (vas : Vas) (guard : Cores n → Ev n → Prop) (st st' : Cores n) : Prop :=
  ∃ ev, guard st ev ∧ stepCore vas st ev = some st'

def Cores.init (phys : Phys) : Cores n :=
  ⟨Smp.init phys, fun _ => .idle, fun _ => .idle⟩

/-- A mapping operation on core `c` starts only while every other core is out of the
shootdown code: no mapping operation under way, no handler running, no IPI pending. -/
def Serialized (st : Cores n) : Ev n → Prop
  | .change c _ => ∀ d, d ≠ c → st.op d = .idle ∧ st.isr d = .idle ∧ st.pending d = false
  | _ => True

def Quiet (st : Cores n) : Prop :=
  ∀ d, st.op d = .idle ∧ st.isr d = .idle ∧ st.pending d = false

instance (st : Cores n) : Decidable (Quiet st) :=
  inferInstanceAs (Decidable (∀ d, st.op d = .idle ∧ st.isr d = .idle ∧ st.pending d = false))

/-- Core `d` still has to flush page `P`: its IPI or its handler before the flush is for that
page, a `tlb_shootdown` loop for the page is under way, or its own local flush of the page is
still to come. -/
def Owed (st : Cores n) (d : Fin n) (P : List Nat) : Prop :=
  ((st.pending d = true ∨ st.isr d = .entered) ∧ page (st.tlbFlushPtr d) = P) ∨
    (∃ c va i, st.op c = .loop va i ∧ page va = P) ∨
    ∃ va, st.op d = .flush va ∧ page va = P

structure StepInv (vas : Vas) (st : Cores n) : Prop where
  wf : WellFormed st.phys vas.topLevel
  coherent : ∀ d va e, st.tlb d va = some e →
    translation st.phys vas.topLevel va = some e ∨ Owed st d (page va)
  slots : ∀ c va i, st.op c = .loop va i → ∀ d : Fin n, d.val < i → d ≠ c → st.tlbFlushPtr d = va
  one : ∀ c d, st.op c ≠ .idle → d ≠ c → st.op d = .idle
  quiet : ∀ c va i, st.op c = .loop va i → ∀ d, d ≠ c → st.pending d = false ∧ st.isr d = .idle
  busy : ∀ d, st.isr d ≠ .idle → st.pending d = false

def runSteps (vas : Vas) (g : Cores n → Ev n → Bool) : List (Ev n) → Cores n → Option (Cores n)
  | [], st => some st
  | ev :: evs, st => if g st ev then (stepCore vas st ev).bind (runSteps vas g evs) else none

def serializedB (st : Cores n) : Ev n → Bool
  | .change c _ => (List.finRange n).all fun d =>
      d == c || (st.op d == .idle && st.isr d == .idle && !st.pending d)
  | _ => true

theorem reachable_of_runSteps {vas : Vas} {g : Cores n → Ev n → Bool} {evs : List (Ev n)}
    {st st' : Cores n} (h : runSteps vas g evs st = some st') :
    Relation.ReflTransGen (CoreStep vas fun st ev => g st ev = true) st st' := by
  induction evs generalizing st with
  | nil => cases h; exact .refl
  | cons ev evs ih =>
    simp only [runSteps] at h
    split at h
    · obtain ⟨st1, h1, h2⟩ := Option.bind_eq_some.1 h
      exact .head ⟨ev, ‹_›, h1⟩ (ih h2)
    · cases h

theorem serialized_of_serializedB {st : Cores n} {ev : Ev n} (h : serializedB st ev = true) :
    Serialized st ev := by
  cases ev with
  | change c o =>
    intro d hd
    simpa [hd, and_assoc] using List.all_eq_true.1 h d (List.mem_finRange d)
  | _ => trivial

theorem stepInv_init {vas : Vas} {phys : Phys} (hwf : WellFormed phys vas.topLevel) :
    StepInv vas (Cores.init (n := n) phys) :=
  ⟨hwf, fun _ _ _ h => Option.noConfusion h, fun _ _ _ h => OpPc.noConfusion h,
    fun _ _ h => absurd rfl h, fun _ _ _ h => OpPc.noConfusion h, fun _ h => absurd rfl h⟩

section Steps

variable {vas : Vas} {st st' : Cores n}

theorem eq_of_update_eq {op : Fin n → OpPc} {c d : Fin n} {x y : OpPc}
    (hidle : ∀ d, d ≠ c → op d = .idle) (h : Function.update op c x d = y) (hy : y ≠ .idle) :
    d = c :=
  by_contra fun hd => hy (by rw [← h, Function.update_noteq hd, hidle d hd])

theorem one_update {op : Fin n → OpPc} {c : Fin n} (hidle : ∀ d, d ≠ c → op d = .idle)
    (x : OpPc) (c1 d : Fin n) (h1 : Function.update op c x c1 ≠ .idle) (hd : d ≠ c1) :
    Function.update op c x d = .idle := by
  obtain rfl := eq_of_update_eq hidle rfl h1
  rw [Function.update_noteq hd, hidle d hd]

theorem StepInv.eq_of_busy (hi : StepInv vas st) {c d : Fin n} {y : OpPc} (hc : st.op c ≠ .idle)
    (hd : st.op d = y) (hy : y ≠ .idle) : d = c :=
  by_contra fun h => hy (hd ▸ hi.one c d hc h)

theorem stepInv_fill {d : Fin n} {va : BitVec 64} (hi : StepInv vas st)
    (h : stepCore vas st (.fill d va) = some st') : StepInv vas st' := by
  obtain ⟨e, he, rfl⟩ := Option.map_eq_some'.1 h
  refine ⟨hi.wf, fun d' va' e' h' => ?_, hi.slots, hi.one, hi.quiet, hi.busy⟩
  dsimp only at h' ⊢
  by_cases hd : d' = d ∧ va' = va
  · obtain ⟨rfl, rfl⟩ := hd
    simp only [Function.update_same] at h'
    exact .inl (he.trans h')
  · refine hi.coherent d' va' e' ?_
    rw [Function.update_apply] at h'
    split_ifs at h' with h1
    · subst h1
      rwa [Function.update_noteq fun h => hd ⟨rfl, h⟩] at h'
    · exact h'

theorem stepInv_change {c : Fin n} {o : PmapOp} (hi : StepInv vas st)
    (hg : Serialized st (.change c o)) (h : stepCore vas st (.change c o) = some st') :
    StepInv vas st' := by
  simp only [stepCore] at h
  split at h
  · rename_i hc
    obtain ⟨r, hr, rfl⟩ := Option.map_eq_some'.1 h
    obtain ⟨hwf', hfl⟩ := run_frame hi.wf hr
    have hidle : ∀ d, st.op d = .idle := fun d =>
      if hd : d = c then hd ▸ hc.1 else (hg d hd).1
    cases hf : r.flushed
    · simp only [hf, hfl hf, Bool.false_eq_true, if_false]
      exact hi
    · simp only [if_true]
      have hloop : ∀ c' va i, Function.update st.op c
          (if 1 < n then .loop o.va 0 else .flush o.va) c' = .loop va i → c' = c ∧ i = 0 := by
        intro c' va i h2
        obtain rfl := eq_of_update_eq (fun d _ => hidle d) h2 (by simp)
        simp only [Function.update_same] at h2
        split_ifs at h2
        cases h2
        exact ⟨rfl, rfl⟩
      refine ⟨hwf', fun d va e h' => ?_, fun c' va i h2 d hd _ => ?_,
        one_update (fun d _ => hidle d) _, fun c' va i h2 d hd => ?_, hi.busy⟩
      · by_cases hp : page va = page o.va
        · refine .inr (.inr ?_)
          by_cases hn : 1 < n
          · exact .inl ⟨c, o.va, 0, by simp [hn], hp.symm⟩
          · have hdc : d = c := Fin.ext (by have := d.isLt; have := c.isLt; omega)
            exact .inr ⟨o.va, by simp [hn, hdc], hp.symm⟩
        · rw [run_translation_of_page_ne hi.wf hr hp]
          rcases hi.coherent d va e h' with h1 | h1 | ⟨c', va', i, h2, -⟩ | ⟨va', h3, -⟩
          · exact .inl h1
          · exact .inr (.inl h1)
          · rw [hidle] at h2; cases h2
          · rw [hidle] at h3; cases h3
      · obtain ⟨-, rfl⟩ := hloop c' va i h2
        omega
      · obtain ⟨rfl, -⟩ := hloop c' va i h2
        exact ⟨(hg d hd).2.2, (hg d hd).2.1⟩
  · cases h

theorem stepCore_shoot {c : Fin n} (h : stepCore vas st (.shoot c) = some st') :
    ∃ va i, st.op c = .loop va i ∧ st.isr c = .idle ∧
      ((∃ hi : i < n, st' = { st with
          tlbFlushPtr := if (⟨i, hi⟩ : Fin n) = c then st.tlbFlushPtr
            else Function.update st.tlbFlushPtr ⟨i, hi⟩ va
          op := Function.update st.op c (.loop va (i + 1)) }) ∨
        (n ≤ i ∧ st' = { st with
          pending := fun d => if d = c then st.pending d else true
          op := Function.update st.op c (.flush va) })) := by
  cases hop : st.op c with
  | loop va i =>
    cases hisr : st.isr c with
    | idle =>
      simp only [stepCore, hop, hisr] at h
      refine ⟨va, i, rfl, rfl, ?_⟩
      split at h
      · exact .inl ⟨‹_›, (Option.some.inj h).symm⟩
      · exact .inr ⟨by omega, (Option.some.inj h).symm⟩
    | _ => simp [stepCore, hop, hisr] at h
  | _ => simp [stepCore, hop] at h

theorem stepInv_shoot {c : Fin n} (hi : StepInv vas st)
    (h : stepCore vas st (.shoot c) = some st') : StepInv vas st' := by
  obtain ⟨va, i, hop, -, ⟨hin, rfl⟩ | ⟨hni, rfl⟩⟩ := stepCore_shoot h
  all_goals
    have hbusy : st.op c ≠ .idle := by simp [hop]
    have hidle : ∀ d, d ≠ c → st.op d = .idle := fun d hd => hi.one c d hbusy hd
    have hq := hi.quiet c va i hop
  · have hptr : ∀ d, (if (⟨i, hin⟩ : Fin n) = c then st.tlbFlushPtr
        else Function.update st.tlbFlushPtr ⟨i, hin⟩ va) d =
          if d.val = i ∧ d ≠ c then va else st.tlbFlushPtr d := by
      intro d
      by_cases hic : (⟨i, hin⟩ : Fin n) = c
      · have : ¬(d.val = i ∧ d ≠ c) := fun ⟨h1, h2⟩ => h2 (hic ▸ Fin.ext h1)
        simp only [hic, if_true, this, if_false]
      · by_cases hd : d = ⟨i, hin⟩
        · subst hd; simp [hic]
        · have : ¬(d.val = i ∧ d ≠ c) := fun ⟨h1, _⟩ => hd (Fin.ext h1)
          simp only [hic, if_false, this, Function.update_noteq hd]
    refine ⟨hi.wf, fun d va' e h' => ?_, fun c' va' i' h2 d hd hdc => ?_,
      one_update hidle _, fun c' va' i' h2 d hd => ?_, hi.busy⟩
    · rcases hi.coherent d va' e h' with h1 | ⟨h1, h1'⟩ | ⟨c', vb, ib, h2, h2'⟩ | ⟨vb, h3, h3'⟩
      · exact .inl h1
      · by_cases hdc : d = c
        · subst hdc
          refine .inr (.inl ⟨h1, ?_⟩)
          simp only [hptr, ne_eq, not_true_eq_false, and_false, if_false, h1']
        · obtain ⟨hp, hs⟩ := hq d hdc
          simp [hp, hs] at h1
      · obtain rfl := hi.eq_of_busy hbusy h2 (by simp)
        obtain ⟨rfl, rfl⟩ : va = vb ∧ i = ib := by simpa [hop] using h2
        exact .inr (.inr (.inl ⟨_, va, i + 1, Function.update_same _ _ _, h2'⟩))
      · have hdc : d ≠ c := fun e => by subst e; rw [hop] at h3; cases h3
        exact .inr (.inr (.inr ⟨vb, by simp [Function.update_noteq hdc, h3], h3'⟩))
    · obtain rfl := eq_of_update_eq hidle h2 (by simp)
      simp only [Function.update_same, OpPc.loop.injEq] at h2
      obtain ⟨rfl, rfl⟩ := h2
      simp only [hptr]
      by_cases hdi : d.val = i
      · simp [hdi, hdc]
      · rw [if_neg fun h => hdi h.1]
        exact hi.slots _ _ i hop d (by omega) hdc
    · obtain rfl := eq_of_update_eq hidle h2 (by simp)
      exact hq d hd
  · refine ⟨hi.wf, fun d va' e h' => ?_, fun c' va' i' h2 => ?_, one_update hidle _,
      fun c' va' i' h2 => ?_, fun d hd => ?_⟩
    · rcases hi.coherent d va' e h' with h1 | ⟨h1, h1'⟩ | ⟨c', vb, ib, h2, h2'⟩ | ⟨vb, h3, h3'⟩
      · exact .inl h1
      · by_cases hdc : d = c
        · subst hdc
          exact .inr (.inl ⟨by simpa using h1, h1'⟩)
        · obtain ⟨hp, hs⟩ := hq d hdc
          simp [hp, hs] at h1
      · obtain rfl := hi.eq_of_busy hbusy h2 (by simp)
        obtain ⟨rfl, rfl⟩ : va = vb ∧ i = ib := by simpa [hop] using h2
        by_cases hdc : d = c'
        · subst hdc
          exact .inr (.inr (.inr ⟨va, by simp, h2'⟩))
        · refine .inr (.inl ⟨.inl (by simp [hdc]), ?_⟩)
          rw [hi.slots _ va i hop d (by have := d.isLt; omega) hdc]
          exact h2'
      · have hdc : d ≠ c := fun e => by subst e; rw [hop] at h3; cases h3
        exact .inr (.inr (.inr ⟨vb, by simp [Function.update_noteq hdc, h3], h3'⟩))
    · obtain rfl := eq_of_update_eq hidle h2 (by simp)
      simp at h2
    · obtain rfl := eq_of_update_eq hidle h2 (by simp)
      simp at h2
    · by_cases hdc : d = c
      · subst hdc
        simpa using hi.busy d hd
      · exact absurd (hq d hdc).2 hd

theorem stepCore_flush {c : Fin n} (h : stepCore vas st (.flush c) = some st') :
    ∃ va, st.op c = .flush va ∧ st' = { st with
      tlb := Function.update st.tlb c (tlbFlush (st.tlb c) va)
      op := Function.update st.op c .idle } := by
  cases hop : st.op c with
  | flush va =>
    cases hisr : st.isr c with
    | idle =>
      simp only [stepCore, hop, hisr] at h
      exact ⟨va, rfl, (Option.some.inj h).symm⟩
    | _ => simp [stepCore, hop, hisr] at h
  | _ => simp [stepCore, hop] at h

theorem stepInv_flush {c : Fin n} (hi : StepInv vas st)
    (h : stepCore vas st (.flush c) = some st') : StepInv vas st' := by
  obtain ⟨va, hop, rfl⟩ := stepCore_flush h
  have hbusy : st.op c ≠ .idle := by simp [hop]
  have hidle : ∀ d, d ≠ c → st.op d = .idle := fun d hd => hi.one c d hbusy hd
  refine ⟨hi.wf, fun d vb e h' => ?_, fun c' vb ib h2 => ?_, one_update hidle _,
    fun c' vb ib h2 => ?_, hi.busy⟩
  · have key : st.tlb d vb = some e ∧ (d = c → page vb ≠ page va) := by
      simp only [Function.update_apply] at h'
      split_ifs at h' with hdc
      · subst hdc
        obtain ⟨hp, h'⟩ := tlbFlush_eq_some.1 h'
        exact ⟨h', fun _ => hp⟩
      · exact ⟨h', fun e => absurd e hdc⟩
    rcases hi.coherent d vb e key.1 with h1 | h1 | ⟨c', vc, ic, h2, -⟩ | ⟨vc, h3, h3'⟩
    · exact .inl h1
    · exact .inr (.inl h1)
    · obtain rfl := hi.eq_of_busy hbusy h2 (by simp)
      simp [hop] at h2
    · obtain rfl := hi.eq_of_busy hbusy h3 (by simp)
      obtain rfl : va = vc := by simpa [hop] using h3
      exact absurd h3'.symm (key.2 rfl)
  · obtain rfl := eq_of_update_eq hidle h2 (by simp)
    simp at h2
  · obtain rfl := eq_of_update_eq hidle h2 (by simp)
    simp at h2

theorem stepInv_take {d : Fin n} (hi : StepInv vas st)
    (h : stepCore vas st (.take d) = some st') : StepInv vas st' := by
  simp only [stepCore] at h
  split at h
  · rename_i hs
    cases h
    refine ⟨hi.wf, fun d' vb e h' => ?_, hi.slots, hi.one, fun c vb ib h2 d' hd => ?_,
      fun d' hd => ?_⟩
    · rcases hi.coherent d' vb e h' with h1 | ⟨h1, h1'⟩ | h1
      · exact .inl h1
      · refine .inr (.inl ⟨?_, h1'⟩)
        by_cases hdd : d' = d
        · subst hdd; simp
        · simpa [Function.update_noteq hdd] using h1
      · exact .inr (.inr h1)
    · by_cases hdd : d' = d
      · subst hdd
        exact absurd (hi.quiet c vb ib h2 _ hd).1 (by simp [hs.1])
      · simpa [Function.update_noteq hdd] using hi.quiet c vb ib h2 d' hd
    · by_cases hdd : d' = d
      · subst hdd; simp
      · simpa [Function.update_noteq hdd] using
          hi.busy d' (by simpa [Function.update_noteq hdd] using hd)
  · cases h

theorem stepInv_isrFlush {d : Fin n} (hi : StepInv vas st)
    (h : stepCore vas st (.isrFlush d) = some st') : StepInv vas st' := by
  simp only [stepCore] at h
  split at h
  · rename_i hs
    cases h
    refine ⟨hi.wf, fun d' vb e h' => ?_, hi.slots, hi.one, fun c vb ib h2 d' hd => ?_,
      fun d' hd => ?_⟩
    · have key : st.tlb d' vb = some e ∧ (d' = d → page vb ≠ page (st.tlbFlushPtr d)) := by
        simp only [Function.update_apply] at h'
        split_ifs at h' with hdd
        · subst hdd
          obtain ⟨hp, h'⟩ := tlbFlush_eq_some.1 h'
          exact ⟨h', fun _ => hp⟩
        · exact ⟨h', fun e => absurd e hdd⟩
      rcases hi.coherent d' vb e key.1 with h1 | ⟨h1, h1'⟩ | h1
      · exact .inl h1
      · by_cases hdd : d' = d
        · subst hdd; exact absurd h1'.symm (key.2 rfl)
        · exact .inr (.inl ⟨by simpa [Function.update_noteq hdd] using h1, h1'⟩)
      · exact .inr (.inr h1)
    · by_cases hdd : d' = d
      · subst hdd
        exact absurd (hi.quiet c vb ib h2 _ hd).2 (by simp [hs])
      · simpa [Function.update_noteq hdd] using hi.quiet c vb ib h2 d' hd
    · by_cases hdd : d' = d
      · subst hdd; exact hi.busy d' (by simp [hs])
      · exact hi.busy d' (by simpa [Function.update_noteq hdd] using hd)
  · cases h

theorem stepInv_isrClear {d : Fin n} (hi : StepInv vas st)
    (h : stepCore vas st (.isrClear d) = some st') : StepInv vas st' := by
  simp only [stepCore] at h
  split at h
  · rename_i hs
    cases h
    have hpd : st.pending d = false := hi.busy d (by simp [hs])
    refine ⟨hi.wf, fun d' vb e h' => ?_, fun c vb ib h2 d' hlt hdc => ?_, hi.one,
      fun c vb ib h2 d' hd => ?_, fun d' hd => ?_⟩
    · rcases hi.coherent d' vb e h' with h1 | ⟨h1, h1'⟩ | h1
      · exact .inl h1
      · by_cases hdd : d' = d
        · subst hdd; simp [hpd, hs] at h1
        · exact .inr (.inl ⟨by simpa [Function.update_noteq hdd] using h1,
            by simpa [Function.update_noteq hdd] using h1'⟩)
      · exact .inr (.inr h1)
    · by_cases hdd : d' = d
      · subst hdd
        exact absurd (hi.quiet c vb ib h2 _ hdc).2 (by simp [hs])
      · simpa [Function.update_noteq hdd] using hi.slots c vb ib h2 d' hlt hdc
    · by_cases hdd : d' = d
      · subst hdd; simp [hpd]
      · simpa [Function.update_noteq hdd] using hi.quiet c vb ib h2 d' hd
    · by_cases hdd : d' = d
      · subst hdd; simp at hd
      · exact hi.busy d' (by simpa [Function.update_noteq hdd] using hd)
  · cases h

theorem stepInv_step (hi : StepInv vas st) (h : CoreStep vas Serialized st st') :
    StepInv vas st' := by
  obtain ⟨ev, hg, h⟩ := h
  cases ev with
  | fill d va => exact stepInv_fill hi h
  | change c o => exact stepInv_change hi hg h
  | shoot c => exact stepInv_shoot hi h
  | flush c => exact stepInv_flush hi h
  | take d => exact stepInv_take hi h
  | isrFlush d => exact stepInv_isrFlush hi h
  | isrClear d => exact stepInv_isrClear hi h

end Steps

def Cores.lift (s : Smp n) : Cores n := ⟨s, fun _ => .idle, fun _ => .idle⟩

section Simulation

variable {vas : Vas}

theorem shoot_rounds {st : Cores n} {c : Fin n} {va : BitVec 64} {i : Nat}
    (hop : st.op c = .loop va i) (hisr : st.isr c = .idle) (hi : i ≤ n) :
    Relation.ReflTransGen (CoreStep vas fun _ _ => True) st
      { st with
        tlbFlushPtr := fun d => if i ≤ d.val ∧ d ≠ c then va else st.tlbFlushPtr d
        op := Function.update st.op c (.loop va n) } := by
  obtain ⟨k, hk⟩ : ∃ k, k = n - i := ⟨_, rfl⟩
  induction k generalizing st i with
  | zero =>
    obtain rfl : i = n := by omega
    have hp : (fun d : Fin i => if i ≤ d.val ∧ d ≠ c then va else st.tlbFlushPtr d) =
        st.tlbFlushPtr := funext fun d => if_neg fun h => absurd h.1 (by omega)
    rw [hp, ← hop, Function.update_eq_self]
  | succ k ih =>
    have hin : i < n := by omega
    have h1 : stepCore vas st (.shoot c) = some { st with
        tlbFlushPtr := if (⟨i, hin⟩ : Fin n) = c then st.tlbFlushPtr
          else Function.update st.tlbFlushPtr ⟨i, hin⟩ va
        op := Function.update st.op c (.loop va (i + 1)) } := by
      simp only [stepCore, hop, hisr, dif_pos hin]
    refine .head ⟨.shoot c, trivial, h1⟩ ?_
    refine Relation.ReflTransGen.trans (ih (by simp) hisr hin (by omega)) ?_
    convert Relation.ReflTransGen.refl using 2
    · congr 1
      funext d
      by_cases hd : d = ⟨i, hin⟩
      · subst hd
        by_cases hic : (⟨i, hin⟩ : Fin n) = c <;> simp [hic]
      · have hdi : d.val ≠ i := fun e => hd (Fin.ext e)
        dsimp only
        rw [ite_apply, Function.update_noteq hd, ite_self]
        simp only [Nat.succ_eq_add_one, show i ≤ d.val ↔ i + 1 ≤ d.val by omega]
    · simp only [Function.update_idem]

theorem free_of_runSteps {st st' : Cores n} {evs : List (Ev n)}
    (h : runSteps vas (fun _ _ => true) evs st = some st') :
    Relation.ReflTransGen (CoreStep vas fun _ _ => True) st st' := by
  refine Relation.ReflTransGen.mono ?_ (reachable_of_runSteps h)
  rintro _ _ ⟨ev, -, h⟩
  exact ⟨ev, trivial, h⟩

/-- Each event of the atomic machine is a run of this one between states with every core
outside the shootdown code: a mapping operation with its whole shootdown, and the whole
handler, run without interruption. -/
theorem next_runs {st st' : Smp n} {ev : Shootdown.Event n}
    (h : Shootdown.next vas st ev = some st') :
    Relation.ReflTransGen (CoreStep vas fun _ _ => True) (Cores.lift st) (Cores.lift st') := by
  cases ev with
  | fill d va =>
    obtain ⟨e, he, rfl⟩ := Option.map_eq_some'.1 h
    exact .single ⟨.fill d va, trivial, by simp [stepCore, Cores.lift, he]⟩
  | deliver d =>
    by_cases hp : st.pending d = true
    · simp only [Shootdown.next, hp, if_true, Option.some.injEq] at h
      subst h
      refine @free_of_runSteps n vas _ _ [.take d, .isrFlush d, .isrClear d] ?_
      simp [runSteps, stepCore, Cores.lift, hp, Shootdown.tlbShootdownIsr]
    · simp [Shootdown.next, hp] at h
  | change c o =>
    obtain ⟨r, hr, rfl⟩ := Option.map_eq_some'.1 h
    by_cases hf : r.flushed = true
    · by_cases hn : 1 < n
      · have h0 : stepCore vas (Cores.lift st) (.change c o) = some
            { Cores.lift st with phys := r.phys
                                 op := Function.update (fun _ => .idle) c (.loop o.va 0) } := by
          simp [stepCore, Cores.lift, hr, hf, hn]
        refine .head ⟨_, trivial, h0⟩ ((@shoot_rounds n vas _ c o.va 0 (by simp) (by simp [Cores.lift])
          n.zero_le).trans ?_)
        refine @free_of_runSteps n vas _ _ [.shoot c, .flush c] ?_
        simp [runSteps, stepCore, Cores.lift, hf, hn, Shootdown.pmapFlush, Shootdown.tlbShootdown]
        funext d
        by_cases hd : d = c <;> simp [Shootdown.foldl_slots, hd]
      · refine @free_of_runSteps n vas _ _ [.change c o, .flush c] ?_
        simp [runSteps, stepCore, Cores.lift, hr, hf, hn, Shootdown.pmapFlush]
    · exact .single ⟨.change c o, trivial, by simp [stepCore, Cores.lift, hr, hf]⟩

/-- Every run of the atomic machine, under any guard, is a run of this one. -/
theorem atomic_runs_are_step_runs {g : Smp n → Shootdown.Event n → Prop} {st st' : Smp n}
    (h : Relation.ReflTransGen (Shootdown.Step vas g) st st') :
    Relation.ReflTransGen (CoreStep vas fun _ _ => True) (Cores.lift st) (Cores.lift st') := by
  induction h with
  | refl => exact .refl
  | tail _ hs ih =>
    obtain ⟨ev, -, he⟩ := hs
    exact ih.trans (next_runs he)

theorem atomic_runs_are_step_runs_example :
    ∃ st : Smp 2, Relation.ReflTransGen (Shootdown.Step emptyVas fun _ _ => True)
        (Smp.init emptyPhys) st ∧ st.tlbFlushPtr 1 = 0x400000#64 ∧
      Relation.ReflTransGen (CoreStep emptyVas fun _ _ => True)
        (Cores.lift (Smp.init emptyPhys)) (Cores.lift st) := by
  obtain ⟨st, hst⟩ : ∃ st : Smp 2, Shootdown.runEvents emptyVas
      [.change 0 (.map 0x400000#64 0x100000#64 ⟨true, false, false⟩)] (Smp.init emptyPhys) =
      some st := ⟨_, rfl⟩
  have hr := Shootdown.reachable_of_runEvents hst
  refine ⟨st, hr, by cases hst; decide, atomic_runs_are_step_runs hr⟩

end Simulation

end Hyra.ShootdownSteps
