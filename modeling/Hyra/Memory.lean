import Hyra.Pte

namespace Hyra.Memory

open Pte

/-- Modelled from the spec: the frames `vm_alloc_pageframe` (not among the sources) can
still hand out. The allocator returns frame-aligned addresses and never 0 on success, and a
frame it hands out is no longer free. -/
structure FreeFrames where
  frames : List (BitVec 64)
  nodup : frames.Nodup
  aligned : ∀ f ∈ frames, f ≠ 0 ∧ f &&& pteAddrMask = f

def FreeFrames.tail (a : FreeFrames) : FreeFrames :=
  ⟨a.frames.tail, a.nodup.sublist (List.tail_sublist _),
    fun f hf => a.aligned f (List.mem_of_mem_tail hf)⟩

/-- Physical memory holding the page tables, one frame of words per frame address
(`PHYS_TO_VIRT` is the identity here), and the page-frame allocator. -/
structure Phys where
  mem : BitVec 64 → Nat → BitVec 64
  free : FreeFrames

namespace Phys

def write (s : Phys) (t : BitVec 64) (i : Nat) (v : BitVec 64) : Phys :=
  { s with mem := fun t' i' => if t' = t ∧ i' = i then v else s.mem t' i' }

def zero (s : Phys) (f : BitVec 64) : Phys :=
  { s with mem := fun t' i' => if t' = f then 0 else s.mem t' i' }

@[simp] theorem write_free (s : Phys) (t : BitVec 64) (i : Nat) (v : BitVec 64) :
    (s.write t i v).free = s.free := rfl

@[simp] theorem zero_free (s : Phys) (f : BitVec 64) : (s.zero f).free = s.free := rfl

theorem write_mem (s : Phys) (t : BitVec 64) (i : Nat) (v : BitVec 64) (t' : BitVec 64)
    (i' : Nat) : (s.write t i v).mem t' i' = if t' = t ∧ i' = i then v else s.mem t' i' := rfl

theorem zero_mem (s : Phys) (f t' : BitVec 64) (i' : Nat) :
    (s.zero f).mem t' i' = if t' = f then 0 else s.mem t' i' := rfl

@[simp] theorem write_mem_self (s : Phys) (t : BitVec 64) (i : Nat) (v : BitVec 64) :
    (s.write t i v).mem t i = v := by simp [write_mem]

theorem write_mem_of_ne (s : Phys) {t t' : BitVec 64} {i i' : Nat} (v : BitVec 64)
    (h : t' ≠ t ∨ i' ≠ i) : (s.write t i v).mem t' i' = s.mem t' i' := by
  rw [write_mem, if_neg (by tauto)]

theorem zero_mem_of_ne (s : Phys) {f t' : BitVec 64} (i' : Nat) (h : t' ≠ f) :
    (s.zero f).mem t' i' = s.mem t' i' := by
  rw [zero_mem, if_neg h]

@[simp] theorem write_write (s : Phys) (t : BitVec 64) (i : Nat) (v w : BitVec 64) :
    (s.write t i v).write t i w = s.write t i w := by
  simp only [write]
  congr 1
  funext t' i'
  split <;> rfl

def pop (s : Phys) : Phys := { s with free := s.free.tail }

@[simp] theorem pop_mem (s : Phys) : s.pop.mem = s.mem := rfl

@[simp] theorem pop_frames (s : Phys) : s.pop.free.frames = s.free.frames.tail := rfl

end Phys

open Phys

/-- Modelled from the spec: `vm_alloc_pageframe(1)` hands out one free frame, or 0 when
there is none left. -/
def vmAllocPageframe (s : Phys) : BitVec 64 × Phys :=
  match s.free.frames with
  | [] => (0, s)
  | f :: _ => (f, s.pop)

theorem vmAllocPageframe_eq_cons {s : Phys} {f : BitVec 64} {rest : List (BitVec 64)}
    (h : s.free.frames = f :: rest) : vmAllocPageframe s = (f, s.pop) := by
  simp [vmAllocPageframe, h]

theorem vmAllocPageframe_eq_nil {s : Phys} (h : s.free.frames = []) :
    vmAllocPageframe s = (0, s) := by
  simp [vmAllocPageframe, h]

end Hyra.Memory
