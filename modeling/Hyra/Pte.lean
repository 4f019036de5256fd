import Mathlib.Data.BitVec

namespace Hyra.Pte

/-- Modelled from the spec: `__BIT(n)` of `sys/cdefs.h`, not among the sources, is the
word with only bit `n` set. -/
def bit (n : Nat) : BitVec 64 := BitVec.twoPow 64 n

/-- Modelled from the spec: `__TEST(x, m)` holds when a bit of the mask is set in `x`. -/
def test (x m : BitVec 64) : Bool := x &&& m != 0

def pteAddrMask : BitVec 64 := 0x000FFFFFFFFFF000#64
def pteP : BitVec 64 := bit 0
def pteRw : BitVec 64 := bit 1
def pteUs : BitVec 64 := bit 2
def ptePwt : BitVec 64 := bit 3
def ptePcd : BitVec 64 := bit 4
def ptePat : BitVec 64 := bit 7
def pteNx : BitVec 64 := bit 63

def present (e : BitVec 64) : Bool := test e pteP

@[simp] theorem getLsbD_bit (n i : Nat) : (bit n).getLsbD i = (decide (n < 64) && decide (n = i)) :=
  BitVec.getLsbD_twoPow n i

theorem and_bit (x : BitVec 64) {n : Nat} (hn : n < 64) :
    x &&& bit n = if x.getLsbD n then bit n else 0 := by
  ext i
  by_cases h : x.getLsbD n <;> by_cases hi : n = i <;> simp_all

theorem test_bit (x : BitVec 64) {n : Nat} (hn : n < 64) : test x (bit n) = x.getLsbD n := by
  have hb : bit n ≠ 0 := fun h0 => by simpa [hn] using congrArg (fun y => BitVec.getLsbD y n) h0
  unfold test
  rw [and_bit x hn]
  split <;> simp_all

theorem present_eq (e : BitVec 64) : present e = e.getLsbD 0 := test_bit e (by decide)

@[simp] theorem present_zero : present 0#64 = false := by decide

@[simp] theorem getLsbD_pteAddrMask (i : Nat) :
    pteAddrMask.getLsbD i = (decide (12 ≤ i) && decide (i < 52)) := by
  have : (0x000FFFFFFFFFF000 : Nat) = (2 ^ 40 - 1) <<< 12 := by decide
  simp only [pteAddrMask, BitVec.getLsbD_ofNat, this, Nat.testBit_shiftLeft,
    Nat.testBit_two_pow_sub_one]
  by_cases h12 : 12 ≤ i <;> by_cases h64 : i < 64 <;> simp [h12, h64] <;> omega

/-- Modelled from the spec: `vm_prot_t` and its `PROT_*` bits live in headers that are not
among the sources; `pmap_prot_to_pte` tests three of them. -/
structure VmProt where
  write : Bool
  exec : Bool
  user : Bool
  deriving DecidableEq, Repr

def pmapProtToPte (prot : VmProt) : BitVec 64 :=
  let pteFlags := pteP ||| pteNx
  let pteFlags := if prot.write then pteFlags ||| pteRw else pteFlags
  let pteFlags := if prot.exec then pteFlags &&& ~~~pteNx else pteFlags
  if prot.user then pteFlags ||| pteUs else pteFlags

theorem getLsbD_pmapProtToPte (prot : VmProt) (i : Nat) :
    (pmapProtToPte prot).getLsbD i = true ↔
      i = 0 ∨ i = 1 ∧ prot.write ∨ i = 2 ∧ prot.user ∨ i = 63 ∧ !prot.exec := by
  obtain ⟨w, e, u⟩ := prot
  simp only [pmapProtToPte, pteP, pteNx, pteRw, pteUs, apply_ite (BitVec.getLsbD · i),
    BitVec.getLsbD_or, BitVec.getLsbD_and, BitVec.getLsbD_not, getLsbD_bit]
  cases w <;> cases e <;> cases u <;> simp <;> omega

/-- Returns index for a specific pagemap level. The source asserts `1 ≤ level ≤ 4`; every
caller passes one of those constants. -/
def pmapGetLevelIndex (level : Nat) (va : BitVec 64) : BitVec 64 :=
  match level with
  | 4 => (va >>> 39) &&& 0x1FF#64
  | 3 => (va >>> 30) &&& 0x1FF#64
  | 2 => (va >>> 21) &&& 0x1FF#64
  | 1 => (va >>> 12) &&& 0x1FF#64
  | _ => 0

def idx (level : Nat) (va : BitVec 64) : Nat := (pmapGetLevelIndex level va).toNat

theorem idx_lt (level : Nat) (va : BitVec 64) : idx level va < 512 := by
  unfold idx pmapGetLevelIndex
  split
  all_goals first
    | exact Nat.lt_of_le_of_lt Nat.and_le_right (by decide)
    | simp

def upper (va : BitVec 64) : List Nat := [idx 4 va, idx 3 va, idx 2 va]

def page (va : BitVec 64) : List Nat := upper va ++ [idx 1 va]

theorem eq_idx_of_prefix_upper {va : BitVec 64} {m i : Nat}
    (h : (upper va).take m ++ [i] <+: upper va) : m < 3 ∧ i = idx (4 - m) va := by
  match m, h with
  | 0, h => exact ⟨by omega, by simpa [upper] using h⟩
  | 1, h => exact ⟨by omega, by simpa [upper] using h⟩
  | 2, h => exact ⟨by omega, by simpa [upper] using h⟩
  | _ + 3, h => exact absurd h.length_le (by simp [upper])

theorem getLsbD_lowOnes {w m : Nat} (k : Nat) (hm : m = 2 ^ k - 1) (j : Nat) :
    (BitVec.ofNat w m).getLsbD j = (decide (j < w) && decide (j < k)) := by
  subst hm
  simp [BitVec.getLsbD_ofNat, Nat.testBit_two_pow_sub_one]

theorem getLsbD_pmapGetLevelIndex (va : BitVec 64) {l j : Nat} (hl : 1 ≤ l ∧ l ≤ 4)
    (hj : j < 9) : (pmapGetLevelIndex l va).getLsbD j = va.getLsbD (12 + 9 * (l - 1) + j) := by
  rcases (by omega : l = 1 ∨ l = 2 ∨ l = 3 ∨ l = 4) with rfl | rfl | rfl | rfl <;>
    simp [pmapGetLevelIndex, getLsbD_lowOnes 9 (rfl : 511 = 2 ^ 9 - 1), hj,
      (by omega : j < 64)]

theorem page_ne_of_getLsbD_ne {va va' : BitVec 64} {b : Nat} (hb : 12 ≤ b ∧ b < 48)
    (h : va.getLsbD b ≠ va'.getLsbD b) : page va ≠ page va' := by
  intro he
  simp only [page, upper, List.cons_append, List.nil_append, List.cons.injEq, and_true] at he
  have hl : idx ((b - 12) / 9 + 1) va = idx ((b - 12) / 9 + 1) va' := by
    rcases (by omega : (b - 12) / 9 = 0 ∨ (b - 12) / 9 = 1 ∨ (b - 12) / 9 = 2 ∨ (b - 12) / 9 = 3)
      with h0 | h0 | h0 | h0 <;> rw [h0] <;> tauto
  have hj := congrArg (BitVec.getLsbD · ((b - 12) % 9)) (BitVec.eq_of_toNat_eq hl)
  simp only [getLsbD_pmapGetLevelIndex _ (⟨by omega, by omega⟩ : 1 ≤ (b - 12) / 9 + 1 ∧ _ ≤ 4)
    (Nat.mod_lt _ (by omega : 9 > 0))] at hj
  rw [(by omega : 12 + 9 * ((b - 12) / 9 + 1 - 1) + (b - 12) % 9 = b)] at hj
  exact h hj

theorem idx_eq_extractLsb' (va : BitVec 64) {l : Nat} (hl : 1 ≤ l ∧ l ≤ 4) :
    idx l va = (va.extractLsb' (12 + 9 * (l - 1)) 9).toNat := by
  have hm : (0x1FF#64).toNat = 2 ^ 9 - 1 := rfl
  rcases (by omega : l = 1 ∨ l = 2 ∨ l = 3 ∨ l = 4) with rfl | rfl | rfl | rfl <;>
    simp only [idx, pmapGetLevelIndex, BitVec.toNat_and, BitVec.toNat_ushiftRight, hm,
      Nat.and_pow_two_sub_one_eq_mod, BitVec.extractLsb'_toNat]

/-- `pmap_get_level_index` cuts bits 12 to 47 of an address into four 9-bit indices: with the
page offset they give the address back below bit 48, they tell pages apart exactly, and the
root index lies in the upper half exactly when bit 47 is set. -/
theorem pmap_get_level_index_splits_va (va : BitVec 64) :
    (∀ l, 1 ≤ l → l ≤ 4 → idx l va < 512 ∧
      idx l va = (va.extractLsb' (12 + 9 * (l - 1)) 9).toNat) ∧
    va.toNat % 2 ^ 48 = idx 4 va * 2 ^ 39 + idx 3 va * 2 ^ 30 + idx 2 va * 2 ^ 21 +
      idx 1 va * 2 ^ 12 + (va &&& 0xFFF#64).toNat ∧
    (∀ va' : BitVec 64, page va = page va' ↔
      ∀ b, 12 ≤ b → b < 48 → va.getLsbD b = va'.getLsbD b) ∧
    (256 ≤ idx 4 va ↔ va.getLsbD 47 = true) := by
  have he := fun l (hl : 1 ≤ l ∧ l ≤ 4) => idx_eq_extractLsb' va hl
  have hd := fun l (hl : 1 ≤ l ∧ l ≤ 4) => (he l hl).trans (by
    rw [BitVec.extractLsb'_toNat, Nat.shiftRight_eq_div_pow])
  refine ⟨fun l h1 h2 => ⟨idx_lt l va, he l ⟨h1, h2⟩⟩, ?_,
    fun va' => ⟨fun hp b h1 h2 => ?_, fun h => ?_⟩, ?_⟩
  · have hoff : (va &&& 0xFFF#64).toNat = va.toNat % 2 ^ 12 := by
      rw [BitVec.toNat_and, show (0xFFF#64).toNat = 2 ^ 12 - 1 from rfl,
        Nat.and_pow_two_sub_one_eq_mod]
    rw [hd 4 (by omega), hd 3 (by omega), hd 2 (by omega), hd 1 (by omega), hoff]
    simp only [Nat.reduceSub, Nat.reduceMul, Nat.reduceAdd, Nat.reducePow]
    omega
  · by_contra hne
    exact page_ne_of_getLsbD_ne ⟨h1, h2⟩ hne hp
  · have hl : ∀ l, 1 ≤ l ∧ l ≤ 4 → idx l va = idx l va' := fun l hl => by
      rw [he l hl, idx_eq_extractLsb' va' hl]
      congr 1
      ext ⟨i, hi⟩
      simp only [BitVec.getLsbD_extractLsb', hi, decide_True, Bool.true_and]
      exact h _ (by omega) (by omega)
    simp only [page, upper, hl 4 (by omega), hl 3 (by omega), hl 2 (by omega), hl 1 (by omega)]
  · rw [hd 4 (by omega), ← BitVec.testBit_toNat, Nat.testBit_to_div_mod, decide_eq_true_iff]
    simp only [Nat.reduceSub, Nat.reduceMul, Nat.reduceAdd, Nat.reducePow]
    omega

end Hyra.Pte
