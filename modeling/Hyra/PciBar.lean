import Hyra.PciInit

namespace Hyra.PciBar

open Pte PciConfig PciInit

def pciGetBarreg (_dev : PciDevice) (bar : BitVec 8) : BitVec 8 :=
  match bar.toNat with
  | 0 => pciregBar0.setWidth 8
  | 1 => pciregBar1.setWidth 8
  | 2 => pciregBar2.setWidth 8
  | 3 => pciregBar3.setWidth 8
  | 4 => pciregBar4.setWidth 8
  | 5 => pciregBar5.setWidth 8
  | _ => 0

/-- Modelled from the spec: `EINVAL` of `sys/errno.h`. -/
def einval : Int := 22

/-- What `pci_map_bar` returns: a status of its own, or what `bus_map` (not among the sources)
returns when called on this address and size. -/
inductive MapBar
  | status (r : Int)
  | busMap (addr size : BitVec 32)

def pciMapBar (hw : Loc → BitVec 32 → BitVec 32) (dev : PciDevice) (bar : BitVec 8) (p : Cam) :
    Option (MapBar × Cam) := do
  let barReg := pciGetBarreg dev bar
  if barReg = 0 then return (.status (-einval), p)
  let (tmp, p) ← pciReadl hw dev (barReg.setWidth 32) p
  let p ← pciWritel dev (barReg.setWidth 32) ((mask 32).setWidth 32) p
  let (size, p) ← pciReadl hw dev (barReg.setWidth 32) p
  let size := ~~~size + 1
  let p ← pciWritel dev (barReg.setWidth 32) tmp p
  return (.busMap (dev.bar (Fin.ofNat bar.toNat)) size, p)

/-- A memory BAR at `l` that decodes `2 ^ k` bytes: a read returns the stored value with its
low `k` bits replaced by the read-only type bits `t`. Every other register is plain. -/
def barHw (l : Loc) (k : Nat) (t : BitVec 32) : Loc → BitVec 32 → BitVec 32 :=
  fun l' x => if l' = l then (x &&& ~~~(BitVec.ofNat 32 (2 ^ k - 1))) ||| t else x

theorem pciGetBarreg_of_lt (dev : PciDevice) {i : Nat} (hi : i < 6) :
    pciGetBarreg dev (BitVec.ofNat 8 i) ≠ 0 ∧
      ((pciGetBarreg dev (BitVec.ofNat 8 i)).setWidth 32).toNat = 16 + 4 * i ∧
      (pciGetBarreg dev (BitVec.ofNat 8 i)).setWidth 32 &&& 3#32 = 0#32 := by
  rcases (by omega : i = 0 ∨ i = 1 ∨ i = 2 ∨ i = 3 ∨ i = 4 ∨ i = 5) with
    rfl | rfl | rfl | rfl | rfl | rfl <;> (unfold pciGetBarreg; decide)

theorem pciMapBar_of_ge (hw : Loc → BitVec 32 → BitVec 32) (dev : PciDevice) {bar : BitVec 8}
    (h : 6 ≤ bar.toNat) (p : Cam) : pciMapBar hw dev bar p = some (.status (-einval), p) := by
  have h0 : pciGetBarreg dev bar = 0 := by
    unfold pciGetBarreg
    split <;> first | rfl | omega
  simp [pciMapBar, h0]

theorem pciMapBar_eq (hw : Loc → BitVec 32 → BitVec 32) {dev : PciDevice} {i : Nat} (hi : i < 6)
    (hs : dev.slot.toNat < 32) (hf : dev.func.toNat < 8) (p : Cam) :
    ∃ p', pciMapBar hw dev (BitVec.ofNat 8 i) p = some (.busMap (dev.bar (Fin.ofNat i))
        (~~~(hw ⟨dev.bus.toNat, dev.slot.toNat, dev.func.toNat, 4 + i⟩
          ((p.cfg ⟨dev.bus.toNat, dev.slot.toNat, dev.func.toNat, 4 + i⟩ &&& ~~~0xFF#32) |||
            0xFF#32)) + 1), p') ∧
      p'.cfg ⟨dev.bus.toNat, dev.slot.toNat, dev.func.toNat, 4 + i⟩ =
        (p.cfg ⟨dev.bus.toNat, dev.slot.toNat, dev.func.toNat, 4 + i⟩ &&& ~~~0xFF#32) |||
          (hw ⟨dev.bus.toNat, dev.slot.toNat, dev.func.toNat, 4 + i⟩
            (p.cfg ⟨dev.bus.toNat, dev.slot.toNat, dev.func.toNat, 4 + i⟩) &&& 0xFF#32) ∧
      ∀ l, l ≠ ⟨dev.bus.toNat, dev.slot.toNat, dev.func.toNat, 4 + i⟩ → p'.cfg l = p.cfg l := by
  obtain ⟨hne, hto, hal⟩ := pciGetBarreg_of_lt dev hi
  have hd : decode (camAddress dev ((pciGetBarreg dev (BitVec.ofNat 8 i)).setWidth 32)) =
      ⟨dev.bus.toNat, dev.slot.toNat, dev.func.toNat, 4 + i⟩ := by
    rw [decode_camAddress hs hf (by omega), hto]
    congr 1
    omega
  have hsh : ((pciGetBarreg dev (BitVec.ofNat 8 i)).setWidth 32 &&& 3#32).toNat * 8 = 0 := by
    rw [hal]; rfl
  have hread : ∀ q : Cam, pciCamRead hw dev ((pciGetBarreg dev (BitVec.ofNat 8 i)).setWidth 32) q =
      (hw ⟨dev.bus.toNat, dev.slot.toNat, dev.func.toNat, 4 + i⟩
        (q.cfg ⟨dev.bus.toNat, dev.slot.toNat, dev.func.toNat, 4 + i⟩),
        ⟨camAddress dev ((pciGetBarreg dev (BitVec.ofNat 8 i)).setWidth 32), q.cfg⟩) := fun q => by
    rw [pciCamRead_eq, hd, hsh, BitVec.ushiftRight_zero]
  have hones : (mask 32).setWidth 32 &&& 0xFF#32 = 0xFF#32 := by decide
  have hw1 : ∀ q v l, (pciCamWrite dev ((pciGetBarreg dev (BitVec.ofNat 8 i)).setWidth 32) v q).cfg l =
      if l = ⟨dev.bus.toNat, dev.slot.toNat, dev.func.toNat, 4 + i⟩ then
        (q.cfg l &&& ~~~0xFF#32) ||| (v &&& 0xFF#32) else q.cfg l := fun q v l => by
    rw [pciCamWrite_cfg, hd]
  have hlow : ∀ x y : BitVec 32, ((x &&& ~~~0xFF#32) ||| (y &&& 0xFF#32)) &&& ~~~0xFF#32 =
      x &&& ~~~0xFF#32 := fun x y => by
    ext ⟨j, hj⟩
    simp only [BitVec.getLsbD_and, BitVec.getLsbD_or, BitVec.getLsbD_not,
      getLsbD_lowOnes 8 (rfl : 255 = 2 ^ 8 - 1), hj]
    by_cases h : j < 8 <;> simp [h]
  simp only [pciMapBar, hne, if_false, pciReadl_eq, pciWritel_eq, hread, Option.pure_def,
    Option.bind_eq_bind, Option.some_bind, toNat_ofNat_eight (by omega : i < 256), hw1, if_pos,
    hones]
  refine ⟨_, rfl, by simp only [hw1, if_pos, hlow], fun l hl => ?_⟩
  simp only [hw1, if_neg hl]

/-- On a BAR of at least 256 bytes, `pci_map_bar` hands `bus_map` the negation of what the
BAR reads, whatever its size, and leaves the low byte of the stored value equal to the type
bits. -/
theorem pciMapBar_barHw {dev : PciDevice} {i : Nat} (hi : i < 6) (hs : dev.slot.toNat < 32)
    (hf : dev.func.toNat < 8) {k : Nat} (hk : 8 ≤ k) {t : BitVec 32} (ht : t.toNat < 16)
    (p : Cam) :
    ∃ p', pciMapBar (barHw ⟨dev.bus.toNat, dev.slot.toNat, dev.func.toNat, 4 + i⟩ k t) dev
        (BitVec.ofNat 8 i) p = some (.busMap (dev.bar (Fin.ofNat i))
          (~~~((p.cfg ⟨dev.bus.toNat, dev.slot.toNat, dev.func.toNat, 4 + i⟩ &&&
            ~~~(BitVec.ofNat 32 (2 ^ k - 1))) ||| t) + 1), p') ∧
      p'.cfg ⟨dev.bus.toNat, dev.slot.toNat, dev.func.toNat, 4 + i⟩ =
        (p.cfg ⟨dev.bus.toNat, dev.slot.toNat, dev.func.toNat, 4 + i⟩ &&& ~~~0xFF#32) ||| t ∧
      ∀ l, l ≠ ⟨dev.bus.toNat, dev.slot.toNat, dev.func.toNat, 4 + i⟩ → p'.cfg l = p.cfg l := by
  have ht' := fun j => @getLsbD_of_toNat_lt _ _ 4 ht j
  have hff := @getLsbD_lowOnes 32 _ 8 (rfl : 255 = 2 ^ 8 - 1)
  have hlo := @getLsbD_lowOnes 32 _ k rfl
  have hm : ∀ x : BitVec 32, ((x &&& ~~~0xFF#32) ||| 0xFF#32) &&& ~~~(BitVec.ofNat 32 (2 ^ k - 1)) =
      x &&& ~~~(BitVec.ofNat 32 (2 ^ k - 1)) := fun x => by
    ext ⟨j, hj⟩
    simp only [BitVec.getLsbD_and, BitVec.getLsbD_or, BitVec.getLsbD_not, hff, hlo, hj]
    by_cases h : j < 8
    · simp [h, show j < k by omega]
    · simp [h]
  have hb : ∀ x : BitVec 32, ((x &&& ~~~(BitVec.ofNat 32 (2 ^ k - 1))) ||| t) &&& 0xFF#32 = t :=
    fun x => by
      ext ⟨j, hj⟩
      simp only [BitVec.getLsbD_and, BitVec.getLsbD_or, BitVec.getLsbD_not, hff, hlo, hj]
      by_cases h : j < 8
      · simp [h, hj, show j < k by omega]
      · simp [h, ht' j (by omega)]
  obtain ⟨p', h, h1, h2⟩ :=
    pciMapBar_eq (barHw ⟨dev.bus.toNat, dev.slot.toNat, dev.func.toNat, 4 + i⟩ k t) hi hs hf p
  simp only [barHw, if_pos, hm, hb] at h h1
  exact ⟨p', h, h1, h2⟩

def barCam : Cam := ⟨0, fun l => if l = ⟨0, 0, 0, 4⟩ then 0xFEB00000#32 else 0⟩

theorem pciMapBar_barHw_example :
    0 < 6 ∧ (devTmp 0 0 0).slot.toNat < 32 ∧ (devTmp 0 0 0).func.toNat < 8 ∧ 8 ≤ 20 ∧
      (0#32).toNat < 16 ∧
      ∃ p', pciMapBar (barHw ⟨0, 0, 0, 4⟩ 20 0) (devTmp 0 0 0) 0 barCam =
          some (.busMap 0 (~~~((barCam.cfg ⟨0, 0, 0, 4⟩ &&& ~~~(BitVec.ofNat 32 (2 ^ 20 - 1))) |||
            0) + 1), p') ∧
        p'.cfg ⟨0, 0, 0, 4⟩ = (barCam.cfg ⟨0, 0, 0, 4⟩ &&& ~~~0xFF#32) ||| 0 ∧
        ∀ l, l ≠ ⟨0, 0, 0, 4⟩ → p'.cfg l = barCam.cfg l :=
  ⟨by decide, by decide, by decide, by decide, by decide,
    @pciMapBar_barHw (devTmp 0 0 0) 0 (by decide) (by decide) (by decide) 20 (by decide) 0
      (by decide) barCam⟩

/-- Enumerate 0:0.0 and map its BAR 0, a 1 MiB region: `pci_map_bar` calls `bus_map` with
size `0x1500000`, the negated base, since the all-ones write reached the low byte only. -/
theorem pci_map_bar_size_from_base :
    ∃ dev p1 p2, pciSetDeviceInfo (barHw ⟨0, 0, 0, 4⟩ 20 0) (devTmp 0 0 0) barCam =
        some (dev, p1) ∧ dev.bar 0 = 0xFEB00000#32 ∧
      pciMapBar (barHw ⟨0, 0, 0, 4⟩ 20 0) dev 0 p1 =
        some (.busMap 0xFEB00000#32 0x01500000#32, p2) ∧
      0x01500000#32 ≠ BitVec.ofNat 32 (2 ^ 20) :=
  ⟨_, _, _, rfl, rfl, rfl, by decide⟩

end Hyra.PciBar
