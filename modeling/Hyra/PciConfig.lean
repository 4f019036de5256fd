import Mathlib.Logic.Function.Basic
import Hyra.Pte

namespace Hyra.PciConfig

open Pte

/-- Modelled from the spec: `__MASK(n)` of `sys/cdefs.h` is `__BIT(n) - 1`. -/
def mask (n : Nat) : BitVec 64 := bit n - 1

structure Loc where
  bus : Nat
  slot : Nat
  func : Nat
  reg : Nat
  deriving DecidableEq

def decode (a : BitVec 32) : Loc :=
  ⟨(a.extractLsb' 16 8).toNat, (a.extractLsb' 11 5).toNat, (a.extractLsb' 8 3).toNat,
    (a.extractLsb' 2 6).toNat⟩

/-- The configuration mechanism: the address latched in port `0xCF8` and the dwords the
functions store. What a read of a dword returns is up to the hardware (`hw`), given what is
stored there; a plain read-write register returns what is stored. -/
structure Cam where
  latch : BitVec 32
  cfg : Loc → BitVec 32

def outlCf8 (a : BitVec 32) (p : Cam) : Cam := { p with latch := a }

def inlCfc (hw : Loc → BitVec 32 → BitVec 32) (p : Cam) : BitVec 32 :=
  hw (decode p.latch) (p.cfg (decode p.latch))

def outbCfc (b : BitVec 8) (p : Cam) : Cam :=
  let l := decode p.latch
  { p with cfg := Function.update p.cfg l ((p.cfg l &&& ~~~0xFF#32) ||| b.setWidth 32) }

/-- Modelled from the spec: `struct pci_device` of `dev/pci/pcivar.h`, not among the sources,
with the fields `pci.c` reads and writes; a BAR holds the 32-bit value read from it. -/
structure PciDevice where
  bus : BitVec 8
  slot : BitVec 8
  func : BitVec 8
  deviceId : BitVec 16
  vendorId : BitVec 16
  pciClass : BitVec 8
  pciSubclass : BitVec 8
  progIf : BitVec 8
  bar : Fin 6 → BitVec 32
  irqLine : BitVec 8

def devTmp (bus slot func : BitVec 8) : PciDevice :=
  ⟨bus, slot, func, 0, 0, 0, 0, 0, fun _ => 0, 0⟩

def camAddress (dev : PciDevice) (offset : BitVec 32) : BitVec 32 :=
  (bit 31).setWidth 32 ||| (offset &&& ~~~3#32) ||| (dev.func.setWidth 32 <<< 8) |||
    (dev.slot.setWidth 32 <<< 11) ||| (dev.bus.setWidth 32 <<< 16)

def pciCamRead (hw : Loc → BitVec 32 → BitVec 32) (dev : PciDevice) (offset : BitVec 32)
    (p : Cam) : BitVec 32 × Cam :=
  let address := camAddress dev offset
  let p := outlCf8 address p
  (inlCfc hw p >>> ((offset &&& 3#32).toNat * 8), p)

def pciCamWrite (dev : PciDevice) (offset value : BitVec 32) (p : Cam) : Cam :=
  let address := camAddress dev offset
  outbCfc (value.setWidth 8) (outlCf8 address p)

/-- Modelled from the spec: the access methods of `dev/pci/pcivar.h`. -/
def pciAccessCam : Nat := 0

def accessMethod : Nat := pciAccessCam

def pciReadl (hw : Loc → BitVec 32 → BitVec 32) (dev : PciDevice) (offset : BitVec 32)
    (p : Cam) : Option (BitVec 32 × Cam) :=
  if accessMethod = pciAccessCam then some (pciCamRead hw dev offset p) else none

def pciWritel (dev : PciDevice) (offset val : BitVec 32) (p : Cam) : Option Cam :=
  if accessMethod = pciAccessCam then some (pciCamWrite dev offset val p) else none

def pciSetCmdreg (hw : Loc → BitVec 32 → BitVec 32) (dev : PciDevice) (bits : BitVec 16)
    (p : Cam) : Option Cam := do
  let (tmp, p) ← pciReadl hw dev 0x4 p
  pciWritel dev 0x4 (tmp ||| bits.setWidth 32) p

@[simp] theorem pciReadl_eq (hw : Loc → BitVec 32 → BitVec 32) (dev : PciDevice)
    (offset : BitVec 32) (p : Cam) : pciReadl hw dev offset p = some (pciCamRead hw dev offset p) :=
  rfl

@[simp] theorem pciWritel_eq (dev : PciDevice) (offset val : BitVec 32) (p : Cam) :
    pciWritel dev offset val p = some (pciCamWrite dev offset val p) :=
  rfl

theorem pciCamRead_eq (hw : Loc → BitVec 32 → BitVec 32) (dev : PciDevice) (offset : BitVec 32)
    (p : Cam) : pciCamRead hw dev offset p =
      (hw (decode (camAddress dev offset)) (p.cfg (decode (camAddress dev offset))) >>>
        ((offset &&& 3#32).toNat * 8), ⟨camAddress dev offset, p.cfg⟩) :=
  rfl

@[simp] theorem pciCamWrite_latch (dev : PciDevice) (offset value : BitVec 32) (p : Cam) :
    (pciCamWrite dev offset value p).latch = camAddress dev offset :=
  rfl

theorem pciCamWrite_cfg (dev : PciDevice) (offset value : BitVec 32) (p : Cam) (l : Loc) :
    (pciCamWrite dev offset value p).cfg l =
      if l = decode (camAddress dev offset) then
        (p.cfg l &&& ~~~0xFF#32) ||| (value &&& 0xFF#32)
      else p.cfg l := by
  have e : (value.setWidth 8).setWidth 32 = value &&& 0xFF#32 := by
    ext ⟨i, hi⟩
    by_cases h : i < 8 <;> simp [h, hi, getLsbD_lowOnes 8 (rfl : 255 = 2 ^ 8 - 1)]
  show Function.update p.cfg (decode (camAddress dev offset)) _ l = _
  rw [Function.update_apply]
  split
  · subst l; rw [e]; rfl
  · rfl

theorem getLsbD_of_toNat_lt {w : Nat} {x : BitVec w} {m : Nat} (h : x.toNat < 2 ^ m) {j : Nat}
    (hj : m ≤ j) : x.getLsbD j = false :=
  Nat.testBit_lt_two_pow (lt_of_lt_of_le h (Nat.pow_le_pow_right (by decide) hj))

theorem decode_camAddress {dev : PciDevice} {offset : BitVec 32} (hs : dev.slot.toNat < 32)
    (hf : dev.func.toNat < 8) (ho : offset.toNat < 256) :
    decode (camAddress dev offset) =
      ⟨dev.bus.toNat, dev.slot.toNat, dev.func.toNat, offset.toNat / 4⟩ := by
  have hs' := fun j => @getLsbD_of_toNat_lt _ _ 5 hs j
  have hf' := fun j => @getLsbD_of_toNat_lt _ _ 3 hf j
  have ho' := fun j => @getLsbD_of_toNat_lt _ _ 8 ho j
  have hm : ∀ j, 2 ≤ j → j < 32 → (4294967292#32).getLsbD j = true := fun j h1 h2 =>
    (by decide : ∀ k : Fin 32, 2 ≤ k.val → (4294967292#32).getLsbD k = true) ⟨j, h2⟩ h1
  have e : (camAddress dev offset).extractLsb' 16 8 = dev.bus ∧
      (camAddress dev offset).extractLsb' 11 5 = dev.slot.setWidth 5 ∧
      (camAddress dev offset).extractLsb' 8 3 = dev.func.setWidth 3 ∧
      (camAddress dev offset).extractLsb' 2 6 = (offset >>> 2).setWidth 6 := by
    refine ⟨?_, ?_, ?_, ?_⟩ <;> ext ⟨i, hi⟩ <;>
      simp (disch := omega) [camAddress, hs', hf', ho', hm, decide_eq_true, decide_eq_false]
  simp only [decode, e, BitVec.toNat_setWidth, BitVec.toNat_ushiftRight,
    Nat.shiftRight_eq_div_pow, Loc.mk.injEq, Nat.reducePow, true_and]
  omega

/-- `pci_writel` then `pci_readl` at a dword-aligned offset of a plain register: only the low
byte of the value reaches the register, and no other dword changes. -/
theorem pciReadl_pciWritel {hw : Loc → BitVec 32 → BitVec 32} {dev : PciDevice}
    {offset v : BitVec 32} {p : Cam} (hs : dev.slot.toNat < 32) (hf : dev.func.toNat < 8)
    (ho : offset.toNat < 256) (ha : offset &&& 3#32 = 0#32)
    (hplain : ∀ x, hw ⟨dev.bus.toNat, dev.slot.toNat, dev.func.toNat, offset.toNat / 4⟩ x = x) :
    ∃ p', pciWritel dev offset v p = some p' ∧
      (pciReadl hw dev offset p').map Prod.fst =
        some ((p.cfg ⟨dev.bus.toNat, dev.slot.toNat, dev.func.toNat, offset.toNat / 4⟩ &&&
          ~~~0xFF#32) ||| (v &&& 0xFF#32)) ∧
      ∀ l, l ≠ ⟨dev.bus.toNat, dev.slot.toNat, dev.func.toNat, offset.toNat / 4⟩ →
        p'.cfg l = p.cfg l := by
  have hd := decode_camAddress hs hf ho
  refine ⟨_, pciWritel_eq dev offset v p, ?_, fun l hl => ?_⟩
  · rw [pciReadl_eq, pciCamRead_eq, ha, hd, hplain, pciCamWrite_cfg, hd, if_pos rfl]
    rfl
  · rw [pciCamWrite_cfg, hd, if_neg hl]

theorem pciReadl_pciWritel_example :
    (devTmp 0 0 0).slot.toNat < 32 ∧ (devTmp 0 0 0).func.toNat < 8 ∧ (0x40#32).toNat < 256 ∧
      0x40#32 &&& 3#32 = 0#32 ∧
      (∃ p', pciWritel (devTmp 0 0 0) 0x40#32 0x12345678#32 ⟨0, fun _ => 0⟩ = some p' ∧
        (pciReadl (fun _ x => x) (devTmp 0 0 0) 0x40#32 p').map Prod.fst =
          some ((0#32 &&& ~~~0xFF#32) ||| (0x12345678#32 &&& 0xFF#32)) ∧
        ∀ l, l ≠ ⟨0, 0, 0, 16⟩ → p'.cfg l = 0) :=
  ⟨by decide, by decide, by decide, by decide,
    pciReadl_pciWritel (by decide) (by decide) (by decide) (by decide) fun _ => rfl⟩

/-- A plain register at offset `0x40` of the function at 0:0.0 holding 0: after
`pci_writel` of `0x12345678` it reads back `0x78`. -/
theorem pci_writel_keeps_low_byte_only :
    ((pciWritel (devTmp 0 0 0) 0x40#32 0x12345678#32 ⟨0, fun _ => 0⟩).bind
      (pciReadl (fun _ x => x) (devTmp 0 0 0) 0x40#32)).map Prod.fst = some 0x78#32 :=
  rfl

/-- `pci_set_cmdreg` on a command dword: the stored dword gets the low byte of what was read
or-ed with the bits; bits 8 to 15 of `bits` never reach the register. -/
theorem pciSetCmdreg_cfg {hw : Loc → BitVec 32 → BitVec 32} {dev : PciDevice} {bits : BitVec 16}
    {p : Cam} (hs : dev.slot.toNat < 32) (hf : dev.func.toNat < 8) :
    ∃ p', pciSetCmdreg hw dev bits p = some p' ∧
      p'.cfg ⟨dev.bus.toNat, dev.slot.toNat, dev.func.toNat, 1⟩ =
        (p.cfg ⟨dev.bus.toNat, dev.slot.toNat, dev.func.toNat, 1⟩ &&& ~~~0xFF#32) |||
          ((hw ⟨dev.bus.toNat, dev.slot.toNat, dev.func.toNat, 1⟩
            (p.cfg ⟨dev.bus.toNat, dev.slot.toNat, dev.func.toNat, 1⟩) ||| bits.setWidth 32) &&&
              0xFF#32) ∧
      ∀ l, l ≠ ⟨dev.bus.toNat, dev.slot.toNat, dev.func.toNat, 1⟩ → p'.cfg l = p.cfg l := by
  have hd : decode (camAddress dev 0x4) = ⟨dev.bus.toNat, dev.slot.toNat, dev.func.toNat, 1⟩ :=
    decode_camAddress hs hf (by decide)
  refine ⟨_, rfl, ?_, fun l hl => ?_⟩
  · have h0 : ((0x4 : BitVec 32) &&& 3#32).toNat * 8 = 0 := by decide
    rw [pciCamWrite_cfg, hd, if_pos rfl]
    simp only [outlCf8, inlCfc, hd, h0, BitVec.ushiftRight_zero]
  · rw [pciCamWrite_cfg, hd, if_neg hl]
    rfl

theorem pciSetCmdreg_cfg_example :
    (devTmp 0 0 0).slot.toNat < 32 ∧ (devTmp 0 0 0).func.toNat < 8 ∧
      ∃ p', pciSetCmdreg (fun _ x => x) (devTmp 0 0 0) 0x0406#16 ⟨0, fun _ => 0⟩ = some p' ∧
        p'.cfg ⟨0, 0, 0, 1⟩ = (0#32 &&& ~~~0xFF#32) ||| ((0#32 ||| 0x0406#32) &&& 0xFF#32) ∧
        ∀ l, l ≠ ⟨0, 0, 0, 1⟩ → p'.cfg l = 0 :=
  ⟨by decide, by decide, pciSetCmdreg_cfg (by decide) (by decide)⟩

end Hyra.PciConfig
