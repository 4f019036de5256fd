import Mathlib.Data.List.Sort
import Hyra.PciConfig

namespace Hyra.PciInit

open Pte PciConfig

/-- Modelled from the spec: the register offsets and class fields of `dev/pci/pcireg.h`, not
among the sources, as the standard configuration header lays them out. -/
def pciregVendorId : BitVec 32 := 0x00
def pciregDeviceId : BitVec 32 := 0x02
def pciregClassrev : BitVec 32 := 0x08
def pciregBar0 : BitVec 32 := 0x10
def pciregBar1 : BitVec 32 := 0x14
def pciregBar2 : BitVec 32 := 0x18
def pciregBar3 : BitVec 32 := 0x1C
def pciregBar4 : BitVec 32 := 0x20
def pciregBar5 : BitVec 32 := 0x24
def pciregIrqline : BitVec 32 := 0x3C
def pciregClass (classrev : BitVec 32) : BitVec 8 := (classrev >>> 24).setWidth 8
def pciregSubclass (classrev : BitVec 32) : BitVec 8 := ((classrev >>> 16) &&& 0xFF#32).setWidth 8
def pciregProgif (classrev : BitVec 32) : BitVec 8 := ((classrev >>> 8) &&& 0xFF#32).setWidth 8

structure PciState where
  cam : Cam
  deviceList : List PciDevice

def pciDeviceExists (hw : Loc → BitVec 32 → BitVec 32) (bus slot func : BitVec 8) (p : Cam) :
    Bool × Cam :=
  let devTmp := devTmp bus slot func
  let (v, p) := pciCamRead hw devTmp 0x0 p
  let vendorId : BitVec 16 := (v &&& 0xFFFF#32).setWidth 16
  if vendorId = 0xFFFF then (false, p) else (true, p)

def pciSetDeviceInfo (hw : Loc → BitVec 32 → BitVec 32) (dev : PciDevice) (p : Cam) :
    Option (PciDevice × Cam) := do
  let (v, p) ← pciReadl hw dev pciregVendorId p
  let dev := { dev with vendorId := (v.setWidth 64 &&& mask 16).setWidth 16 }
  let (v, p) ← pciReadl hw dev pciregDeviceId p
  let dev := { dev with deviceId := (v.setWidth 64 &&& mask 16).setWidth 16 }
  let (classrev, p) ← pciReadl hw dev pciregClassrev p
  let dev := { dev with
    pciClass := pciregClass classrev
    pciSubclass := pciregSubclass classrev
    progIf := pciregProgif classrev }
  let (v, p) ← pciReadl hw dev pciregBar0 p
  let dev := { dev with bar := Function.update dev.bar 0 v }
  let (v, p) ← pciReadl hw dev pciregBar1 p
  let dev := { dev with bar := Function.update dev.bar 1 v }
  let (v, p) ← pciReadl hw dev pciregBar2 p
  let dev := { dev with bar := Function.update dev.bar 2 v }
  let (v, p) ← pciReadl hw dev pciregBar3 p
  let dev := { dev with bar := Function.update dev.bar 3 v }
  let (v, p) ← pciReadl hw dev pciregBar4 p
  let dev := { dev with bar := Function.update dev.bar 4 v }
  let (v, p) ← pciReadl hw dev pciregBar5 p
  let dev := { dev with bar := Function.update dev.bar 5 v }
  let (v, p) ← pciReadl hw dev pciregIrqline p
  pure ({ dev with irqLine := (v.setWidth 64 &&& mask 8).setWidth 8 }, p)

/-- `pci_register_device`; `dynalloc` is taken to succeed, and every field it leaves
uninitialised is set before the record is used. -/
def pciRegisterDevice (hw : Loc → BitVec 32 → BitVec 32) (bus slot func : BitVec 8)
    (st : PciState) : Option PciState :=
  match pciDeviceExists hw bus slot func st.cam with
  | (false, cam) => some { st with cam }
  | (true, cam) => do
    let (dev, cam) ← pciSetDeviceInfo hw (devTmp bus slot func) cam
    pure ⟨cam, st.deviceList ++ [dev]⟩

def pciScanBus (hw : Loc → BitVec 32 → BitVec 32) (bus : BitVec 8) (st : PciState) :
    Option PciState :=
  (List.range 32).foldlM (fun st slot =>
    (List.range 8).foldlM (fun st func =>
      pciRegisterDevice hw bus (BitVec.ofNat 8 slot) (BitVec.ofNat 8 func) st) st) st

/-- `pci_init`: the bus counter is narrowed to the `uint8_t` argument of `pci_scan_bus`. -/
def pciInit (hw : Loc → BitVec 32 → BitVec 32) (st : PciState) : Option (Int × PciState) := do
  let st := { st with deviceList := [] }
  let st ← (List.range 256).foldlM (fun st i => pciScanBus hw (BitVec.ofNat 8 i) st) st
  pure (0, st)

def isPresent (hw : Loc → BitVec 32 → BitVec 32) (cfg : Loc → BitVec 32) (b s f : Nat) : Bool :=
  (hw ⟨b, s, f, 0⟩ (cfg ⟨b, s, f, 0⟩)).setWidth 16 != 0xFFFF#16

def coords (d : PciDevice) : Nat × Nat × Nat := (d.bus.toNat, d.slot.toNat, d.func.toNat)

def presentList (hw : Loc → BitVec 32 → BitVec 32) (cfg : Loc → BitVec 32) :
    List (Nat × Nat × Nat) :=
  (List.range 256).flatMap fun b => (List.range 32).flatMap fun s => (List.range 8).flatMap fun f =>
    if isPresent hw cfg b s f then [(b, s, f)] else []

/-- The record that the standard configuration header of function `b:s.f` describes, as the
hardware returns its dwords: vendor and device ID from dword 0, class, subclass and programming
interface from dword 2, the six BARs from dwords 4 to 9 and the IRQ line from dword 15. -/
def headerOf (hw : Loc → BitVec 32 → BitVec 32) (cfg : Loc → BitVec 32) (b s f : Nat) :
    PciDevice :=
  let rd := fun r => hw ⟨b, s, f, r⟩ (cfg ⟨b, s, f, r⟩)
  { bus := BitVec.ofNat 8 b, slot := BitVec.ofNat 8 s, func := BitVec.ofNat 8 f
    deviceId := (rd 0).extractLsb' 16 16, vendorId := (rd 0).extractLsb' 0 16
    pciClass := (rd 2).extractLsb' 24 8, pciSubclass := (rd 2).extractLsb' 16 8
    progIf := (rd 2).extractLsb' 8 8, bar := fun i => rd (4 + i.val)
    irqLine := (rd 15).extractLsb' 0 8 }

theorem pciDeviceExists_eq (hw : Loc → BitVec 32 → BitVec 32) {bus slot func : BitVec 8}
    (p : Cam) (hs : slot.toNat < 32) (hf : func.toNat < 8) :
    pciDeviceExists hw bus slot func p =
      (isPresent hw p.cfg bus.toNat slot.toNat func.toNat,
        ⟨camAddress (devTmp bus slot func) 0x0, p.cfg⟩) := by
  have hd : decode (camAddress (devTmp bus slot func) 0x0) = ⟨bus.toNat, slot.toNat, func.toNat, 0⟩ :=
    decode_camAddress hs hf (by decide)
  have h0 : ((0x0 : BitVec 32) &&& 3#32).toNat * 8 = 0 := by decide
  have hv : ∀ v : BitVec 32, (v &&& 0xFFFF#32).setWidth 16 = v.setWidth 16 := fun v => by
    ext ⟨i, hi⟩
    have hm := (by decide : ∀ k : Fin 16, (0xFFFF#32).getLsbD k = true) ⟨i, hi⟩
    have hm' := (by decide : ∀ k : Fin 16, (0xFFFF#16).getLsbD k = true) ⟨i, hi⟩
    simp_all
  simp only [pciDeviceExists, pciCamRead, outlCf8, inlCfc, hd, h0, BitVec.ushiftRight_zero, hv,
    isPresent]
  split <;> simp_all

theorem pciReadl_at (hw : Loc → BitVec 32 → BitVec 32) {dev : PciDevice} (p : Cam)
    {off : BitVec 32} (hs : dev.slot.toNat < 32) (hf : dev.func.toNat < 8) (ho : off.toNat < 256) :
    pciReadl hw dev off p =
      some (hw ⟨dev.bus.toNat, dev.slot.toNat, dev.func.toNat, off.toNat / 4⟩
          (p.cfg ⟨dev.bus.toNat, dev.slot.toNat, dev.func.toNat, off.toNat / 4⟩) >>>
        ((off &&& 3#32).toNat * 8), ⟨camAddress dev off, p.cfg⟩) := by
  rw [pciReadl_eq, pciCamRead_eq, decode_camAddress hs hf ho]

theorem pciSetDeviceInfo_eq (hw : Loc → BitVec 32 → BitVec 32) {dev : PciDevice} (p : Cam)
    (hs : dev.slot.toNat < 32) (hf : dev.func.toNat < 8) :
    pciSetDeviceInfo hw dev p =
      some (headerOf hw p.cfg dev.bus.toNat dev.slot.toNat dev.func.toNat,
        ⟨camAddress dev pciregIrqline, p.cfg⟩) := by
  have m16 : (mask 16).toNat = 2 ^ 16 - 1 := rfl
  have m8 : (mask 8).toNat = 2 ^ 8 - 1 := rfl
  have ff : (0xFF#32).toNat = 2 ^ 8 - 1 := rfl
  simp (disch := first | decide | simpa using hs | simpa using hf) only [pciSetDeviceInfo,
    pciReadl_at, Option.pure_def, Option.bind_eq_bind, Option.some_bind, pciregVendorId,
    pciregDeviceId, pciregClassrev, pciregBar0, pciregBar1, pciregBar2, pciregBar3, pciregBar4,
    pciregBar5, pciregIrqline, BitVec.reduceAnd, BitVec.reduceToNat, Nat.reduceDiv,
    Nat.reduceMul, BitVec.ushiftRight_zero, headerOf, Option.some.injEq, Prod.mk.injEq,
    PciDevice.mk.injEq]
  refine ⟨⟨by simp, by simp, by simp, ?_, ?_, ?_, ?_, ?_, ?_, ?_⟩, rfl⟩
  case refine_6 =>
    funext ⟨i, hi⟩
    rcases (by omega : i = 0 ∨ i = 1 ∨ i = 2 ∨ i = 3 ∨ i = 4 ∨ i = 5) with
      rfl | rfl | rfl | rfl | rfl | rfl <;> rfl
  all_goals
    apply BitVec.eq_of_toNat_eq
    simp only [BitVec.toNat_setWidth, BitVec.toNat_and, BitVec.toNat_ushiftRight, m16, m8, ff,
      Nat.and_pow_two_sub_one_eq_mod, BitVec.extractLsb'_toNat, pciregClass, pciregSubclass,
      pciregProgif, Nat.shiftRight_zero, Nat.shiftRight_eq_div_pow] <;> omega

theorem pciRegisterDevice_eq (hw : Loc → BitVec 32 → BitVec 32) (bus slot func : BitVec 8)
    (st : PciState) (hs : slot.toNat < 32) (hf : func.toNat < 8) :
    ∃ st', pciRegisterDevice hw bus slot func st = some st' ∧ st'.cam.cfg = st.cam.cfg ∧
      st'.deviceList = st.deviceList ++
        if isPresent hw st.cam.cfg bus.toNat slot.toNat func.toNat then
          [headerOf hw st.cam.cfg bus.toNat slot.toNat func.toNat] else [] := by
  unfold pciRegisterDevice
  rw [pciDeviceExists_eq hw st.cam hs hf]
  cases isPresent hw st.cam.cfg bus.toNat slot.toNat func.toNat
  · exact ⟨_, rfl, rfl, by simp⟩
  · have h := @pciSetDeviceInfo_eq hw (devTmp bus slot func)
      ⟨camAddress (devTmp bus slot func) 0x0, st.cam.cfg⟩ hs hf
    exact ⟨⟨⟨camAddress (devTmp bus slot func) pciregIrqline, st.cam.cfg⟩,
      st.deviceList ++ [headerOf hw st.cam.cfg bus.toNat slot.toNat func.toNat]⟩,
      by simp only [h]; rfl, rfl, rfl⟩

theorem foldlM_appends {α : Type} {cfg : Loc → BitVec 32} (step : PciState → α → Option PciState)
    (g : α → List PciDevice) (l : List α)
    (h : ∀ st, st.cam.cfg = cfg → ∀ a ∈ l, ∃ st', step st a = some st' ∧ st'.cam.cfg = cfg ∧
      st'.deviceList = st.deviceList ++ g a)
    (st : PciState) (hst : st.cam.cfg = cfg) :
    ∃ st', l.foldlM step st = some st' ∧ st'.cam.cfg = cfg ∧
      st'.deviceList = st.deviceList ++ l.flatMap g := by
  induction l generalizing st with
  | nil => exact ⟨st, rfl, hst, by simp⟩
  | cons a l ih =>
    obtain ⟨st1, h1, hc1, hd1⟩ := h st hst a (by simp)
    obtain ⟨st2, h2, hc2, hd2⟩ := ih (fun st hs b hb => h st hs b (by simp [hb])) st1 hc1
    exact ⟨st2, by simp [h1, h2], hc2, by simp [hd2, hd1]⟩

theorem toNat_ofNat_eight {n : Nat} (hn : n < 256) : (BitVec.ofNat 8 n).toNat = n := by
  simp [BitVec.toNat_ofNat]
  omega

theorem pciScanBus_eq (hw : Loc → BitVec 32 → BitVec 32) {b : Nat} (hb : b < 256)
    (st : PciState) :
    ∃ st', pciScanBus hw (BitVec.ofNat 8 b) st = some st' ∧ st'.cam.cfg = st.cam.cfg ∧
      st'.deviceList = st.deviceList ++
        (List.range 32).flatMap fun s => (List.range 8).flatMap fun f =>
          if isPresent hw st.cam.cfg b s f then [headerOf hw st.cam.cfg b s f] else [] := by
  unfold pciScanBus
  refine foldlM_appends _ _ _ (fun st1 h1 s hs => ?_) st rfl
  refine foldlM_appends _ _ _ (fun st2 h2 f hf => ?_) st1 h1
  have hs' := List.mem_range.1 hs
  have hf' := List.mem_range.1 hf
  have es := toNat_ofNat_eight (n := s) (by omega)
  have ef := toNat_ofNat_eight (n := f) (by omega)
  obtain ⟨st3, h3, hc3, hd3⟩ := pciRegisterDevice_eq hw (BitVec.ofNat 8 b) (BitVec.ofNat 8 s)
    (BitVec.ofNat 8 f) st2 (by omega) (by omega)
  rw [toNat_ofNat_eight hb, es, ef, h2] at hd3
  exact ⟨st3, h3, hc3.trans h2, hd3⟩

theorem map_presentList {β : Type} (hw : Loc → BitVec 32 → BitVec 32) (cfg : Loc → BitVec 32)
    (F : Nat × Nat × Nat → β) :
    (presentList hw cfg).map F =
      (List.range 256).flatMap fun b => (List.range 32).flatMap fun s =>
        (List.range 8).flatMap fun f => if isPresent hw cfg b s f then [F (b, s, f)] else [] := by
  simp only [presentList, List.map_flatMap, apply_ite (List.map F), List.map_cons, List.map_nil]

theorem pciInit_eq (hw : Loc → BitVec 32 → BitVec 32) (st : PciState) :
    ∃ st', pciInit hw st = some (0, st') ∧ st'.cam.cfg = st.cam.cfg ∧
      st'.deviceList =
        (presentList hw st.cam.cfg).map fun x => headerOf hw st.cam.cfg x.1 x.2.1 x.2.2 := by
  obtain ⟨st', h, hc, hd⟩ := foldlM_appends (fun st i => pciScanBus hw (BitVec.ofNat 8 i) st)
    (fun b => (List.range 32).flatMap fun s => (List.range 8).flatMap fun f =>
      if isPresent hw st.cam.cfg b s f then [headerOf hw st.cam.cfg b s f] else [])
    (List.range 256) (fun st1 h1 b hb => by
      obtain ⟨st2, h2, hc2, hd2⟩ := pciScanBus_eq hw (List.mem_range.1 hb) st1
      exact ⟨st2, h2, hc2.trans h1, h1 ▸ hd2⟩)
    { st with deviceList := [] } rfl
  refine ⟨st', ?_, hc, ?_⟩
  · simp only [pciInit, h]
    rfl
  · rw [map_presentList]
    exact hd.trans (List.nil_append _)

theorem mem_presentList {hw : Loc → BitVec 32 → BitVec 32} {cfg : Loc → BitVec 32} {b s f : Nat} :
    (b, s, f) ∈ presentList hw cfg ↔ b < 256 ∧ s < 32 ∧ f < 8 ∧ isPresent hw cfg b s f = true := by
  simp only [presentList, List.mem_flatMap, List.mem_range]
  constructor
  · rintro ⟨b', hb, s', hs, f', hf, h⟩
    split at h
    · obtain ⟨rfl, rfl, rfl⟩ : b = b' ∧ s = s' ∧ f = f' := by simpa using h
      exact ⟨hb, hs, hf, ‹_›⟩
    · cases h
  · rintro ⟨hb, hs, hf, hp⟩
    exact ⟨b, hb, s, hs, f, hf, by simp [hp]⟩

theorem coords_headerOf {hw : Loc → BitVec 32 → BitVec 32} {cfg : Loc → BitVec 32}
    {b s f : Nat} (hb : b < 256) (hs : s < 32) (hf : f < 8) :
    coords (headerOf hw cfg b s f) = (b, s, f) := by
  simp only [coords, headerOf, toNat_ofNat_eight hb, toNat_ofNat_eight (by omega : s < 256),
    toNat_ofNat_eight (by omega : f < 256)]

theorem pciInit_spec (hw : Loc → BitVec 32 → BitVec 32) (st : PciState) :
    ∃ st', pciInit hw st = some (0, st') ∧ st'.cam.cfg = st.cam.cfg ∧
      st'.deviceList.map coords = presentList hw st.cam.cfg := by
  obtain ⟨st', h, hc, hd⟩ := pciInit_eq hw st
  refine ⟨st', h, hc, ?_⟩
  rw [hd, List.map_map]
  refine (List.map_congr_left fun ⟨b, s, f⟩ hx => ?_).trans (List.map_id _)
  obtain ⟨hb, hs, hf, -⟩ := mem_presentList.1 hx
  exact coords_headerOf hb hs hf

theorem eq_of_mem_entry {hw : Loc → BitVec 32 → BitVec 32} {cfg : Loc → BitVec 32}
    {b s f : Nat} {x : Nat × Nat × Nat}
    (h : x ∈ if isPresent hw cfg b s f then [(b, s, f)] else []) : x = (b, s, f) := by
  split at h
  · simpa using h
  · cases h

theorem presentList_sorted (hw : Loc → BitVec 32 → BitVec 32) (cfg : Loc → BitVec 32) :
    (presentList hw cfg).Sorted (Prod.Lex (· < ·) (Prod.Lex (· < ·) (· < ·))) := by
  unfold presentList List.Sorted
  refine List.pairwise_flatMap.2 ⟨fun b _ => List.pairwise_flatMap.2 ⟨fun s _ =>
    List.pairwise_flatMap.2 ⟨fun f _ => ?_, ?_⟩, ?_⟩, ?_⟩
  · split <;> simp
  · refine (List.pairwise_lt_range 8).imp fun h x hx y hy => ?_
    rw [eq_of_mem_entry hx, eq_of_mem_entry hy]
    exact .right _ (.right _ h)
  · refine (List.pairwise_lt_range 32).imp fun h x hx y hy => ?_
    obtain ⟨f1, -, hx⟩ := List.mem_flatMap.1 hx
    obtain ⟨f2, -, hy⟩ := List.mem_flatMap.1 hy
    rw [eq_of_mem_entry hx, eq_of_mem_entry hy]
    exact .right _ (.left _ _ h)
  · refine (List.pairwise_lt_range 256).imp fun h x hx y hy => ?_
    obtain ⟨s1, -, hx⟩ := List.mem_flatMap.1 hx
    obtain ⟨s2, -, hy⟩ := List.mem_flatMap.1 hy
    obtain ⟨f1, -, hx⟩ := List.mem_flatMap.1 hx
    obtain ⟨f2, -, hy⟩ := List.mem_flatMap.1 hy
    rw [eq_of_mem_entry hx, eq_of_mem_entry hy]
    exact .left _ _ h

/-- After `pci_init`, `device_list` holds one entry for each function that answers and none
for any other, in increasing order of bus, slot and function. -/
theorem pci_init_lists_present_functions (hw : Loc → BitVec 32 → BitVec 32) (st : PciState) :
    ∃ st', pciInit hw st = some (0, st') ∧
      (∀ b s f, (b, s, f) ∈ st'.deviceList.map coords ↔
        b < 256 ∧ s < 32 ∧ f < 8 ∧ isPresent hw st.cam.cfg b s f = true) ∧
      (st'.deviceList.map coords).Sorted (Prod.Lex (· < ·) (Prod.Lex (· < ·) (· < ·))) := by
  obtain ⟨st', h, -, hd⟩ := pciInit_spec hw st
  exact ⟨st', h, fun b s f => hd ▸ mem_presentList, hd ▸ presentList_sorted hw st.cam.cfg⟩

end Hyra.PciInit
