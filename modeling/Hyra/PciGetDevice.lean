import Hyra.PciInit

namespace Hyra.PciGetDevice

open PciConfig PciInit

/-- Modelled from the spec: `struct pci_lookup` is declared in a header that is not among the
sources; these are the fields `pci_get_device` compares. -/
structure PciLookup where
  deviceId : BitVec 16
  vendorId : BitVec 16
  pciClass : BitVec 8
  pciSubclass : BitVec 8

inductive LookupKey
  | deviceId
  | vendorId
  | pciClass
  | pciSubclass
  deriving DecidableEq

/-- The lookup bits `PCI_DEVICE_ID`, `PCI_VENDOR_ID`, `PCI_CLASS` and `PCI_SUBCLASS` of
`dev/pci/pci.h`, which is not among the sources: four nonzero masks with no bit in common. -/
structure LookupBits where
  bit : LookupKey → BitVec 16
  ne_zero : ∀ k, bit k ≠ 0
  disjoint : ∀ k k', k ≠ k' → bit k &&& bit k' = 0

def singleBits : LookupBits :=
  ⟨fun | .deviceId => 1 | .vendorId => 2 | .pciClass => 4 | .pciSubclass => 8,
    fun k => by cases k <;> decide, fun k k' => by cases k <;> cases k' <;> decide⟩

def test16 (x m : BitVec 16) : Bool := x &&& m != 0

def checkKey (lookupType bit : BitVec 16) (same : Bool) (lookupMatches : BitVec 16) :
    BitVec 16 :=
  if test16 lookupType bit then
    if same then lookupMatches ||| bit else lookupMatches
  else lookupMatches

def matchDevice (B : LookupBits) (lookup : PciLookup) (lookupType : BitVec 16) (dev : PciDevice)
    (lookupMatches : BitVec 16) : BitVec 16 :=
  let lookupMatches := checkKey lookupType (B.bit .deviceId) (lookup.deviceId == dev.deviceId)
    lookupMatches
  let lookupMatches := checkKey lookupType (B.bit .vendorId) (lookup.vendorId == dev.vendorId)
    lookupMatches
  let lookupMatches := checkKey lookupType (B.bit .pciClass) (lookup.pciClass == dev.pciClass)
    lookupMatches
  checkKey lookupType (B.bit .pciSubclass) (lookup.pciSubclass == dev.pciSubclass) lookupMatches

/-- The `TAILQ_FOREACH` loop of `pci_get_device`, with `lookup_matches` carried from one device
to the next and cleared after each device that does not match. -/
def getDeviceLoop (B : LookupBits) (lookup : PciLookup) (lookupType : BitVec 16) :
    BitVec 16 → List PciDevice → Option PciDevice
  | _, [] => none
  | lookupMatches, dev :: rest =>
    let lookupMatches := matchDevice B lookup lookupType dev lookupMatches
    if lookupType = lookupMatches then some dev
    else getDeviceLoop B lookup lookupType 0 rest

/-- `pci_get_device`: the first entry of `device_list` that the lookup selects, or NULL. -/
def pciGetDevice (B : LookupBits) (st : PciState) (lookup : PciLookup) (lookupType : BitVec 16) :
    Option PciDevice :=
  getDeviceLoop B lookup lookupType 0 st.deviceList

def keyBits (B : LookupBits) (sel : LookupKey → Bool) (k : LookupKey) : BitVec 16 :=
  if sel k then B.bit k else 0

def lookupType (B : LookupBits) (sel : LookupKey → Bool) : BitVec 16 :=
  keyBits B sel .deviceId ||| keyBits B sel .vendorId ||| keyBits B sel .pciClass |||
    keyBits B sel .pciSubclass

def sameKey (lookup : PciLookup) (dev : PciDevice) : LookupKey → Bool
  | .deviceId => lookup.deviceId == dev.deviceId
  | .vendorId => lookup.vendorId == dev.vendorId
  | .pciClass => lookup.pciClass == dev.pciClass
  | .pciSubclass => lookup.pciSubclass == dev.pciSubclass

def Wanted (sel : LookupKey → Bool) (lookup : PciLookup) (dev : PciDevice) : Prop :=
  (sel .deviceId → dev.deviceId = lookup.deviceId) ∧
    (sel .vendorId → dev.vendorId = lookup.vendorId) ∧
    (sel .pciClass → dev.pciClass = lookup.pciClass) ∧
    (sel .pciSubclass → dev.pciSubclass = lookup.pciSubclass)

instance (sel : LookupKey → Bool) (lookup : PciLookup) : DecidablePred (Wanted sel lookup) :=
  fun _ => inferInstanceAs (Decidable (_ ∧ _ ∧ _ ∧ _))

theorem LookupBits.getLsbD_disjoint (B : LookupBits) {k k' : LookupKey} (h : k ≠ k') (i : Nat) :
    ((B.bit k).getLsbD i && (B.bit k').getLsbD i) = false := by
  simpa using congrArg (BitVec.getLsbD · i) (B.disjoint k k' h)

theorem keyBits_and_bit (B : LookupBits) (sel : LookupKey → Bool) (k k' : LookupKey) (i : Nat) :
    ((keyBits B sel k').getLsbD i && (B.bit k).getLsbD i) =
      if k' = k then (keyBits B sel k).getLsbD i else false := by
  unfold keyBits
  by_cases hk : k' = k
  · subst hk
    cases sel k' <;> simp
  · have := B.getLsbD_disjoint hk i
    cases sel k' <;> simp [hk, this]

theorem lookupType_and_bit (B : LookupBits) (sel : LookupKey → Bool) (k : LookupKey) :
    lookupType B sel &&& B.bit k = keyBits B sel k := by
  ext i
  simp only [lookupType, BitVec.getLsbD_and, BitVec.getLsbD_or, Bool.and_or_distrib_right,
    keyBits_and_bit]
  cases k <;> simp

theorem test16_lookupType (B : LookupBits) (sel : LookupKey → Bool) (k : LookupKey) :
    test16 (lookupType B sel) (B.bit k) = sel k := by
  unfold test16
  rw [lookupType_and_bit]
  cases h : sel k
  · simp [keyBits, h]
  · simpa [keyBits, h] using B.ne_zero k

theorem lookupType_inj {B : LookupBits} {sel sel' : LookupKey → Bool}
    (h : lookupType B sel = lookupType B sel') (k : LookupKey) : sel k = sel' k := by
  have hk := congrArg (· &&& B.bit k) h
  simp only [lookupType_and_bit, keyBits] at hk
  cases hs : sel k <;> cases hs' : sel' k <;> simp [hs, hs'] at hk ⊢
  · exact B.ne_zero k hk.symm
  · exact B.ne_zero k hk

theorem checkKey_lookupType (B : LookupBits) (sel : LookupKey → Bool) (k : LookupKey)
    (same : Bool) (m : BitVec 16) :
    checkKey (lookupType B sel) (B.bit k) same m =
      m ||| keyBits B (fun k' => sel k' && same) k := by
  unfold checkKey keyBits
  rw [test16_lookupType]
  cases h : sel k <;> cases same <;> simp [h]

theorem matchDevice_zero (B : LookupBits) (sel : LookupKey → Bool) (lookup : PciLookup)
    (dev : PciDevice) :
    matchDevice B lookup (lookupType B sel) dev 0 =
      lookupType B fun k => sel k && sameKey lookup dev k := by
  simp [matchDevice, checkKey_lookupType]
  rfl

theorem wanted_iff (sel : LookupKey → Bool) (lookup : PciLookup) (dev : PciDevice) :
    Wanted sel lookup dev ↔ ∀ k, sel k = true → sameKey lookup dev k = true := by
  constructor
  · rintro ⟨h1, h2, h3, h4⟩ k hk
    cases k <;> simp [sameKey, h1, h2, h3, h4, hk]
  · intro h
    exact ⟨fun hk => (beq_iff_eq.1 (h .deviceId hk)).symm,
      fun hk => (beq_iff_eq.1 (h .vendorId hk)).symm,
      fun hk => (beq_iff_eq.1 (h .pciClass hk)).symm,
      fun hk => (beq_iff_eq.1 (h .pciSubclass hk)).symm⟩

theorem lookupType_eq_matchDevice_iff (B : LookupBits) (sel : LookupKey → Bool)
    (lookup : PciLookup) (dev : PciDevice) :
    lookupType B sel = matchDevice B lookup (lookupType B sel) dev 0 ↔ Wanted sel lookup dev := by
  rw [matchDevice_zero, wanted_iff]
  constructor
  · intro h k hk
    simpa [hk] using (lookupType_inj h k).symm
  · intro h
    congr 1
    funext k
    cases hk : sel k
    · rfl
    · simp [h k hk]

theorem getDeviceLoop_find? (B : LookupBits) (sel : LookupKey → Bool) (lookup : PciLookup)
    (l : List PciDevice) :
    getDeviceLoop B lookup (lookupType B sel) 0 l =
      l.find? fun dev => decide (Wanted sel lookup dev) := by
  induction l with
  | nil => rfl
  | cons dev rest ih =>
    rw [getDeviceLoop, List.find?_cons, ih]
    simp only [lookupType_eq_matchDevice_iff]
    by_cases h : Wanted sel lookup dev <;> simp [h]

/-- For any values of the four lookup bits, `pci_get_device` with a `lookup_type` built from
them returns the first entry of `device_list` that agrees with the lookup on every selected
field, and NULL exactly when no entry does. -/
theorem pci_get_device_first_match (B : LookupBits) (st : PciState) (lookup : PciLookup)
    (sel : LookupKey → Bool) :
    pciGetDevice B st lookup (lookupType B sel) =
        st.deviceList.find? (fun dev => decide (Wanted sel lookup dev)) ∧
      (pciGetDevice B st lookup (lookupType B sel) = none ↔
        ∀ dev ∈ st.deviceList, ¬Wanted sel lookup dev) := by
  have h := getDeviceLoop_find? B sel lookup st.deviceList
  refine ⟨h, ?_⟩
  rw [pciGetDevice, h, List.find?_eq_none]
  simp

theorem getLsbD_checkKey {t bit m : BitVec 16} {same : Bool} {i : Nat}
    (hb : bit.getLsbD i = false) : (checkKey t bit same m).getLsbD i = m.getLsbD i := by
  unfold checkKey
  split_ifs <;> simp [hb]

/-- A `lookup_type` with a bit outside the four lookup bits finds no device: `lookup_matches`
never gets that bit. -/
theorem pciGetDevice_stray_bit (B : LookupBits) (st : PciState) (lookup : PciLookup)
    {t : BitVec 16} {i : Nat} (ht : t.getLsbD i = true) (hB : ∀ k, (B.bit k).getLsbD i = false) :
    pciGetDevice B st lookup t = none := by
  unfold pciGetDevice
  generalize st.deviceList = l
  induction l with
  | nil => rfl
  | cons dev rest ih =>
    have hne : t ≠ matchDevice B lookup t dev 0 := fun he => by
      have := congrArg (BitVec.getLsbD · i) he
      simp [matchDevice, getLsbD_checkKey (hB _), ht] at this
    simp only [getDeviceLoop, if_neg hne, ih]

theorem pciGetDevice_stray_bit_example :
    (0x10#16).getLsbD 4 = true ∧ (∀ k, (singleBits.bit k).getLsbD 4 = false) ∧
      pciGetDevice singleBits ⟨⟨0, fun _ => 0⟩, [devTmp 0 0 0]⟩ ⟨0, 0, 0, 0⟩ 0x10#16 = none :=
  have hB : ∀ k, (singleBits.bit k).getLsbD 4 = false := fun k => by cases k <;> decide
  ⟨by decide, hB, pciGetDevice_stray_bit singleBits _ _ (by decide) hB⟩

end Hyra.PciGetDevice
