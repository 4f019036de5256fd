import Hyra.Pte
import Hyra.Memory
import Hyra.Walk
import Hyra.Tree
import Hyra.Mapping
import Hyra.TreeInvariant
import Hyra.AddressSpace
import Hyra.Shootdown
import Hyra.ShootdownSteps
import Hyra.PciConfig
import Hyra.PciInit
import Hyra.PciBar
import Hyra.PciGetDevice
import Hyra.Refinement
