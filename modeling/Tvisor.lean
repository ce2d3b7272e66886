import Tvisor.Boot
import Tvisor.TlbUpdate.Failure
import Tvisor.TlbUpdate.Safety
import Tvisor.Management.ExactlyOnce
import Tvisor.GuestExit.Panics
import Tvisor.PublishedRecords
import Tvisor.Secondary.Authorized
import Tvisor.MemoryMap.Canonical
import Tvisor.PageAllocator.RamPages
import Tvisor.Pcpu.Stacks
import Tvisor.El2Stage1.Complete
import Tvisor.Mm.Identity
import Tvisor.GuestExit.Run
import Tvisor.StartupPublication.Cleaning
import Tvisor.StartupPublication.Readback
import Tvisor.LinuxBoot.Load
import Tvisor.Gicv2.Targets
import Tvisor.SecondaryBoot.Deadline
import Tvisor.HostManagement.Wait
import Tvisor.VmCtl.Regions
import Tvisor.GuestFdt.Readback
import Tvisor.Secondary.Lookup
import Tvisor.Fdt.Search
