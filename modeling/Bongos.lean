import Bongos.Acpi.PhysRange
import Bongos.Arch.DirectMapExact
import Bongos.Arch.IrqInvariant
import Bongos.Arch.IsaRoute
import Bongos.Arch.PagingWx
import Bongos.Boot.ElfRelocExact
import Bongos.Boot.FinalMap
import Bongos.Compress.DeflateCorrect
import Bongos.Core.CmdlineGlob
import Bongos.Core.KsymRoundTrip
import Bongos.Core.TimeCivil
import Bongos.Core.TimeScale
import Bongos.Core.TimerHw
import Bongos.Gfx.CanvasInvariant
import Bongos.Gfx.RasterSegments
import Bongos.Mm.KvaMisuse
import Bongos.Mm.MmioExact
import Bongos.Mm.PmmAdd
import Bongos.Mm.PmmMisuse
import Bongos.Mm.SlabMisuse
import Bongos.Mm.VmallocExact
import Bongos.Sync.LockdepPath
import Bongos.Sync.LockdepUsage
