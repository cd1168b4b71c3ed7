import Osx360.Lib.Run
import Osx360.Lib.Ring
import Osx360.Lib.Fifo
import Osx360.Ethernet.Regs
import Osx360.Ethernet.Transmit
import Osx360.Ethernet.TransmitRing
import Osx360.Ethernet.TransmitOwnership
import Osx360.Ethernet.EndOfRing
import Osx360.Ethernet.TransmitDma
import Osx360.Ethernet.Publication
import Osx360.Ethernet.Receive
import Osx360.Ethernet.ReceiveOwnership
import Osx360.Ethernet.Delivery
import Osx360.Ethernet.Interrupt
import Osx360.Ethernet.Halt
import Osx360.Ethernet.Session
import Osx360.Ethernet.Bringup
import Osx360.Ethernet.OutputQueue
import Osx360.Ethernet.Mdio
import Osx360.Ethernet.LinkStatus
import Osx360.Pci.ConfigSpace
import Osx360.Smc.Filter
import Osx360.Smc.Decoder
import Osx360.Smc.Stranded
import Osx360.Smc.Rtc
import Osx360.Smc.Syncer
import Osx360.Smc.Replies
import Osx360.Smc.FifoLock
import Osx360.Smc.PowerButton
import Osx360.Common.Div64
import Osx360.Common.Reg64
import Osx360.Smc.TimeOfDay
import Osx360.Smc.Clock
import Osx360.Smc.Waiting
import Osx360.Lib.Writes
import Osx360.Lib.ByteMemory
import Osx360.Lib.Mutex
import Osx360.Platform.Framebuffer
import Osx360.Platform.Patcher
import Osx360.Lib.PowerPC
import Osx360.Lib.Doubleword
import Osx360.Platform.Route
import Osx360.Platform.PmapEnter
import Osx360.Platform.Dcbz
import Osx360.Audio.Clip
import Osx360.Audio.Unrolled
import Osx360.Audio.Playback
import Osx360.Audio.Position
import Osx360.Audio.Descriptors
import Osx360.Graphics.Commands
import Osx360.Graphics.CommandRing
import Osx360.Graphics.Startup
import Osx360.Graphics.PacketStream
import Osx360.Platform.Surface
import Osx360.Tools.Mkext
import Osx360.Tools.MkextReader
import Osx360.Lib.CString
import Osx360.Lib.Scan
import Osx360.Platform.MachHeader
import Osx360.Platform.Symbols
import Osx360.Platform.Hooks
import Osx360.Platform.InitPatcher
import Osx360.Platform.Install
import Osx360.Platform.Display
import Osx360.Platform.MapMemory
import Osx360.Interrupts.Controller
import Osx360.Interrupts.Completion
import Osx360.Interrupts.Masking
import Osx360.Interrupts.Routing
import Osx360.Ethernet.Phy
import Osx360.Ethernet.Medium
import Osx360.Sata.Config
import Osx360.Ethernet.Loops
import Osx360.Graphics.CacheSync
import Osx360.Graphics.CachedRing
import Osx360.Graphics.CommandProcessor
