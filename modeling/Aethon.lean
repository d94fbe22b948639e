import Aethon.Container.MapRefinement
import Aethon.Container.OwnedTable
import Aethon.Transport.UdpSession
import Aethon.Transport.UdpEngine
import Aethon.Transport.UdpHonest
import Aethon.Transport.TcpRing
import Aethon.Transport.TcpSession
import Aethon.Transport.TcpAssembler
import Aethon.Transport.TcpEngine
import Aethon.Transport.TcpData
import Aethon.Transport.TcpStream
import Aethon.Transport.TcpRun
import Aethon.Transport.TcpOverlap
import Aethon.Transport.TcpTeardown
import Aethon.Tls.ClientHello
import Aethon.Tls.DomainBlocklist
import Aethon.Tls.ServiceRegistry
import Aethon.Pipeline.Backend
import Aethon.Pipeline.TcpPipeline
import Aethon.Pipeline.Acts
import Aethon.Pipeline.Steps
import Aethon.Framework.Handles
import Aethon.Pipeline.Binding
import Aethon.Pipeline.Audit
import Aethon.Pipeline.Inspection
import Aethon.Pipeline.Served
import Aethon.Pipeline.HelloSegments
import Aethon.Pipeline.Duplicates
import Aethon.Pipeline.Numbering
import Aethon.Framework.Relay
import Aethon.Pipeline.Answers
import Aethon.Pipeline.BackendQueue
import Aethon.Transport.TcpLifetime
import Aethon.Transport.TcpWindow
import Aethon.Pipeline.Guarded
import Aethon.Pipeline.Offers
import Aethon.Pipeline.Window
import Aethon.Pipeline.Stalled
import Aethon.Pipeline.Overrun
import Aethon.Pipeline.PortReuse
import Aethon.Dpi.RoundTrip
import Aethon.Tls.HelloSoundness
import Aethon.Pipeline.Stranded
import Aethon.Pipeline.WakeUps
import Aethon.Net.Emitted
import Aethon.Net.StaleBytes
import Aethon.Net.Sentinel
import Aethon.Container.FullTable
import Aethon.Container.Refill
import Aethon.Container.Sweep
import Aethon.Dpi.ContentText
import Aethon.Transport.TcpGapFill
import Aethon.Tls.ServiceRouting
import Aethon.Pipeline.Segmentation
import Aethon.Net.Expiry
import Aethon.Pipeline.ConnRule
import Aethon.Pipeline.TxPool
import Aethon.Net.Umem
import Aethon.Net.Conservation
import Aethon.Framework.Loop
import Aethon.Framework.Metered
import Aethon.Framework.SlotWindow
import Aethon.Framework.Tickets
import Aethon.Transport.TcpBitmap
import Aethon.Transport.TcpClassify
import Aethon.Transport.SynOptions
import Aethon.Transport.UdpArithmetic
import Aethon.Dpi.PortSpec
import Aethon.Ebpf.RateLimiter
import Aethon.Ebpf.TokenBucket
import Aethon.Ebpf.SlidingWindow
import Aethon.Concurrent.Spsc
import Aethon.Concurrent.Mpmc
import Aethon.Concurrent.MpmcSchedule
import Aethon.Concurrent.MpmcSlots
import Aethon.Concurrent.MpmcProtocol
import Aethon.Container.LockFreeHashMap
import Aethon.Container.TombstoneRefinement
import Aethon.Framework.Simulation
import Aethon.Net.FallbackRing
import Aethon.Pipeline.Descriptors
import Aethon.Dpi.RuleSet
import Aethon.Pipeline.ContentPolicy
import Aethon.Framework.Futex
import Aethon.Concurrent.MpmcBlocking
import Aethon.Concurrent.MpmcWakeups
import Aethon.Framework.Sharded
import Aethon.Ebpf.XdpProgram
import Aethon.Transport.UdpInterleaved
import Aethon.Net.AfxdpEngine
import Aethon.Net.Appliance
