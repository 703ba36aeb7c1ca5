import Lmsel4.System
import Lmsel4.Ring
import Lmsel4.Liblinux
import Lmsel4.Kfifo
import Lmsel4.Spinlock
import Lmsel4.Turns
import Lmsel4.ComDev
import Lmsel4.Transmit
import Lmsel4.Receive
import Lmsel4.WakeUp
import Lmsel4.Uart
import Lmsel4.Driver
import Lmsel4.AllOrNothing
import Lmsel4.Cdev
import Lmsel4.Simulation
import Lmsel4.FileTable
import Lmsel4.LoadCycle
import Lmsel4.ModuleList
import Lmsel4.Loader
import Lmsel4.Interrupt
import Lmsel4.Device
import Lmsel4.LineSetting
import Lmsel4.Regions
import Lmsel4.OpenRelease
import Lmsel4.Blocks
import Lmsel4.Isolation
import Lmsel4.Sole
import Lmsel4.Echo
import Lmsel4.Queue
import Lmsel4.Blocking
import Lmsel4.HandlerRun
import Lmsel4.Overrun
import Lmsel4.Hierarchy
import Lmsel4.WaitQueue
import Lmsel4.LineSetup
import Lmsel4.KfifoInit
import Lmsel4.Records
import Lmsel4.CMemory
import Lmsel4.StoredNames
import Lmsel4.Path
import Lmsel4.ListHead
import Lmsel4.Pointers
import Lmsel4.UserCopy
import Lmsel4.Spsc
import Lmsel4.RecordUser
import Lmsel4.Dma
import Lmsel4.DmaRecord
import Lmsel4.Registry
import Lmsel4.Macros
import Lmsel4.Lifetime
import Lmsel4.Progress
import Lmsel4.HandlerWork
