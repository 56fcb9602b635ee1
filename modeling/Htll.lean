import Htll.BackOff
import Htll.BenchProgress
import Htll.BucketReach
import Htll.CondBinding
import Htll.CondSignal
import Htll.CoreType
import Htll.InitOnce
import Htll.Initialisation
import Htll.InterposedClients
import Htll.LifeCycle
import Htll.LockPairSound
import Htll.Measure
import Htll.PthreadTransparent
import Htll.Report
import Htll.SegmentBounds
import Htll.SegmentHistory
import Htll.SegmentTouch
import Htll.SequentialRuns
import Htll.TableCapacity
import Htll.TableEntries
import Htll.ThreadIds
import Htll.ThreadWindows
import Htll.TimedWait
import Htll.WaitFree
import Htll.WaitingServed
