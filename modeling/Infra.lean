import Infra.CircularBuffer.Bounds
import Infra.CircularBuffer.Queue
import Infra.Config.Atomic
import Infra.Config.Builds
import Infra.Config.Comments
import Infra.Config.Count
import Infra.Config.Entries
import Infra.Config.Image
import Infra.Config.Load
import Infra.Config.Saved
import Infra.Config.Session
import Infra.Config.Tags
import Infra.Config.Update
import Infra.HashTable.Run
import Infra.HexUtil.RoundTrip
import Infra.IoEvent.Interval
import Infra.IoEvent.Lifetime
import Infra.IoEvent.Moments
import Infra.IoEvent.SelectSets
import Infra.LinkedList.Run
import Infra.Log.History
import Infra.MemTracker.Sizes
import Infra.RbTree.Augment
import Infra.RbTree.Run
import Infra.RbTree.Traverse
import Infra.TimerWheel.Early
import Infra.TimerWheel.Run
import Infra.Config.Consult
import Infra.Config.Lifetime
