import Lightc.Data.Ringbuf.Create
import Lightc.Data.Array
import Lightc.Data.Hashmap.Invariant
import Lightc.Library.Bias
import Lightc.Async.Flush
import Lightc.Coroutines.Yield
import Lightc.Io.Lines
import Lightc.Lightio.Accept
import Lightc.Lightio.Accounting
import Lightc.Lightio.Write
import Lightc.Lightio.Threaded
import Lightc.Sync.Rwlock
import Lightc.Async.Reaping
import Lightc.Format.Numerals
import Lightc.Sync.Barrier
import Lightc.Sync.Condvar
import Lightc.Sync.TlsKeys
import Lightc.Time.Civil
import Lightc.Sync.Once
import Lightc.Lifecycle
import Lightc.Coroutines.Fairness
import Lightc.Coroutines.Frame
import Lightc.Log.Output
import Lightc.Heap.Reallocation
import Lightc.Heap.Alignment
import Lightc.Heap.Peaks
import Lightc.Library.Cleanup
import Lightc.Library.Count
import Lightc.Library.Agreement
import Lightc.Library.Relocation
