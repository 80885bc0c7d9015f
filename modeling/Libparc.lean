import Libparc.Memory.BufferPool
import Libparc.Security.InMemoryVerifier
import Libparc.Statistics.BasicStats
import Libparc.Algol.Base64LineBreaks
import Libparc.Algol.BitVectorCalls
import Libparc.Algol.BufferAccess
import Libparc.Algol.BufferChunker
import Libparc.Algol.BufferDictionary
import Libparc.Algol.BufferOrder
import Libparc.Algol.BufferSharing
import Libparc.Algol.BufferText
import Libparc.Algol.FileChunker
import Libparc.Algol.Hash
import Libparc.Algol.HashCodeTableGrowth
import Libparc.Algol.HashMapBuckets
import Libparc.Algol.JSONCopy
import Libparc.Algol.LinkedListIterator
import Libparc.Algol.List
import Libparc.Algol.ObjectDescriptor
import Libparc.Algol.ObjectLock
import Libparc.Algol.PathName
import Libparc.Algol.PriorityQueue
import Libparc.Algol.ReadOnlyBuffer
import Libparc.Algol.SafeMemory
import Libparc.Algol.SortedListCalls
import Libparc.Algol.StdlibMemory
import Libparc.Algol.TreeCopies
import Libparc.Algol.TreeMapIterator
import Libparc.Algol.TreeMapNeighbours
import Libparc.Algol.TreeRedBlackCost
import Libparc.Algol.URIAuthority
import Libparc.Algol.URIComponents
import Libparc.Algol.URIEscapes
import Libparc.Algol.URIPathOrder
import Libparc.Concurrent.FutureTask
import Libparc.Concurrent.Lock
import Libparc.Concurrent.Notifier
import Libparc.Concurrent.RingBufferNxM
import Libparc.Concurrent.ScheduledThreadPool
import Libparc.Concurrent.ThreadPoolTermination
