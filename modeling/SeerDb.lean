import SeerDb.Btree.Bookkeeping
import SeerDb.Btree.Spine
import SeerDb.Btree.Room
import SeerDb.Db.Leases
import SeerDb.Db.CatalogReplay
import SeerDb.Storage.Traversals
import SeerDb.Storage.Tail
import SeerDb.Storage.LogRun
import SeerDb.Db.JournalRun
import SeerDb.Btree.RawRefine
import SeerDb.Blob.ImageSpec
import SeerDb.Db.WalCheck
import SeerDb.Storage.AllocatorRun
import SeerDb.Concurrency.Latch
import SeerDb.Db.EveryRun
import SeerDb.Blob.Pointers
