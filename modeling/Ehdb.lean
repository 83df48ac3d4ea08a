import Ehdb.Theorems.Backfill
import Ehdb.Theorems.Blooms
import Ehdb.Theorems.ChainReads
import Ehdb.Theorems.ChainStores
import Ehdb.Theorems.Clients
import Ehdb.Theorems.ConsumerGroups
import Ehdb.Theorems.DurableAcks
import Ehdb.Theorems.Election
import Ehdb.Theorems.Fencing
import Ehdb.Theorems.Gate
import Ehdb.Theorems.Generation
import Ehdb.Theorems.Journals
import Ehdb.Theorems.KeyValue
import Ehdb.Theorems.Leases
import Ehdb.Theorems.Merging
import Ehdb.Theorems.PartRecovery
import Ehdb.Theorems.Publication
import Ehdb.Theorems.Redelivery
import Ehdb.Theorems.Retention
import Ehdb.Theorems.Retrieval
import Ehdb.Theorems.Routing
import Ehdb.Theorems.RuntimeCache
import Ehdb.Theorems.Scans
import Ehdb.Theorems.SharedSegments
import Ehdb.Theorems.Versions
