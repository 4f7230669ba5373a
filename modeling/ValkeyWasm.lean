import ValkeyWasm.Hashtable.FullScan
import ValkeyWasm.Hashtable.Iteration
import ValkeyWasm.Hashtable.Sizing
import ValkeyWasm.Kvstore.Searching
import ValkeyWasm.Intset.Validation
import ValkeyWasm.Intset.Refinement
import ValkeyWasm.Listpack.Script
import ValkeyWasm.Skiplist.Rank
import ValkeyWasm.Rdb.RoundTrip
import ValkeyWasm.Vset.Script
import ValkeyWasm.Streams.Script
import ValkeyWasm.Bridge.Descriptors
import ValkeyWasm.Bridge.Polling
import ValkeyWasm.Bridge.Wakeup
import ValkeyWasm.Watch.Script
import ValkeyWasm.Blocked.Script
import ValkeyWasm.Blocking.Script
import ValkeyWasm.Acl.Databases
import ValkeyWasm.Ae.Timers
import ValkeyWasm.Functions.Script
import ValkeyWasm.Pubsub.Script
import ValkeyWasm.Lua.Intact
import ValkeyWasm.Streams.Identifiers
import ValkeyWasm.Util.Printing
import ValkeyWasm.Util.Glob
import ValkeyWasm.Bitops.Overflow
