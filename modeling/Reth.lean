import Reth.Primitives
import Reth.Table
import Reth.Stage
import Reth.Senders
import Reth.SendersChunks
import Reth.SendersLayout
import Reth.SendersRun
import Reth.SendersContract
import Reth.Headers
import Reth.HeadersWrite
import Reth.HeadersStream
import Reth.HeadersUnwind
import Reth.HeadersChain
import Reth.HeadersRun
import Reth.HeadersReentry
import Reth.HeadersContract
import Reth.Parked
import Reth.ParkedRun
import Reth.ParkedOps
import Reth.Lifecycle
import Reth.Pipeline
