import ShardLog.Structural.Checked
import ShardLog.Native.Query
import ShardLog.Ingest.EventPack
import ShardLog.Query.Paging
import ShardLog.Stripe.Offsets
import ShardLog.Stripe.Replay
import ShardLog.Blocks.Locality
import ShardLog.Sink.JournalFaults
import ShardLog.Sink.Checkpoint
import ShardLog.Persistent.Literals
import ShardLog.Persistent.Pages
import ShardLog.Persistent.DirectoryCodec
import ShardLog.Tier.Cache
import ShardLog.Tier.Retention
import ShardLog.Production.RateLimit
import ShardLog.Loki.Deletion
