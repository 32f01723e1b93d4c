import Forgeclaw.Core.Config.Overrides
import Forgeclaw.Core.Config.Precedence
import Forgeclaw.Core.Config.EnvFrame
import Forgeclaw.Core.Config.EnvOrder
import Forgeclaw.Core.Config.EnvNames
import Forgeclaw.Core.Config.Validate
import Forgeclaw.Core.Config.Loaders
import Forgeclaw.Core.Config.EnvValue
import Forgeclaw.Core.CommandLiveness
import Forgeclaw.Store.MessageDelivery
import Forgeclaw.Store.Redaction
import Forgeclaw.Store.MessageLog
import Forgeclaw.Store.MessagePaging
import Forgeclaw.Store.MessageWaits
import Forgeclaw.Store.Scheduler
import Forgeclaw.Store.Events
import Forgeclaw.Store.Migration
import Forgeclaw.Store.Retry
import Forgeclaw.Store.Connect
import Forgeclaw.Store.Polling
import Forgeclaw.Store.MemoryUrl
import Forgeclaw.Store.Runs
import Forgeclaw.Core.Config.Effective
import Forgeclaw.Core.EventLiveness
import Forgeclaw.Store.SchemaCheck
import Forgeclaw.Store.SqliteLog
import Forgeclaw.Store.SharedDatabase
