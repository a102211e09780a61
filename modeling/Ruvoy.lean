import Ruvoy.Lib.Runs
import Ruvoy.Lib.Outline
import Ruvoy.Lib.Table
import Ruvoy.Lib.Search
import Ruvoy.Lib.Quota
import Ruvoy.Lib.Text
import Ruvoy.Lib.Hash
import Ruvoy.Lib.Doorbell
import Ruvoy.Admission.Budget
import Ruvoy.Request.Env
import Ruvoy.Stream.History
import Ruvoy.Park.Slot
import Ruvoy.Park.Several
import Ruvoy.Reactor.Commands
import Ruvoy.Exchange.Reader
import Ruvoy.Exchange.Upload
import Ruvoy.Duplex.Held
import Ruvoy.Input.Reader
import Ruvoy.Duplex.Handover
import Ruvoy.Filter.Request
import Ruvoy.Filter.Response
import Ruvoy.Filter.Writer
import Ruvoy.Filter.Reader
import Ruvoy.Filter.Progress
import Ruvoy.Filter.Watermarks
import Ruvoy.Rack.Answer
import Ruvoy.Rack.Close
import Ruvoy.Rack.Headers
import Ruvoy.Streamed.Body
import Ruvoy.Streamed.Outcome
import Ruvoy.Streamed.Upload
import Ruvoy.Upstream.Count
import Ruvoy.Upstream.Told
import Ruvoy.Upstream.Requests
import Ruvoy.Upstream.Call
import Ruvoy.Filter.Budget
import Ruvoy.Runtime.Shutdown
import Ruvoy.Relay.Progress
import Ruvoy.Stream.Collecting
import Ruvoy.Sync.Waiting
import Ruvoy.Process.Once
import Ruvoy.Streamed.Fields
import Ruvoy.Offload.Calls
import Ruvoy.Request.Context
import Ruvoy.Rack.Whole
import Ruvoy.Runtime.Permits
