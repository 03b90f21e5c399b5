import Vermell.Environment.DotenvFile
import Vermell.Environment.Session
import Vermell.Http.BlankLine
import Vermell.Http.EarlyReject
import Vermell.Http.LineEndings
import Vermell.Http.SaveTo
import Vermell.Http.SingleLine
import Vermell.Network.Configure
import Vermell.Network.Process
import Vermell.Request.Deadlines
import Vermell.Request.EndOfStream
import Vermell.Request.Memory
import Vermell.Request.RemoteCall
import Vermell.Request.Stalled
import Vermell.Request.Turns
import Vermell.Request.Wakeups
import Vermell.Router.Cooling
import Vermell.Router.Decoders
import Vermell.Router.Files
import Vermell.Router.GuardMessage
import Vermell.Router.Markup
import Vermell.Router.Reachable
import Vermell.Router.ReadBounded
import Vermell.Router.Revalidation
import Vermell.Router.Simultaneous
import Vermell.Threading.Quiescence
