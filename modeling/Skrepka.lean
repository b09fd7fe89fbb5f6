import Skrepka.Client.HalfLoaded
import Skrepka.Client.Acks
import Skrepka.Client.Profiles
import Skrepka.Client.Replays
import Skrepka.Client.Authentic
import Skrepka.Client.Broadcast
import Skrepka.Client.Tidy
import Skrepka.Relay.ServerName
import Skrepka.Relay.Caps
import Skrepka.Relay.Polls
import Skrepka.Relay.Forks
import Skrepka.Exchange.Walk
import Skrepka.Client.Readable
import Skrepka.Exchange.Accepts
import Skrepka.Exchange.Pages
import Skrepka.Relay.Outbox
import Skrepka.Relay.Gossip
import Skrepka.Relay.Sends
import Skrepka.Relay.Auth
import Skrepka.Client.Ordered
import Skrepka.Client.Status
import Skrepka.Client.Tokens
import Skrepka.Relay.Egress
import Skrepka.Client.Filing
import Skrepka.Client.Forgotten
import Skrepka.Client.History
import Skrepka.Client.Receipts
import Skrepka.Lib.StableSort
import Skrepka.Exchange.Padding
import Skrepka.Client.Spelling
import Skrepka.Client.Flushes
import Skrepka.Lib.Chunks
import Skrepka.Client.Insertions
import Skrepka.Client.AckOrder
import Skrepka.Client.Hostile
import Skrepka.Lib.Pratt
import Skrepka.Client.Curve
import Skrepka.Client.Drains
import Skrepka.Exchange.TooLarge
import Skrepka.Relay.Backoff
import Skrepka.Client.Panics
import Skrepka.Relay.Staging
import Skrepka.Relay.Pools
import Skrepka.Lib.Backlog
import Skrepka.Relay.Sweeps
import Skrepka.Relay.Departures
import Skrepka.Relay.Mesh
import Skrepka.Exchange.Login
import Skrepka.Apple.Files
import Skrepka.Apple.Keychain
import Skrepka.Apple.Timers
import Skrepka.Relay.Announce
import Skrepka.Client.View
import Skrepka.Client.Pair
import Skrepka.Client.Isolation
