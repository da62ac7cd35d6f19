import AquaTransport.Engine.SessionLru
import AquaTransport.Engine.Effect
import AquaTransport.Engine.Evicted
import AquaTransport.Hooks.Identity
import AquaTransport.Hooks.Process
import AquaTransport.Hooks.Lifetime
import AquaTransport.Hooks.Setters
import AquaTransport.Hooks.PeerName
import AquaTransport.Hooks.Latch
import AquaTransport.Hooks.Reporting
import AquaTransport.Gsa.Confinement
import AquaTransport.Gsa.Recogniser
import AquaTransport.Gsa.Srp
import AquaTransport.Gsa.Adi
import AquaTransport.AirDrop.RadioSession
import AquaTransport.AirDrop.Deferrals
import AquaTransport.AirDrop.Finder
import AquaTransport.AirDrop.Radio
import AquaTransport.Rewrite.Requests
import AquaTransport.Rewrite.Reload
import AquaTransport.Maps.Directions
import AquaTransport.Maps.Varint
import AquaTransport.Rewrite.Scopes
import AquaTransport.Rewrite.Cache
import AquaTransport.Gsa.OneShot
import AquaTransport.AirDrop.Endpoints
import AquaTransport.AirDrop.StreamEvents
import AquaTransport.AirDrop.Drain
import AquaTransport.Gsa.Credentials
import AquaTransport.Maps.Url
import AquaTransport.Gsa.Dav
import AquaTransport.Lib.Monitor
import AquaTransport.Gsa.Protocols
import AquaTransport.Lib.Transfer
import AquaTransport.Gsa.Ipc
import AquaTransport.Awdl.Network
import AquaTransport.Awdl.DataFrame
import AquaTransport.Awdl.Clock
import AquaTransport.Awdl.SyncTree
import AquaTransport.Awdl.PeerTable
import AquaTransport.Awdl.Records
import AquaTransport.Awdl.Silence
