import Librats.Security.NoiseAuthentication
import Librats.Crypto.Noise.Agreement
import Librats.Storage.LastWriteWins
import Librats.Storage.MessageSize
import Librats.Storage.RoundTrip
import Librats.Storage.Termination
import Librats.Storage.Tombstones
import Librats.BitTorrent.Picking
import Librats.BitTorrent.Progress
import Librats.BitTorrent.Announcements
import Librats.BitTorrent.PeerPieces
import Librats.BitTorrent.Metadata
import Librats.Subsystems.PeerIsolation
import Librats.Transport.SecureChannel
import Librats.Transport.Teardown
import Librats.Node.Admission
import Librats.Node.Events
import Librats.Node.CrossConnect
import Librats.Node.RepeatedDial
import Librats.Subsystems.Consent
import Librats.Subsystems.Resume
import Librats.Subsystems.Verdicts
import Librats.Subsystems.ReceivedFiles
import Librats.Dht.RpcManager
import Librats.Subsystems.GossipMesh
import Librats.Subsystems.GossipDedup
import Librats.BitTorrent.DiskReads
import Librats.Dht.Tokens
import Librats.Dht.FindClosest
import Librats.Dht.DosBlocker
import Librats.Core.ReceiveBuffer
import Librats.BitTorrent.BlockCounts
import Librats.BitTorrent.Extensions
import Librats.BitTorrent.PeerList
import Librats.BitTorrent.MagnetUri
import Librats.Dht.PeerStore
import Librats.Dht.TableRuns
import Librats.Subsystems.Reconnection
