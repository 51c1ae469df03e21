import Tdlib.Binlog.TornBatch
import Tdlib.Aggregator.RegexProof
import Tdlib.KeyValue.KeyValueProof
import Tdlib.Retriever.Verdict
import Tdlib.Updates.Repeated
import Tdlib.Updates.QtsProof
import Tdlib.Mtproto.MessageIds
import Tdlib.Mtproto.Authenticated
import Tdlib.SecretChat.InboundProof
import Tdlib.SecretChat.OutboundProof
import Tdlib.Net.SequenceDispatcherProof
import Tdlib.Files.UnknownSizeProof
import Tdlib.Files.StreamingProof
import Tdlib.Files.BandwidthProof
import Tdlib.Files.DownloaderProof
import Tdlib.Utils.TlMemory
import Tdlib.TQueue.LogRecord
import Tdlib.TQueue.Twins
import Tdlib.Application.ChatList
import Tdlib.Mtproto.TcpTransportProof
import Tdlib.Notifications.TotalCount
import Tdlib.Text.CleanInput
import Tdlib.Crypto.AesIge
import Tdlib.Mtproto.ProxySecret
import Tdlib.Utils.ToInteger
import Tdlib.Binlog.Sessions
