import Mqtt5.WireRoundTrip
import Mqtt5.WireUserProperties
import Mqtt5.WireReencode
import Mqtt5.WirePacketIdentifier
import Mqtt5.ClientDelivery
import Mqtt5.WireBounds
import Mqtt5.WireFraming
import Mqtt5.WireSubscriptionIdentifier
import Mqtt5.ClientIdentifiers
import Mqtt5.ClientSendQuota
import Mqtt5.ClientExactlyOnce
import Mqtt5.ClientReceiveQuota
import Mqtt5.ClientQuotaExceeded
import Mqtt5.ClientConnection
import Mqtt5.ClientAcknowledgement
import Mqtt5.ClientConnectMessage
import Mqtt5.ClientTimers
import Mqtt5.ClientConnectors
import Mqtt5.ClientAcceptance
import Mqtt5.ClientAccounting
import Mqtt5.ClientOrder
import Mqtt5.ClientWaiters
import Mqtt5.ClientWire
import Mqtt5.WireVarlen
import Mqtt5.WirePropertyBlocks
import Mqtt5.WireConfinement
import Mqtt5.TopicText
import Mqtt5.ClientFailedPublish
import Mqtt5.PublishOptions
import Mqtt5.ClientPeer
import Mqtt5.ClientFeed
import Mqtt5.ClientWork
import Mqtt5.ClientEndpoint
import Mqtt5.ClientPings
import Mqtt5.ClientProgress
import Mqtt5.ClientOpening
import Mqtt5.WirePropertyOrder
import Mqtt5.ClientProtocol
