import ZevraServer.Interleaving
import ZevraServer.ReadCommitted
import ZevraServer.Schema
import ZevraServer.World
import ZevraServer.Statements
import ZevraServer.Members
import ZevraServer.Messages
import ZevraServer.Channels
import ZevraServer.History
import ZevraServer.Gateway
import ZevraServer.Server
import ZevraServer.Tables
import ZevraServer.Discipline
import ZevraServer.Transactions
import ZevraServer.SendOutline
import ZevraServer.DeleteOutline
import ZevraServer.ChannelOutlines
import ZevraServer.Refinement
import ZevraServer.Effects
import ZevraServer.Edges
import ZevraServer.Sockets
import ZevraServer.Keysets
import ZevraServer.Pages
import ZevraServer.Paging
import ZevraServer.Copies
import ZevraServer.MemberCache
import ZevraServer.Sequence
import ZevraServer.Preview
import ZevraServer.DirectChannels
import ZevraServer.Admins
import ZevraServer.MemberCap
import ZevraServer.Deletion
import ZevraServer.MessageCache
import ZevraServer.Delivery
import ZevraServer.OfflineQueue
import ZevraServer.OfflineOrder
import ZevraServer.Rooms
import ZevraServer.RawIds
import ZevraServer.Spelling
import ZevraServer.Hex
import ZevraServer.Json
import ZevraServer.Srp
import ZevraServer.Auth
import ZevraServer.Login
import ZevraServer.Pools
import ZevraServer.AuthSteps
import ZevraServer.Tokens
import ZevraServer.Handshake
import ZevraServer.Calls
import ZevraServer.CallSteps
import ZevraServer.CallEdges
import ZevraServer.CallRooms
import ZevraServer.CallEffects
import ZevraServer.CallLife
import ZevraServer.CallHandlers
import ZevraServer.CallSignals
import ZevraServer.RoomTokens
import ZevraServer.Webhooks
import ZevraServer.CallHistory
import ZevraServer.Reactions
import ZevraServer.ReactionEdges
import ZevraServer.ReactionRows
import ZevraServer.ReactionRaces
import ZevraServer.ReactionReplay
import ZevraServer.SenderKeys
import ZevraServer.Uploads
import ZevraServer.Presence
import ZevraServer.PresenceRuns
import ZevraServer.SocketEvents
import ZevraServer.Expiry
import ZevraServer.Wildcards
import ZevraServer.UserSearch
import ZevraServer.PlainObjects
import ZevraServer.ReactionGroups
import ZevraServer.Utf8
import ZevraServer.FileTypes
import ZevraServer.SocketRegistry
import ZevraServer.RateLimits
import ZevraServer.Typing
import ZevraServer.ReadState
import ZevraServer.Watermarks
import ZevraServer.ReadReceipts
import ZevraServer.Unread
import ZevraServer.Archives
import ZevraServer.PostingRights
import ZevraServer.Loops
import ZevraServer.ModPow
import ZevraServer.Ephemerals
import ZevraServer.Base64
import ZevraServer.SealedKeys
import ZevraServer.RedisLists
import ZevraServer.RecentMessages
import ZevraServer.PgErrors
import ZevraServer.SequenceRetries
