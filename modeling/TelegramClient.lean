import TelegramClient.Lib.TreeMap
import TelegramClient.Lib.CounterMode
import TelegramClient.Lib.Simulation
import TelegramClient.Lib.Program
import TelegramClient.Data.PtsWaiter
import TelegramClient.Data.PtsChain
import TelegramClient.Data.PtsDelivery
import TelegramClient.Cache.Types
import TelegramClient.Cache.BinlogReader
import TelegramClient.Cache.BinlogReading
import TelegramClient.Cache.BlockIndependence
import TelegramClient.Storage.EncryptedFile
import TelegramClient.Storage.FileRefinement
import TelegramClient.Cache.Accounting
import TelegramClient.Cache.Database
import TelegramClient.Mtproto.ReceivedMsgIds
import TelegramClient.Mtproto.Responses
import TelegramClient.Mtproto.ResetSession
import TelegramClient.Mtproto.ContainerDiscipline
import TelegramClient.Mtproto.DedicatedLoader
import TelegramClient.Mtproto.DcOptionsRoundTrip
import TelegramClient.Mtproto.RequestsAnswered
import TelegramClient.Storage.CdnVerification
import TelegramClient.Storage.FileAssembly
import TelegramClient.Storage.LocalRoundTrip
import TelegramClient.Rpl.EventDelivery
import TelegramClient.Storage.LocalFailures
import TelegramClient.Storage.LocalCrashes
import TelegramClient.Dialogs.UnreadCounters
import TelegramClient.Codegen.EmojiLookup
import TelegramClient.Lang.Persistence
import TelegramClient.Dialogs.ListOrder
import TelegramClient.Text.Tags
import TelegramClient.Data.GroupsRuns
import TelegramClient.Text.Trimming
import TelegramClient.Text.TagReplacement
import TelegramClient.Text.LinksStuck
import TelegramClient.Text.CutParts
import TelegramClient.Passport.Encryption
import TelegramClient.Lib.Tokens
import TelegramClient.Export.HtmlText
import TelegramClient.Export.DialogsListed
import TelegramClient.Export.FileWritten
import TelegramClient.Storage.WebUploader
import TelegramClient.ChatHelpers.LangPack
import TelegramClient.ChatHelpers.KeywordRuns
import TelegramClient.Export.ParsedText
import TelegramClient.Export.JsonTexts
import TelegramClient.Text.Accents
import TelegramClient.Export.MakeLinks
import TelegramClient.Export.File
import TelegramClient.Data.CacheKeys
import TelegramClient.Storage.QueueRuns
import TelegramClient.Support.Queries
import TelegramClient.Storage.LocalSessions
import TelegramClient.Lib.Selection
import TelegramClient.Cache.SizePruning
import TelegramClient.Cache.PutAnswers
import TelegramClient.Storage.FileLocations
import TelegramClient.Storage.FailedWrites
import TelegramClient.Storage.UserPhotos
import TelegramClient.Data.MergedSlices
import TelegramClient.Data.SharedMedia
import TelegramClient.Data.SearchPages
import TelegramClient.Base.FlatSets
import TelegramClient.Base.FlatMaps
import TelegramClient.Data.SparseIdsViews
import TelegramClient.Mtproto.TcpReading
import TelegramClient.Mtproto.Strings
import TelegramClient.Mtproto.ParsePQ
import TelegramClient.Base.ParseHelper
import TelegramClient.Mtproto.DcOptionsSet
import TelegramClient.Mtproto.DomainResolver
import TelegramClient.Core.UnpackUpdate
import TelegramClient.Mtproto.HandleReceived
import TelegramClient.Cache.MinimalTimeRuns
import TelegramClient.Cache.Statistics
import TelegramClient.Cache.TornWrites
import TelegramClient.Cache.Sessions
import TelegramClient.Storage.LocalSessions
import TelegramClient.Mtproto.TcpReading
