import Lux.WalLegacyCut
import Lux.InsertCheck
import Lux.JoinMeaning
import Lux.SnapshotRestore
import Lux.RespChunks
import Lux.RespWaiting
import Lux.PercentCoding
import Lux.RefreshSingleUse
import Lux.JournalFaults
import Lux.LikeMeaning
import Lux.BlockedWakeups
import Lux.StreamDelivery
import Lux.ByteRanges
import Lux.Counters
import Lux.HashExpiry
import Lux.ScoredSetNumbers
import Lux.Scans
import Lux.Deadlines
import Lux.OnlyIfAbsent
import Lux.MigrationText
import Lux.Budgets
import Lux.IndexedSets
import Lux.Geohash
import Lux.HyperLogLogs
import Lux.SetAlgebra
import Lux.EncryptionPlaces
import Lux.WalRotation
