import Nget.Theorems.HeaderSync
import Nget.Theorems.Retrieved
import Nget.Theorems.TempNames
import Nget.Theorems.CacheCut
import Nget.Theorems.FiledOnce
import Nget.Theorems.AddOrder
import Nget.Theorems.Metagroup
import Nget.Theorems.AutoparLookup
import Nget.Theorems.MidLast
import Nget.Theorems.MidShare
import Nget.Theorems.MutualExclusion
import Nget.Theorems.Litelist
import Nget.Theorems.ArticleCut
import Nget.Theorems.XoverSession
import Nget.Theorems.RetrievalAccounts
import Nget.Theorems.GaliasUnique
import Nget.Theorems.GrouplistSave
import Nget.Theorems.PartNumber
import Nget.Theorems.NrangeAlgebra
import Nget.Theorems.Knapsack
import Nget.Theorems.MergeLeftover
import Nget.Theorems.OverviewFields
import Nget.Theorems.PartNumeral
import Nget.Theorems.GrouplistCut
import Nget.Theorems.SockPool
import Nget.Theorems.RecoveryPackets
import Nget.Theorems.VolumeSelection
import Nget.Theorems.ParfileCheck
import Nget.Theorems.Par2Search
import Nget.Theorems.HeaderState
import Nget.Theorems.FlushHistory
import Nget.Theorems.ParseArgs
import Nget.Theorems.Regex2Wildmat
import Nget.Theorems.PartsMap
import Nget.Theorems.Btoks
import Nget.Theorems.Makedirs
import Nget.Theorems.MakePred
import Nget.Theorems.Mbox
import Nget.Theorems.RetrySchedule
import Nget.Theorems.ServerPriority
import Nget.Theorems.CfgSections
import Nget.Theorems.GrouplistSync
import Nget.Theorems.DoArgs
import Nget.Theorems.Crc
import Nget.Theorems.Md5
import Nget.Theorems.FileCheckSummer
import Nget.Theorems.ScanCoverage
import Nget.Theorems.MissingBlocks
import Nget.Theorems.LoadedPackets
import Nget.Theorems.Par2Process
import Nget.Theorems.FinishedPackets
