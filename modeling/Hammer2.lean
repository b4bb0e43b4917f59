import Hammer2.AllocRun
import Hammer2.TwoStageFree
import Hammer2.VolumeRing
import Hammer2.RecoveryRun
import Hammer2.Directory
import Hammer2.LinkCount
import Hammer2.TransGate
import Hammer2.XopDepend
import Hammer2.HeaderChoice
import Hammer2.FreeSpace
import Hammer2.WindowsRead
import Hammer2.SyncCommit
import Hammer2.FsckCache
import Hammer2.WindowsListing
import Hammer2.DependGroups
import Hammer2.NewfsMount
import Hammer2.FreemapRecover
import Hammer2.FsckVerdict
import Hammer2.DioRun
import Hammer2.ChainModify
import Hammer2.InodeSync
import Hammer2.RenameFailure
import Hammer2.ChainCreate
import Hammer2.Truncate
import Hammer2.DmsgLife
import Hammer2.Bigmask
import Hammer2.AvailExact
import Hammer2.BigmaskHint
import Hammer2.FreemapAlloc
import Hammer2.BrefArrayRun
import Hammer2.MergedScan
import Hammer2.StatsRollup
import Hammer2.BulkfreeMarks
import Hammer2.BulkfreeErrors
import Hammer2.FreemapInit
import Hammer2.FreemapReserve
import Hammer2.IoLock
import Hammer2.StrategyRead
import Hammer2.FsckAsserts
import Hammer2.IndkeyFile
import Hammer2.DedupTable
import Hammer2.DedupMarks
import Hammer2.DedupRun
import Hammer2.GrowFs
import Hammer2.ChainCheck
import Hammer2.MediaRead
import Hammer2.PrefixRanges
import Hammer2.VolumeTiling
import Hammer2.StampedImage
import Hammer2.HeaderWrites
import Hammer2.PathResolve
import Hammer2.Readdir
import Hammer2.ParentTree
import Hammer2.RenameCycle
import Hammer2.SuperRoot
import Hammer2.PfsNames
import Hammer2.CursorLoop
import Hammer2.SuperRootScan
import Hammer2.TimeConversion
import Hammer2.UuidText
import Hammer2.XopFifo
import Hammer2.StrategyContent
import Hammer2.XopBackends
import Hammer2.XopFailures
import Hammer2.PfsList
import Hammer2.CheckedArray
import Hammer2.VolumeIndexes
import Hammer2.VolumeAgreement
import Hammer2.NewfsInodes
import Hammer2.LabelLookup
import Hammer2.NewfsSuperRoot
import Hammer2.SuperRootLabels
import Hammer2.DmsgReceive
import Hammer2.Accounts
import Hammer2.InodeRefs
import Hammer2.VnodeOps
import Hammer2.VnodeRename
import Hammer2.VnodeBalance
import Hammer2.BlockSizing
import Hammer2.RbRun
import Hammer2.CompressBlock
import Hammer2.ChainInsert
import Hammer2.CcmsSafe
import Hammer2.FileWriteRun
import Hammer2.FlushRefine
