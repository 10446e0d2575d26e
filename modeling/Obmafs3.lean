import Obmafs3.Refcounts.Lost
import Obmafs3.Store.FreeSearch
import Obmafs3.Mount.Crash
import Obmafs3.Mount.Created
import Obmafs3.Dedup.Persist
import Obmafs3.Dedup.LookupCached
import Obmafs3.Trees.RefusedNames
import Obmafs3.Dedup.Truncate
import Obmafs3.Dedup.BlockRanges
import Obmafs3.Dedup.FailedReads
import Obmafs3.Cd.SidecarReads
import Obmafs3.Metadata.Aggregates
import Obmafs3.Metadata.NewIndex
import Obmafs3.Metadata.QueryLines
import Obmafs3.Disc.Parsers
import Obmafs3.Disc.Restored
import Obmafs3.Namespace.SideRecords
import Obmafs3.Defrag.TreesKept
import Obmafs3.Defrag.DedupEnds
import Obmafs3.Namespace.InodePaths
import Obmafs3.Namespace.History
import Obmafs3.Check.NothingLost
import Obmafs3.Check.AllTreesPacked
import Obmafs3.Check.CountsRepaired
import Obmafs3.Check.NodeChecksums
import Obmafs3.Check.InlineExtents
import Obmafs3.Compress.Pool
import Obmafs3.Stores.Maps
import Obmafs3.Disc.WiiGroups
import Obmafs3.Disc.GameCube
import Obmafs3.Dedup.KeySetSave
import Obmafs3.Dedup.CacheFlush
import Obmafs3.Dedup.ReadCache
import Obmafs3.Disc.DataMap
import Obmafs3.Disc.DumpHardwareText
