import Gyt.CiSlot
import Gyt.Object.Repack
import Gyt.Metadata.Mentions
import Gyt.SignedContent
import Gyt.Net.BatchReport
import Gyt.Net.RateLimit
import Gyt.Net.ResponseCache
import Gyt.Net.SignedHistory
import Gyt.Diff.Hunks
import Gyt.Merge.LinePatch
import Gyt.ConfigLayers
import Gyt.Cmd.ConfigCmd
import Gyt.Net.CacheBytes
import Gyt.Cmd.CloneComplete
import Gyt.Cmd.NewNumbers
import Gyt.Cmd.PrRuns
import Gyt.Cmd.RebaseLands
import Gyt.Cmd.RefTips
import Gyt.Cmd.Reset
import Gyt.Cmd.PurgeUsable
import Gyt.Cmd.RmPaths
import Gyt.Cmd.MergeConclude
import Gyt.CiWasm
import Gyt.Cmd.TreeReads
