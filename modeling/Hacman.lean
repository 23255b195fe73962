import Hacman.Accepted
import Hacman.Ancestry
import Hacman.BinPath
import Hacman.BlockText
import Hacman.CachePaths
import Hacman.Complete
import Hacman.Confined
import Hacman.Delivery
import Hacman.DuePeriod
import Hacman.EntryOrder
import Hacman.Environ
import Hacman.Format
import Hacman.Handoff
import Hacman.History
import Hacman.Input
import Hacman.Inspection
import Hacman.Layers
import Hacman.Directories
import Hacman.FirstUse
import Hacman.Levels
import Hacman.LockUse
import Hacman.Markers
import Hacman.Materialize
import Hacman.Nesting
import Hacman.Options
import Hacman.Output
import Hacman.PlanBlocks
import Hacman.PlanEntries
import Hacman.PlanLines
import Hacman.PlanPieces
import Hacman.PlanSiml
import Hacman.Prefixes
import Hacman.Ranges
import Hacman.RecordFile
import Hacman.Redirects
import Hacman.Reset
import Hacman.Sandbox
import Hacman.SetupChild
import Hacman.SetupOutput
import Hacman.Setups
import Hacman.Contained
import Hacman.Inherited
import Hacman.Interrupted
import Hacman.Draining
import Hacman.Builds
import Hacman.Saving
import Hacman.Selection
import Hacman.Sharing
import Hacman.Signals
import Hacman.SimlBlocks
import Hacman.SimlPieces
import Hacman.SimlStream
import Hacman.SourcePath
import Hacman.Spacing
import Hacman.Stamped
import Hacman.Stored
import Hacman.Templates
import Hacman.Unpack
import Hacman.Versions
import Hacman.Words
import Hacman.CommandFiles
