import Pergrep.Cli.Ignore
import Pergrep.Cli.Column
import Pergrep.Cli.Interpolate
import Pergrep.Cli.JsonData
import Pergrep.Cli.OptionsSpec
import Pergrep.Index.Identity
import Pergrep.Lib.Greedy
import Pergrep.Lib.Emit
import Pergrep.Search.FindLiteral
import Pergrep.Regex.Leftmost
import Pergrep.Index.PublishSpec
import Pergrep.Index.Gate
import Pergrep.Index.Lifecycle
import Pergrep.Search.Bounds
import Pergrep.Search.Clip
import Pergrep.Search.Cover
import Pergrep.Search.Overlap
import Pergrep.Search.Population
import Pergrep.Search.Report
import Pergrep.Search.Scope
import Pergrep.Search.Stats
import Pergrep.Search.WordLine
import Pergrep.Regex.Contained
import Pergrep.Regex.FastPath
import Pergrep.Regex.Filter
import Pergrep.Regex.FlagScope
import Pergrep.Regex.LookBehind
import Pergrep.Regex.Ordered
import Pergrep.Regex.Shift
import Pergrep.Regex.Width
import Pergrep.Regex.Quote
import Pergrep.Regex.ClassFold
import Pergrep.Regex.Fuel
import Pergrep.Search.Records
import Pergrep.Lib.PlainText
import Pergrep.Index.Orphans
import Pergrep.Regex.Tables
import Pergrep.Lib.Tally
import Pergrep.Index.Planner
import Pergrep.Lib.KeyLines
import Pergrep.Tuning.CacheIdentity
import Pergrep.Lib.Double
import Pergrep.Lib.KeyText
import Pergrep.Tuning.Report
import Pergrep.Lib.Frontier
import Pergrep.Tuning.Pareto
import Pergrep.Lib.Strides
import Pergrep.Cli.Context
import Pergrep.Regex.Engines
import Pergrep.Search.Exact
import Pergrep.Cli.Status
import Pergrep.Tuning.Rollout
import Pergrep.Tuning.Platform
import Pergrep.Index.Tamper
import Pergrep.Search.PlanKey
