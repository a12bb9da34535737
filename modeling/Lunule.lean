import Lunule.OrdMap
import Lunule.Wire
import Lunule.Runs
import Lunule.Bits
import Lunule.Balancer
import Lunule.Caps
import Lunule.Multimap
import Lunule.SortedBag
import Lunule.Flock
import Lunule.Flock.Global
import Lunule.Flock.Index
import Lunule.Flock.Deadlock
import Lunule.BitPrefix
import Lunule.Frag
import Lunule.Frag.Cells
import Lunule.Frag.Set
import Lunule.Journaler
import Lunule.Journaler.Prezero
import Lunule.Intervals
import Lunule.IntervalSet.Basic
import Lunule.IntervalSet.Intersection
import Lunule.IntervalSet.Subset
import Lunule.IntervalSet.Build
import Lunule.ReqCounter
import Lunule.Density
import Lunule.Potential
import Lunule.IfBeat
import Lunule.MIFBeat
import Lunule.Rebalance
import Lunule.Rebalance.Matching
import Lunule.Decisions
import Lunule.Migrator
import Lunule.FindExports
import Lunule.FSMap.Basic
import Lunule.FSMap.Sanity
import Lunule.PurgeQueue
import Lunule.FirstMax
import Lunule.Crush.Hash
import Lunule.Crush.Straw2
import Lunule.Crush.Mapper
import Lunule.Crush.Perm
import Lunule.InoTable.Basic
import Lunule.InoTable.Journal
import Lunule.SnapRealm
import Lunule.SnapRealm.Snaps
import Lunule.BitPrefix.Tree
import Lunule.BitPrefix.Search
import Lunule.BitPrefix.Prune
import Lunule.Frag.Tree
import Lunule.Frag.Leaves
import Lunule.Frag.Modify
import Lunule.Frag.ForceToLeaf
import Lunule.Frag.Dirfrag
import Lunule.Frag.Runs
import Lunule.Journaler.Read
