import FramaC.Ival.Lattice
import FramaC.Ival.Widen
import FramaC.Ival.Canonical
import FramaC.Ival.BitwiseSound
import FramaC.Ival.CastSound
import FramaC.Ival.BackwardMult
import FramaC.Ival.Split
import FramaC.Ival.Under
import FramaC.Ival.Complement
import FramaC.Offsetmap.ReadSeries
import FramaC.Offsetmap.Debug
import FramaC.Offsetmap.Concretization
import FramaC.IntIntervals.FromIval
import FramaC.BinaryCache.Caches
import FramaC.PropertyStatus.Inverse
import FramaC.PropertyStatus.Order
import FramaC.Hptmap.Cached
import FramaC.Octagons.RewritingSound
import FramaC.Octagons.Hashing
import FramaC.Wto.Index
import FramaC.EAcsl.Bittree.Runs
import FramaC.EAcsl.Bittree.TreeRuns
import FramaC.EAcsl.Segment.StaticRuns
import FramaC.EAcsl.Segment.HeapRuns
import FramaC.Conditions.Hypotheses
import FramaC.Qed.Intmap.Runs
import FramaC.EqualityDomain.Kill
import FramaC.Equality.Runs
import FramaC.Alarmset
import FramaC.Aorai.Guards
import FramaC.Dataflows.Solver
import FramaC.Gauges.Sound
import FramaC.PropertyStatus.Strongest
import FramaC.Hptmap.Sequences
import FramaC.Rangemap
import FramaC.Rgmap
import FramaC.Indexer
import FramaC.Bitvector
import FramaC.Hptmap.PredicateRuns
import FramaC.Filepath.Display
import FramaC.Offsetmap.FoldJoinCalls
import FramaC.Qed.Idxset
import FramaC.Qed.Hashcons
import FramaC.Integer.Pretty
import FramaC.Qed.JunctionOrder
import FramaC.Qed.ConsequenceSound
import FramaC.Qed.OperatorValue
import FramaC.Cint.BitTests
import FramaC.Splitter.Splits
import FramaC.Vlist.Equality
import FramaC.Layout.Overlay
import FramaC.EAcsl.Segment.BlockRuns
import FramaC.Rte
