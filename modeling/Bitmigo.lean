import Bitmigo.Block.Commitment
import Bitmigo.Block.Section
import Bitmigo.Block.Solution
import Bitmigo.Chain.Conform
import Bitmigo.Chain.Converge
import Bitmigo.Chain.Median
import Bitmigo.Chain.Order
import Bitmigo.Download.Stale
import Bitmigo.Header.Difficulty
import Bitmigo.Peer.Stream
import Bitmigo.Script.Budget
import Bitmigo.Script.Conditions
import Bitmigo.Script.InputSafety
import Bitmigo.Script.Limits
import Bitmigo.Script.Malleability
import Bitmigo.Script.SegwitDigest
import Bitmigo.Script.SigEncoding
import Bitmigo.Script.SoftFork
import Bitmigo.Script.TapTree
import Bitmigo.Script.TaprootDigest
import Bitmigo.Store.Crash
import Bitmigo.Store.Restore
