import Holdem.Session.RoundTrip
import Holdem.Session.Lifecycle
import Holdem.Research.Phases
import Holdem.Research.Boundaries
import Holdem.Decide.Deals
import Holdem.Session.Queue
import Holdem.Decide.Cap
import Holdem.Decide.Shape
import Holdem.Decide.Overflow
import Holdem.Decide.ReadBack
import Holdem.Decide.Answer
import Holdem.Decide.Bayes
import Holdem.Decide.Access
import Holdem.Session.Bounds
import Holdem.Session.Whole
import Holdem.Decide.Ledger
import Holdem.Decide.Posterior
import Holdem.Decide.Order
import Holdem.Decide.Dealing
import Holdem.Decide.OwnHand
import Holdem.Decide.RunsOut
import Holdem.Decide.EveryDeal
import Holdem.Decide.Sampled
import Holdem.Decide.Raises
import Holdem.Decide.Translation
import Holdem.Decide.Reported
import Holdem.Decide.Reinit
import Holdem.Research.Completes
import Holdem.Research.Threads
import Holdem.Decide.Service
import Holdem.Decide.Clusters
import Holdem.Decide.Depth
