import Mvdcc.Serval.SerialReads
import Mvdcc.Serval.NoLoss
import Mvdcc.Serval.Ownership
import Mvdcc.Serval.Exclusion
import Mvdcc.Cheetah.SerialReads
import Mvdcc.Serval.Assertions
import Mvdcc.Serval.Representations
import Mvdcc.Cheetah.BitmapOrder
import Mvdcc.Common.RendezvousBarrier
import Mvdcc.Common.LockOperations
import Mvdcc.Common.BitmapSearches
import Mvdcc.Common.PhaseAssignment
import Mvdcc.Common.OperationSet
import Mvdcc.Cheetah.Progress
import Mvdcc.Cheetah.Creation
import Mvdcc.Caracal.Progress
import Mvdcc.Exhaustion
import Mvdcc.Agreement
import Mvdcc.Cheetah.ReturnedRecords
import Mvdcc.Caracal.RunTx
import Mvdcc.Serval.RunTx
import Mvdcc.Tpcc.SerialRuns
import Mvdcc.Tpcc.FullRuns
import Mvdcc.Tpcc.SecondaryKeys
import Mvdcc.Tpcc.DeepCopy
import Mvdcc.Tpcc.Locality
import Mvdcc.Tpcc.Rollback
