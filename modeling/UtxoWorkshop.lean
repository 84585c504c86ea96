import UtxoWorkshop.MachineWords
import UtxoWorkshop.ScaleCodec
import UtxoWorkshop.KeyedStore
import UtxoWorkshop.HistoryLedger
import UtxoWorkshop.SlidingWindow
import UtxoWorkshop.DifficultyRetarget
import UtxoWorkshop.UtxoTransaction
import UtxoWorkshop.UtxoPallet
import UtxoWorkshop.UtxoChainSpec
import UtxoWorkshop.UtxoValidation
import UtxoWorkshop.UtxoRuntime
import UtxoWorkshop.UtxoInflation
import UtxoWorkshop.UtxoHistory
import UtxoWorkshop.UtxoSafety
import UtxoWorkshop.UtxoExecution
import UtxoWorkshop.DifficultyPallet
import UtxoWorkshop.DifficultyChain
import UtxoWorkshop.Sha3Pow
import UtxoWorkshop.BitcoinHalving
import UtxoWorkshop.DifficultyPace
import UtxoWorkshop.UtxoPool
import UtxoWorkshop.UtxoFees
import UtxoWorkshop.UtxoReward
import UtxoWorkshop.UtxoGenesis
import UtxoWorkshop.DifficultyOrder
import UtxoWorkshop.Sha3Threshold
import UtxoWorkshop.PlainText
import UtxoWorkshop.NetworkLogs
import UtxoWorkshop.PropagationCurves
import UtxoWorkshop.NetworkGenerator
import UtxoWorkshop.UtxoConservation
import UtxoWorkshop.UtxoRejection
import UtxoWorkshop.UtxoSolvency
import UtxoWorkshop.UtxoReadiness
import UtxoWorkshop.UtxoWallet
import UtxoWorkshop.MovingWindow
import UtxoWorkshop.DifficultyGrowth
import UtxoWorkshop.DependencyOrder
import UtxoWorkshop.EventWorker
import UtxoWorkshop.EventCompletion
import UtxoWorkshop.NetworkActions
import UtxoWorkshop.ResourceRegistry
import UtxoWorkshop.NetworkRegistry
import UtxoWorkshop.NetworkJoins
import UtxoWorkshop.BlockAuthorInherent
import UtxoWorkshop.StartScript
import UtxoWorkshop.NodeAddresses
import UtxoWorkshop.PropagationFrames
