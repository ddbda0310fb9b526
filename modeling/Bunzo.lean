import Bunzo.FiniteIndices
import Bunzo.AtomicPrograms
import Bunzo.AccessBudgets
import Bunzo.MachineWords
import Bunzo.AbiCodec
import Bunzo.ByteCosts
import Bunzo.ChainTypes
import Bunzo.UserOperation
import Bunzo.EntryPointHash
import Bunzo.OperationPool
import Bunzo.PoolIndices
import Bunzo.Reputation
import Bunzo.ChainWatcher
import Bunzo.BundleProposer
import Bunzo.ReachableStates
import Bunzo.TransactionTracker
import Bunzo.BundlerTask
import Bunzo.BundlerRuns
import Bunzo.BundleRemoval
import Bunzo.SignerNode
import Bunzo.EscalationRace
import Bunzo.SignerNonce
import Bunzo.Validation
import Bunzo.EthApi
import Bunzo.SystemAssembly
import Bunzo.TaskShape
import Bunzo.ConflictDetector
import Bunzo.PackRoundTrip
import Bunzo.RejectedOps
import Bunzo.Confirmation
import Bunzo.PoolContents
import Bunzo.NonceSequences
import Bunzo.BlockPolling
import Bunzo.PollFailures
import Bunzo.InclusionCredit
import Bunzo.PoolInterleaving
import Bunzo.Replacement
import Bunzo.CandidateOrder
import Bunzo.AdditionOrder
import Bunzo.GasEstimate
import Bunzo.ValidationData
import Bunzo.ForkDepth
import Bunzo.ConflictSets
import Bunzo.HashContents
import Bunzo.RejectionBlame
import Bunzo.StrategyRouter
import Bunzo.RecentReadings
import Bunzo.GasOracle
import Bunzo.SubmitPrice
import Bunzo.EscalatedFees
import Bunzo.EscalationRuns
import Bunzo.PricedRuns
import Bunzo.BundlePrice
import Bunzo.ReputationDecay
import Bunzo.HexText
import Bunzo.RevertData
import Bunzo.SystemRuns
import Bunzo.HandleOpsCalldata
import Bunzo.SignedOperations
import Bunzo.EstimateGas
import Bunzo.UserOpReceipt
import Bunzo.AccessContracts
import Bunzo.PoolMethods
import Bunzo.OverlappingEntries
import Bunzo.LockedSections
import Bunzo.PoolLocks
import Bunzo.FirstPrice
import Bunzo.TaskProgress
import Bunzo.StatusTracker
import Bunzo.RoundRobin
import Bunzo.SignerManager
import Bunzo.StaleTracker
import Bunzo.RawTransactions
