import LasseCash.Lib.Program
import LasseCash.Lib.JoinedKeys
import LasseCash.Lib.FiniteSum
import LasseCash.Lib.WindowedQueue
import LasseCash.Lib.RewardAccumulator
import LasseCash.Lib.ChunkedLog
import LasseCash.Lib.Ranking
import LasseCash.Lib.Median
import LasseCash.Lib.ProRata
import LasseCash.Lib.PairingTree
import LasseCash.Lib.Json
import LasseCash.Engine.Emission
import LasseCash.Engine.EmissionTotals
import LasseCash.Engine.Accumulator
import LasseCash.Engine.LShare
import LasseCash.Engine.ShareRateCurve
import LasseCash.Engine.ShareGrants
import LasseCash.Engine.MintLifecycle
import LasseCash.Engine.ProofOfBrain
import LasseCash.Engine.PoolClaims
import LasseCash.Engine.Governance
import LasseCash.Engine.Pool
import LasseCash.Engine.PoolRoundTrips
import LasseCash.Engine.Merkle
import LasseCash.Engine.MerkleProofs
import LasseCash.Node.MigTree
import LasseCash.Engine.EmissionCurve
import LasseCash.Engine.ConsensusGroup
import LasseCash.Engine.MedianVote
import LasseCash.State.Ledger
import LasseCash.State.Operation
import LasseCash.State.Accrual
import LasseCash.State.Governance
import LasseCash.State.Mint
import LasseCash.State.Migration
import LasseCash.State.ProofOfBrain
import LasseCash.State.Pool
import LasseCash.State.Action
import LasseCash.State.RowEffects
import LasseCash.State.Aside
import LasseCash.State.History
import LasseCash.State.MintHistory
import LasseCash.State.SteadyOperations
import LasseCash.State.ContentHistory
import LasseCash.State.MigrationBooks
import LasseCash.State.MigrationHistory
import LasseCash.State.HardCap
import LasseCash.State.ContentIdentity
import LasseCash.State.FullDays
import LasseCash.State.Booking
import LasseCash.State.WalkEnds
import LasseCash.State.PathIndependence
import LasseCash.State.WalkProgress
import LasseCash.State.Treasury
import LasseCash.State.CurationQueue
import LasseCash.State.TwoLedgers
import LasseCash.State.Steps
import LasseCash.State.Footprint
import LasseCash.State.Footprints
import LasseCash.State.ContentMoves
import LasseCash.State.PoolMoves
import LasseCash.State.MigrationMoves
import LasseCash.State.Moves
import LasseCash.Lib.ConstantProduct
import LasseCash.State.ShareWorth
import LasseCash.State.AccrualFlow
import LasseCash.State.LiquidityFund
import LasseCash.State.StepSides
import LasseCash.State.LiquidityBooks
import LasseCash.State.LiquiditySteps
import LasseCash.State.LiquiditySyncs
import LasseCash.State.LiquiditySolvency
import LasseCash.State.HeldRewards
import LasseCash.State.LateProvider
import LasseCash.State.TokenAdoption
import LasseCash.State.ContentSteps
import LasseCash.State.ContentPools
import LasseCash.State.VoteTallies
import LasseCash.State.MintTerms
import LasseCash.State.Sweeps
import LasseCash.State.AccountRoll
import LasseCash.State.Leaderboard
import LasseCash.State.BoardOffers
import LasseCash.State.Custody
import LasseCash.State.SnapshotClaims
import LasseCash.Api.Indexer
import LasseCash.Api.IndexCompleteness
import LasseCash.Api.CatchUp
import LasseCash.App.Arguments
import LasseCash.App.TokenLedger
import LasseCash.App.Entrypoints
import LasseCash.Node.Simulator
import LasseCash.Api.AiohaSigner
import LasseCash.State.MintClaims
import LasseCash.App.Transactions
import LasseCash.Api.Answers
import LasseCash.Api.PositionHistory
import LasseCash.State.PoolAnswers
import LasseCash.Api.Market
import LasseCash.Engine.VoteMeter
import LasseCash.State.LiquidityRoundTrip
import LasseCash.State.VoteMeters
import LasseCash.State.CurationAnswers
import LasseCash.State.CurationClaims
import LasseCash.State.Readings
import LasseCash.State.ShownPaid
import LasseCash.Api.AccountMints
import LasseCash.State.FrozenYield
import LasseCash.Api.Replies
import LasseCash.Engine.MulDiv
import LasseCash.Lib.BigEndian
import LasseCash.State.TokenAmount
import LasseCash.Api.OpResults
import LasseCash.Api.RcSizing
import LasseCash.Api.TrancheHistory
import LasseCash.Lib.DecimalNumber
import LasseCash.Node.ApplyCriteria
import LasseCash.Lib.PeriodicLots
import LasseCash.State.MonthlyMints
import LasseCash.Api.Amount
import LasseCash.Engine.Sha256
