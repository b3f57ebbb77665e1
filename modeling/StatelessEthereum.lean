import StatelessEthereum.StateEffect
import StatelessEthereum.PutLog
import StatelessEthereum.DiskLog
import StatelessEthereum.ObjectHeap
import StatelessEthereum.BigEndian
import StatelessEthereum.RlpFormat
import StatelessEthereum.CompactTrie
import StatelessEthereum.TrieWalk
import StatelessEthereum.StemTree
import StatelessEthereum.EvaluationDomain
import StatelessEthereum.PythonError
import StatelessEthereum.NibblePath
import StatelessEthereum.MerkleNode
import StatelessEthereum.MerkleTree
import StatelessEthereum.MerkleForm
import StatelessEthereum.MerkleStorage
import StatelessEthereum.MerkleRefinement
import StatelessEthereum.MerkleRuns
import StatelessEthereum.MerkleCollect
import StatelessEthereum.MerkleAbsence
import StatelessEthereum.MerkleVerifier
import StatelessEthereum.MerkleCompleteness
import StatelessEthereum.MerkleSoundness
import StatelessEthereum.VerkleSerialization
import StatelessEthereum.VerkleTree
import StatelessEthereum.VerkleStorage
import StatelessEthereum.VerkleRefinement
import StatelessEthereum.VerkleKey
import StatelessEthereum.VerkleRuns
import StatelessEthereum.VerkleRefusal
import StatelessEthereum.MultiCombs
import StatelessEthereum.PolyUtils
import StatelessEthereum.Fft
import StatelessEthereum.KzgSetup
import StatelessEthereum.CommitmentScheme
import StatelessEthereum.HashScheme
import StatelessEthereum.KzgScheme
import StatelessEthereum.KeyCollisions
import StatelessEthereum.VerkleProof
import StatelessEthereum.VerkleVerification
import StatelessEthereum.IdealCurve
import StatelessEthereum.CommitmentBases
import StatelessEthereum.Interning
import StatelessEthereum.MerkleEncoding
import StatelessEthereum.MerkleBuilt
import StatelessEthereum.MerkleLoading
import StatelessEthereum.MerkleHistory
import StatelessEthereum.MerkleOptimized
import StatelessEthereum.MerkleVerdicts
import StatelessEthereum.MerkleAnswers
import StatelessEthereum.Openings
import StatelessEthereum.VerkleOpenings
import StatelessEthereum.VerkleChecks
import StatelessEthereum.VerkleCompleteness
import StatelessEthereum.VerkleBinding
import StatelessEthereum.PolynomialCurve
import StatelessEthereum.VerkleSoundness
import StatelessEthereum.PathSoundness
import StatelessEthereum.PoseidonTrie
import StatelessEthereum.ZkEncoding
import StatelessEthereum.PoseidonMode
import StatelessEthereum.LockStep
import StatelessEthereum.FiatShamir
import StatelessEthereum.LowDegree
import StatelessEthereum.ButterflyNetwork
import StatelessEthereum.NumberTransform
import StatelessEthereum.FriProtocol
import StatelessEthereum.MptCircuit
import StatelessEthereum.StarkMerkle
import StatelessEthereum.StarkVerdicts
import StatelessEthereum.SnarkWitness
import StatelessEthereum.SnarkChain
import StatelessEthereum.SnarkVerifier
import StatelessEthereum.Grouping
import StatelessEthereum.VerkleMultiproof
import StatelessEthereum.MultiproofOpenings
import StatelessEthereum.MultiproofSharing
import StatelessEthereum.MultiproofChecks
import StatelessEthereum.MultiproofTruth
import StatelessEthereum.VerkleReferences
import StatelessEthereum.HashPaths
import StatelessEthereum.CommitmentPaths
import StatelessEthereum.CommitmentRows
import StatelessEthereum.FriQueries
import StatelessEthereum.TranscriptFraming
import StatelessEthereum.Grinding
import StatelessEthereum.TraceChecks
import StatelessEthereum.PolynomialFolding
import StatelessEthereum.FriFolding
import StatelessEthereum.LowDegreeExtension
import StatelessEthereum.FirstInsert
import StatelessEthereum.ValueLengths
import StatelessEthereum.FieldArithmetic
import StatelessEthereum.Inversion
import StatelessEthereum.CoefficientLists
import StatelessEthereum.PolyDivision
import StatelessEthereum.Interpolation
import StatelessEthereum.MultiSubset
import StatelessEthereum.SnarkShape
import StatelessEthereum.SnarkSignals
import StatelessEthereum.FailedInserts
import StatelessEthereum.CrashRecovery
import StatelessEthereum.OptimizedAgreement
import StatelessEthereum.FieldPowers
import StatelessEthereum.ExtendedPaths
import StatelessEthereum.PolyProducts
import StatelessEthereum.OptimizedMultiproof
import StatelessEthereum.OptimizedCompleteness
import StatelessEthereum.OptimizedVerification
import StatelessEthereum.DiskSessions
import StatelessEthereum.VerkleSessions
import StatelessEthereum.StemDepth
import StatelessEthereum.VerkleProofSizes
import StatelessEthereum.MerkleSessions
import StatelessEthereum.TrieDepth
import StatelessEthereum.MerkleProofSizes
import StatelessEthereum.StarkRuns
import StatelessEthereum.StarkSessions
import StatelessEthereum.StarkConsistency
import StatelessEthereum.MerkleBatches
import StatelessEthereum.ExperimentRuns
import StatelessEthereum.PointEvaluation
import StatelessEthereum.PoseidonPermutation
import StatelessEthereum.PoseidonSponge
import StatelessEthereum.PoseidonSessions
import StatelessEthereum.IpaCommitment
import StatelessEthereum.TransformProducts
