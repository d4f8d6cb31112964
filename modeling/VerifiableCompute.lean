import VerifiableCompute.Market.FulfilledFlag
import VerifiableCompute.Market.Slashing
import VerifiableCompute.TaskDb.Dependencies
import VerifiableCompute.Povw.Minting
import VerifiableCompute.Rv32im.SessionAccounting
import VerifiableCompute.Serde.RoundTrip
import VerifiableCompute.Claim.MergeLaw
import VerifiableCompute.Binfmt.Loading
import VerifiableCompute.Binfmt.Binary
import VerifiableCompute.Binfmt.PartialRoot
import VerifiableCompute.Claim.CompositeRecursion
import VerifiableCompute.Zkp.ControlInclusion
import VerifiableCompute.Zkp.Commitment
import VerifiableCompute.Allocator.Orderly
import VerifiableCompute.Mmr.Agreement
import VerifiableCompute.Market.DeliveredData
import VerifiableCompute.Indexer.Freshness
import VerifiableCompute.Indexer.Totals
import VerifiableCompute.KeccakClaim.Poseidon2
import VerifiableCompute.Guest.Outputs
import VerifiableCompute.Market.PredicateEval
import VerifiableCompute.Claim.WorkJoin
import VerifiableCompute.WorkTree.UpdateProver
import VerifiableCompute.Circuit.Division
import VerifiableCompute.Circuit.HostReads
import VerifiableCompute.Circuit.BigInt
import VerifiableCompute.Rv32im.PagingCost
import VerifiableCompute.Rv32im.Compression
import VerifiableCompute.Rv32im.BigintBounds
import VerifiableCompute.Broker.Pricing
import VerifiableCompute.Broker.Capacity
import VerifiableCompute.Broker.Settlement
import VerifiableCompute.Zkp.PolyExt
import VerifiableCompute.Zkp.Interpolation
import VerifiableCompute.Zkp.Poseidon254
import VerifiableCompute.Zkp.Ntt
import VerifiableCompute.Zkp.Fri
import VerifiableCompute.Zkp.Sha
import VerifiableCompute.Market.EventSearch
import VerifiableCompute.Rewards.StakingData
import VerifiableCompute.Claim.Binding
import VerifiableCompute.Rv32im.Reservation
import VerifiableCompute.Rv32im.SysRead
import VerifiableCompute.Rv32im.Trace
