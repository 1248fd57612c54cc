import IntChain.Lib.KeyMap
import IntChain.Lib.BinaryFloat
import IntChain.Lib.Run
import IntChain.State.StakingDB
import IntChain.Epoch.ValidatorSet
import IntChain.Epoch.Switch
import IntChain.Chain.Contract
import IntChain.Chain.Reward
import IntChain.State.Ledger
import IntChain.Chain.StakingLedger
import IntChain.Chain.RewardLedger
import IntChain.Epoch.SwitchLedger
import IntChain.Chain.StakingRun
import IntChain.Epoch.SwitchValue
import IntChain.Lib.Journal
import IntChain.State.JournalDB
import IntChain.State.Revert
import IntChain.State.Finalise
import IntChain.State.Commit
import IntChain.Lib.BigEndian
import IntChain.Lib.EStateM
import IntChain.Rlp.Encode
import IntChain.Rlp.EncReader
import IntChain.Rlp.Stream
import IntChain.Rlp.Decode
import IntChain.Rlp.Value
import IntChain.Rlp.Raw
import IntChain.Chain.RewardSplit
import IntChain.Epoch.EpochVote
import IntChain.Lib.Quorum
import IntChain.Consensus.Threshold
import IntChain.Consensus.VoteSet
import IntChain.Consensus.VoteSetInvariant
import IntChain.Consensus.Intersection
import IntChain.Trie.Encoding
import IntChain.Epoch.ValidatorUpdate
import IntChain.Chain.ApplyTransaction
import IntChain.Consensus.PartSet
import IntChain.Consensus.HeightVoteSet
import IntChain.Lib.SliceHeap
import IntChain.Pool.TxSortedMap
import IntChain.Lib.PathMap
import IntChain.Trie.Node
import IntChain.Trie.Trie
import IntChain.Trie.Canon
import IntChain.Trie.Insert
import IntChain.Trie.Delete
import IntChain.Trie.Writes
import IntChain.Trie.Codec
import IntChain.Trie.Proof
