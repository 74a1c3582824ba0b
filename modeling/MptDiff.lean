import MptDiff.Python
import MptDiff.Trie.Node
import MptDiff.Trie.WellFormed
import MptDiff.Trie.Height
import MptDiff.Trie.Lookup
import MptDiff.Walk.Step
import MptDiff.Walk.Run
import MptDiff.Walk.Descent
import MptDiff.Walk.Alignment
import MptDiff.Walk.FastPath
import MptDiff.Walk.Termination
import MptDiff.StateDiff.Handlers
import MptDiff.StateDiff.FromTries
import MptDiff.Walk.Safety
import MptDiff.Walk.Cover
import MptDiff.Walk.Reports
import MptDiff.Walk.Walkable
import MptDiff.Walk.Hands
import MptDiff.StateDiff.Writes
import MptDiff.StateDiff.AccountDiffs
import MptDiff.StateDiff.StorageDiffs
import MptDiff.StateDiff.FromData
import MptDiff.StateDiff.RoundTrip
import MptDiff.StateDiff.Repeated
import MptDiff.StateDiff.Returns
import MptDiff.StateDiff.Stored
import MptDiff.StateDiff.Reverse
