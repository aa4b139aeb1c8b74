import Gobstones.Main
import Gobstones.Proofs.Board.Range
import Gobstones.Proofs.Board.Update
import Gobstones.Proofs.Check.Paths
import Gobstones.Proofs.Machine.Balance
import Gobstones.Proofs.Machine.CallChain
import Gobstones.Proofs.Machine.Failures
import Gobstones.Proofs.Machine.Immutability
import Gobstones.Proofs.Machine.Openings
import Gobstones.Proofs.Native.Agreement
import Gobstones.Proofs.Native.Arithmetic
import Gobstones.Proofs.Native.CallSites
import Gobstones.Proofs.Native.Decoding
import Gobstones.Proofs.Native.Linkage
import Gobstones.Proofs.Native.Messages
import Gobstones.Proofs.Native.Ownership
import Gobstones.Proofs.Native.Places
import Gobstones.Proofs.Native.Recovery
import Gobstones.Proofs.Native.Results
import Gobstones.Proofs.Object.Acceptance
import Gobstones.Proofs.Object.Compact
import Gobstones.Proofs.Object.Dump
import Gobstones.Proofs.Object.Flattening
import Gobstones.Proofs.Object.Revisions
