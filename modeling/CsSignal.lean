import CsSignal.Erased
import CsSignal.Destroyed
import CsSignal.Callable
import CsSignal.Reuse
import CsSignal.Failure
import CsSignal.Busy
import CsSignal.Memory
import CsSignal.Queued
import CsSignal.SharedSafety
import CsSignal.Representation
import CsSignal.Progress
import CsSignal.Traversal
import CsSignal.Serial
import CsSignal.Destruction
import CsSignal.Deadlock
import CsSignal.Answers
import CsSignal.Undoing
import CsSignal.Ahead
import CsSignal.Atomic
import CsSignal.NonBlocking
import CsSignal.Emplace
import CsSignal.Leftovers
import CsSignal.Uninterrupted
import CsSignal.Runaway
import CsSignal.Snapshot
