import DmaAccel.Batch.Ledger
import DmaAccel.Client.Provenance
import DmaAccel.Delivery.Consumption
import DmaAccel.Delivery.RingQueue
import DmaAccel.Dependency.CrossEngine
import DmaAccel.Dependency.Groups
import DmaAccel.Dependency.Stall
import DmaAccel.Gemm.Row
import DmaAccel.Kctl.Coordinator
import DmaAccel.Memory.Mapping
import DmaAccel.Memory.Quota
import DmaAccel.Pool.Allocation
import DmaAccel.Pool.Partition
import DmaAccel.Queue.Progress
import DmaAccel.Runtime.Custody
import DmaAccel.Runtime.Moves
import DmaAccel.Scheduling.Dispatch
import DmaAccel.Scheduling.Plain
import DmaAccel.Selftest.QueueCopy
import DmaAccel.Submission.Atomicity
import DmaAccel.Teardown.Rings
import DmaAccel.Timed.Ending
import DmaAccel.Timed.Refinement
