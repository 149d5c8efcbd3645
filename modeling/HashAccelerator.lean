import HashAccelerator.Hash.Message
import HashAccelerator.Platform.Clock
import HashAccelerator.Platform.Memory
import HashAccelerator.Platform.Mutex
import HashAccelerator.Platform.Peripheral
import HashAccelerator.Platform.Scripted
import HashAccelerator.Proofs.Always
import HashAccelerator.Session
import HashAccelerator.Proofs.Engine.Kept
import HashAccelerator.Proofs.Engine.Accesses
import HashAccelerator.Proofs.Stream.Kept
import HashAccelerator.Proofs.Engine.Custody
import HashAccelerator.Proofs.Engine.Preparation
import HashAccelerator.Proofs.Engine.Creation
import HashAccelerator.Proofs.Session.Course
import HashAccelerator.Proofs.Session.Parties
import HashAccelerator.Proofs.Session.Custody
import HashAccelerator.Proofs.Session.Calls
import HashAccelerator.Proofs.Session.Order
import HashAccelerator.Proofs.Engine.Balance
import HashAccelerator.Proofs.Session.Ownership
import HashAccelerator.Proofs.Hash.Words
import HashAccelerator.Proofs.Hash.Compression
import HashAccelerator.Proofs.Peripheral.Accesses
import HashAccelerator.Proofs.Peripheral.Protocol
import HashAccelerator.Proofs.Session.Chaining
import HashAccelerator.Proofs.Hash.Padding
import HashAccelerator.Proofs.Stream.Buffer
import HashAccelerator.Proofs.Stream.Intake
import HashAccelerator.Proofs.Stream.Slices
import HashAccelerator.Proofs.Stream.Parts
import HashAccelerator.Proofs.Peripheral.Hashing
import HashAccelerator.Proofs.Session.Feeds
import HashAccelerator.Proofs.Session.Digests
import HashAccelerator.Proofs.Engine.Return
import HashAccelerator.Proofs.Stream.Return
import HashAccelerator.Proofs.Stream.Bracket
import HashAccelerator.Proofs.Engine.Past
import HashAccelerator.Proofs.Stream.Faults
import HashAccelerator.Proofs.Peripheral.Readiness
import HashAccelerator.Proofs.Session.Kept
import HashAccelerator.Proofs.Engine.Discipline
import HashAccelerator.Proofs.Session.Discipline
import HashAccelerator.Proofs.Session.Creation
import HashAccelerator.Proofs.Session.Faults
import HashAccelerator.Proofs.Session.Copies
import HashAccelerator.Proofs.Coupled
import HashAccelerator.Proofs.Stream.Coupled
import HashAccelerator.Proofs.Peripheral.Pace
import HashAccelerator.Proofs.Session.Pace
import HashAccelerator.Proofs.Stream.Wire
import HashAccelerator.Proofs.Engine.Tenancy
import HashAccelerator.Proofs.Stream.Aside
import HashAccelerator.Proofs.Peripheral.Stalls
import HashAccelerator.Proofs.Peripheral.Tenancy
import HashAccelerator.Proofs.SelfTest.Paths
import HashAccelerator.Proofs.SelfTest.Checks
import HashAccelerator.Proofs.SelfTest.Return
import HashAccelerator.Proofs.SelfTest.Verdict
import HashAccelerator.Proofs.Engine.Settlement
import HashAccelerator.Proofs.Stream.Ending
import HashAccelerator.Proofs.Engine.Advance
import HashAccelerator.Proofs.Stream.Software
import HashAccelerator.Proofs.Engine.Script
import HashAccelerator.Proofs.Engine.Submission
import HashAccelerator.Proofs.Peripheral.Countdown
import HashAccelerator.Proofs.Peripheral.Retries
import HashAccelerator.Proofs.Session.Retries
import HashAccelerator.Proofs.Stream.Commitment
import HashAccelerator.Proofs.Peripheral.Unseen
import HashAccelerator.Proofs.Engine.Retrieval
import HashAccelerator.Proofs.Engine.SoftwareOnly
import HashAccelerator.Proofs.Stream.Rounds
import HashAccelerator.Proofs.Stream.Account
import HashAccelerator.Proofs.SelfTest.Capacity
import HashAccelerator.Proofs.Peripheral.Decoding
import HashAccelerator.Proofs.Hash.Calls
