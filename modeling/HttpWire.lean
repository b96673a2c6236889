import HttpWire.Session
import HttpWire.Session.Bench
import HttpWire.Proofs.Copying
import HttpWire.Proofs.Recording
import HttpWire.Proofs.Fetching
import HttpWire.Proofs.Bodies
import HttpWire.Proofs.Numerals
import HttpWire.Proofs.Planning
import HttpWire.Proofs.Reading
import HttpWire.Proofs.Receiver
import HttpWire.Proofs.ReadBack
import HttpWire.Proofs.Runs
import HttpWire.Proofs.Progress
import HttpWire.Proofs.Delivery
import HttpWire.Proofs.Finality
import HttpWire.Proofs.Shape
import HttpWire.Proofs.Independence
import HttpWire.Proofs.Sending
import HttpWire.Proofs.Acceptance
import HttpWire.Proofs.Growth
import HttpWire.Proofs.Readiness
import HttpWire.Proofs.Idling
import HttpWire.Proofs.GivingUp
import HttpWire.Proofs.Feeding
import HttpWire.Proofs.Steps
import HttpWire.Proofs.Flushing
import HttpWire.Proofs.Attempts
import HttpWire.Proofs.Queueing
import HttpWire.Proofs.Lending
import HttpWire.Proofs.Bounds
import HttpWire.Proofs.Promises
import HttpWire.Proofs.Asking
import HttpWire.Proofs.Declared
import HttpWire.Proofs.Consulting
import HttpWire.Proofs.Consumption
import HttpWire.Proofs.Placing
import HttpWire.Proofs.Filling
import HttpWire.Proofs.Draining
import HttpWire.Proofs.Pacing
import HttpWire.Proofs.Arranging
import HttpWire.Proofs.Building
import HttpWire.Proofs.Pulling
import HttpWire.Proofs.Canonical
import HttpWire.Proofs.Resuming
