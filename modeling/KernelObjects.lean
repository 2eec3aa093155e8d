import KernelObjects.Script.Run
import KernelObjects.Proofs.Weight
import KernelObjects.Proofs.Inert
import KernelObjects.Proofs.Decline
import KernelObjects.Proofs.Wanes
import KernelObjects.Proofs.Birth
import KernelObjects.Proofs.Account.Births
import KernelObjects.Proofs.KillTree
import KernelObjects.Proofs.Run
import KernelObjects.Proofs.Slots
import KernelObjects.Proofs.JobTree
import KernelObjects.Proofs.Unmapping
import KernelObjects.Proofs.KillReach
import KernelObjects.Proofs.Generations
import KernelObjects.Proofs.Isolation
import KernelObjects.Proofs.KernelHandles
import KernelObjects.Proofs.JobLists
import KernelObjects.Proofs.Spread
import KernelObjects.Proofs.Inheritance
import KernelObjects.Proofs.NoLeaks
import KernelObjects.Proofs.Lives
import KernelObjects.Proofs.Lifecycle
import KernelObjects.Proofs.Confinement
import KernelObjects.Proofs.CloneFamilies
import KernelObjects.Proofs.Agenda
import KernelObjects.Proofs.CloneSignals
import KernelObjects.Proofs.Paces
import KernelObjects.Proofs.Ledger
import KernelObjects.Proofs.Halts
import KernelObjects.Proofs.Bindings
import KernelObjects.Proofs.DeadJobs
import KernelObjects.Proofs.CachePolicies
import KernelObjects.Proofs.CommittedPages
import KernelObjects.Proofs.PolicyRequests
import KernelObjects.Proofs.Derivations
import KernelObjects.Proofs.PortResets
import KernelObjects.Proofs.RefusedCreation
import KernelObjects.Proofs.Extents
import KernelObjects.Proofs.Teardown
import KernelObjects.Proofs.ProcessKills
import KernelObjects.Proofs.NameCuts
import KernelObjects.Proofs.OomVictims
import KernelObjects.Proofs.Transfers
import KernelObjects.Proofs.Wear
import KernelObjects.Proofs.SlotCycles
