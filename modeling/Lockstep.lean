import Lockstep.Main
import Lockstep.Proofs.Collection
import Lockstep.Proofs.Action
import Lockstep.Proofs.Structured
import Lockstep.Proofs.Round
import Lockstep.Proofs.SoundStore
import Lockstep.Proofs.SoundPool
import Lockstep.Proofs.Transparency
import Lockstep.Proofs.Turns
import Lockstep.Proofs.Census
import Lockstep.Proofs.Fairness
import Lockstep.Proofs.LogBarrier
import Lockstep.Proofs.Isolation
import Lockstep.Proofs.Footprint
import Lockstep.Proofs.Commute
import Lockstep.Dispatcher
import Lockstep.Proofs.Endings
import Lockstep.Proofs.Termination
import Lockstep.Proofs.Registers
import Lockstep.Proofs.Renumbering
import Lockstep.Proofs.Families
import Lockstep.Proofs.Atomicity
import Lockstep.Proofs.Frames
import Lockstep.Proofs.LogTrace
import Lockstep.Proofs.Onlooker
import Lockstep.Proofs.Typing
import Lockstep.Proofs.Contexts
import Lockstep.Proofs.Exact
import Lockstep.Proofs.Accumulation
import Lockstep.Proofs.Recollection
import Lockstep.Proofs.Sequencing
import Lockstep.Proofs.LineReading
import Lockstep.Proofs.NumberReading
import Lockstep.Proofs.Printing
import Lockstep.Proofs.LogDecoding
import Lockstep.Proofs.Viewing
import Lockstep.Proofs.Selection
import Lockstep.Proofs.Dependence
import Lockstep.Proofs.Scrolling
import Lockstep.Proofs.Tail
import Lockstep.Proofs.RoundNumbers
import Lockstep.Stmt.Inquiry
