import ExactCover.BitMatrix
import ExactCover.Rings
import ExactCover.LinkedMatrix
import ExactCover.Search
import ExactCover.Residual
import ExactCover.Solve
import ExactCover.Log
import ExactCover.Proofs.Rings
import ExactCover.Proofs.Ones
import ExactCover.Proofs.Linking
import ExactCover.Proofs.Hiding
import ExactCover.Proofs.Covering
import ExactCover.Proofs.NestedLists
import ExactCover.Proofs.Choice
import ExactCover.Proofs.Exploration
import ExactCover.Proofs.Simulation
import ExactCover.Proofs.Safety
import ExactCover.Proofs.ExactCovers
import ExactCover.Proofs.Reading
import ExactCover.Proofs.Solving
import ExactCover.Proofs.SeveralColumns
import ExactCover.Proofs.Visits
import ExactCover.Proofs.Embedding
import ExactCover.Proofs.Reduction
import ExactCover.Proofs.Frames
import ExactCover.Proofs.Trails
import ExactCover.Proofs.Retracing
import ExactCover.Proofs.Termination
import ExactCover.Proofs.Updates
import ExactCover.Proofs.ZeroRows
import ExactCover.Proofs.Wiring
import ExactCover.Proofs.Threading
import ExactCover.Proofs.Orientation
import ExactCover.Proofs.AnyOrder
import ExactCover.Proofs.Shortest
