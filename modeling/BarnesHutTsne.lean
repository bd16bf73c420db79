import BarnesHutTsne.Basic
import BarnesHutTsne.Nearest2P
import BarnesHutTsne.Probability
import BarnesHutTsne.SPTree
import BarnesHutTsne.Annotate
import BarnesHutTsne.Repulsion
import BarnesHutTsne.CostGrad
import BarnesHutTsne.ExactMode
import BarnesHutTsne.Engine
import BarnesHutTsne.Update
import BarnesHutTsne.Invariants
import BarnesHutTsne.Entropy
import BarnesHutTsne.Determinism
import BarnesHutTsne.Translation
import BarnesHutTsne.Schedule
import BarnesHutTsne.Bisection
import BarnesHutTsne.Sampler
