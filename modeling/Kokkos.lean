import Kokkos.ConcurrentBitset.Word
import Kokkos.ConcurrentBitset.Buffer
import Kokkos.ConcurrentBitset.Operations
import Kokkos.ConcurrentBitset.Search
import Kokkos.ConcurrentBitset.Sequential
import Kokkos.ConcurrentBitset.Defects
import Kokkos.ConcurrentBitset.Machine
import Kokkos.ConcurrentBitset.Invariant
import Kokkos.ConcurrentBitset.Runs
import Kokkos.ConcurrentBitset.Progress
import Kokkos.ConcurrentBitset.Contract
import Kokkos.ConcurrentBitset.Pool
import Kokkos.SYCLReduction.LocalMemory
import Kokkos.SYCLReduction.Tree
import Kokkos.SYCLReduction.Correctness
import Kokkos.SYCLReduction.Shuffle
import Kokkos.SYCLReduction.ShuffleCorrectness
import Kokkos.SYCLReduction.MaxSize
import Kokkos.SYCLReduction.ValueCount
