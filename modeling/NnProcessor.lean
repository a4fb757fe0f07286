import NnProcessor.Correctness.Accumulate
import NnProcessor.Correctness.Addresses
import NnProcessor.Correctness.Balance
import NnProcessor.Correctness.Capacity
import NnProcessor.Correctness.Clone
import NnProcessor.Correctness.Compose
import NnProcessor.Correctness.Dispatch
import NnProcessor.Correctness.Duration
import NnProcessor.Correctness.Hardware
import NnProcessor.Correctness.Independence
import NnProcessor.Correctness.Loading
import NnProcessor.Correctness.Main
import NnProcessor.Correctness.Results
import NnProcessor.Correctness.Work
import NnProcessor.Correctness.Utilisation
