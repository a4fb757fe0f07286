import NnProcessor.Correctness.Addresses
import NnProcessor.Correctness.Capacity

/-!
# Inside of the memory

The storages compare an address with the number of their words, but not with zero, and `NEXT_LAYER`
compares nothing. For the configurations of `Config.Inside` this is enough: no run of them computes
an address that overflows, reads in front of a storage or uses a slot that is not reserved
(`stays_inside`). What the model does there (`guardedRead`, `NextLayer.store`) has no influence on
these runs, and the theorems on whole runs that follow speak of them only.
-/

namespace NnProcessor.Correctness
open NnProcessor.Model NnProcessor.Invariant

variable {hw : Hw} {F : Type}

/-- No storage is used outside of its words: each read of `WEIGHT_STORAGE` and of `PREVIOUS_LAYER` has a
result in the sources, and no slot of `NEXT_LAYER` behind the reserved ones has been used. -/
structure InBounds [Binary32Ops F] (s : System hw F) : Prop where
  weight : ∀ k,
    (sourceRead s.weightStorage.memory (s.processors k).weightAddrO (ofInt 0)).isSome
  previous : ∀ k,
    (sourceRead s.previousLayer.memory (s.processors k).prevmemAddrO (ofInt (-1))).isSome
  slots : s.nextLayer.overrun = false

/-- Then the storages issue what the sources read. -/
lemma InBounds.issues [Binary32Ops F] {s : System hw F} (inside : InBounds s)
    (k : Fin hw.countPcUnit) :
    sourceRead s.weightStorage.memory (s.processors k).weightAddrO (ofInt 0) =
        some ((s.weightStorage.issueElement s.wires.addrWeightBus).dataOutBusO k) ∧
      sourceRead s.previousLayer.memory (s.processors k).prevmemAddrO (ofInt (-1)) =
        some ((s.previousLayer.issueElementPc s.wires.addrPrevLayerBus).dataPcBusO k) :=
  ⟨sourceRead_eq (inside.weight k), sourceRead_eq (inside.previous k)⟩

variable [Binary32 F] [DecidableEq F] {cfg : Config F}

/-- A run of finite results stays inside of the memory. -/
lemma inBounds_run (finite : ∀ x ∈ cfg.results, ¬IsInfinite x) (inside : cfg.Inside hw)
    (env : Env hw F) (t : Nat) : InBounds (run cfg env t) := by
  have nonneg := addresses_nonneg env inside.domain inside.count finite t
  refine ⟨fun k => ?_, fun k => ?_, ?_⟩
  · exact sourceRead_isSome (nonneg k).1 _
  · exact sourceRead_isSome (nonneg k).2 _
  · exact contained_of_fits finite env (fun _ lt => inside.dispatches_le lt) t

/-- **Memory safety.** A run of a configuration of `Config.Inside` never leaves the memory: in front of
every edge each address on a port is one of its storage or one that its guard refuses, no slot of
`NEXT_LAYER` behind the `MEM_SIZE` reserved ones has been used, and in every edge the addresses are
computed without an overflow. -/
theorem stays_inside (env : Env hw F) (inside : cfg.Inside hw)
    (picture : cfg.layers.length ≤ 1 → ∀ x ∈ cfg.picture, ¬IsInfinite x) (t : Nat) :
    InBounds (run cfg env t) ∧ EdgeFits (run cfg env t) (run cfg env (t + 1)) := by
  have finite := finite_results cfg picture
  exact ⟨inBounds_run finite inside env t, edgeFits_run env inside.domain inside.count finite t⟩

/-- The deep network reads the inputs of its second layer in front of the edge 40. -/
theorem stays_inside_deep :
    InBounds (run deepNetwork listedEnv 40) ∧
      EdgeFits (run deepNetwork listedEnv 40) (run deepNetwork listedEnv 41) :=
  stays_inside listedEnv ⟨deepNetwork_bounded.domain, by decide, by decide⟩
    (fun one => absurd one (by decide)) 40

end NnProcessor.Correctness
