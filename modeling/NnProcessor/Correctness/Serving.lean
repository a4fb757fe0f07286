import NnProcessor.Correctness.Timing
import NnProcessor.Queueing.Fifo

/-!
# When a neuron is stored

A processor with its queue is a server that takes its neurons in the order in which they arrive, each
for `Processor.span` edges (`ProcInv.step_line`). So the edge in which a neuron is stored is decided
when the neuron enters the queue, and is the load of the processor away (`served_in_order`).
-/

namespace NnProcessor.Model
open NnProcessor.Queueing

variable {F : Type}

namespace Processor

/-- A processor and its queue as a server. -/
def line (job : LayerJob F) (p : Processor F) : Line Nat where
  jobs := (if p.thread.busy then [p.numberOfNn] else []) ++ p.queueNnNumber
  left := p.left job

variable {job : LayerJob F} {p : Processor F}

/-- A busy processor has its neuron at the head of its line. -/
lemma line_busy (busy : p.thread.busy = true) :
    p.line job = ⟨p.numberOfNn :: p.queueNnNumber, p.left job⟩ := by
  rw [line, if_pos busy]
  rfl

/-- A processor that is not busy has its queue as its line. -/
lemma line_waiting (idle : p.thread.busy = false) :
    p.line job = ⟨p.queueNnNumber, p.left job⟩ := by
  rw [line, idle]
  rfl

/-- The neuron in its last edge is the one being stored. -/
lemma line_leaving (x : Nat) :
    (p.line job).leaving = some x ↔ p.thread = .store ∧ p.numberOfNn = x := by
  unfold Line.leaving line left
  cases p.thread with
  | start | waitQueue | inputAddr | inputWait | biasAddr | biasWait => simp
  | store => simp

variable [Binary32Ops F] {w : ProcessorIn F} (size : w.prevmemSizeI = job.size)
include size

omit [Binary32Ops F] in
/-- The server at the test of the input loop. -/
lemma inputLoop_line (i : Nat) (p : Processor F) :
    (p.inputLoop i w).line job =
      ⟨p.numberOfNn :: p.queueNnNumber, 2 * (job.inputs - i) + 3⟩ := by
  by_cases lt : (i : Int) < w.prevmemSizeI
  · rw [inputLoop, if_pos lt]
    rfl
  · have eq : job.inputs - i = 0 := by
      unfold LayerJob.inputs
      rw [size] at lt
      omega
    rw [inputLoop, if_neg lt, eq]
    rfl

/-- The server behind the top of `process`. -/
lemma takeNeuron_line (p : Processor F) :
    (p.takeNeuron w).line job =
      ⟨p.queueNnNumber, if p.queueNnNumber = [] then 0 else span job⟩ := by
  unfold takeNeuron
  split
  · next none =>
    rw [line_waiting rfl, none]
    rfl
  · next x rest queue =>
    rw [inputLoop_line size, queue]
    rfl

end Processor

end NnProcessor.Model

namespace NnProcessor.Invariant
open NnProcessor.Model NnProcessor.Queueing

variable {F : Type} [Binary32Ops F] {job : LayerJob F} {p : Processor F} {wd pd : F} {f : Int}

/-- A processor that waits is a server with nothing to do. -/
lemma ProcInv.line_idle (inv : ProcInv job p wd pd f) (idle : p.thread.busy = false) :
    p.line job = ⟨[], 0⟩ := by
  have load := inv.load_idle idle
  rw [Processor.line_waiting idle, (inv.idle idle).1, (Nat.add_eq_zero_iff.1 load).1]

/-- The load of a processor is the one of the server. -/
lemma ProcInv.line_load (inv : ProcInv job p wd pd f) :
    (p.line job).load (Processor.span job) = p.load job := by
  cases busy : p.thread.busy with
  | false => rw [inv.line_idle busy, inv.load_idle busy]; rfl
  | true => rw [Processor.line_busy busy]; rfl

/-- The neuron in its last edge is the one on the write port. -/
lemma ProcInv.leaving_iff (inv : ProcInv job p wd pd f) (x : Nat) :
    (p.line job).leaving = some x ↔ p.resmemWO = true ∧ p.resmemAddrO = x := by
  have stage := inv.stage
  rw [Processor.line_leaving, inv.write, decide_eq_true_iff]
  refine and_congr_right fun store => ?_
  simp only [Stage, store] at stage
  rw [stage.1]

omit [Binary32Ops F] in
/-- A processor that stays with its neuron is a server in the middle of a job. -/
lemma line_stay {p' : Processor F} {new : List Nat} (busy : p.thread.busy = true)
    (busy' : p'.thread.busy = true) (number : p'.numberOfNn = p.numberOfNn)
    (queue : p'.queueNnNumber = p.queueNnNumber ++ new) (left : p'.left job + 1 = p.left job)
    (more : 0 < p'.left job) :
    p'.line job = (p.line job).step (Processor.span job) new := by
  rw [Processor.line_busy busy, Processor.line_busy busy', Line.step_of_lt (by simp only; omega),
    number, queue, ← left]
  rfl

/-- **A processor is a server.** In one edge it does what a server does that gets the neurons of the
generator bus. -/
lemma ProcInv.step_line {q : Processor F} {new : List Nat} (inv : ProcInv job p wd pd f)
    (fed : Fed p q new) {w : ProcessorIn F} (size : w.prevmemSizeI = job.size) :
    (q.process w).line job = (p.line job).step (Processor.span job) new := by
  have stage := inv.stage
  unfold Processor.process
  rw [fed.thread]
  cases ht : p.thread with
  | start | waitQueue =>
    have idle : p.thread.busy = false := by rw [ht]; rfl
    rw [Processor.takeNeuron_line size, inv.line_idle idle, Line.step_of_le (Nat.zero_le 1),
      fed.queue, (inv.idle idle).1]
    rfl
  | inputAddr i =>
    apply line_stay
    · rw [ht]; rfl
    · rfl
    · exact fed.number
    · exact fed.queue
    · simp only [Processor.left, ht]
    · simp [Processor.left]
  | inputWait i =>
    simp only [Stage, ht] at stage
    have lt := stage.1
    have line : p.line job =
        ⟨p.numberOfNn :: p.queueNnNumber, 2 * (job.inputs - i) + 2⟩ := by
      rw [Processor.line_busy (by rw [ht]; rfl), Processor.left, ht]
    simp only [Processor.inputLoop_line size]
    rw [line, Line.step_of_lt (by simp only; omega), fed.number, fed.queue]
    simp only [List.cons_append, Line.mk.injEq, true_and]
    omega
  | biasAddr | biasWait =>
    apply line_stay
    · rw [ht]; rfl
    · rfl
    · exact fed.number
    · exact fed.queue
    · simp only [Processor.left, ht]
    · simp [Processor.left]
  | store =>
    have line : p.line job = ⟨p.numberOfNn :: p.queueNnNumber, 1⟩ := by
      rw [Processor.line_busy (by rw [ht]; rfl), Processor.left, ht]
    rw [Processor.takeNeuron_line size, line, Line.step_of_le (le_refl 1)]
    simp only [fed.queue]
    rfl

end NnProcessor.Invariant

namespace NnProcessor.Correctness
open NnProcessor.Arith NnProcessor.Model NnProcessor.Edge NnProcessor.Invariant NnProcessor.Queueing

variable {hw : Hw} {F : Type}

/-- In front of an edge `GENERATOR` sends the neuron `x` of the layer iteration `i` to the processor
`k`. -/
structure Sends (s : System hw F) (i : Nat) (k : Fin hw.countPcUnit) (x : Nat) : Prop where
  layer : s.controller.thread.layer = some i
  word : s.generator.wO = true
  address : s.generator.addressO = k
  neuron : s.generator.dataO = x

variable [Binary32 F]

/-- In front of an edge the processor `k` has the result of the neuron `x` of the layer iteration `i`
on its write port. -/
structure Stores (cfg : Config F) (s : System hw F) (i : Nat) (k : Fin hw.countPcUnit) (x : Nat) :
    Prop where
  layer : s.controller.thread.layer = some i
  write : (s.processors k).resmemWO = true
  address : (s.processors k).resmemAddrO = x
  result : (s.processors k).resmemDataO = (cfg.job i).result x

variable [DecidableEq F]

/-- The load of a processor behind the edge in which it got a neuron: the edges until the result of
this neuron is on the write port. -/
def response (cfg : Config F) (env : Env hw F) (i : Nat) (k : Fin hw.countPcUnit) (t : Nat) : Nat :=
  ((run cfg env (t + 1)).processors k).load (cfg.job i)

/-- Every neuron is stored by the processor it was sent to, its response time later and never else;
what is sent to a processor is numbered upwards and stored in this order. -/
structure ServedInOrder (cfg : Config F) (env : Env hw F) : Prop where
  sends : ∀ t, (run cfg env t).generator.wO = true → ∃ i k x, Sends (run cfg env t) i k x
  stores : ∀ t k, ((run cfg env t).processors k).resmemWO = true →
    ∃ i x, Stores cfg (run cfg env t) i k x
  exact : ∀ i k x u, Stores cfg (run cfg env u) i k x ↔
    ∃ t, Sends (run cfg env t) i k x ∧ u = t + response cfg env i k t
  bounds : ∀ i k x t, Sends (run cfg env t) i k x →
    2 * cfg.layerSize i + 3 ≤ response cfg env i k t ∧
      response cfg env i k t ≤ (2 * cfg.layerSize i + 3) * (hw.queueSize + 1)
  order : ∀ i k x y t u, Sends (run cfg env t) i k x → Sends (run cfg env u) i k y → t < u →
    x < y ∧ t + response cfg env i k t + (2 * cfg.layerSize i + 3) ≤ u + response cfg env i k u

variable {cfg : Config F} {env : Env hw F}

/-- A layer that is being computed has been started, and its computation ends. -/
lemma computes_of (finite : ∀ x ∈ cfg.results, ¬IsInfinite x) {t i : Nat}
    (either : phaseAt cfg env t = .settle i ∨ phaseAt cfg env t = .compute i) :
    ∃ b u, Computes cfg env i b u ∧ b + 1 ≤ t ∧ t < u := by
  have valid := phaseAt_valid cfg env t
  have lt : i < cfg.iterations := by
    cases either with
    | inl ph => rwa [ph] at valid
    | inr ph => rwa [ph] at valid
  obtain ⟨v, start⟩ := savePrev_reached finite env lt
  obtain ⟨-, pulse, settle, compute, u, before, clear, -⟩ := iteration_ends finite start
  refine ⟨v + 2, u, ⟨finite, pulse, clear⟩, ?_⟩
  cases either with
  | inl ph =>
    obtain rfl : t = v + 3 := phaseAt_unique (ph.trans settle.symm) (by simp [ph]) (by simp [ph])
    exact ⟨le_refl _, by omega⟩
  | inr ph =>
    have behind : cfg.rank (.settle i) < cfg.rank (.compute i) :=
      Prod.Lex.toLex_lt_toLex.2 (.inr ⟨rfl, Nat.lt_succ_self 3⟩)
    have front : cfg.rank (.compute i) < cfg.rank (.clear i) :=
      Prod.Lex.toLex_lt_toLex.2 (.inr ⟨rfl, Nat.lt_succ_self 4⟩)
    constructor
    · by_contra early
      have rank := rank_monotone cfg env (show t ≤ v + 3 by omega)
      simp only [ph, settle] at rank
      exact absurd rank (not_le.2 behind)
    · by_contra late
      have rank := rank_monotone cfg env (not_lt.1 late)
      simp only [ph, clear] at rank
      exact absurd rank (not_le.2 front)

/-- Outside of the computation of a layer the units rest. -/
lemma computes_or_rest (finite : ∀ x ∈ cfg.results, ¬IsInfinite x) (t : Nat) :
    (∃ i b u, Computes cfg env i b u ∧ b + 1 ≤ t ∧ t < u) ∨ UnitsIdle (run cfg env t) := by
  have units := (mainInv_run cfg env finite t).units
  cases ph : phaseAt cfg env t with
  | settle i => exact .inl ⟨i, computes_of finite (.inl ph)⟩
  | compute i => exact .inl ⟨i, computes_of finite (.inr ph)⟩
  | load | savePrev | nextLayer | startGenerator | clear | startClone | copyFirst | copying
  | cloned | writeOut | output | stopped =>
    rw [ph] at units
    exact .inr units.1

/-- A neuron is only sent while a layer is computed. -/
lemma computes_of_word (finite : ∀ x ∈ cfg.results, ¬IsInfinite x) {t : Nat}
    (word : (run cfg env t).generator.wO = true) :
    ∃ i b u, Computes cfg env i b u ∧ b + 1 ≤ t ∧ t < u := by
  cases computes_or_rest finite t with
  | inl comp => exact comp
  | inr idle =>
    have quiet := idle.generator.quiet
    rw [word] at quiet
    cases quiet

/-- A neuron of a layer is sent while that layer is computed. -/
lemma computes_of_sends (finite : ∀ x ∈ cfg.results, ¬IsInfinite x) {t i x : Nat}
    {k : Fin hw.countPcUnit} (sends : Sends (run cfg env t) i k x) :
    ∃ b u, Computes cfg env i b u ∧ b + 1 ≤ t ∧ t < u := by
  obtain ⟨j, b, u, comp, lo, hi⟩ := computes_of_word finite sends.word
  obtain rfl : j = i := Option.some.inj ((comp.layer lo hi).2.layer.symm.trans sends.layer)
  exact ⟨b, u, comp, lo, hi⟩

namespace Computes

variable {i b u : Nat} (comp : Computes cfg env i b u)
include comp

/-- A layer is computed once. -/
lemma unique {b' u' : Nat} (other : Computes cfg env i b' u') : b = b' ∧ u = u' := by
  constructor
  · exact phaseAt_unique (comp.pulse.trans other.pulse.symm) (by simp [comp.pulse])
      (by simp [comp.pulse])
  · exact phaseAt_unique (comp.ended.trans other.ended.symm) (by simp [comp.ended])
      (by simp [comp.ended])

/-- A processor serves its neurons until the end of the layer is shown. -/
def service (k : Fin hw.countPcUnit) : Service Nat (Processor.span (cfg.job i)) (b + 1) (u - 1) where
  line t := ((run cfg env t).processors k).line (cfg.job i)
  arrive t := pushed k (run cfg env t).generator.addressO (run cfg env t).generator.dataO
    (run cfg env t).generator.wO
  pos := Nat.succ_pos _
  start := by
    have rest := comp.first.1 k
    exact (rest.inv (cfg.job i) (ofInt 0) (ofInt 0) 0).line_idle rest.thread
  one t := by
    unfold pushed
    split
    · exact le_refl 1
    · exact Nat.zero_le 1
  step t lo hi := by
    obtain ⟨inv, wires⟩ := comp.layer lo (by omega)
    change (((run cfg env t).edge cfg (env.sched t)).processors k).line (cfg.job i) = _
    rw [edge_processor cfg (env.sched t) wires.go]
    exact (inv.processor k).step_line (inv.fed k) wires.size

/-- Behind the end of the wait no processor has a neuron. -/
lemma service_ends (k : Fin hw.countPcUnit) : ((comp.service k).line (u - 1)).jobs = [] := by
  obtain ⟨lt, ended⟩ := comp.shown
  obtain ⟨idle, -, -⟩ := comp.rest (by omega) (by omega) ended
  have rest := idle.processor k
  have line := (rest.inv (cfg.job i) (ofInt 0) (ofInt 0) 0).line_idle rest.thread
  exact congrArg Line.jobs line

/-- The response time is the one of the server. -/
lemma service_response (k : Fin hw.countPcUnit) {t : Nat} (lo : b + 1 ≤ t) (hi : t + 1 < u) :
    (comp.service k).response t = response cfg env i k t :=
  ((comp.layer (t := t + 1) (by omega) hi).1.processor k).line_load

/-- What is sent in an edge of the layer. -/
lemma sends_iff (k : Fin hw.countPcUnit) (x : Nat) {t : Nat} (lo : b + 1 ≤ t) (hi : t < u) :
    Sends (run cfg env t) i k x ↔ (comp.service k).arrive t = [x] := by
  have layer := (comp.layer lo hi).2.layer
  unfold service pushed
  constructor
  · intro sends
    simp only
    rw [if_pos ⟨sends.address, sends.word⟩, sends.neuron]
  · intro new
    simp only at new
    split at new
    · next word => exact ⟨layer, word.2, word.1, List.singleton_injective new⟩
    · cases new

/-- What is stored in an edge of the layer. -/
lemma stores_iff (k : Fin hw.countPcUnit) (x : Nat) {t : Nat} (lo : b + 1 ≤ t) (hi : t < u) :
    Stores cfg (run cfg env t) i k x ↔ ((comp.service k).line t).leaving = some x := by
  obtain ⟨inv, wires⟩ := comp.layer lo hi
  have leaving := (inv.processor k).leaving_iff x
  constructor
  · intro stores
    exact leaving.2 ⟨stores.write, stores.address⟩
  · intro leave
    obtain ⟨write, address⟩ := leaving.1 leave
    refine ⟨wires.layer, write, address, ?_⟩
    rw [inv.result k write, address]

/-- A neuron is sent before the end is shown. -/
lemma sends_before {k : Fin hw.countPcUnit} {x t : Nat} (lo : b + 1 ≤ t) (hi : t < u)
    (sends : Sends (run cfg env t) i k x) : t < u - 1 := by
  obtain ⟨lt, ended⟩ := comp.shown
  obtain ⟨idle, -, -⟩ := comp.rest (t := u - 1) (by omega) (by omega) ended
  have quiet := idle.generator.quiet
  by_contra late
  obtain rfl : t = u - 1 := by omega
  rw [sends.word] at quiet
  cases quiet

/-- A neuron is stored its response time behind its dispatch, and never else. -/
lemma stores_exact (k : Fin hw.countPcUnit) (x : Nat) {v : Nat} (lo : b + 1 ≤ v) (hi : v < u) :
    Stores cfg (run cfg env v) i k x ↔
      ∃ t, b + 1 ≤ t ∧ t < u ∧ Sends (run cfg env t) i k x ∧ v = t + response cfg env i k t := by
  rw [comp.stores_iff k x lo hi]
  constructor
  · intro leave
    obtain ⟨t, from_, lt, came, time⟩ := (comp.service k).came lo (by omega) leave
    rw [comp.service_response k from_ (by omega)] at time
    exact ⟨t, from_, by omega, (comp.sends_iff k x from_ (by omega)).2 came, time⟩
  · rintro ⟨t, from_, to_, sends, rfl⟩
    have lt := comp.sends_before from_ to_ sends
    have came := (comp.sends_iff k x from_ to_).1 sends
    have ends := (comp.service k).response_lt from_ lt (comp.service_ends k)
    have leaves := (comp.service k).leaves from_ lt came ends.le
    rwa [comp.service_response k from_ (by omega)] at leaves

/-- A neuron is stored before the end of the layer is seen. -/
lemma stores_before {k : Fin hw.countPcUnit} {x t : Nat} (lo : b + 1 ≤ t) (hi : t < u)
    (sends : Sends (run cfg env t) i k x) : t + response cfg env i k t < u := by
  have lt := comp.sends_before lo hi sends
  have ends := (comp.service k).response_lt lo lt (comp.service_ends k)
  rw [comp.service_response k lo (by omega)] at ends
  omega

/-- The response time of a neuron. -/
lemma response_bounds {k : Fin hw.countPcUnit} {x t : Nat} (lo : b + 1 ≤ t) (hi : t < u)
    (sends : Sends (run cfg env t) i k x) :
    Processor.span (cfg.job i) ≤ response cfg env i k t ∧
      response cfg env i k t ≤ Processor.span (cfg.job i) * (hw.queueSize + 1) := by
  have lt := comp.sends_before lo hi sends
  have came := (comp.sends_iff k x lo hi).1 sends
  constructor
  · rw [← comp.service_response k lo (by omega)]
    exact (comp.service k).span_le lo lt (by rw [came]; simp)
  · exact Processor.load_le _ (run_length_le cfg env (t + 1) k)

/-- Two neurons sent to a processor keep their order. -/
lemma response_order {k : Fin hw.countPcUnit} {y t v : Nat} (lo : b + 1 ≤ t) (lt : t < v)
    (hi : v < u) (sends : Sends (run cfg env v) i k y) :
    t + response cfg env i k t + Processor.span (cfg.job i) ≤ v + response cfg env i k v := by
  have before := comp.sends_before (by omega) hi sends
  have came := (comp.sends_iff k y (by omega) hi).1 sends
  have order := (comp.service k).order lo lt before (by rw [came]; simp)
  rwa [comp.service_response k lo (by omega), comp.service_response k (by omega) (by omega)]
    at order

/-- The neurons of a layer are sent in the order of their numbers. -/
lemma sends_lt {k l : Fin hw.countPcUnit} {x y t v : Nat} (lo : b + 1 ≤ t) (lt : t < v) (hi : v < u)
    (first : Sends (run cfg env t) i k x) (later : Sends (run cfg env v) i l y) : x < y := by
  have number : ∀ {w z : Nat} {j : Fin hw.countPcUnit}, b + 1 ≤ w → w < u →
      Sends (run cfg env w) i j z → z + 1 = (history cfg env w).dispatched := by
    intro w z j lo hi sends
    rw [← sends.neuron]
    exact (comp.layer lo hi).1.generator.word sends.word
  have sent := number lo (by omega) first
  have sent' := number (by omega) hi later
  have mono := comp.pool.sent_mono (t := t) (u := v - 1) (by omega)
  rw [comp.sent_eq lo (by omega), comp.sent_eq (by omega) (by omega)] at mono
  have step := comp.dispatched_succ (t := v - 1) (by omega) (by omega)
  rw [show v - 1 + 1 = v by omega, later.word, if_pos rfl] at step
  omega

end Computes

/-- **Neurons are served in order.** In every run each processor stores exactly the neurons it is
sent, in the order in which it is sent them, which is the one of their numbers. When a neuron has
entered the queue it is decided in which edge it is stored, at least `2 * inputs + 3` and at most
`QUEUE_SIZE + 1` times as many edges behind its dispatch. -/
theorem served_in_order (env : Env hw F) (inside : cfg.Inside hw)
    (picture : cfg.layers.length ≤ 1 → ∀ x ∈ cfg.picture, ¬IsInfinite x) :
    ServedInOrder cfg env := by
  have finite := finite_results cfg picture
  have writing : ∀ {t : Nat} {k : Fin hw.countPcUnit},
      ((run cfg env t).processors k).resmemWO = true →
        ∃ i b u, Computes cfg env i b u ∧ b + 1 ≤ t ∧ t < u := by
    intro t k write
    cases computes_or_rest finite t with
    | inl comp => exact comp
    | inr idle =>
      have quiet := (idle.processor k).write
      rw [write] at quiet
      cases quiet
  constructor
  case sends =>
    intro t word
    obtain ⟨i, b, u, comp, lo, hi⟩ := computes_of_word finite word
    obtain ⟨inv, wires⟩ := comp.layer lo hi
    obtain ⟨k, address, -⟩ := inv.room word
    exact ⟨i, k, _, wires.layer, word, address, rfl⟩
  case stores =>
    intro t k write
    obtain ⟨i, b, u, comp, lo, hi⟩ := writing write
    obtain ⟨inv, wires⟩ := comp.layer lo hi
    exact ⟨i, _, wires.layer, write, rfl, inv.result k write⟩
  case exact =>
    intro i k x v
    constructor
    · intro stores
      obtain ⟨j, b, u, comp, lo, hi⟩ := writing stores.write
      obtain rfl : j = i :=
        Option.some.inj ((comp.layer lo hi).2.layer.symm.trans stores.layer)
      obtain ⟨t, -, -, sends, time⟩ := (comp.stores_exact k x lo hi).1 stores
      exact ⟨t, sends, time⟩
    · rintro ⟨t, sends, rfl⟩
      obtain ⟨b, u, comp, lo, hi⟩ := computes_of_sends finite sends
      have before := comp.stores_before lo hi sends
      exact (comp.stores_exact k x (by omega) before).2 ⟨t, lo, hi, sends, rfl⟩
  case bounds =>
    intro i k x t sends
    obtain ⟨b, u, comp, lo, hi⟩ := computes_of_sends finite sends
    rw [← inside.domain.inputs_eq]
    exact comp.response_bounds lo hi sends
  case order =>
    intro i k x y t v first later lt
    obtain ⟨b, u, comp, lo, hi⟩ := computes_of_sends finite first
    obtain ⟨b', u', comp', lo', hi'⟩ := computes_of_sends finite later
    obtain ⟨rfl, rfl⟩ := comp.unique comp'
    rw [← inside.domain.inputs_eq]
    exact ⟨comp.sends_lt lo lt hi' first later, comp.response_order lo lt hi' later⟩

/-- Three neurons are served in order. -/
theorem served_in_order_three : ServedInOrder threeNeurons listedEnv :=
  served_in_order listedEnv ⟨threeNeurons_bounded.domain, by decide, by decide⟩ fun one =>
    absurd one (by decide)

end NnProcessor.Correctness
