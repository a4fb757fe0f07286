import NnProcessor.Invariant.Layer

/-!
# The dispatch of neurons to any consumer

`GENERATOR` and the queues of the processors, cut out of the system: a consumer may take the front
of a queue at any edge (`Feed.Edge`). No word is lost whatever the consumers do
(`dispatch_lossless`): the generator decides on sizes that are one edge old, but it needs two edges
for a dispatch, and in the second one no word is on its bus. The edges of the whole system are edges
of this part (`edge_feed`).
-/

namespace NnProcessor.Model

variable {F : Type} {n : Nat}

/-- `p'` is `p`, with the front of its queue taken or not. A consumer does not touch the registered
size. -/
structure Processor.Popped (p p' : Processor F) : Prop where
  queue : p'.queueNnNumber = p.queueNnNumber ∨ p'.queueNnNumber = p.queueNnNumber.tail
  size : p'.queueSizeO = p.queueSizeO

/-- `GENERATOR` and the processors it feeds. -/
structure Feed (n : Nat) (F : Type) where
  generator : Generator
  queues : Fin n → Processor F

namespace Feed

/-- The processor `k` behind `PROCESSOR::add_to_queue`. -/
def push (queueSize : Nat) (s : Feed n F) (k : Fin n) : Processor F :=
  (s.queues k).addToQueue queueSize k s.generator.addressO s.generator.dataO s.generator.wO

/-- What the queue `k` gets in an edge. -/
def gets (queueSize : Nat) (s : Feed n F) (k : Fin n) : List Nat :=
  (s.push queueSize k).queueNnNumber.drop (s.queues k).queueNnNumber.length

/-- One edge: the generator sees the registered sizes, and every queue is pushed and then left to
its consumer. -/
structure Edge (pos : 0 < n) (queueSize : Nat) (layerSize : Int) (pulse : Bool)
    (s s' : Feed n F) : Prop where
  generator : s'.generator =
    s.generator.generate pos queueSize pulse layerSize fun k => (s.queues k).queueSizeO
  queue : ∀ k, Processor.Popped (s.push queueSize k) (s'.queues k)

end Feed

/-- A processor is one of the consumers. -/
lemma Processor.process_popped [Binary32Ops F] (w : ProcessorIn F) (p : Processor F) :
    Processor.Popped p (p.process w) := by
  have take : ∀ q : Processor F, Processor.Popped q (q.takeNeuron w) := by
    intro q
    unfold Processor.takeNeuron
    split
    · exact ⟨.inl rfl, rfl⟩
    · next x rest queue =>
      refine ⟨.inr ?_, ?_⟩
      · simp [queue]
      · simp
  unfold Processor.process
  cases p.thread with
  | start | waitQueue => exact take p
  | inputAddr i => exact ⟨.inl rfl, rfl⟩
  | inputWait i =>
    refine ⟨.inl ?_, ?_⟩
    · simp
    · simp
  | biasAddr | biasWait => exact ⟨.inl rfl, rfl⟩
  | store =>
    obtain ⟨queue, size⟩ := take { p with
      resmemWO := false, isWorking := false, countNeuronsCalc := p.countNeuronsCalc + 1 }
    exact ⟨queue, size⟩

end NnProcessor.Model

namespace NnProcessor.Correctness
open NnProcessor.Model NnProcessor.Edge NnProcessor.Invariant

variable {F : Type} {n : Nat}

/-- The edges of the system are edges of the generator and its queues. -/
theorem edge_feed {hw : Hw} [Binary32Ops F] [DecidableEq F] (cfg : Config F) (sch : Schedule hw)
    {s : System hw F} (go : s.stopped = false) :
    Feed.Edge hw.countPcUnit_pos hw.queueSize s.layersStorage.dataO s.controller.startGeneratorO
      { generator := s.generator, queues := s.processors }
      { generator := (s.edge cfg sch).generator, queues := (s.edge cfg sch).processors } := by
  constructor
  · exact edge_generator cfg sch go
  · intro k
    simp only [edge_processor cfg sch go]
    exact Processor.process_popped _ _

/-- A run of the generator and its queues: it starts at rest, and the start pulse comes in the first
edge. -/
structure FeedRun (pos : 0 < n) (queueSize size : Nat) (σ : Nat → Feed n F) : Prop where
  idle : GenIdle (σ 0).generator
  empty : ∀ k, ((σ 0).queues k).queueNnNumber = []
  sizes : ∀ k, ((σ 0).queues k).queueSizeO = 0
  edge : ∀ t, Feed.Edge pos queueSize size (decide (t = 0)) (σ t) (σ (t + 1))

/-- The words seen on the generator bus in the edges before `t`. -/
def seen (σ : Nat → Feed n F) (t : Nat) : List Nat :=
  (List.range t).flatMap fun u => if (σ u).generator.wO then [(σ u).generator.dataO] else []

/-- The words the queue `k` has got in the edges before `t`. -/
def received (queueSize : Nat) (σ : Nat → Feed n F) (k : Fin n) (t : Nat) : List Nat :=
  (List.range t).flatMap fun u => (σ u).gets queueSize k

/-- No word is lost between the generator and the queues. -/
structure Lossless (queueSize size : Nat) (σ : Nat → Feed n F) : Prop where
  words : ∀ t, ∃ c ≤ size, seen σ t = List.range c
  once : ∀ t, (σ t).generator.wO = true → (σ (t + 1)).generator.wO = false
  choice : ∀ t, (σ (t + 1)).generator.wO = true → ∃ k : Fin n,
    (σ (t + 1)).generator.addressO = k ∧ ((σ t).queues k).queueSizeO < queueSize ∧
      (∀ j, ((σ t).queues k).queueSizeO ≤ ((σ t).queues j).queueSizeO) ∧
      ∀ j < k, ((σ t).queues k).queueSizeO < ((σ t).queues j).queueSizeO
  accepted : ∀ t (k : Fin n), (σ t).generator.wO = true → (σ t).generator.addressO = k →
    ((σ t).push queueSize k).queueNnNumber =
      ((σ t).queues k).queueNnNumber ++ [(σ t).generator.dataO]
  conserved : ∀ t, ∑ k, (received queueSize σ k t : Multiset Nat) = (seen σ t : Multiset Nat)
  bounded : ∀ t k, ((σ t).push queueSize k).queueNnNumber.length ≤ queueSize ∧
    ((σ t).queues k).queueNnNumber.length ≤ queueSize
  increasing : ∀ t k, (received queueSize σ k t).Pairwise (· < ·)
  ended : ∀ t, 0 < t → (σ t).generator.endGenerateO = true →
    ∑ k, (received queueSize σ k t : Multiset Nat) = Multiset.range size

/-- The invariant of the generator and its queues when `c` words have been dispatched. A word on the
bus has room in its queue. -/
structure FeedInv (queueSize size c : Nat) (s : Feed n F) : Prop where
  generator : GenInv size c s.generator
  size_le : ∀ k, (s.queues k).queueNnNumber.length ≤ (s.queues k).queueSizeO
  bounded : ∀ k, (s.queues k).queueNnNumber.length ≤ queueSize
  room : s.generator.wO = true → ∃ k : Fin n, s.generator.addressO = k ∧
    (s.queues k).queueNnNumber.length < queueSize

section Edge

variable {queueSize size c : Nat} {s s' : Feed n F}

/-- With room in its queue a word is taken, and the size of the queue is registered. -/
lemma push_queue (room : ∀ k : Fin n, s.generator.wO = true → s.generator.addressO = k →
    (s.queues k).queueNnNumber.length < queueSize) (k : Fin n) :
    (s.push queueSize k).queueNnNumber = (s.queues k).queueNnNumber ++
        pushed k s.generator.addressO s.generator.dataO s.generator.wO ∧
      (s.push queueSize k).queueSizeO = (s.push queueSize k).queueNnNumber.length := by
  unfold Feed.push Processor.addToQueue pushed
  by_cases here : s.generator.addressO = k ∧ s.generator.wO = true
  · have lt := room k here.2 here.1
    rw [if_pos ⟨here.1, here.2, lt⟩, if_pos here]
    exact ⟨rfl, rfl⟩
  · rw [if_neg (fun h => here ⟨h.1, h.2.1⟩), if_neg here, List.append_nil]
    exact ⟨rfl, rfl⟩

/-- The queue on the bus has room. -/
lemma FeedInv.room_at (inv : FeedInv queueSize size c s) (k : Fin n)
    (word : s.generator.wO = true) (address : s.generator.addressO = k) :
    (s.queues k).queueNnNumber.length < queueSize := by
  obtain ⟨j, hj, room⟩ := inv.room word
  obtain rfl : j = k := Fin.ext (hj.symm.trans address)
  exact room

/-- No queue is ever pushed beyond its capacity. -/
lemma FeedInv.push_le (inv : FeedInv queueSize size c s) (k : Fin n) :
    (s.push queueSize k).queueNnNumber.length ≤ queueSize := by
  rw [(push_queue inv.room_at k).1, List.length_append]
  unfold pushed
  split
  · next here => exact inv.room_at k here.2 here.1
  · exact inv.bounded k

/-- An edge keeps the invariant. -/
lemma FeedInv.step (inv : FeedInv queueSize size c s) (more : 1 ≤ size) {pos : 0 < n}
    (edge : Feed.Edge pos queueSize size false s s') :
    FeedInv queueSize size (c + if s'.generator.wO then 1 else 0) s' ∧
      (s'.generator.wO = true → s.generator.wO = false ∧ s'.generator.dataO = c) := by
  have goal : size = max (size : Int).toNat 1 := by omega
  have gen := inv.generator.step 0 pos queueSize (fun k => (s.queues k).queueSizeO) goal
  rw [← edge.generator] at gen
  have shorter : ∀ k, (s'.queues k).queueNnNumber.length ≤
      (s.push queueSize k).queueNnNumber.length := by
    intro k
    cases (edge.queue k).queue with
    | inl same => rw [same]
    | inr tail =>
      rw [tail, List.length_tail]
      exact Nat.sub_le _ _
  refine ⟨⟨gen.inv, ?_, ?_, ?_⟩, ?_⟩
  · intro k
    rw [(edge.queue k).size, (push_queue inv.room_at k).2]
    exact shorter k
  · exact fun k => le_trans (shorter k) (inv.push_le k)
  · intro word
    obtain ⟨silent, -, k, hk, room, -⟩ := gen.word word
    refine ⟨k, hk, lt_of_le_of_lt (shorter k) ?_⟩
    -- nothing is pushed in the edge of the decision
    rw [(push_queue inv.room_at k).1, pushed, if_neg (by simp [silent]), List.append_nil]
    exact lt_of_le_of_lt (inv.size_le k) room
  · intro word
    exact ⟨(gen.word word).1, (gen.word word).2.1⟩

end Edge

section Run

variable {pos : 0 < n} {queueSize size : Nat} {σ : Nat → Feed n F}

/-- An edge shows the word on the bus, if there is one. -/
lemma seen_succ (σ : Nat → Feed n F) (t : Nat) : seen σ (t + 1) =
    seen σ t ++ if (σ t).generator.wO then [(σ t).generator.dataO] else [] := by
  simp [seen, List.range_succ]

/-- In an edge a queue receives what it gets in that edge. -/
lemma received_succ (queueSize : Nat) (σ : Nat → Feed n F) (k : Fin n) (t : Nat) :
    received queueSize σ k (t + 1) = received queueSize σ k t ++ (σ t).gets queueSize k := by
  simp [received, List.range_succ]

variable (run : FeedRun pos queueSize size σ)
include run

/-- The generator is at rest, so nothing happens to the queues in the first edge. -/
lemma FeedRun.first (more : 1 ≤ size) :
    FeedInv queueSize size 0 (σ 1) ∧ (σ 1).generator.wO = false := by
  have edge := run.edge 0
  obtain ⟨gen, -, silent⟩ := run.idle.begin pos queueSize size
    (fun k => ((σ 0).queues k).queueSizeO) (show 0 < size from more)
  have eq : (σ 1).generator = _ := edge.generator
  simp only [decide_true] at eq
  rw [← eq] at gen silent
  have room : ∀ k : Fin n, (σ 0).generator.wO = true → (σ 0).generator.addressO = k →
      ((σ 0).queues k).queueNnNumber.length < queueSize := by
    intro k word
    rw [run.idle.quiet] at word
    cases word
  have push := push_queue room
  have none : ∀ k, ((σ 0).push queueSize k).queueNnNumber = [] := by
    intro k
    rw [(push k).1, run.empty, pushed, if_neg (by simp [run.idle.quiet])]
    rfl
  have empty : ∀ k, ((σ 1).queues k).queueNnNumber = [] := by
    intro k
    cases (edge.queue k).queue with
    | inl same => rw [same, none]
    | inr tail => rw [tail, none, List.tail_nil]
  refine ⟨⟨gen, fun k => ?_, fun k => ?_, fun word => ?_⟩, silent⟩
  · rw [empty]
    exact Nat.zero_le _
  · rw [empty]
    exact Nat.zero_le _
  · rw [silent] at word
    cases word

/-- Behind the start pulse the invariant holds, and the words seen are the first ones. -/
lemma FeedRun.inv (more : 1 ≤ size) (t : Nat) :
    ∃ c, FeedInv queueSize size c (σ (t + 1)) ∧ seen σ (t + 2) = List.range c := by
  induction t with
  | zero =>
    obtain ⟨inv, silent⟩ := run.first more
    refine ⟨0, inv, ?_⟩
    rw [seen_succ, seen_succ, run.idle.quiet, silent]
    rfl
  | succ t ih =>
    obtain ⟨c, inv, words⟩ := ih
    obtain ⟨inv', word⟩ := inv.step more (run.edge (t + 1))
    refine ⟨_, inv', ?_⟩
    rw [seen_succ, words]
    cases high : (σ (t + 2)).generator.wO with
    | false => simp
    | true => simp [(word high).2, List.range_succ]

/-- A word on the bus has room in its queue at every edge. -/
lemma FeedRun.room (more : 1 ≤ size) (t : Nat) (k : Fin n)
    (word : (σ t).generator.wO = true) (address : (σ t).generator.addressO = k) :
    ((σ t).queues k).queueNnNumber.length < queueSize := by
  cases t with
  | zero =>
    rw [run.idle.quiet] at word
    cases word
  | succ t =>
    obtain ⟨c, inv, -⟩ := run.inv more t
    exact inv.room_at k word address

/-- A queue gets the words that carry its number. -/
lemma FeedRun.gets_eq (more : 1 ≤ size) (t : Nat) (k : Fin n) : (σ t).gets queueSize k =
    pushed k (σ t).generator.addressO (σ t).generator.dataO (σ t).generator.wO := by
  unfold Feed.gets
  rw [(push_queue (run.room more t) k).1, List.drop_left]

/-- All queues together get the words seen. -/
lemma FeedRun.conserved (more : 1 ≤ size) (t : Nat) :
    ∑ k, (received queueSize σ k t : Multiset Nat) = (seen σ t : Multiset Nat) := by
  induction t with
  | zero => simp [received, seen]
  | succ t ih =>
    have bus : ∑ k : Fin n, (pushed k (σ t).generator.addressO (σ t).generator.dataO
        (σ t).generator.wO : Multiset Nat) = (σ t).generator.sent := by
      cases t with
      | zero => simp [pushed, Generator.sent, run.idle.quiet]
      | succ t =>
        obtain ⟨c, inv, -⟩ := run.inv more t
        cases high : (σ (t + 1)).generator.wO with
        | false => simp [pushed, Generator.sent, high]
        | true =>
          obtain ⟨k, hk, -⟩ := inv.room high
          rw [← high]
          exact sum_pushed _ k hk
    have sent : ((if (σ t).generator.wO then [(σ t).generator.dataO] else [] : List Nat) :
        Multiset Nat) = (σ t).generator.sent := by
      cases high : (σ t).generator.wO <;> simp [Generator.sent, high]
    rw [seen_succ, ← Multiset.coe_add, ← ih, sent, ← bus, ← Finset.sum_add_distrib]
    refine Finset.sum_congr rfl fun k _ => ?_
    rw [received_succ, ← Multiset.coe_add, run.gets_eq more]

/-- A queue gets its words in the order in which they are seen. -/
lemma FeedRun.sublist (more : 1 ≤ size) (t : Nat) (k : Fin n) :
    (received queueSize σ k t).Sublist (seen σ t) := by
  induction t with
  | zero => exact List.Sublist.refl []
  | succ t ih =>
    rw [received_succ, seen_succ, run.gets_eq more]
    refine ih.append ?_
    unfold pushed
    split
    · next here => simp [here.2]
    · exact List.nil_sublist _

/-- The words seen are the first ones, and not more than the layer has. -/
lemma FeedRun.words (more : 1 ≤ size) (t : Nat) : ∃ c ≤ size, seen σ t = List.range c := by
  rcases t with _ | _ | t
  · exact ⟨0, Nat.zero_le _, rfl⟩
  · refine ⟨0, Nat.zero_le _, ?_⟩
    rw [seen_succ, run.idle.quiet]
    rfl
  · obtain ⟨c, inv, words⟩ := run.inv more t
    exact ⟨c, inv.generator.le, words⟩

end Run

/-- Whatever the consumers do, every word of the generator is taken by the queue it is sent to. -/
theorem dispatch_lossless {pos : 0 < n} {queueSize size : Nat} (more : 1 ≤ size)
    {σ : Nat → Feed n F} (run : FeedRun pos queueSize size σ) : Lossless queueSize size σ where
  words := run.words more
  once t high := by
    cases t with
    | zero =>
      rw [run.idle.quiet] at high
      cases high
    | succ t =>
      obtain ⟨c, inv, -⟩ := run.inv more t
      obtain ⟨-, word⟩ := inv.step more (run.edge (t + 1))
      cases next : (σ (t + 2)).generator.wO with
      | false => rfl
      | true =>
        rw [(word next).1] at high
        cases high
  choice t high := by
    have quiet : (σ t).generator.thread ≠ .dispatched → (σ t).generator.wO = false := by
      cases t with
      | zero => exact fun _ => run.idle.quiet
      | succ t =>
        obtain ⟨c, inv, -⟩ := run.inv more t
        exact inv.generator.quiet
    rw [(run.edge t).generator] at high ⊢
    obtain ⟨address, room, -⟩ := generate_choice quiet high
    exact ⟨_, address, room, findMinIndex_le pos fun k => ((σ t).queues k).queueSizeO,
      fun _ => findMinIndex_lt pos fun k => ((σ t).queues k).queueSizeO⟩
  accepted t k high address := by
    rw [(push_queue (run.room more t) k).1, pushed, if_pos ⟨address, high⟩]
  conserved := run.conserved more
  bounded t k := by
    cases t with
    | zero =>
      have none : ((σ 0).push queueSize k).queueNnNumber = [] := by
        rw [(push_queue (run.room more 0) k).1, run.empty, pushed,
          if_neg (by simp [run.idle.quiet])]
        rfl
      rw [none, run.empty]
      exact ⟨Nat.zero_le _, Nat.zero_le _⟩
    | succ t =>
      obtain ⟨c, inv, -⟩ := run.inv more t
      exact ⟨inv.push_le k, inv.bounded k⟩
  increasing t k := by
    obtain ⟨c, -, words⟩ := run.words more t
    refine List.Pairwise.sublist (run.sublist more t k) ?_
    rw [words]
    exact List.pairwise_lt_range
  ended t later high := by
    obtain ⟨u, rfl⟩ : ∃ u, t = u + 1 := ⟨t - 1, by omega⟩
    obtain ⟨c, inv, words⟩ := run.inv more u
    obtain ⟨rfl, idle⟩ := inv.generator.ended high
    rw [seen_succ, idle.quiet] at words
    rw [run.conserved more, show seen σ (u + 1) = List.range c by simpa using words]
    rfl

/-- The run in which the consumer of the queue `k` takes its front in the edge `t` if `pops t k`. -/
def Feed.popping (pos : 0 < n) (queueSize size : Nat) (pops : Nat → Fin n → Bool) (x : F) :
    Nat → Feed n F
  | 0 => { generator := {}, queues := fun _ => { sumReg := x, resmemDataO := x } }
  | t + 1 =>
    let s := Feed.popping pos queueSize size pops x t
    { generator :=
        s.generator.generate pos queueSize (decide (t = 0)) size fun k => (s.queues k).queueSizeO
      queues := fun k =>
        if pops t k then
          { s.push queueSize k with queueNnNumber := (s.push queueSize k).queueNnNumber.tail }
        else s.push queueSize k }

/-- It is a run of the generator and its queues. -/
lemma Feed.popping_run (pos : 0 < n) (queueSize size : Nat) (pops : Nat → Fin n → Bool) (x : F) :
    FeedRun pos queueSize size (Feed.popping pos queueSize size pops x) where
  idle := ⟨.inl rfl, rfl, rfl, rfl⟩
  empty _ := rfl
  sizes _ := rfl
  edge t := by
    refine ⟨rfl, fun k => ?_⟩
    simp only [Feed.popping]
    split
    · exact ⟨.inr rfl, rfl⟩
    · exact ⟨.inl rfl, rfl⟩

/-- Two queues with room for one word each: one is popped at every third edge, the other never. -/
def slowConsumers : Nat → Feed 2 Unit :=
  Feed.popping (by decide) 1 4 (fun t k => decide (k = 0 ∧ t % 3 = 0)) ()

/-- The slow consumers lose nothing. -/
theorem dispatch_lossless_slow : Lossless 1 4 slowConsumers :=
  dispatch_lossless (by decide) (Feed.popping_run (by decide) 1 4 _ ())

example : seen slowConsumers 30 = [0, 1, 2, 3] := by decide +kernel

end NnProcessor.Correctness
