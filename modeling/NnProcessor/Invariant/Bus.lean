import NnProcessor.Edge.Modules
import NnProcessor.Run.Phase

/-!
# The words on the bus

`IO` sends the words of the configuration one after the other and prints the words that come back.
`Sending` is the invariant of the sender between two words, `loaded` what the words sent so far
bring to each address, and `BusInv` the state of `IO` and of the shared bus in every phase.
-/

namespace NnProcessor.Invariant
open NnProcessor.Arith NnProcessor.Model NnProcessor.Edge

variable {hw : Hw} {F : Type} [Binary32Ops F] (cfg : Config F)

/-- The word `t` brings its value to its own address. -/
lemma loaded_succ {t : Nat} {w : Int × F} (h : cfg.words[t]? = some w) (a : Int) :
    cfg.loaded a (t + 1) = cfg.loaded a t ++ if w.1 = a then [w.2] else [] := by
  obtain ⟨lt, rfl⟩ := List.getElem?_eq_some_iff.1 h
  unfold Config.loaded
  rw [List.take_succ_eq_append_getElem lt, List.filterMap_append]
  congr 1
  split <;> simp_all

/-- After the last word every address has got its whole segment. -/
lemma loaded_all {t : Nat} (le : cfg.words.length ≤ t) :
    cfg.loaded 1 t = cfg.layers.map (fun l => ofInt l) ∧ cfg.loaded 2 t = cfg.picture ∧
      cfg.loaded 3 t = cfg.weights := by
  have segment : ∀ {α : Type} (a b : Int) (f : α → F) (l : List α),
      (l.map fun x => (b, f x)).filterMap (fun w => if w.1 = a then some w.2 else none) =
        if b = a then l.map f else [] := by
    intro α a b f l
    by_cases h : b = a
    · simp [h]
    · simp [h]
  unfold Config.loaded
  rw [List.take_of_length_le le]
  refine ⟨?_, ?_, ?_⟩ <;>
    simp [Config.words, Config.layerWords, Config.pictureWords, Config.weightWords, segment]

/-- The last word is the start command. -/
lemma words_last : cfg.words[cfg.words.length - 1]? = some (0, negInfinity) := by
  rw [← List.getLast?_eq_getElem?]
  simp [Config.words, Config.layerWords, Config.pictureWords, Config.weightWords,
    List.getLast?_cons]

/-- The start command brings nothing to a store. -/
lemma loaded_last {a : Int} (store : a ≠ 0) :
    cfg.loaded a (cfg.words.length - 1) = cfg.loaded a cfg.words.length := by
  have some : 0 < cfg.words.length := by simp [Config.words]
  have step := loaded_succ cfg (words_last cfg) a
  rw [if_neg (Ne.symm store), List.append_nil, Nat.sub_add_cancel some] at step
  exact step.symm

/-- The number of layers and the two markers are always sent. -/
lemma three_le_length_words : 3 ≤ cfg.words.length := by
  simp [Config.words, Config.layerWords, Config.pictureWords, Config.weightWords]
  omega

/-- The words between the two commands go to the stores. -/
lemma words_address {t : Nat} {w : Int × F} (h : cfg.words[t]? = some w) (lo : 2 ≤ t)
    (hi : t + 1 < cfg.words.length) : w.1 = 1 ∨ w.1 = 2 ∨ w.1 = 3 := by
  obtain ⟨t, rfl⟩ : ∃ u, t = u + 2 := ⟨t - 2, by omega⟩
  have body : cfg.words = (0, infinity) :: (0, ofInt cfg.layers.length) ::
      ((cfg.layers.map fun l => (1, ofInt l)) ++ ((cfg.picture.map fun x => (2, x)) ++
        (cfg.weights.map fun x => (3, x))) ++ [(0, negInfinity)]) := by
    simp [Config.words, Config.layerWords, Config.pictureWords, Config.weightWords]
  rw [body] at h hi
  simp only [List.getElem?_cons_succ] at h
  simp only [List.length_cons, List.length_append, List.length_nil] at hi
  rw [List.getElem?_append_left (by simp only [List.length_append]; omega)] at h
  have mem := List.mem_of_getElem? h
  simp only [List.mem_append, List.mem_map] at mem
  rcases mem with ⟨_, -, rfl⟩ | ⟨_, -, rfl⟩ | ⟨_, -, rfl⟩ <;> simp

/-- The words a `wait()` of `IO::write_data_to_system` still has to send. -/
def pending : WriteThread F → List (Int × F)
  | .start => cfg.words
  | .sentMarker => (0, ofInt cfg.layers.length) :: cfg.layerWords cfg.layers
  | .sentCount => cfg.layerWords cfg.layers
  | .layers rest => cfg.layerWords rest
  | .picture rest => cfg.pictureWords rest
  | .weights rest => Config.weightWords rest
  | .sentStart | .finished => []

/-- While a segment is sent, the address is the one of the segment. -/
def Segment (io : IoModule F) : Prop :=
  match io.thread with
  | .start | .finished => False
  | .sentMarker => io.addrO = 0
  | .layers _ => io.addrO = 1
  | .picture _ => io.addrO = 2
  | .weights _ => io.addrO = 3
  | .sentCount | .sentStart => True

/-- The sender has put the word `t` on the bus. -/
structure Sending (t : Nat) (io : IoModule F) (bus : IoBus F) : Prop where
  transmit : io.transmit = true
  counter : io.counter = 0
  printed : io.printed = []
  wr : bus.wr = true
  word : cfg.words[t]? = some (io.addrO, bus.data)
  rest : cfg.words.drop (t + 1) = pending cfg io.thread
  segment : Segment io

/-- What the sender does with the words behind it. -/
structure Sent (w : Int × F) (ws : List (Int × F)) (m m' : IoModule F × IoBus F) : Prop where
  same : m'.1.transmit = m.1.transmit ∧ m'.1.counter = m.1.counter ∧ m'.1.printed = m.1.printed
  wr : m'.2.wr = true
  word : w = (m'.1.addrO, m'.2.data)
  rest : ws = pending cfg m'.1.thread
  segment : Segment m'.1

/-- While weights are sent the next word goes to the weights. -/
lemma sendWeights_sent {w : Int × F} {ws : List (Int × F)} (rest : List F)
    (m : IoModule F × IoBus F) (addr : m.1.addrO = 3) (wr : m.2.wr = true)
    (h : Config.weightWords rest = w :: ws) : Sent cfg w ws m (IoModule.sendWeights rest m) := by
  cases rest with
  | nil =>
    simp only [Config.weightWords, List.map_nil, List.nil_append, List.cons.injEq] at h
    obtain ⟨rfl, rfl⟩ := h
    exact ⟨⟨rfl, rfl, rfl⟩, rfl, rfl, rfl, trivial⟩
  | cons x rest =>
    simp only [Config.weightWords, List.map_cons, List.cons_append, List.cons.injEq] at h
    obtain ⟨rfl, rfl⟩ := h
    exact ⟨⟨rfl, rfl, rfl⟩, wr, by simp [IoModule.sendWeights, addr], rfl, addr⟩

/-- While the picture is sent the next word goes to the picture. -/
lemma sendPicture_sent {w : Int × F} {ws : List (Int × F)} (rest : List F)
    (m : IoModule F × IoBus F) (addr : m.1.addrO = 2) (wr : m.2.wr = true)
    (h : cfg.pictureWords rest = w :: ws) : Sent cfg w ws m (IoModule.sendPicture cfg rest m) := by
  cases rest with
  | nil =>
    have s := sendWeights_sent cfg cfg.weights ({ m.1 with addrO := 3 }, m.2) rfl wr h
    exact ⟨s.same, s.wr, s.word, s.rest, s.segment⟩
  | cons x rest =>
    simp only [Config.pictureWords, List.map_cons, List.cons_append, List.cons.injEq] at h
    obtain ⟨rfl, rfl⟩ := h
    exact ⟨⟨rfl, rfl, rfl⟩, wr, by simp [IoModule.sendPicture, addr], rfl, addr⟩

/-- While the sizes are sent the next word goes to the sizes. -/
lemma sendLayers_sent {w : Int × F} {ws : List (Int × F)} (rest : List Int)
    (m : IoModule F × IoBus F) (addr : m.1.addrO = 1) (wr : m.2.wr = true)
    (h : cfg.layerWords rest = w :: ws) : Sent cfg w ws m (IoModule.sendLayers cfg rest m) := by
  cases rest with
  | nil =>
    have s := sendPicture_sent cfg cfg.picture ({ m.1 with addrO := 2 }, m.2) rfl wr h
    exact ⟨s.same, s.wr, s.word, s.rest, s.segment⟩
  | cons x rest =>
    simp only [Config.layerWords, List.map_cons, List.cons_append, List.cons.injEq] at h
    obtain ⟨rfl, rfl⟩ := h
    exact ⟨⟨rfl, rfl, rfl⟩, wr, by simp [IoModule.sendLayers, addr], rfl, addr⟩

/-- While words are left, the sender puts the next one on the bus. -/
lemma Sending.next {t : Nat} {io : IoModule F} {bus : IoBus F} (sending : Sending cfg t io bus)
    (more : t + 1 < cfg.words.length) :
    Sending cfg (t + 1) (IoModule.writeDataToSystem cfg (io, bus)).1
      (IoModule.writeDataToSystem cfg (io, bus)).2 := by
  obtain ⟨transmit, counter, printed, wr, -, rest, segment⟩ := sending
  obtain ⟨w, ws, split⟩ : ∃ w ws, cfg.words.drop (t + 1) = w :: ws :=
    List.exists_cons_of_ne_nil (by simp only [ne_eq, List.drop_eq_nil_iff, not_le]; exact more)
  have h : pending cfg io.thread = w :: ws := rest.symm.trans split
  have sent : Sent cfg w ws (io, bus) (IoModule.writeDataToSystem cfg (io, bus)) := by
    cases ht : io.thread <;> simp only [Segment, ht] at segment h <;>
      simp only [IoModule.writeDataToSystem, ht]
    case sentMarker =>
      obtain ⟨rfl, rfl⟩ := List.cons.inj h
      exact ⟨⟨rfl, rfl, rfl⟩, wr, by simp [segment], rfl, trivial⟩
    case sentCount =>
      have s := sendLayers_sent cfg cfg.layers ({ io with addrO := 1 }, bus) rfl wr h
      exact ⟨s.same, s.wr, s.word, s.rest, s.segment⟩
    case layers => exact sendLayers_sent cfg _ (io, bus) segment wr h
    case picture => exact sendPicture_sent cfg _ (io, bus) segment wr h
    case weights => exact sendWeights_sent cfg _ (io, bus) segment wr h
    case sentStart => cases h
  obtain ⟨⟨t', c', p'⟩, wr', word, rest', segment'⟩ := sent
  refine ⟨t'.trans transmit, c'.trans counter, p'.trans printed, wr', ?_, ?_, segment'⟩
  · rw [← word, ← List.head?_drop, split]
    rfl
  · rw [← rest', ← List.tail_drop, split]
    rfl

/-- Behind the start command the sender gives the bus back. -/
lemma Sending.last {t : Nat} {io : IoModule F} {bus : IoBus F} (sending : Sending cfg t io bus)
    (last : t + 1 = cfg.words.length) :
    io.addrO = 0 ∧ bus.data = negInfinity ∧
      IoModule.writeDataToSystem cfg (io, bus) =
        ({ io with transmit := false, thread := .finished }, { bus with wr := false }) := by
  obtain ⟨-, -, -, -, word, rest, segment⟩ := sending
  have start := words_last cfg
  rw [← last, Nat.add_sub_cancel, word] at start
  have none : pending cfg io.thread = [] := by rw [← rest, last, List.drop_length]
  obtain ⟨addr, data⟩ := Prod.mk.inj (Option.some.inj start)
  refine ⟨addr, data, ?_⟩
  cases ht : io.thread <;> simp only [Segment, ht] at segment none
  case sentStart => simp [IoModule.writeDataToSystem, ht]
  case sentMarker => cases none
  all_goals
    simp [pending, Config.layerWords, Config.pictureWords, Config.weightWords] at none

/-- The lines that print the words `out`. -/
def numbered (out : List F) : List (Nat × F) := out.zipIdx.map fun p => (p.2, p.1)

omit [Binary32Ops F] in
/-- A further result gets the next number. -/
lemma numbered_append (out : List F) (x : F) :
    numbered (out ++ [x]) = numbered out ++ [(out.length, x)] := by
  simp [numbered, List.zipIdx_append]

/-- `IO` behind the transmission; it has printed `out`. -/
structure Receiving (out : List F) (io : IoModule F) : Prop where
  thread : io.thread = .finished
  transmit : io.transmit = false
  addr : io.addrO = 0
  counter : io.counter = out.length
  printed : io.printed = numbered out

/-- `IO` and the shared bus in a phase. -/
def BusInv (ph : Phase) (s : System hw F) : Prop :=
  match ph with
  | .load 0 => s.io = {} ∧ s.bus.wr = false
  | .load (t + 1) => Sending cfg t s.io s.bus
  | .output 0 => Receiving [] s.io ∧ s.bus.wr = false
  | .output (k + 1) =>
    Receiving (cfg.results.take k) s.io ∧ s.bus.wr = true ∧ cfg.results[k]? = some s.bus.data
  | .stopped => Receiving cfg.results s.io
  | _ => Receiving [] s.io ∧ s.bus.wr = false

/-- What `PREVIOUS_LAYER` leaves on the bus in the edge of a phase. -/
def BusDriven (ph : Phase) (old new : IoBus F) : Prop :=
  match ph with
  | .output k =>
    if k < cfg.resultCount then new.wr = true ∧ cfg.results[k]? = some new.data else new = old
  | _ => new = old

/-- There are as many results as are sent back. -/
lemma length_results : cfg.results.length = cfg.resultCount := by
  have le : i32 (cfg.activation cfg.iterations).length ≤ (cfg.activation cfg.iterations).length :=
    i32_le
  simp only [Config.results, List.length_take, Config.resultCount]
  omega

omit [Binary32Ops F] in
/-- Without a write `IO` prints nothing. -/
lemma readData_quiet {io : IoModule F} {data : F} {wr : Bool}
    (h : io.transmit = true ∨ wr = false) :
    io.readDataFromSystem data wr = io := by
  rcases h with h | h <;> simp [IoModule.readDataFromSystem, h]

omit [Binary32Ops F] in
/-- A received word is printed under the next number. -/
lemma Receiving.read {out : List F} {io : IoModule F} (rcv : Receiving out io) (x : F) :
    Receiving (out ++ [x]) (io.readDataFromSystem x true) := by
  have eq : io.readDataFromSystem x true =
      { io with printed := io.printed ++ [(io.counter, x)], counter := io.counter + 1 } := by
    simp [IoModule.readDataFromSystem, rcv.transmit]
  rw [eq]
  exact ⟨rcv.thread, rcv.transmit, rcv.addr, by simp [rcv.counter],
    by simp [numbered_append, rcv.printed, rcv.counter]⟩

/-- Behind the transmission the thread of `IO` rests. -/
lemma Receiving.write {out : List F} {io : IoModule F} (rcv : Receiving out io) (bus : IoBus F) :
    IoModule.writeDataToSystem cfg (io, bus) = (io, bus) := by
  simp [IoModule.writeDataToSystem, rcv.thread]

variable [DecidableEq F] (sch : Schedule hw)

/-- `IO` and the bus follow the phases. -/
lemma BusInv.step {ph : Phase} {s : System hw F} (inv : BusInv cfg ph s) (valid : cfg.Valid ph)
    (running : ph ≠ .stopped) (go : s.stopped = false)
    (driven : BusDriven cfg ph s.bus (s.methodPhase sch).bus)
    (ended : Bool) : BusInv cfg (cfg.next ended ph) (s.edge cfg sch) := by
  have edge := edge_io_bus cfg sch go
  have hio : (s.edge cfg sch).io = _ := congrArg Prod.fst edge
  have hbus : (s.edge cfg sch).bus = _ := congrArg Prod.snd edge
  -- the phases in which the bus rests
  have rest : ∀ {out : List F}, Receiving out s.io → s.bus.wr = false →
      (s.methodPhase sch).bus = s.bus →
      Receiving out (s.edge cfg sch).io ∧ (s.edge cfg sch).bus.wr = false := by
    intro out rcv wr same
    rw [hio, hbus, readData_quiet (.inr wr), same, rcv.write]
    exact ⟨rcv, wr⟩
  cases ph with
  | load t =>
    rw [driven] at hio hbus
    cases t with
    | zero =>
      obtain ⟨io, wr⟩ := inv
      have some : 0 < cfg.words.length := lt_of_lt_of_le (by decide) (three_le_length_words cfg)
      simp only [Config.next, if_pos some]
      rw [readData_quiet (.inr wr), io] at hio hbus
      refine ⟨?_, ?_, ?_, ?_, ?_, ?_, ?_⟩ <;> simp only [hio, hbus] <;> rfl
    | succ t =>
      rw [readData_quiet (.inl inv.transmit)] at hio hbus
      simp only [Config.next]
      by_cases more : t + 1 < cfg.words.length
      · rw [if_pos more]
        have next := inv.next cfg more
        rwa [← hio, ← hbus] at next
      · rw [if_neg more]
        obtain ⟨addr, -, eq⟩ := inv.last cfg (le_antisymm valid (not_lt.1 more))
        have done : Receiving [] (s.edge cfg sch).io ∧ (s.edge cfg sch).bus.wr = false := by
          rw [hio, hbus, eq]
          exact ⟨⟨rfl, rfl, addr, inv.counter, inv.printed⟩, rfl⟩
        unfold Config.afterLayers
        split
        · exact done
        · exact done
  | compute i => cases ended <;> exact rest inv.1 inv.2 driven
  | copyFirst i =>
    simp only [Config.next]
    split <;> exact rest inv.1 inv.2 driven
  | copying i j =>
    simp only [Config.next]
    split <;> exact rest inv.1 inv.2 driven
  | cloned i =>
    simp only [Config.next, Config.afterLayers]
    split <;> exact rest inv.1 inv.2 driven
  | output k =>
    simp only [BusDriven] at driven
    -- what the method of `IO` has printed behind the edge
    have read : Receiving (cfg.results.take k)
        (s.io.readDataFromSystem s.bus.data s.bus.wr) := by
      cases k with
      | zero =>
        rw [readData_quiet (.inr inv.2)]
        exact inv.1
      | succ k =>
        obtain ⟨rcv, wr, data⟩ := inv
        obtain ⟨lt, eq⟩ := List.getElem?_eq_some_iff.1 data
        rw [wr, List.take_succ_eq_append_getElem lt, eq]
        exact rcv.read _
    rw [read.write] at hio hbus
    simp only [Config.next]
    by_cases more : k < cfg.resultCount
    · rw [if_pos more] at driven ⊢
      exact ⟨hio ▸ read, hbus ▸ driven⟩
    · rw [if_neg more]
      have all : cfg.results.take k = cfg.results :=
        List.take_of_length_le (by rw [length_results]; exact not_lt.1 more)
      rw [all] at read
      have done : Receiving cfg.results (s.edge cfg sch).io := hio ▸ read
      exact done
  | stopped => exact absurd rfl running
  | savePrev | nextLayer | startGenerator | settle | clear | startClone | writeOut =>
    exact rest inv.1 inv.2 driven

end NnProcessor.Invariant
