import NnProcessor.Model.Control

/-!
# The generator at work on a layer

`GenInv goal k g` is the invariant of the generator between two edges of a layer iteration with
`goal` neurons of which `k` have been dispatched. `GenIdle` is its state outside of the dispatch
loop. `GenInv.step` says what one edge can do: send the next neuron to the shortest queue, find
every queue full, move on between two attempts, or rest behind the last neuron.
-/

namespace NnProcessor.Invariant
open NnProcessor.Model

variable {n : Nat}

/-- The scan of `find_min_index` over a list, from the candidate `best`. -/
private lemma scan_le (q : Fin n → Nat) (l : List (Fin n)) (best : Fin n) :
    let r := l.foldl (fun best i => if q i < q best then i else best) best
    q r ≤ q best ∧ ∀ j ∈ l, q r ≤ q j := by
  induction l generalizing best with
  | nil => exact ⟨le_refl _, by simp⟩
  | cons i l ih =>
    obtain ⟨lo, rest⟩ := ih (if q i < q best then i else best)
    have both : q (if q i < q best then i else best) ≤ q best ∧
        q (if q i < q best then i else best) ≤ q i := by
      split <;> omega
    refine ⟨le_trans lo both.1, ?_⟩
    intro j hj
    rcases List.mem_cons.1 hj with rfl | hj
    · exact le_trans lo both.2
    · exact rest j hj

/-- `find_min_index` finds a shortest queue. -/
lemma findMinIndex_le (pos : 0 < n) (q : Fin n → Nat) (j : Fin n) :
    q (findMinIndex pos q) ≤ q j := by
  obtain ⟨lo, rest⟩ := scan_le q (List.finRange n).tail ⟨0, pos⟩
  obtain ⟨m, rfl⟩ : ∃ m, n = m + 1 := ⟨n - 1, by omega⟩
  have split : List.finRange (m + 1) = 0 :: (List.finRange (m + 1)).tail := by
    simp [List.finRange_succ]
  have hj : j ∈ List.finRange (m + 1) := List.mem_finRange j
  rw [split] at hj
  rcases List.mem_cons.1 hj with rfl | hj
  · exact lo
  · exact rest j hj

/-- The scan keeps the first of the shortest queues of a list in order. -/
private lemma scan_lt (q : Fin n → Nat) (l : List (Fin n)) (best : Fin n)
    (sorted : (best :: l).Pairwise (· < ·)) :
    let r := l.foldl (fun best i => if q i < q best then i else best) best
    ∀ j ∈ best :: l, j < r → q r < q j := by
  induction l generalizing best with
  | nil =>
    intro r j mem lt
    obtain rfl := List.mem_singleton.1 mem
    exact absurd lt (lt_irrefl j)
  | cons i l ih =>
    intro r j mem lt
    have rest := (List.pairwise_cons.1 sorted).2
    have below : best < i := (List.pairwise_cons.1 sorted).1 i (by simp)
    have skip : (best :: l).Pairwise (· < ·) := by
      refine List.pairwise_cons.2 ⟨fun x hx => ?_, (List.pairwise_cons.1 rest).2⟩
      exact (List.pairwise_cons.1 sorted).1 x (List.mem_cons_of_mem i hx)
    by_cases shorter : q i < q best
    · have eq : r = l.foldl (fun best i => if q i < q best then i else best) i := by
        simp only [r, List.foldl_cons, if_pos shorter]
      rw [eq] at lt ⊢
      rcases List.mem_cons.1 mem with rfl | mem
      · exact lt_of_le_of_lt (scan_le q l i).1 shorter
      · exact ih i rest j mem lt
    · have eq : r = l.foldl (fun best i => if q i < q best then i else best) best := by
        simp only [r, List.foldl_cons, if_neg shorter]
      rw [eq] at lt ⊢
      rcases List.mem_cons.1 mem with rfl | mem
      · exact ih j skip j (by simp) lt
      · rcases List.mem_cons.1 mem with rfl | mem
        · exact lt_of_lt_of_le (ih best skip best (by simp) (below.trans lt)) (not_lt.1 shorter)
        · exact ih best skip j (List.mem_cons_of_mem best mem) lt

/-- Of the shortest queues `find_min_index` finds the one with the lowest number. -/
lemma findMinIndex_lt (pos : 0 < n) (q : Fin n → Nat) {j : Fin n} (lt : j < findMinIndex pos q) :
    q (findMinIndex pos q) < q j := by
  obtain ⟨m, rfl⟩ : ∃ m, n = m + 1 := ⟨n - 1, by omega⟩
  have split : List.finRange (m + 1) = 0 :: (List.finRange (m + 1)).tail := by
    simp [List.finRange_succ]
  have sorted : (List.finRange (m + 1)).Pairwise (· < ·) := List.pairwise_lt_finRange _
  rw [split] at sorted
  refine scan_lt q _ 0 sorted j ?_ lt
  rw [← split]
  exact List.mem_finRange j

/-- The generator outside of its dispatch loop. -/
structure GenIdle (g : Generator) : Prop where
  thread : g.thread = .start ∨ g.thread = .idle
  state : g.state = .idle
  ended : g.endGenerateO = true
  quiet : g.wO = false

/-- The invariant of the generator in a layer iteration. -/
def GenInv (goal k : Nat) (g : Generator) : Prop :=
  match g.thread with
  | .start => False
  | .idle =>
    g.wO = false ∧
      (g.state = .generate ∧ g.counter = k ∧ k < goal ∧ g.endGenerateO = false ∨
        g.state = .idle ∧ k = goal ∧ g.endGenerateO = true)
  | .generate =>
    g.wO = false ∧ g.state = .generate ∧ g.counter = k ∧ k < goal ∧ g.endGenerateO = false
  | .dispatched =>
    g.endGenerateO = false ∧ (g.wO = true → g.dataO + 1 = k) ∧
      (g.state = .generate ∧ g.counter = k ∧ k < goal ∨ g.state = .idle ∧ k = goal)

/-- No more than the goal is dispatched. -/
lemma GenInv.le {goal k : Nat} {g : Generator} (inv : GenInv goal k g) : k ≤ goal := by
  unfold GenInv at inv
  cases ht : g.thread <;> simp only [ht] at inv
  case idle => obtain ⟨-, ⟨-, -, lt, -⟩ | ⟨-, rfl, -⟩⟩ := inv <;> omega
  case generate => exact le_of_lt inv.2.2.2.1
  case dispatched => obtain ⟨-, -, ⟨-, -, lt⟩ | ⟨-, rfl⟩⟩ := inv <;> omega

/-- The word on the generator bus is the last neuron dispatched. -/
lemma GenInv.word {goal k : Nat} {g : Generator} (inv : GenInv goal k g) (w : g.wO = true) :
    g.dataO + 1 = k := by
  unfold GenInv at inv
  cases ht : g.thread <;> simp only [ht, w] at inv
  case idle => cases inv.1
  case generate => cases inv.1
  case dispatched => exact inv.2.1 trivial

/-- Once `end_generate_o` shows the end, every neuron has been dispatched. -/
lemma GenInv.ended {goal k : Nat} {g : Generator} (inv : GenInv goal k g)
    (ended : g.endGenerateO = true) : k = goal ∧ GenIdle g := by
  unfold GenInv at inv
  cases ht : g.thread <;> simp only [ht, ended] at inv
  case idle =>
    obtain ⟨quiet, ⟨-, -, -, h⟩ | ⟨state, eq, -⟩⟩ := inv
    · cases h
    · exact ⟨eq, .inr ht, state, ended, quiet⟩
  case generate => cases inv.2.2.2.2
  case dispatched => cases inv.1

/-- No word is on the generator bus when the next one may be dispatched. -/
lemma GenInv.quiet {goal k : Nat} {g : Generator} (inv : GenInv goal k g)
    (ht : g.thread ≠ .dispatched) : g.wO = false := by
  unfold GenInv at inv
  cases th : g.thread with
  | start =>
    rw [th] at inv
    cases inv
  | idle =>
    rw [th] at inv
    exact inv.1
  | generate =>
    rw [th] at inv
    exact inv.1
  | dispatched => exact absurd th ht

/-- The change of the state puts no word on the bus. -/
lemma switchState_quiet {g : Generator} (quiet : g.wO = false) (pulse : Bool) :
    (g.switchState pulse).wO = false := by
  unfold Generator.switchState
  cases g.state with
  | idle => rfl
  | generate => exact quiet

/-- A word is only dispatched to the first of the shortest queues, if that has room, and when no
word is on the bus. -/
lemma generate_choice {g : Generator} (quiet : g.thread ≠ .dispatched → g.wO = false)
    {pos : 0 < n} {queueSize : Nat} {pulse : Bool} {layerSize : Int} {q : Fin n → Nat}
    (word : (g.generate pos queueSize pulse layerSize q).wO = true) :
    (g.generate pos queueSize pulse layerSize q).addressO = findMinIndex pos q ∧
      q (findMinIndex pos q) < queueSize ∧ g.wO = false := by
  unfold Generator.generate at word ⊢
  cases ht : g.thread with
  | start | idle =>
    simp only [ht] at word
    rw [switchState_quiet (quiet (by rw [ht]; simp))] at word
    cases word
  | dispatched =>
    simp only [ht] at word
    rw [switchState_quiet rfl] at word
    cases word
  | generate =>
    have low := quiet (by rw [ht]; simp)
    simp only [ht, Generator.dispatch] at word ⊢
    split
    · next room => exact ⟨rfl, room, low⟩
    · next full =>
      rw [if_neg full] at word
      rw [show g.wO = true from word] at low
      cases low

/-- The bus is quiet unless an attempt has just been made. -/
lemma generate_quiet {g : Generator} (quiet : g.thread ≠ .dispatched → g.wO = false)
    {pos : 0 < n} {queueSize : Nat} {pulse : Bool} {layerSize : Int} {q : Fin n → Nat}
    (ht : (g.generate pos queueSize pulse layerSize q).thread ≠ .dispatched) :
    (g.generate pos queueSize pulse layerSize q).wO = false := by
  unfold Generator.generate at ht ⊢
  cases th : g.thread with
  | start | idle => exact switchState_quiet (quiet (by rw [th]; simp)) pulse
  | dispatched => exact switchState_quiet rfl pulse
  | generate =>
    simp only [th, Generator.dispatch] at ht
    split at ht <;> exact absurd rfl ht

/-- Without a start pulse the generator rests. -/
lemma GenIdle.rest {g : Generator} (idle : GenIdle g) (pos : 0 < n) (queueSize : Nat)
    (layerSize : Int) (q : Fin n → Nat) :
    GenIdle (g.generate pos queueSize false layerSize q) := by
  have eq : g.generate pos queueSize false layerSize q = g.switchState false := by
    rcases idle.thread with h | h <;> simp [Generator.generate, h]
  rw [eq, Generator.switchState, idle.state]
  exact ⟨.inr rfl, rfl, rfl, rfl⟩

/-- Nothing but the start pulse takes the generator to `GENERATE`. -/
lemma generate_stays_idle {g : Generator} (idle : g.state = .idle) (pos : 0 < n) (queueSize : Nat)
    (layerSize : Int) (q : Fin n → Nat) :
    (g.generate pos queueSize false layerSize q).state = .idle := by
  unfold Generator.generate
  cases g.thread with
  | start | idle | dispatched => simp [Generator.switchState, idle]
  | generate =>
    simp only [Generator.dispatch, idle, ite_self]
    split <;> rfl

/-- The start pulse takes the generator to `GENERATE`. -/
lemma GenIdle.begin {g : Generator} (idle : GenIdle g) (pos : 0 < n) (queueSize : Nat)
    (layerSize : Int) (q : Fin n → Nat) {goal : Nat} (more : 0 < goal) :
    GenInv goal 0 (g.generate pos queueSize true layerSize q) ∧
      (g.generate pos queueSize true layerSize q).state = .generate ∧
      (g.generate pos queueSize true layerSize q).wO = false := by
  have eq : g.generate pos queueSize true layerSize q = g.switchState true := by
    rcases idle.thread with h | h <;> simp [Generator.generate, h]
  rw [eq, Generator.switchState, idle.state]
  exact ⟨⟨rfl, .inl ⟨rfl, rfl, more, rfl⟩⟩, rfl, rfl⟩

/-- The attempts the generator has not made, `send` for each neuron, and where it stands. -/
def genWork (send goal k : Nat) (g : Generator) : Nat :=
  send * (goal - k) +
    match g.thread, g.state with
    | .dispatched, _ => 1
    | .idle, .generate => 1
    | _, _ => 0

/-- What one edge of a layer iteration does to the generator; `q` are the queue sizes it sees. -/
structure GenStep (send goal k : Nat) (g g' : Generator) (queueSize : Nat) (q : Fin n → Nat) :
    Prop where
  inv : GenInv goal (k + if g'.wO then 1 else 0) g'
  word : g'.wO = true → g.wO = false ∧ g'.dataO = k ∧
    ∃ j : Fin n, g'.addressO = j ∧ q j < queueSize ∧ ∀ i, q j ≤ q i
  work : (g'.wO = true ∧ genWork send goal (k + 1) g' + send = genWork send goal k g + 1) ∨
    (g'.wO = false ∧ genWork send goal k g' + 1 = genWork send goal k g) ∨
    (g'.wO = false ∧ genWork send goal k g' = genWork send goal k g + 1 ∧ ∀ j, queueSize ≤ q j) ∨
    (g'.wO = false ∧ genWork send goal k g' = genWork send goal k g ∧ g.endGenerateO = true)

/-- An attempt to dispatch. -/
private lemma GenInv.step_generate {goal k : Nat} {g : Generator} (inv : GenInv goal k g)
    (ht : g.thread = .generate) (send : Nat) (pos : 0 < n) (queueSize : Nat) {layerSize : Int}
    (q : Fin n → Nat) (hgoal : goal = max layerSize.toNat 1) :
    GenStep send goal k g (g.dispatch pos queueSize layerSize q) queueSize q := by
  simp only [GenInv, ht] at inv
  obtain ⟨quiet, state, counter, lt, ended⟩ := inv
  by_cases room : q (findMinIndex pos q) < queueSize
  · have last : ((g.counter + 1 : Nat) : Int) ≥ layerSize ↔ k + 1 = goal := by omega
    simp only [Generator.dispatch, if_pos room, last, state]
    refine ⟨?_, ?_, .inl ⟨rfl, ?_⟩⟩
    · refine ⟨ended, by simp [counter], ?_⟩
      by_cases h : k + 1 = goal
      · exact .inr ⟨by simp [h], by simpa using h⟩
      · exact .inl ⟨by simp [h], by simp [counter], by simp; omega⟩
    · intro _
      exact ⟨quiet, counter, findMinIndex pos q, rfl, room, findMinIndex_le pos q⟩
    · obtain ⟨d, rfl⟩ : ∃ d, goal = k + 1 + d := ⟨goal - (k + 1), by omega⟩
      have e1 : k + 1 + d - (k + 1) = d := by omega
      have e2 : k + 1 + d - k = d + 1 := by omega
      simp only [genWork, ht, state, e1, e2, Nat.mul_add]
      omega
  · simp only [Generator.dispatch, if_neg room]
    refine ⟨⟨ended, by simp [quiet], .inl ⟨state, by simp [quiet, counter], by simp [quiet, lt]⟩⟩,
      by simp [quiet], .inr (.inr (.inl ⟨quiet, by simp [genWork, ht, state], ?_⟩))⟩
    intro j
    exact le_trans (not_lt.1 room) (findMinIndex_le pos q j)

/-- The generator keeps its invariant. -/
lemma GenInv.step {goal k : Nat} {g : Generator} (inv : GenInv goal k g) (send : Nat)
    (pos : 0 < n) (queueSize : Nat) {layerSize : Int} (q : Fin n → Nat)
    (hgoal : goal = max layerSize.toNat 1) :
    GenStep send goal k g (g.generate pos queueSize false layerSize q) queueSize q := by
  have all := inv
  unfold GenInv at inv
  cases ht : g.thread <;> simp only [ht] at inv
  case generate =>
    simp only [Generator.generate, ht]
    exact all.step_generate ht send pos queueSize q hgoal
  case idle =>
    simp only [Generator.generate, ht]
    obtain ⟨quiet, ⟨state, counter, lt, ended⟩ | ⟨state, eq, ended⟩⟩ := inv
    · simp only [Generator.switchState, state]
      exact ⟨⟨quiet, rfl, by simp [quiet, counter], by simp [quiet, lt], ended⟩, by simp [quiet],
        .inr (.inl ⟨quiet, by simp [genWork, ht, state]⟩)⟩
    · simp only [Generator.switchState, state]
      exact ⟨⟨rfl, .inr ⟨rfl, by simp [eq], rfl⟩⟩, by simp,
        .inr (.inr (.inr ⟨rfl, by simp [genWork, ht, state], ended⟩))⟩
  case dispatched =>
    simp only [Generator.generate, ht]
    obtain ⟨ended, -, ⟨state, counter, lt⟩ | ⟨state, eq⟩⟩ := inv
    · simp only [Generator.switchState, state]
      exact ⟨⟨rfl, rfl, by simp [counter], by simp [lt], ended⟩, by simp,
        .inr (.inl ⟨rfl, by simp [genWork, ht]⟩)⟩
    · simp only [Generator.switchState, state]
      exact ⟨⟨rfl, .inr ⟨rfl, by simp [eq], rfl⟩⟩, by simp,
        .inr (.inl ⟨rfl, by simp [genWork, ht]⟩)⟩

end NnProcessor.Invariant
