import RankingServer.Foundation.Transition
import RankingServer.Utility.LockFreeCircleQueue

/-!
# The ring queue between two threads

One thread calls `push`, another one calls `pop`, and every load and store of an
index and every access to a cell of the buffer is a step of its own.  Each
thread works with the copy of its own index that it loaded at first; no other
thread changes that index, but the index it is compared with may move on at any
time.
-/

namespace RankingServer.Utility.SingleProducerConsumer

open Transition

variable {T : Type*}

/-- The thread that pushes: between two calls, or in front of the comparison
with `mOutputIndex`, the access to the cell, or the store of the index. -/
inductive Producer (T : Type*)
  | idle
  | compare (currentInputIndex : ℕ) (data : T)
  | write (currentInputIndex : ℕ) (data : T)
  | store (currentInputIndex : ℕ) (data : T)

/-- The thread that pops, likewise. -/
inductive Consumer (T : Type*)
  | idle
  | compare (currentOutputIndex : ℕ)
  | read (currentOutputIndex : ℕ)
  | store (currentOutputIndex : ℕ) (data : T)

/-- `accepted` lists the values whose push returned true and `returned` those
that pops found, oldest first. -/
structure State (T : Type*) where
  queue : LockFreeCircleQueue T
  producer : Producer T
  consumer : Consumer T
  accepted : List T
  returned : List T

/-- `push` and `pop` begin a call by loading the thread's own index; `producer`
and `consumer` are the further accesses of a call. -/
inductive Event (T : Type*)
  | push (data : T)
  | producer
  | pop
  | consumer

/-- The next access of a call of `push`. -/
def producerStep (s : State T) : Option (State T) :=
  match s.producer with
  | .idle => none
  | .compare current data =>
      if s.queue.nextIndex current = s.queue.mOutputIndex then
        some { s with producer := .idle }
      else some { s with producer := .write current data }
  | .write current data =>
      some { s with
        queue := s.queue.writeCell current data
        producer := .store current data }
  | .store current data =>
      some { s with
        queue := s.queue.storeInputIndex current
        producer := .idle
        accepted := s.accepted ++ [data] }

/-- The next access of a call of `pop`. -/
def consumerStep (s : State T) : Option (State T) :=
  match s.consumer with
  | .idle => none
  | .compare current =>
      if current = s.queue.mInputIndex then
        some { s with consumer := .idle }
      else some { s with consumer := .read current }
  | .read current =>
      some { s with consumer := .store current (s.queue.mBuffer current) }
  | .store current data =>
      some { s with
        queue := s.queue.storeOutputIndex current
        consumer := .idle
        returned := s.returned ++ [data] }

def step (s : State T) : Event T → Option (State T)
  | .push data =>
      match s.producer with
      | .idle => some { s with producer := .compare s.queue.mInputIndex data }
      | _ => none
  | .producer => producerStep s
  | .pop =>
      match s.consumer with
      | .idle => some { s with consumer := .compare s.queue.mOutputIndex }
      | _ => none
  | .consumer => consumerStep s

/-- The state after `Construct(n)`. -/
def constructed (n : ℕ) (hpos : 0 < n) (garbage : ℕ → T) : State T where
  queue := .construct n hpos garbage
  producer := .idle
  consumer := .idle
  accepted := []
  returned := []

def Constructed (n : ℕ) (s : State T) : Prop :=
  ∃ hpos garbage, s = constructed n hpos garbage

/-- The cell that a call of `push` may write, from the load of its own index to
the store. -/
def Producer.cell : Producer T → Option ℕ
  | .idle => none
  | .compare current _ | .write current _ | .store current _ => some current

/-- The cell that a call of `pop` reads, once it has seen that the queue is not
empty and until it stores its index. -/
def Consumer.cell : Consumer T → Option ℕ
  | .idle | .compare _ => none
  | .read current | .store current _ => some current

/-- What the two threads can rely on. -/
structure Correct (n : ℕ) (s : State T) : Prop where
  ordered : s.returned <+: s.accepted
  waiting_le : s.accepted.length ≤ s.returned.length + (n - 1)
  apart : ∀ i j, s.producer.cell = some i → s.consumer.cell = some j → i ≠ j

/-! ## The invariant -/

/-- The producer's copy of its index is current, and once it has seen room there
is room. -/
def Producer.Ok (q : LockFreeCircleQueue T) : Producer T → Prop
  | .idle => True
  | .compare current _ => current = q.mInputIndex
  | .write current _ =>
      current = q.mInputIndex ∧ q.nextIndex q.mInputIndex ≠ q.mOutputIndex
  | .store current data =>
      current = q.mInputIndex ∧ q.nextIndex q.mInputIndex ≠ q.mOutputIndex ∧
        q.mBuffer q.mInputIndex = data

/-- The consumer's copy of its index is current, and once it has seen an element
there is one. -/
def Consumer.Ok (q : LockFreeCircleQueue T) : Consumer T → Prop
  | .idle => True
  | .compare current => current = q.mOutputIndex
  | .read current =>
      current = q.mOutputIndex ∧ q.mOutputIndex ≠ q.mInputIndex
  | .store current data =>
      current = q.mOutputIndex ∧ q.mOutputIndex ≠ q.mInputIndex ∧
        q.mBuffer q.mOutputIndex = data

structure Inv (n : ℕ) (s : State T) : Prop where
  size : s.queue.mQueueMaxSize = n
  fifo : s.accepted = s.returned ++ s.queue.contents
  producer : s.producer.Ok s.queue
  consumer : s.consumer.Ok s.queue

/-- A write to the free cell goes unnoticed by the consumer. -/
theorem Consumer.Ok.writeCell {q : LockFreeCircleQueue T}
    {consumer : Consumer T} (h : consumer.Ok q) (data : T) :
    consumer.Ok (q.writeCell q.mInputIndex data) := by
  cases consumer with
  | idle => trivial
  | compare current => exact h
  | read current => exact h
  | store current found =>
      obtain ⟨hcurrent, hne, hfound⟩ := h
      refine ⟨hcurrent, hne, ?_⟩
      rw [← hfound]
      exact Function.update_of_ne hne data q.mBuffer

/-- When the producer adds an element, the queue stays nonempty. -/
theorem Consumer.Ok.storeInputIndex {q : LockFreeCircleQueue T}
    {consumer : Consumer T} (h : consumer.Ok q)
    (hroom : q.nextIndex q.mInputIndex ≠ q.mOutputIndex) :
    consumer.Ok (q.storeInputIndex q.mInputIndex) := by
  cases consumer with
  | idle => trivial
  | compare current => exact h
  | read current => exact ⟨h.1, hroom.symm⟩
  | store current found => exact ⟨h.1, hroom.symm, h.2.2⟩

/-- When the consumer takes an element, the room stays. -/
theorem Producer.Ok.storeOutputIndex {q : LockFreeCircleQueue T}
    {producer : Producer T} (h : producer.Ok q)
    (hne : q.mOutputIndex ≠ q.mInputIndex) :
    producer.Ok (q.storeOutputIndex q.mOutputIndex) := by
  have hroom : q.nextIndex q.mInputIndex ≠ q.nextIndex q.mOutputIndex :=
    q.nextIndex_ne q.inputIndex_lt q.outputIndex_lt hne.symm
  cases producer with
  | idle => trivial
  | compare current data => exact h
  | write current data => exact ⟨h.1, hroom⟩
  | store current data => exact ⟨h.1, hroom, h.2.2⟩

theorem Inv.producerStep {n : ℕ} {s s' : State T} (h : Inv n s)
    (hstep : producerStep s = some s') : Inv n s' := by
  obtain ⟨hsize, hfifo, hproducer, hconsumer⟩ := h
  unfold SingleProducerConsumer.producerStep at hstep
  cases hpoint : s.producer with
  | idle => simp [hpoint] at hstep
  | compare current data =>
      rw [hpoint] at hproducer
      simp only [hpoint] at hstep
      split at hstep
      · obtain rfl := Option.some.inj hstep
        exact ⟨hsize, hfifo, trivial, hconsumer⟩
      · next hroom =>
          obtain rfl := Option.some.inj hstep
          obtain rfl : current = s.queue.mInputIndex := hproducer
          exact ⟨hsize, hfifo, ⟨rfl, hroom⟩, hconsumer⟩
  | write current data =>
      rw [hpoint] at hproducer
      simp only [hpoint] at hstep
      obtain rfl := Option.some.inj hstep
      obtain ⟨rfl, hroom⟩ := hproducer
      refine ⟨hsize, ?_, ⟨rfl, hroom, Function.update_self _ _ _⟩,
        hconsumer.writeCell data⟩
      rw [hfifo, ← s.queue.contents_writeCell data]
  | store current data =>
      rw [hpoint] at hproducer
      simp only [hpoint] at hstep
      obtain rfl := Option.some.inj hstep
      obtain ⟨rfl, hroom, hdata⟩ := hproducer
      refine ⟨hsize, ?_, trivial, hconsumer.storeInputIndex hroom⟩
      have hcontents := s.queue.contents_storeInputIndex hroom
      rw [hfifo, hcontents, hdata, List.append_assoc]

theorem Inv.consumerStep {n : ℕ} {s s' : State T} (h : Inv n s)
    (hstep : consumerStep s = some s') : Inv n s' := by
  obtain ⟨hsize, hfifo, hproducer, hconsumer⟩ := h
  unfold SingleProducerConsumer.consumerStep at hstep
  cases hpoint : s.consumer with
  | idle => simp [hpoint] at hstep
  | compare current =>
      rw [hpoint] at hconsumer
      simp only [hpoint] at hstep
      split at hstep
      · obtain rfl := Option.some.inj hstep
        exact ⟨hsize, hfifo, hproducer, trivial⟩
      · next hne =>
          obtain rfl := Option.some.inj hstep
          obtain rfl : current = s.queue.mOutputIndex := hconsumer
          exact ⟨hsize, hfifo, hproducer, ⟨rfl, hne⟩⟩
  | read current =>
      rw [hpoint] at hconsumer
      simp only [hpoint] at hstep
      obtain rfl := Option.some.inj hstep
      obtain ⟨rfl, hne⟩ := hconsumer
      exact ⟨hsize, hfifo, hproducer, ⟨rfl, hne, rfl⟩⟩
  | store current data =>
      rw [hpoint] at hconsumer
      simp only [hpoint] at hstep
      obtain rfl := Option.some.inj hstep
      obtain ⟨rfl, hne, hdata⟩ := hconsumer
      refine ⟨hsize, ?_, hproducer.storeOutputIndex hne, trivial⟩
      have hcontents := s.queue.contents_storeOutputIndex hne
      rw [hfifo, hcontents, hdata, List.append_assoc]
      rfl

theorem Inv.step {n : ℕ} {s s' : State T} {e : Event T} (h : Inv n s)
    (hstep : step s e = some s') : Inv n s' := by
  cases e with
  | producer => exact h.producerStep hstep
  | consumer => exact h.consumerStep hstep
  | push data =>
      unfold SingleProducerConsumer.step at hstep
      cases hpoint : s.producer with
      | idle =>
          simp only [hpoint] at hstep
          obtain rfl := Option.some.inj hstep
          exact ⟨h.size, h.fifo, rfl, h.consumer⟩
      | _ => simp [hpoint] at hstep
  | pop =>
      unfold SingleProducerConsumer.step at hstep
      cases hpoint : s.consumer with
      | idle =>
          simp only [hpoint] at hstep
          obtain rfl := Option.some.inj hstep
          exact ⟨h.size, h.fifo, h.producer, rfl⟩
      | _ => simp [hpoint] at hstep

/-! ## The output index -/

theorem outputIndex_producerStep {s s' : State T}
    (hstep : producerStep s = some s') :
    s'.queue.mOutputIndex = s.queue.mOutputIndex := by
  unfold producerStep at hstep
  cases hpoint : s.producer with
  | idle => simp [hpoint] at hstep
  | compare current data =>
      simp only [hpoint] at hstep
      split at hstep <;> cases hstep <;> rfl
  | write current data =>
      simp only [hpoint] at hstep
      cases hstep
      rfl
  | store current data =>
      simp only [hpoint] at hstep
      cases hstep
      rfl

theorem outputIndex_consumerStep {s s' : State T}
    (hstep : consumerStep s = some s') :
    s'.queue.mOutputIndex = s.queue.mOutputIndex ∨
      ∃ current data, s.consumer = .store current data ∧
        s'.queue.mOutputIndex = s.queue.nextIndex current := by
  unfold consumerStep at hstep
  cases hpoint : s.consumer with
  | idle => simp [hpoint] at hstep
  | compare current =>
      simp only [hpoint] at hstep
      split at hstep <;> cases hstep <;> exact .inl rfl
  | read current =>
      simp only [hpoint] at hstep
      cases hstep
      exact .inl rfl
  | store current data =>
      simp only [hpoint] at hstep
      cases hstep
      exact .inr ⟨current, data, rfl, rfl⟩

/-- Only the last access of a pop moves the output index. -/
theorem outputIndex_of_step {s s' : State T} {e : Event T}
    (hstep : step s e = some s') :
    s'.queue.mOutputIndex = s.queue.mOutputIndex ∨
      e = .consumer ∧ ∃ current data, s.consumer = .store current data ∧
        s'.queue.mOutputIndex = s.queue.nextIndex current := by
  cases e with
  | push data =>
      unfold step at hstep
      cases hpoint : s.producer <;> simp only [hpoint] at hstep <;> cases hstep
      exact .inl rfl
  | pop =>
      unfold step at hstep
      cases hpoint : s.consumer <;> simp only [hpoint] at hstep <;> cases hstep
      exact .inl rfl
  | producer => exact .inl (outputIndex_producerStep hstep)
  | consumer =>
      obtain hsame | hmoved := outputIndex_consumerStep hstep
      · exact .inl hsame
      · exact .inr ⟨rfl, hmoved⟩

/-! ## Runs -/

theorem inv_constructed {n : ℕ} {s : State T} (h : Constructed n s) :
    Inv n s := by
  obtain ⟨hpos, garbage, rfl⟩ := h
  refine ⟨rfl, ?_, trivial, trivial⟩
  change [] = [] ++ (LockFreeCircleQueue.construct n hpos garbage).contents
  rw [LockFreeCircleQueue.contents_construct, List.nil_append]

theorem Producer.Ok.cell {q : LockFreeCircleQueue T} {producer : Producer T}
    (h : producer.Ok q) {i : ℕ} (hcell : producer.cell = some i) :
    i = q.mInputIndex := by
  cases producer with
  | idle => cases hcell
  | compare current data => exact Option.some.inj hcell ▸ h
  | write current data => exact Option.some.inj hcell ▸ h.1
  | store current data => exact Option.some.inj hcell ▸ h.1

theorem Consumer.Ok.cell {q : LockFreeCircleQueue T} {consumer : Consumer T}
    (h : consumer.Ok q) {j : ℕ} (hcell : consumer.cell = some j) :
    j = q.mOutputIndex ∧ q.mOutputIndex ≠ q.mInputIndex := by
  cases consumer with
  | idle => cases hcell
  | compare current => cases hcell
  | read current => exact ⟨Option.some.inj hcell ▸ h.1, h.2⟩
  | store current data => exact ⟨Option.some.inj hcell ▸ h.1, h.2.1⟩

theorem Inv.correct {n : ℕ} {s : State T} (h : Inv n s) : Correct n s where
  ordered := ⟨s.queue.contents, h.fifo.symm⟩
  waiting_le := by
    have hlt := s.queue.length_contents_lt
    rw [h.size] at hlt
    rw [h.fifo, List.length_append]
    omega
  apart := by
    intro i j hi hj
    obtain ⟨hcell, hne⟩ := h.consumer.cell hj
    rw [h.producer.cell hi, hcell]
    exact hne.symm

/-- Between one producer and one consumer the ring is a bounded first-in
first-out channel, however their steps interleave. -/
theorem correct_of_reachable {n : ℕ} {s : State T}
    (h : Reachable step (Constructed n) unguarded s) : Correct n s := by
  have hinv : Inv n s :=
    h.invariant (fun _ => inv_constructed) fun _ _ _ hs _ hstep =>
      hs.step hstep
  exact hinv.correct

/-- While the first element is being taken, the push of a second one sees a full
queue and fails; a third one is accepted. -/
def overlap : List (Event ℕ) :=
  [.push 7, .producer, .producer, .producer, .pop, .push 8, .consumer,
    .producer, .consumer, .consumer, .push 9, .producer, .producer, .pop,
    .producer]

theorem correct_of_overlap :
    ∃ s, run step (constructed 2 Nat.two_pos fun _ => 0) overlap = some s ∧
      s.accepted = [7, 9] ∧ s.returned = [7] ∧ Correct 2 s := by
  have hruns : (run step (constructed 2 Nat.two_pos fun _ => 0) overlap).map
      (fun s => (s.accepted, s.returned)) = some ([7, 9], [7]) := by
    decide +kernel
  obtain ⟨s, hs, hpair⟩ := Option.map_eq_some_iff.mp hruns
  obtain ⟨haccepted, hreturned⟩ := Prod.mk.inj hpair
  have hstart : Constructed 2 (constructed 2 Nat.two_pos fun _ => 0) :=
    ⟨Nat.two_pos, _, rfl⟩
  exact ⟨s, hs, haccepted, hreturned,
    correct_of_reachable (.of_unguarded_run (.start hstart) hs)⟩

end RankingServer.Utility.SingleProducerConsumer
