import RankingServer.Foundation.Accounting
import RankingServer.Foundation.Transition
import RankingServer.Network.OverlappedPool
import RankingServer.Network.Packet

/-!
# The operation pool under interleaved queue accesses

Every worker thread runs `Session::Process`: it dequeues a completion, pops an
object in `Client::Send` when the handler replies, pops another one in
`Client::ReceiveReady`, and finally pushes the object of the completion back.
Here each load and each store of an index and each access of a buffer cell is a
step of its own, and the steps of all workers interleave in any order.

`Next` names the accesses that a call has still to make.  The index a call loads
first may be outdated when it is compared, and nothing protects the accesses
between the comparison and the store of the index.  `Undisturbed` singles out
the comparisons at which neither happens; under it the queue is a first-in
first-out queue again (`Inv.fifo`) and no pointer has two owners.
-/

namespace RankingServer.Network.QueueThreads

open Utility Transition Accounting

/-- An operation posted to the system whose completion is not yet dequeued. -/
structure Operation where
  overlapped : Pointer
  kind : OperationType
  slot : ℕ
deriving DecidableEq, Repr

/-- The accesses left in a call of `push` or `pop`, after it loaded its own
index into `current`. -/
inductive Next
  | pushCompare (current : ℕ)
  | pushWrite (current : ℕ)
  | pushStore (current : ℕ)
  | popCompare (current : ℕ)
  | popRead (current : ℕ)
  | popStore (current : ℕ) (data : Option Pointer)
deriving DecidableEq, Repr

/-- The queue calls of `Session::Process` for one completion. -/
inductive Task
  | send
  | receive
  | recycle
deriving DecidableEq, Repr

def Task.kind : Task → OperationType
  | .send => .opSend
  | .receive => .opRecv
  | .recycle => .opDefault

/-- The calls that the switch of `Session::Process` leads to: `replies` tells
whether the receive callback sends a response and `socketOk` whether
`ReceiveReady` finds the socket without an error. -/
def processTasks (kind : OperationType) (replies socketOk : Bool) : List Task :=
  let receive := if socketOk then [Task.receive] else []
  match kind with
  | .opAccept => receive ++ [.recycle]
  | .opRecv => (if replies then [Task.send] else []) ++ receive ++ [.recycle]
  | .opSend => [.recycle]
  | .opDefault => [.recycle]

/-- The local state of a worker: waiting for a completion, between two calls,
inside a call, about to post the object it popped, or stopped by dereferencing
a null pointer. -/
inductive Worker
  | waiting
  | handling (overlapped : Pointer) (slot : ℕ) (tasks : List Task)
  | calling (overlapped : Pointer) (slot : ℕ) (task : Task)
      (tasks : List Task) (next : Next)
  | posting (overlapped : Pointer) (slot : ℕ) (task : Task)
      (tasks : List Task) (popped : Pointer)
  | faulted (overlapped : Pointer)
deriving DecidableEq, Repr

/-- The objects a worker has been handed out and not yet given back. -/
def Worker.held : Worker → List Pointer
  | .waiting => []
  | .handling o _ _ => [o]
  | .calling o _ _ _ _ => [o]
  | .posting o _ _ _ p => [o, p]
  | .faulted o => [o]

/-- The pool, the posted operations and the workers.  `pushed` and `popped`
record the pointers that successful calls pushed and popped, oldest first. -/
structure State (n : ℕ) where
  queue : LockFreeCircleQueue (Option Pointer)
  outstanding : List Operation
  workers : Fin n → Worker
  pushed : List Pointer
  popped : List Pointer

inductive Event (n : ℕ)
  /-- Worker `w` dequeues the `k`-th posted operation, whose completion failed
  or not. -/
  | dequeue (w : Fin n) (k : ℕ) (failed replies socketOk : Bool)
  /-- Worker `w` makes its next access to the queue. -/
  | access (w : Fin n)
  /-- Worker `w` posts the object it popped; the post may fail at once. -/
  | post (w : Fin n) (ok : Bool)
deriving DecidableEq, Repr

variable {n : ℕ}

def State.setWorker (s : State n) (w : Fin n) (worker : Worker) : State n :=
  { s with workers := Function.update s.workers w worker }

/-- One access to the shared members of the queue. -/
def access (s : State n) (w : Fin n) : Option (State n) :=
  match s.workers w with
  | .handling o slot (.recycle :: tasks) =>
      some (s.setWorker w
        (.calling o slot .recycle tasks (.pushCompare s.queue.mInputIndex)))
  | .handling o slot (task :: tasks) =>
      some (s.setWorker w
        (.calling o slot task tasks (.popCompare s.queue.mOutputIndex)))
  | .calling o slot task tasks next =>
      match next with
      | .pushCompare current =>
          if s.queue.nextIndex current = s.queue.mOutputIndex then
            -- "Queue is full": the result is ignored and the pointer dropped
            some (s.setWorker w .waiting)
          else
            some (s.setWorker w
              (.calling o slot task tasks (.pushWrite current)))
      | .pushWrite current =>
          some { s.setWorker w (.calling o slot task tasks (.pushStore current))
            with queue := s.queue.writeCell current (some o) }
      | .pushStore current =>
          some { s.setWorker w .waiting with
            queue := s.queue.storeInputIndex current
            pushed := s.pushed ++ [o] }
      | .popCompare current =>
          if current = s.queue.mInputIndex then
            -- "Queue is empty": the null pointer is dereferenced at once
            some (s.setWorker w (.faulted o))
          else
            some (s.setWorker w (.calling o slot task tasks (.popRead current)))
      | .popRead current =>
          some (s.setWorker w (.calling o slot task tasks
            (.popStore current (s.queue.mBuffer current))))
      | .popStore current data =>
          let queue := s.queue.storeOutputIndex current
          match data with
          | none => some { s.setWorker w (.faulted o) with queue := queue }
          | some p =>
              some { s.setWorker w (.posting o slot task tasks p) with
                queue := queue
                popped := s.popped ++ [p] }
  | _ => none

def step (s : State n) : Event n → Option (State n)
  | .dequeue w k failed replies socketOk =>
      match s.workers w, s.outstanding[k]? with
      | .waiting, some op =>
          let s := { s with outstanding := s.outstanding.eraseIdx k }
          if failed then some s
          else some (s.setWorker w (.handling op.overlapped op.slot
            (processTasks op.kind replies socketOk)))
      | _, _ => none
  | .access w => access s w
  | .post w ok =>
      match s.workers w with
      | .posting o slot task tasks p =>
          let s := s.setWorker w (.handling o slot tasks)
          if ok then
            some
              { s with
                outstanding := s.outstanding ++ [⟨p, task.kind, slot⟩] }
          else some s
      | _ => none

/-- How often a pointer occurs in the pool, in a posted operation or in the
hands of a worker. -/
def places (o : Pointer) (s : State n) : ℕ :=
  s.queue.contents.count (some o) +
    s.outstanding.countP (fun op => op.overlapped = o) +
      ∑ w, (s.workers w).held.count o

/-- A start of the workers: all of them wait, the pool holds what was pushed and
not popped before, and no pointer is in two places. -/
structure Initial (s : State n) : Prop where
  waiting : ∀ w, s.workers w = .waiting
  fifo : s.pushed.map some = s.popped.map some ++ s.queue.contents
  places_le : ∀ o, places o s ≤ 1

/-- What the pool promises to its users: every successful push is matched by at
most one pop, a pushed pointer stays in the ring until it is popped, and no
pointer is handed out to two workers, or twice to one, at the same time. -/
structure Exclusive (s : State n) : Prop where
  popped_once : ∀ o, s.popped.count o ≤ s.pushed.count o
  kept : ∀ o, s.pushed.count o ≤
    s.popped.count o + s.queue.contents.count (some o)
  disjoint : ∀ v w, v ≠ w → ∀ o ∈ (s.workers v).held, o ∉ (s.workers w).held
  nodup : ∀ w, (s.workers w).held.Nodup

def Worker.next : Worker → Option Next
  | .calling _ _ _ _ next => some next
  | _ => none

/-- Between the comparison and the store of the input index. -/
def Next.pushing : Next → Bool
  | .pushWrite _ => true
  | .pushStore _ => true
  | _ => false

/-- Between the comparison and the store of the output index. -/
def Next.popping : Next → Bool
  | .popRead _ => true
  | .popStore _ _ => true
  | _ => false

def Worker.pushing (worker : Worker) : Prop := worker.next.any Next.pushing

def Worker.popping (worker : Worker) : Prop := worker.next.any Next.popping

instance : DecidablePred Worker.pushing :=
  fun worker => inferInstanceAs (Decidable (worker.next.any _ = true))

instance : DecidablePred Worker.popping :=
  fun worker => inferInstanceAs (Decidable (worker.next.any _ = true))

/-- When the comparison of a push lets it go on, the index it loaded is still
current and no other push is between its comparison and its store; and likewise
for the comparison of a pop. -/
def Next.Undisturbed (s : State n) : Next → Prop
  | .pushCompare current =>
      s.queue.nextIndex current ≠ s.queue.mOutputIndex →
        current = s.queue.mInputIndex ∧ ∀ v, ¬ (s.workers v).pushing
  | .popCompare current =>
      current ≠ s.queue.mInputIndex →
        current = s.queue.mOutputIndex ∧ ∀ v, ¬ (s.workers v).popping
  | _ => True

/-- The condition on a step: the access it makes is undisturbed. -/
def Undisturbed (s : State n) : Event n → Prop
  | .access w => ∀ next ∈ (s.workers w).next, next.Undisturbed s
  | _ => True

instance (s : State n) : DecidablePred (Next.Undisturbed s)
  | .pushCompare _ => inferInstanceAs (Decidable (_ → _))
  | .popCompare _ => inferInstanceAs (Decidable (_ → _))
  | .pushWrite _ => .isTrue trivial
  | .pushStore _ => .isTrue trivial
  | .popRead _ => .isTrue trivial
  | .popStore _ _ => .isTrue trivial

instance (s : State n) : DecidablePred (Undisturbed s)
  | .dequeue _ _ _ _ _ => .isTrue trivial
  | .post _ _ => .isTrue trivial
  | .access _ => inferInstanceAs (Decidable (∀ next ∈ _, _))

/-! ## What a worker relies on between its comparison and its store -/

/-- The relation between the local state of a worker and the queue. -/
def Worker.Ok (q : LockFreeCircleQueue (Option Pointer)) : Worker → Prop
  | .calling _ _ _ _ (.pushWrite current) =>
      current = q.mInputIndex ∧ q.nextIndex q.mInputIndex ≠ q.mOutputIndex
  | .calling o _ _ _ (.pushStore current) =>
      current = q.mInputIndex ∧ q.nextIndex q.mInputIndex ≠ q.mOutputIndex ∧
        q.mBuffer current = some o
  | .calling _ _ _ _ (.popRead current) =>
      current = q.mOutputIndex ∧ q.mOutputIndex ≠ q.mInputIndex
  | .calling _ _ _ _ (.popStore current data) =>
      current = q.mOutputIndex ∧ q.mOutputIndex ≠ q.mInputIndex ∧
        data = q.mBuffer current
  | _ => True

/-- The invariant of undisturbed runs. -/
structure Inv (s : State n) : Prop where
  fifo : s.pushed.map some = s.popped.map some ++ s.queue.contents
  places_le : ∀ o, places o s ≤ 1
  ok : ∀ w, (s.workers w).Ok s.queue
  pushing : AtMostOne Worker.pushing s.workers
  popping : AtMostOne Worker.popping s.workers

/-- A worker that is in neither critical part relies on nothing. -/
theorem Worker.ok_of_outside {worker : Worker}
    (hpush : ¬ worker.pushing) (hpop : ¬ worker.popping)
    (q : LockFreeCircleQueue (Option Pointer)) : worker.Ok q := by
  cases worker with
  | calling o slot task tasks next =>
      cases next with
      | pushWrite => exact absurd rfl hpush
      | pushStore => exact absurd rfl hpush
      | popRead => exact absurd rfl hpop
      | popStore => exact absurd rfl hpop
      | pushCompare => trivial
      | popCompare => trivial
  | waiting => trivial
  | handling => trivial
  | posting => trivial
  | faulted => trivial

/-- A worker that is popping does not notice that the free cell is written. -/
theorem Worker.Ok.writeCell {q : LockFreeCircleQueue (Option Pointer)}
    {worker : Worker} (h : worker.Ok q) (hpush : ¬ worker.pushing)
    (data : Option Pointer) : worker.Ok (q.writeCell q.mInputIndex data) := by
  by_cases hpop : worker.popping
  · cases worker with
    | calling o slot task tasks next =>
        cases next with
        | popRead current => exact h
        | popStore current datum =>
            obtain ⟨hcurrent, hne, hdatum⟩ := h
            refine ⟨hcurrent, hne, ?_⟩
            rw [hdatum, hcurrent]
            exact (Function.update_of_ne hne data q.mBuffer).symm
        | _ => cases hpop
    | _ => cases hpop
  · exact worker.ok_of_outside hpush hpop _

/-- A worker that is popping does not notice that the input index advances. -/
theorem Worker.Ok.storeInputIndex {q : LockFreeCircleQueue (Option Pointer)}
    {worker : Worker} (h : worker.Ok q) (hpush : ¬ worker.pushing)
    (hroom : q.nextIndex q.mInputIndex ≠ q.mOutputIndex) :
    worker.Ok (q.storeInputIndex q.mInputIndex) := by
  by_cases hpop : worker.popping
  · cases worker with
    | calling o slot task tasks next =>
        cases next with
        | popRead current => exact ⟨h.1, hroom.symm⟩
        | popStore current datum => exact ⟨h.1, hroom.symm, h.2.2⟩
        | _ => cases hpop
    | _ => cases hpop
  · exact worker.ok_of_outside hpush hpop _

/-- A worker that is pushing does not notice that the output index advances. -/
theorem Worker.Ok.storeOutputIndex {q : LockFreeCircleQueue (Option Pointer)}
    {worker : Worker} (h : worker.Ok q) (hpop : ¬ worker.popping)
    (hne : q.mOutputIndex ≠ q.mInputIndex) :
    worker.Ok (q.storeOutputIndex q.mOutputIndex) := by
  have hroom : q.nextIndex q.mInputIndex ≠ q.nextIndex q.mOutputIndex :=
    q.nextIndex_ne q.inputIndex_lt q.outputIndex_lt hne.symm
  by_cases hpush : worker.pushing
  · cases worker with
    | calling o slot task tasks next =>
        cases next with
        | pushWrite current => exact ⟨h.1, hroom⟩
        | pushStore current => exact ⟨h.1, hroom, h.2.2⟩
        | _ => cases hpush
    | _ => cases hpush
  · exact worker.ok_of_outside hpush hpop _

/-! ## The steps -/

theorem places_setWorker (s : State n) (w : Fin n) (new : Worker)
    (o : Pointer) :
    places o (s.setWorker w new) + (s.workers w).held.count o =
      places o s + new.held.count o := by
  have hsum := sum_update_add s.workers w new
    fun worker => worker.held.count o
  simp only [places, State.setWorker]
  omega

/-- A step of one worker that leaves the queue alone and takes no object that
was not posted before. -/
theorem Inv.transfer {s : State n} (h : Inv s) (w : Fin n) {new : Worker}
    {ops : List Operation}
    (hcount : ∀ o, ops.countP (fun op => op.overlapped = o) +
        new.held.count o ≤
      s.outstanding.countP (fun op => op.overlapped = o) +
        (s.workers w).held.count o)
    (hok : new.Ok s.queue)
    (hpushing : new.pushing →
      (s.workers w).pushing ∨ ∀ v, ¬ (s.workers v).pushing)
    (hpopping : new.popping →
      (s.workers w).popping ∨ ∀ v, ¬ (s.workers v).popping) :
    Inv { s.setWorker w new with outstanding := ops } where
  fifo := h.fifo
  places_le o := by
    have hplaces := places_setWorker s w new o
    have hle := h.places_le o
    have hmoved := hcount o
    simp only [places, State.setWorker] at hplaces hle ⊢
    omega
  ok v := by
    by_cases hv : v = w
    · subst hv
      simpa [State.setWorker] using hok
    · simpa [State.setWorker, Function.update_of_ne hv] using h.ok v
  pushing := h.pushing.update hpushing
  popping := h.popping.update hpopping

theorem Inv.setWorker {s : State n} (h : Inv s) (w : Fin n) {new : Worker}
    (hheld : ∀ o, new.held.count o ≤ (s.workers w).held.count o)
    (hok : new.Ok s.queue)
    (hpushing : new.pushing →
      (s.workers w).pushing ∨ ∀ v, ¬ (s.workers v).pushing)
    (hpopping : new.popping →
      (s.workers w).popping ∨ ∀ v, ¬ (s.workers v).popping) :
    Inv (s.setWorker w new) :=
  h.transfer w (fun o => Nat.add_le_add_left (hheld o) _) hok hpushing hpopping

/-- The pool never hands out a null pointer. -/
theorem Inv.front {s : State n} (h : Inv s)
    (hne : s.queue.mOutputIndex ≠ s.queue.mInputIndex) :
    ∃ p, s.queue.mBuffer s.queue.mOutputIndex = some p := by
  have hcons := s.queue.contents_storeOutputIndex hne
  have hmem : s.queue.mBuffer s.queue.mOutputIndex ∈ s.pushed.map some := by
    rw [h.fifo, hcons]
    simp
  obtain ⟨p, -, hp⟩ := List.mem_map.mp hmem
  exact ⟨p, hp.symm⟩

theorem ok_update {s : State n} {w : Fin n}
    {q : LockFreeCircleQueue (Option Pointer)} {new : Worker}
    (hnew : new.Ok q) (hother : ∀ v, v ≠ w → (s.workers v).Ok q) (v : Fin n) :
    (Function.update s.workers w new v).Ok q := by
  by_cases hv : v = w
  · subst hv
    simpa using hnew
  · simpa [Function.update_of_ne hv] using hother v hv

theorem Inv.pushWrite {s : State n} (h : Inv s) {w : Fin n} {o : Pointer}
    {slot : ℕ} {task : Task} {tasks : List Task} {current : ℕ}
    (hw : s.workers w = .calling o slot task tasks (.pushWrite current)) :
    Inv { s.setWorker w (.calling o slot task tasks (.pushStore current)) with
      queue := s.queue.writeCell current (some o) } := by
  have hok := h.ok w
  rw [hw] at hok
  obtain ⟨rfl, hroom⟩ := hok
  have hcontents := s.queue.contents_writeCell (some o)
  have hpushing : (s.workers w).pushing := by
    rw [hw]
    rfl
  refine ⟨?_, ?_, ?_, ?_, ?_⟩
  · exact hcontents.symm ▸ h.fifo
  · intro o'
    have hplaces := places_setWorker s w
      (.calling o slot task tasks (.pushStore s.queue.mInputIndex)) o'
    have hle := h.places_le o'
    rw [hw] at hplaces
    simp only [places, State.setWorker, Worker.held] at hplaces hle ⊢
    rw [hcontents]
    omega
  · apply ok_update
    · exact ⟨rfl, hroom, Function.update_self _ _ _⟩
    · intro v hv
      apply (h.ok v).writeCell
      exact fun hpush => hv (h.pushing v w hpush hpushing)
  · exact h.pushing.update fun _ => Or.inl hpushing
  · exact h.popping.update (by rintro ⟨⟩)

theorem Inv.pushStore {s : State n} (h : Inv s) {w : Fin n} {o : Pointer}
    {slot : ℕ} {task : Task} {tasks : List Task} {current : ℕ}
    (hw : s.workers w = .calling o slot task tasks (.pushStore current)) :
    Inv { s.setWorker w .waiting with
      queue := s.queue.storeInputIndex current
      pushed := s.pushed ++ [o] } := by
  have hok := h.ok w
  rw [hw] at hok
  obtain ⟨rfl, hroom, hcell⟩ := hok
  have hcontents := s.queue.contents_storeInputIndex hroom
  rw [hcell] at hcontents
  have hpushing : (s.workers w).pushing := by
    rw [hw]
    rfl
  refine ⟨?_, ?_, ?_, ?_, ?_⟩
  · simp [hcontents, h.fifo, State.setWorker]
  · intro o'
    have hplaces := places_setWorker s w .waiting o'
    have hle := h.places_le o'
    rw [hw] at hplaces
    simp only [places, State.setWorker, Worker.held, List.count_nil,
      Nat.add_zero] at hplaces hle ⊢
    rw [hcontents, List.count_append]
    have hlast : [some o].count (some o') = [o].count o' := by
      simp [List.count_singleton]
    omega
  · apply ok_update
    · trivial
    · intro v hv
      apply (h.ok v).storeInputIndex _ hroom
      exact fun hpush => hv (h.pushing v w hpush hpushing)
  · exact h.pushing.update (by rintro ⟨⟩)
  · exact h.popping.update (by rintro ⟨⟩)

theorem Inv.popStore {s : State n} (h : Inv s) {w : Fin n} {o p : Pointer}
    {slot : ℕ} {task : Task} {tasks : List Task} {current : ℕ}
    (hw : s.workers w =
      .calling o slot task tasks (.popStore current (some p))) :
    Inv { s.setWorker w (.posting o slot task tasks p) with
      queue := s.queue.storeOutputIndex current
      popped := s.popped ++ [p] } := by
  have hok := h.ok w
  rw [hw] at hok
  obtain ⟨rfl, hne, hdata⟩ := hok
  have hcontents := s.queue.contents_storeOutputIndex hne
  rw [← hdata] at hcontents
  have hpopping : (s.workers w).popping := by
    rw [hw]
    rfl
  refine ⟨?_, ?_, ?_, ?_, ?_⟩
  · simp [hcontents, h.fifo, State.setWorker]
  · intro o'
    have hplaces := places_setWorker s w (.posting o slot task tasks p) o'
    have hle := h.places_le o'
    rw [hw] at hplaces
    simp only [places, State.setWorker, Worker.held] at hplaces hle ⊢
    rw [hcontents, List.count_cons] at hle hplaces
    have hfront : (if (some p == some o') = true then 1 else 0) =
        [p].count o' := by
      simp [List.count_singleton]
    have hpair : ([o] ++ [p]).count o' = [o].count o' + [p].count o' :=
      List.count_append
    rw [List.singleton_append] at hpair
    omega
  · apply ok_update
    · trivial
    · intro v hv
      apply (h.ok v).storeOutputIndex _ hne
      exact fun hpop => hv (h.popping v w hpop hpopping)
  · exact h.pushing.update (by rintro ⟨⟩)
  · exact h.popping.update (by rintro ⟨⟩)

theorem Inv.initial {s : State n} (h : Initial s) : Inv s where
  fifo := h.fifo
  places_le := h.places_le
  ok w := by
    rw [h.waiting w]
    trivial
  pushing v w hv _ := by
    rw [h.waiting v] at hv
    cases hv
  popping v w hv _ := by
    rw [h.waiting v] at hv
    cases hv

theorem Inv.access {s s' : State n} (h : Inv s) {w : Fin n}
    (hguard : Undisturbed s (.access w)) (hs : access s w = some s') :
    Inv s' := by
  cases hw : s.workers w with
  | waiting => simp [QueueThreads.access, hw] at hs
  | posting => simp [QueueThreads.access, hw] at hs
  | faulted => simp [QueueThreads.access, hw] at hs
  | handling o slot tasks =>
      have hheld (p : Pointer) : [o].count p ≤ (s.workers w).held.count p := by
        rw [hw]
        exact le_rfl
      cases tasks with
      | nil => simp [QueueThreads.access, hw] at hs
      | cons task tasks =>
          cases task <;>
            simp only [QueueThreads.access, hw, Option.some.injEq] at hs <;>
            subst hs <;>
            exact h.setWorker w hheld trivial (by rintro ⟨⟩) (by rintro ⟨⟩)
  | calling o slot task tasks next =>
      have hheld (p : Pointer) : [o].count p ≤ (s.workers w).held.count p := by
        rw [hw]
        exact le_rfl
      cases next with
      | pushCompare current =>
          have hnext := hguard _ (congrArg Worker.next hw)
          by_cases hfull : s.queue.nextIndex current = s.queue.mOutputIndex
          · simp only [QueueThreads.access, hw, if_pos hfull,
              Option.some.injEq] at hs
            subst hs
            exact h.setWorker w (fun _ => Nat.zero_le _) trivial
              (by rintro ⟨⟩) (by rintro ⟨⟩)
          · simp only [QueueThreads.access, hw, if_neg hfull,
              Option.some.injEq] at hs
            subst hs
            obtain ⟨hcurrent, hnone⟩ := hnext hfull
            exact h.setWorker w hheld ⟨hcurrent, hcurrent ▸ hfull⟩
              (fun _ => Or.inr hnone) (by rintro ⟨⟩)
      | pushWrite current =>
          simp only [QueueThreads.access, hw, Option.some.injEq] at hs
          exact hs ▸ h.pushWrite hw
      | pushStore current =>
          simp only [QueueThreads.access, hw, Option.some.injEq] at hs
          exact hs ▸ h.pushStore hw
      | popCompare current =>
          have hnext := hguard _ (congrArg Worker.next hw)
          by_cases hempty : current = s.queue.mInputIndex
          · simp only [QueueThreads.access, hw, if_pos hempty,
              Option.some.injEq] at hs
            subst hs
            exact h.setWorker w hheld trivial (by rintro ⟨⟩) (by rintro ⟨⟩)
          · simp only [QueueThreads.access, hw, if_neg hempty,
              Option.some.injEq] at hs
            subst hs
            obtain ⟨hcurrent, hnone⟩ := hnext hempty
            exact h.setWorker w hheld ⟨hcurrent, hcurrent ▸ hempty⟩
              (by rintro ⟨⟩) fun _ => Or.inr hnone
      | popRead current =>
          simp only [QueueThreads.access, hw, Option.some.injEq] at hs
          subst hs
          have hok := h.ok w
          rw [hw] at hok
          refine h.setWorker w hheld ⟨hok.1, hok.2, rfl⟩ (by rintro ⟨⟩)
            fun _ => Or.inl ?_
          rw [hw]
          rfl
      | popStore current data =>
          have hok := h.ok w
          rw [hw] at hok
          obtain ⟨p, hp⟩ := h.front hok.2.1
          have hdata : data = some p := by
            rw [hok.2.2, hok.1, hp]
          subst hdata
          simp only [QueueThreads.access, hw, Option.some.injEq] at hs
          exact hs ▸ h.popStore hw

theorem Inv.dequeue {s s' : State n} (h : Inv s) {w : Fin n} {k : ℕ}
    {failed replies socketOk : Bool}
    (hs : step s (.dequeue w k failed replies socketOk) = some s') :
    Inv s' := by
  cases hw : s.workers w with
  | waiting =>
      cases hop : s.outstanding[k]? with
      | none => simp [step, hw, hop] at hs
      | some op =>
          have herase (o : Pointer) := countP_eraseIdx
            (fun op : Operation => decide (op.overlapped = o)) hop
          simp only [step, hw, hop] at hs
          cases failed with
          | true =>
              simp only [if_true, Option.some.injEq] at hs
              have hself : s.setWorker w .waiting = s := by
                rw [State.setWorker, ← hw, Function.update_eq_self]
              rw [← hs, ← hself]
              refine h.transfer w (fun o => ?_) trivial (by rintro ⟨⟩)
                (by rintro ⟨⟩)
              have hone := herase o
              simp only [Worker.held, List.count_nil, State.setWorker]
              omega
          | false =>
              simp only [Bool.false_eq_true, if_false,
                Option.some.injEq] at hs
              rw [← hs]
              refine h.transfer w (fun o => ?_) trivial (by rintro ⟨⟩)
                (by rintro ⟨⟩)
              have hone := herase o
              have hheld : [op.overlapped].count o =
                  if decide (op.overlapped = o) = true then 1 else 0 := by
                simp [List.count_singleton]
              simp only [Worker.held, hheld]
              omega
  | _ => simp [step, hw] at hs

theorem Inv.post {s s' : State n} (h : Inv s) {w : Fin n} {ok : Bool}
    (hs : step s (.post w ok) = some s') : Inv s' := by
  cases hw : s.workers w with
  | posting o slot task tasks p =>
      have hpair (q : Pointer) : (s.workers w).held.count q =
          [o].count q + [p].count q := by
        rw [hw]
        change ([o] ++ [p]).count q = _
        exact List.count_append
      simp only [step, hw] at hs
      cases ok with
      | true =>
          simp only [if_true, Option.some.injEq] at hs
          rw [← hs]
          refine h.transfer w (fun q => ?_) trivial (by rintro ⟨⟩)
            (by rintro ⟨⟩)
          have hposted : [p].count q =
              if decide (p = q) = true then 1 else 0 := by
            simp [List.count_singleton]
          rw [hpair q]
          simp only [State.setWorker, Worker.held, List.countP_append,
            List.countP_singleton]
          omega
      | false =>
          simp only [Bool.false_eq_true, if_false, Option.some.injEq] at hs
          rw [← hs]
          refine h.setWorker w (fun q => ?_) trivial (by rintro ⟨⟩)
            (by rintro ⟨⟩)
          rw [hpair q]
          exact Nat.le_add_right _ _
  | _ => simp [step, hw] at hs

theorem Inv.step {s s' : State n} {e : Event n} (h : Inv s)
    (hguard : Undisturbed s e) (hs : QueueThreads.step s e = some s') :
    Inv s' := by
  cases e with
  | dequeue w k failed replies socketOk => exact h.dequeue hs
  | access w => exact h.access hguard hs
  | post w ok => exact h.post hs

/-- The invariant is stronger than what the users of the pool need. -/
theorem Inv.exclusive {s : State n} (h : Inv s) : Exclusive s := by
  have hsome : Function.Injective (some : Pointer → Option Pointer) :=
    Option.some_injective Pointer
  have hcount (o : Pointer) : s.pushed.count o =
      s.popped.count o + s.queue.contents.count (some o) := by
    have hfifo := congrArg (List.count (some o)) h.fifo
    rwa [List.count_append, List.count_map_of_injective _ _ hsome,
      List.count_map_of_injective _ _ hsome] at hfifo
  have hheld (o : Pointer) : ∑ w, (s.workers w).held.count o ≤ 1 := by
    have hle := h.places_le o
    simp only [places] at hle
    omega
  refine ⟨fun o => ?_, fun o => ?_, ?_, fun w => ?_⟩
  · have := hcount o
    omega
  · exact (hcount o).le
  · intro v w hvw o hv hw
    have hpos1 := List.count_pos_iff.mpr hv
    have hpos2 := List.count_pos_iff.mpr hw
    have hpair := add_le_sum_of_ne
      (fun u => (s.workers u).held.count o) hvw
    have hone := hheld o
    omega
  · rw [List.nodup_iff_count_le_one]
    intro o
    have hterm := le_sum (fun u => (s.workers u).held.count o) w
    exact hterm.trans (hheld o)

/-! ## The start of the server -/

/-- `Client::AcceptReady` on the main thread, before the workers run. -/
def acceptReady (s : State n) (slot : ℕ) : State n :=
  match s.queue.pop with
  | (_, none) => s
  | (queue, some p) =>
      { s with
        queue := queue
        outstanding := s.outstanding ++ [⟨p, .opAccept, slot⟩]
        popped := s.popped ++ [p] }

/-- The workers as `NetworkManager::Ready` starts them, with an accept posted
for each of the slots. -/
def ready (n size : ℕ) (hpos : 0 < size) (socketMax : ℕ) : State n :=
  ((List.range socketMax).map (· + 1)).foldl acceptReady
    { queue := overlappedQueue size hpos
      outstanding := []
      workers := fun _ => .waiting
      pushed := List.range (size - 1)
      popped := [] }

theorem Initial.acceptReady {s : State n} (h : Initial s) (slot : ℕ) :
    Initial (acceptReady s slot) := by
  cases hcontents : s.queue.contents with
  | nil =>
      simp only [QueueThreads.acceptReady, s.queue.pop_of_nil hcontents]
      exact h
  | cons data rest =>
      obtain ⟨hdata, hrest⟩ := s.queue.pop_of_cons hcontents
      have hpop : s.queue.pop = (s.queue.pop.1, data) := Prod.ext rfl hdata
      have hmem : data ∈ s.pushed.map some := by
        rw [h.fifo, hcontents]
        simp
      obtain ⟨p, -, rfl⟩ := List.mem_map.mp hmem
      rw [QueueThreads.acceptReady, hpop]
      refine ⟨h.waiting, ?_, fun o => ?_⟩
      · simp [h.fifo, hcontents, hrest]
      · have hle := h.places_le o
        have hfront : (if (some p == some o) = true then 1 else 0) =
            if decide (p = o) = true then 1 else 0 := by
          simp
        simp only [places, hcontents, List.count_cons, hrest,
          List.countP_append, List.countP_singleton] at hle ⊢
        omega

theorem initial_ready (n size : ℕ) (hpos : 0 < size) (socketMax : ℕ) :
    Initial (ready n size hpos socketMax) := by
  have hstart : Initial (n := n)
      { queue := overlappedQueue size hpos
        outstanding := []
        workers := fun _ => .waiting
        pushed := List.range (size - 1)
        popped := [] } := by
    refine ⟨fun _ => rfl, by simp, fun o => ?_⟩
    have hnodup : ((List.range (size - 1)).map some).Nodup :=
      List.nodup_range.map (Option.some_injective _)
    simpa [places, Worker.held] using
      List.nodup_iff_count_le_one.mp hnodup (some o)
  have hfold (slots : List ℕ) (s : State n) (h : Initial s) :
      Initial (slots.foldl QueueThreads.acceptReady s) := by
    induction slots generalizing s with
    | nil => exact h
    | cons slot slots ih => exact ih _ (h.acceptReady slot)
  exact hfold _ _ hstart

/-! ## Exclusive use of the objects -/

/-- The states in which `NetworkManager::Ready` leaves the server to `n`
workers. -/
def Started (s : State n) : Prop :=
  ∃ size hpos socketMax, s = ready n size hpos socketMax

/-- In every run whose comparisons are undisturbed the pool is used
exclusively. -/
theorem exclusive_of_undisturbed {s : State n}
    (h : Reachable step Started Undisturbed s) : Exclusive s := by
  have hinv : Inv s := by
    apply h.invariant
    · rintro s₀ ⟨size, hpos, socketMax, rfl⟩
      exact Inv.initial (initial_ready n size hpos socketMax)
    · intro s₁ e s₂ hinv hguard hs
      exact hinv.step hguard hs
  exact hinv.exclusive

/-- Two workers of a freshly started server. -/
def twoWorkers : State 2 := ready 2 POOL_SIZE POOL_SIZE_pos SOCKET_MAX

/-- Two workers handle a connection each.  While the second one pops, the first
one posts what it popped and pushes, and their accesses alternate. -/
def alternatingCalls (v w : Fin 2) : List (Event 2) :=
  [.dequeue v 0 false true true, .dequeue w 0 false true true,
    .access v, .access v, .access v, .access v, .access w, .post v true,
    .access v, .access w, .access v, .access w, .access v, .access w,
    .access v, .post w true, .access w, .access w, .access w, .access w]

theorem exclusive_after_alternatingCalls :
    ∃ s, run step twoWorkers (alternatingCalls 0 1) = some s ∧
      s.workers 0 = .waiting ∧ s.workers 1 = .waiting ∧ Exclusive s := by
  have hworkers : (runWhile step Undisturbed twoWorkers
      (alternatingCalls 0 1)).map (fun s => (s.workers 0, s.workers 1)) =
        some (.waiting, .waiting) := by
    decide +kernel
  obtain ⟨s, hs, hpair⟩ := Option.map_eq_some_iff.mp hworkers
  rw [Prod.mk.injEq] at hpair
  have hstart : Reachable step Started Undisturbed twoWorkers :=
    .start ⟨_, _, _, rfl⟩
  exact ⟨s, run_of_runWhile hs, hpair.1, hpair.2,
    exclusive_of_undisturbed (hstart.of_runWhile hs)⟩

/-- Both workers handle a connection, and their pops proceed in lockstep. -/
def lockstepPops (v w : Fin 2) : List (Event 2) :=
  [.dequeue v 0 false true true, .dequeue w 0 false true true,
    .access v, .access w, .access v, .access w, .access v, .access w,
    .access v, .access w]

/-- Without the condition two workers can be handed the same object. -/
theorem not_exclusive_of_lockstepPops :
    ¬ ∀ (n : ℕ) (s : State n),
      Reachable step Started unguarded s → Exclusive s := by
  intro hall
  have hheld : (run step twoWorkers (lockstepPops 0 1)).map
      (fun s => ((s.workers 0).held, (s.workers 1).held)) =
        some ([0, 10], [1, 10]) := by
    decide +kernel
  obtain ⟨s, hs, hpair⟩ := Option.map_eq_some_iff.mp hheld
  rw [Prod.mk.injEq] at hpair
  have hstart : Reachable step Started unguarded twoWorkers :=
    .start ⟨_, _, _, rfl⟩
  have hexclusive := hall 2 s (hstart.of_unguarded_run hs)
  apply hexclusive.disjoint 0 1 (by decide) 10
  · simp [hpair.1]
  · simp [hpair.2]

end RankingServer.Network.QueueThreads
