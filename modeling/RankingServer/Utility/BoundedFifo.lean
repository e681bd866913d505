import RankingServer.Foundation.Refinement
import RankingServer.Utility.LockFreeCircleQueue

/-!
# The ring queue as a bounded list

What `LockFreeCircleQueue` is for, as long as one thread uses it: a first-in
first-out list with room for one element less than the ring has cells.
-/

namespace RankingServer.Utility

open Refinement

inductive Call (T : Type*)
  | push (data : T)
  | pop
  | size
  | empty
  | front
  | clear
deriving DecidableEq, Repr

inductive Result (T : Type*)
  | accepted (accepted : Bool)
  | element (data : T)
  | count (size : ℕ)
  | isEmpty (empty : Bool)
  | done
deriving DecidableEq, Repr

variable {T : Type*} [Inhabited T]

/-- A call of a public member function. -/
def LockFreeCircleQueue.call (q : LockFreeCircleQueue T) :
    Call T → LockFreeCircleQueue T × Result T
  | .push data => ((q.push data).1, .accepted (q.push data).2)
  | .pop => (q.pop.1, .element q.pop.2)
  | .size => (q, .count q.size)
  | .empty => (q, .isEmpty q.empty)
  | .front => (q, .element q.front)
  | .clear => (q.clear, .done)

/-- The same calls on a list with at most `bound` elements; the front of the
empty list is left open. -/
def boundedFifo (bound : ℕ) : List T → Call T → List T × Option (Result T)
  | list, .push data =>
      if list.length < bound then (list ++ [data], some (.accepted true))
      else (list, some (.accepted false))
  | [], .pop => ([], some (.element default))
  | data :: list, .pop => (list, some (.element data))
  | list, .size => (list, some (.count list.length))
  | list, .empty => (list, some (.isEmpty list.isEmpty))
  | [], .front => ([], none)
  | data :: list, .front => (data :: list, some (.element data))
  | _, .clear => ([], some .done)

/-- The ring has `n` cells, and the list consists of its waiting elements. -/
structure Represents (n : ℕ) (q : LockFreeCircleQueue T) (list : List T) :
    Prop where
  size : q.mQueueMaxSize = n
  contents : q.contents = list

variable {n : ℕ} {q : LockFreeCircleQueue T} {list : List T}

theorem Represents.push (h : Represents n q list) (data : T) :
    Represents n (q.push data).1 (boundedFifo (n - 1) list (.push data)).1 ∧
      (boundedFifo (n - 1) list (.push data)).2 =
        some (.accepted (q.push data).2) := by
  obtain ⟨rfl, rfl⟩ := h
  have hlt := q.length_contents_lt
  by_cases hroom : q.contents.length + 1 < q.mQueueMaxSize
  · obtain ⟨haccepted, hcontents⟩ := q.push_of_room data hroom
    rw [boundedFifo, if_pos (by omega), haccepted]
    exact ⟨⟨q.mQueueMaxSize_push data, hcontents⟩, rfl⟩
  · rw [boundedFifo, if_neg (by omega), q.push_of_full data (by omega)]
    exact ⟨⟨rfl, rfl⟩, rfl⟩

theorem Represents.pop (h : Represents n q list) :
    Represents n q.pop.1 (boundedFifo (n - 1) list .pop).1 ∧
      (boundedFifo (n - 1) list .pop).2 = some (.element q.pop.2) := by
  obtain ⟨rfl, hcontents⟩ := h
  cases list with
  | nil =>
      rw [q.pop_of_nil hcontents]
      exact ⟨⟨rfl, hcontents⟩, rfl⟩
  | cons data list =>
      obtain ⟨hdata, hrest⟩ := q.pop_of_cons hcontents
      rw [hdata]
      exact ⟨⟨q.mQueueMaxSize_pop, hrest⟩, rfl⟩

/-- Every call on the ring does what the call on the list does. -/
theorem refines_call (n : ℕ) :
    Refines (Represents n) (LockFreeCircleQueue.call (T := T))
      (boundedFifo (n - 1)) where
  state q list call h := by
    cases call with
    | push data => exact (h.push data).1
    | pop => exact h.pop.1
    | size => exact h
    | empty => exact h
    | front => cases list <;> exact h
    | clear => exact ⟨h.size, q.contents_clear⟩
  result q list call h := by
    cases call with
    | push data => rw [(h.push data).2, meets_some, LockFreeCircleQueue.call]
    | pop => rw [h.pop.2, meets_some, LockFreeCircleQueue.call]
    | size =>
        rw [boundedFifo, meets_some, LockFreeCircleQueue.call, q.size_eq,
          h.contents]
    | empty =>
        rw [boundedFifo, meets_some, LockFreeCircleQueue.call, q.empty_eq,
          h.contents]
    | front =>
        cases list with
        | nil => exact meets_none _
        | cons data list =>
            rw [boundedFifo, meets_some, LockFreeCircleQueue.call,
              q.front_of_cons h.contents]
    | clear => exact meets_some.mpr rfl

/-- Any sequence of calls after `Construct(n)` returns what the bounded list
returns, and the indices stay in the ring. -/
theorem runCalls_construct (hpos : 0 < n) (garbage : ℕ → T)
    (calls : List (Call T)) :
    let ring := runCalls LockFreeCircleQueue.call
      (.construct n hpos garbage) calls
    let fifo := runCalls (boundedFifo (n - 1)) [] calls
    List.Forall₂ Meets ring.2 fifo.2 ∧ ring.1.contents = fifo.1 ∧
      ring.1.mInputIndex < n ∧ ring.1.mOutputIndex < n := by
  intro ring fifo
  have hstart : Represents n
      (LockFreeCircleQueue.construct n hpos garbage) [] :=
    ⟨rfl, LockFreeCircleQueue.contents_construct n hpos garbage⟩
  obtain ⟨hfinal, hresults⟩ := (refines_call n).runCalls hstart calls
  have hin := ring.1.inputIndex_lt
  have hout := ring.1.outputIndex_lt
  rw [hfinal.size] at hin hout
  exact ⟨hresults, hfinal.contents, hin, hout⟩

/-- A ring of two cells that is filled, emptied and cleared. -/
theorem runCalls_construct_two :
    let calls : List (Call ℕ) :=
      [.push 7, .push 8, .size, .pop, .push 9, .front, .clear, .empty]
    let ring := runCalls LockFreeCircleQueue.call
      (.construct 2 Nat.two_pos fun _ => 0) calls
    let fifo := runCalls (boundedFifo 1) [] calls
    List.Forall₂ Meets ring.2 fifo.2 ∧ ring.1.contents = fifo.1 ∧
      ring.1.mInputIndex < 2 ∧ ring.1.mOutputIndex < 2 :=
  runCalls_construct Nat.two_pos (fun _ => 0) _

end RankingServer.Utility
