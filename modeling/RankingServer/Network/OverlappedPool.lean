import RankingServer.Utility.LockFreeCircleQueue

/-!
# The operation pool

`NetworkManager::Initialize` constructs `mOverlappedQueue` with 200 cells and
pushes 200 new objects onto it.  The ring keeps one cell unused, so the last
push is refused and its object is lost before the server starts.
-/

namespace RankingServer.Network

open Utility

/-- A `CustomOverlapped*` that is not null. -/
abbrev Pointer := ℕ

/-- The size `NetworkManager::Initialize` gives to `mOverlappedQueue`. -/
def POOL_SIZE : ℕ := 200

theorem POOL_SIZE_pos : 0 < POOL_SIZE := by decide

/-- The socket count that `main` passes to `Hub::Initialize`. -/
def SOCKET_MAX : ℕ := 10

/-- `mOverlappedQueue` at the end of `NetworkManager::Initialize`, for a pool of
the given size. -/
def overlappedQueue (size : ℕ) (hpos : 0 < size) :
    LockFreeCircleQueue (Option Pointer) :=
  (LockFreeCircleQueue.construct size hpos fun _ => none).pushAll
    ((List.range size).map some)

@[simp] theorem mQueueMaxSize_overlappedQueue (size : ℕ) (hpos : 0 < size) :
    (overlappedQueue size hpos).mQueueMaxSize = size := by
  rw [overlappedQueue, LockFreeCircleQueue.mQueueMaxSize_pushAll]
  rfl

@[simp] theorem contents_overlappedQueue (size : ℕ) (hpos : 0 < size) :
    (overlappedQueue size hpos).contents =
      (List.range (size - 1)).map some := by
  rw [overlappedQueue, LockFreeCircleQueue.contents_pushAll,
    LockFreeCircleQueue.contents_construct, List.nil_append, ← List.map_take,
    List.take_range]
  congr 2
  exact Nat.min_eq_left (Nat.sub_le size 1)

/-- What the pushes of `NetworkManager::Initialize` return. -/
def fillResults (size : ℕ) (hpos : 0 < size) : List Bool :=
  (LockFreeCircleQueue.construct size hpos fun _ => none).pushResults
    ((List.range size).map some)

/-- Whatever the size of the pool, its last object is refused. -/
theorem fillResults_eq (size : ℕ) (hpos : 0 < size) :
    fillResults size hpos = List.replicate (size - 1) true ++ [false] := by
  have hroom : (LockFreeCircleQueue.construct size hpos fun _ =>
      (none : Option Pointer)).contents.length + (size - 1) + 1 = size := by
    rw [LockFreeCircleQueue.contents_construct, List.length_nil]
    omega
  have hlast : size - (size - 1) = 1 := by omega
  rw [fillResults, LockFreeCircleQueue.pushResults_eq _ _ _ hroom,
    List.length_map, List.length_range, Nat.min_eq_left (Nat.sub_le size 1),
    hlast]
  rfl

/-- A pop that returns an object took it from the front. -/
theorem contents_of_pop_eq_some {q : LockFreeCircleQueue (Option Pointer)}
    {p : Pointer} (hpop : q.pop.2 = some p) :
    q.contents = some p :: q.pop.1.contents := by
  cases hcontents : q.contents with
  | nil =>
      rw [q.pop_of_nil hcontents] at hpop
      cases hpop
  | cons front rest =>
      obtain ⟨hfront, hrest⟩ := q.pop_of_cons hcontents
      rw [← hpop, hfront, hrest]

/-- As long as no null pointer is waiting, a pop returns one exactly when the
queue is empty. -/
theorem pop_eq_none_iff {q : LockFreeCircleQueue (Option Pointer)}
    (hnull : none ∉ q.contents) : q.pop.2 = none ↔ q.contents = [] := by
  constructor
  · intro hpop
    cases hcontents : q.contents with
    | nil => rfl
    | cons front rest =>
        have hfront := (q.pop_of_cons hcontents).1
        rw [hpop] at hfront
        rw [hcontents, ← hfront] at hnull
        simp at hnull
  · intro hnil
    rw [q.pop_of_nil hnil]
    rfl

end RankingServer.Network
