import Mathlib

/-!
# The ring queue

`LockFreeCircleQueue<T>` keeps a buffer of `mQueueMaxSize` cells and two
indices.  The elements waiting lie between the output and the input index,
wrapping at the end of the buffer; one cell always stays unused, so that equal
indices mean an empty queue.

This module models the calls of one thread, in which every call runs to its end.
`contents` reads off the list of waiting elements and the specifications of
`push` and `pop` are stated on it.  The interleaved steps of the same calls are
modelled on the same structure in `RankingServer.Network.QueueThreads`.
-/

namespace RankingServer.Utility

/-- `LockFreeCircleQueue<T>`.  The indices are reduced modulo the size whenever
they are stored, which the last two fields record. -/
structure LockFreeCircleQueue (T : Type*) where
  mQueueMaxSize : ℕ
  mInputIndex : ℕ
  mOutputIndex : ℕ
  mBuffer : ℕ → T
  inputIndex_lt : mInputIndex < mQueueMaxSize
  outputIndex_lt : mOutputIndex < mQueueMaxSize

namespace LockFreeCircleQueue

variable {T : Type*}

/-- The constructor followed by `Construct(queueMaxSize)`.  The cells of the new
buffer hold whatever the allocation left in them. -/
def construct (queueMaxSize : ℕ) (hpos : 0 < queueMaxSize) (garbage : ℕ → T) :
    LockFreeCircleQueue T where
  mQueueMaxSize := queueMaxSize
  mInputIndex := 0
  mOutputIndex := 0
  mBuffer := garbage
  inputIndex_lt := hpos
  outputIndex_lt := hpos

theorem mQueueMaxSize_pos (q : LockFreeCircleQueue T) : 0 < q.mQueueMaxSize :=
  Nat.zero_lt_of_lt q.inputIndex_lt

/-- The index after `i`, as both `push` and `pop` compute it. -/
def nextIndex (q : LockFreeCircleQueue T) (i : ℕ) : ℕ :=
  (i + 1) % q.mQueueMaxSize

theorem nextIndex_lt (q : LockFreeCircleQueue T) (i : ℕ) :
    q.nextIndex i < q.mQueueMaxSize :=
  Nat.mod_lt _ q.mQueueMaxSize_pos

/-! ## The accesses to the shared members -/

/-- `mBuffer[i] = std::move(data)` -/
def writeCell (q : LockFreeCircleQueue T) (i : ℕ) (data : T) :
    LockFreeCircleQueue T :=
  { q with mBuffer := Function.update q.mBuffer i data }

/-- `mInputIndex.store((i + 1) % mQueueMaxSize)` -/
def storeInputIndex (q : LockFreeCircleQueue T) (i : ℕ) :
    LockFreeCircleQueue T :=
  { q with
    mInputIndex := q.nextIndex i
    inputIndex_lt := q.nextIndex_lt i }

/-- `mOutputIndex.store((i + 1) % mQueueMaxSize)` -/
def storeOutputIndex (q : LockFreeCircleQueue T) (i : ℕ) :
    LockFreeCircleQueue T :=
  { q with
    mOutputIndex := q.nextIndex i
    outputIndex_lt := q.nextIndex_lt i }

/-! ## The calls -/

/-- `push`: the second component tells whether the element was accepted. -/
def push (q : LockFreeCircleQueue T) (data : T) :
    LockFreeCircleQueue T × Bool :=
  if q.nextIndex q.mInputIndex = q.mOutputIndex then (q, false)
  else ((q.writeCell q.mInputIndex data).storeInputIndex q.mInputIndex, true)

/-- `pop`: on an empty queue it returns `T()` and changes nothing. -/
def pop [Inhabited T] (q : LockFreeCircleQueue T) :
    LockFreeCircleQueue T × T :=
  if q.mOutputIndex = q.mInputIndex then (q, default)
  else (q.storeOutputIndex q.mOutputIndex, q.mBuffer q.mOutputIndex)

/-- `empty` -/
def empty (q : LockFreeCircleQueue T) : Bool :=
  q.mInputIndex = q.mOutputIndex

/-- `size` -/
def size (q : LockFreeCircleQueue T) : ℕ :=
  if q.mInputIndex ≥ q.mOutputIndex then q.mInputIndex - q.mOutputIndex
  else q.mQueueMaxSize - q.mOutputIndex + q.mInputIndex

/-- `Front`: on an empty queue it returns what the cell happens to hold. -/
def front (q : LockFreeCircleQueue T) : T := q.mBuffer q.mOutputIndex

/-- `clear` -/
def clear (q : LockFreeCircleQueue T) : LockFreeCircleQueue T :=
  { q with
    mInputIndex := 0
    mOutputIndex := 0
    inputIndex_lt := Nat.zero_lt_of_lt q.inputIndex_lt
    outputIndex_lt := Nat.zero_lt_of_lt q.inputIndex_lt }

/-! ## The waiting elements -/

/-- The number of cells from the output index up to the input index. -/
def waiting (q : LockFreeCircleQueue T) : ℕ :=
  (q.mInputIndex + (q.mQueueMaxSize - q.mOutputIndex)) % q.mQueueMaxSize

/-- The cell holding the element `k` places behind the front. -/
def cellAt (q : LockFreeCircleQueue T) (k : ℕ) : ℕ :=
  (q.mOutputIndex + k) % q.mQueueMaxSize

/-- The waiting elements, oldest first. -/
def contents (q : LockFreeCircleQueue T) : List T :=
  (List.range q.waiting).map fun k => q.mBuffer (q.cellAt k)

@[simp] theorem length_contents (q : LockFreeCircleQueue T) :
    q.contents.length = q.waiting := by
  simp [contents]

theorem waiting_lt (q : LockFreeCircleQueue T) :
    q.waiting < q.mQueueMaxSize :=
  Nat.mod_lt _ q.mQueueMaxSize_pos

/-- The two ways the input index can lie relative to the output index. -/
theorem waiting_cases (q : LockFreeCircleQueue T) :
    (q.mOutputIndex ≤ q.mInputIndex ∧
        q.waiting + q.mOutputIndex = q.mInputIndex) ∨
      (q.mInputIndex < q.mOutputIndex ∧
        q.waiting + q.mOutputIndex = q.mInputIndex + q.mQueueMaxSize) := by
  have hin := q.inputIndex_lt
  have hout := q.outputIndex_lt
  rcases Nat.lt_or_ge q.mInputIndex q.mOutputIndex with hlt | hle
  · right
    have hwaiting : q.waiting =
        q.mInputIndex + (q.mQueueMaxSize - q.mOutputIndex) :=
      Nat.mod_eq_of_lt (by omega)
    omega
  · left
    have hsplit : q.mInputIndex + (q.mQueueMaxSize - q.mOutputIndex) =
        (q.mInputIndex - q.mOutputIndex) + q.mQueueMaxSize := by omega
    have hwaiting : q.waiting = q.mInputIndex - q.mOutputIndex := by
      rw [waiting, hsplit, Nat.add_mod_right]
      exact Nat.mod_eq_of_lt (by omega)
    omega

/-- The two values of the next index. -/
theorem nextIndex_cases (q : LockFreeCircleQueue T) {i : ℕ}
    (hi : i < q.mQueueMaxSize) :
    (q.nextIndex i = i + 1 ∧ i + 1 < q.mQueueMaxSize) ∨
      (q.nextIndex i = 0 ∧ i + 1 = q.mQueueMaxSize) := by
  rcases Nat.lt_or_eq_of_le (Nat.succ_le_of_lt hi) with hlt | heq
  · exact Or.inl ⟨Nat.mod_eq_of_lt hlt, hlt⟩
  · refine Or.inr ⟨?_, heq⟩
    simp only [Nat.succ_eq_add_one] at heq
    rw [nextIndex, heq, Nat.mod_self]

/-- Different indices are followed by different ones. -/
theorem nextIndex_ne (q : LockFreeCircleQueue T) {i j : ℕ}
    (hi : i < q.mQueueMaxSize) (hj : j < q.mQueueMaxSize) (hne : i ≠ j) :
    q.nextIndex i ≠ q.nextIndex j := by
  have hnextI := q.nextIndex_cases hi
  have hnextJ := q.nextIndex_cases hj
  omega

/-- Equal indices are an empty queue. -/
theorem waiting_eq_zero_iff (q : LockFreeCircleQueue T) :
    q.waiting = 0 ↔ q.mOutputIndex = q.mInputIndex := by
  have hwait := q.waiting_cases
  have hin := q.inputIndex_lt
  have hout := q.outputIndex_lt
  omega

/-- The input index is one behind the output index exactly when all cells but
the reserved one are taken. -/
theorem full_iff (q : LockFreeCircleQueue T) :
    q.nextIndex q.mInputIndex = q.mOutputIndex ↔
      q.waiting + 1 = q.mQueueMaxSize := by
  have hwait := q.waiting_cases
  have hin := q.inputIndex_lt
  have hout := q.outputIndex_lt
  rcases q.nextIndex_cases hin with ⟨hnext, _⟩ | ⟨hnext, _⟩
  · rw [hnext]
    omega
  · rw [hnext]
    omega

theorem contents_eq_nil_iff (q : LockFreeCircleQueue T) :
    q.contents = [] ↔ q.mOutputIndex = q.mInputIndex := by
  rw [← waiting_eq_zero_iff, ← length_contents, List.length_eq_zero_iff]

@[simp] theorem contents_construct (n : ℕ) (hpos : 0 < n) (garbage : ℕ → T) :
    (construct n hpos garbage).contents = [] := by
  rw [contents_eq_nil_iff]
  rfl

/-! ## How the accesses move the waiting elements -/

@[simp] theorem mQueueMaxSize_writeCell (q : LockFreeCircleQueue T) (i : ℕ)
    (data : T) : (q.writeCell i data).mQueueMaxSize = q.mQueueMaxSize := rfl

@[simp] theorem mQueueMaxSize_storeInputIndex (q : LockFreeCircleQueue T)
    (i : ℕ) : (q.storeInputIndex i).mQueueMaxSize = q.mQueueMaxSize := rfl

@[simp] theorem mQueueMaxSize_storeOutputIndex (q : LockFreeCircleQueue T)
    (i : ℕ) : (q.storeOutputIndex i).mQueueMaxSize = q.mQueueMaxSize := rfl

@[simp] theorem mInputIndex_storeInputIndex (q : LockFreeCircleQueue T)
    (i : ℕ) : (q.storeInputIndex i).mInputIndex = q.nextIndex i := rfl

@[simp] theorem mOutputIndex_storeInputIndex (q : LockFreeCircleQueue T)
    (i : ℕ) : (q.storeInputIndex i).mOutputIndex = q.mOutputIndex := rfl

@[simp] theorem mInputIndex_storeOutputIndex (q : LockFreeCircleQueue T)
    (i : ℕ) : (q.storeOutputIndex i).mInputIndex = q.mInputIndex := rfl

@[simp] theorem mOutputIndex_storeOutputIndex (q : LockFreeCircleQueue T)
    (i : ℕ) : (q.storeOutputIndex i).mOutputIndex = q.nextIndex i := rfl

/-- A cell of the waiting part is not the one the input index points to. -/
theorem cellAt_ne_inputIndex (q : LockFreeCircleQueue T) {k : ℕ}
    (hk : k < q.waiting) : q.cellAt k ≠ q.mInputIndex := by
  have hwait := q.waiting_cases
  have hlt := q.waiting_lt
  have hin := q.inputIndex_lt
  have hout := q.outputIndex_lt
  intro heq
  rcases Nat.lt_or_ge (q.mOutputIndex + k) q.mQueueMaxSize with h | h
  · rw [cellAt, Nat.mod_eq_of_lt h] at heq
    omega
  · rw [cellAt, Nat.mod_eq_sub_mod h, Nat.mod_eq_of_lt (by omega)] at heq
    omega

/-- The cell after the waiting part is the one the input index points to. -/
theorem cellAt_waiting (q : LockFreeCircleQueue T) :
    q.cellAt q.waiting = q.mInputIndex := by
  have hin := q.inputIndex_lt
  rcases q.waiting_cases with ⟨_, hw⟩ | ⟨_, hw⟩
  · rw [cellAt, Nat.add_comm, hw, Nat.mod_eq_of_lt hin]
  · rw [cellAt, Nat.add_comm, hw, Nat.add_mod_right, Nat.mod_eq_of_lt hin]

/-- Writing the cell the input index points to leaves the waiting elements as
they are. -/
theorem contents_writeCell (q : LockFreeCircleQueue T) (data : T) :
    (q.writeCell q.mInputIndex data).contents = q.contents := by
  apply List.map_congr_left
  intro k hk
  have hne := q.cellAt_ne_inputIndex (List.mem_range.mp hk)
  exact Function.update_of_ne hne data q.mBuffer

/-- Advancing the input index of a queue that is not full makes the element in
the cell it pointed to the last one waiting. -/
theorem contents_storeInputIndex (q : LockFreeCircleQueue T)
    (hfull : q.nextIndex q.mInputIndex ≠ q.mOutputIndex) :
    (q.storeInputIndex q.mInputIndex).contents =
      q.contents ++ [q.mBuffer q.mInputIndex] := by
  have hwait := q.waiting_cases
  have hlt := q.waiting_lt
  have hin := q.inputIndex_lt
  have hout := q.outputIndex_lt
  have hroom : q.waiting + 1 < q.mQueueMaxSize := by
    have := (q.full_iff).not.mp hfull
    omega
  have hnew : (q.storeInputIndex q.mInputIndex).waiting = q.waiting + 1 := by
    have hwait' := (q.storeInputIndex q.mInputIndex).waiting_cases
    have hlt' := (q.storeInputIndex q.mInputIndex).waiting_lt
    simp only [mQueueMaxSize_storeInputIndex, mInputIndex_storeInputIndex,
      mOutputIndex_storeInputIndex] at hwait' hlt'
    rcases q.nextIndex_cases hin with ⟨hnext, _⟩ | ⟨hnext, _⟩ <;> omega
  rw [contents, hnew, List.range_succ, List.map_append]
  have hlast : (q.storeInputIndex q.mInputIndex).cellAt q.waiting =
      q.mInputIndex := q.cellAt_waiting
  rw [List.map_singleton, hlast]
  rfl

/-- Advancing the output index of a queue that is not empty removes the first
waiting element, which lies in the cell it pointed to. -/
theorem contents_storeOutputIndex (q : LockFreeCircleQueue T)
    (hempty : q.mOutputIndex ≠ q.mInputIndex) :
    q.contents = q.mBuffer q.mOutputIndex ::
      (q.storeOutputIndex q.mOutputIndex).contents := by
  have hwait := q.waiting_cases
  have hlt := q.waiting_lt
  have hin := q.inputIndex_lt
  have hout := q.outputIndex_lt
  have hnonzero : q.waiting ≠ 0 := (q.waiting_eq_zero_iff).not.mpr hempty
  have hnew : q.waiting = (q.storeOutputIndex q.mOutputIndex).waiting + 1 := by
    have hwait' := (q.storeOutputIndex q.mOutputIndex).waiting_cases
    have hlt' := (q.storeOutputIndex q.mOutputIndex).waiting_lt
    simp only [mQueueMaxSize_storeOutputIndex, mInputIndex_storeOutputIndex,
      mOutputIndex_storeOutputIndex] at hwait' hlt'
    rcases q.nextIndex_cases hout with ⟨hnext, _⟩ | ⟨hnext, _⟩ <;> omega
  rw [contents, contents, hnew, List.range_succ_eq_map, List.map_cons,
    List.map_map]
  congr 1
  · simp [cellAt, Nat.mod_eq_of_lt hout]
  · apply List.map_congr_left
    intro k _
    simp only [Function.comp_apply, cellAt, storeOutputIndex, nextIndex]
    congr 1
    rw [Nat.mod_add_mod]
    congr 1
    omega

/-! ## Specifications of the calls -/

/-- A push onto a queue with room appends the element and returns true. -/
theorem push_of_room (q : LockFreeCircleQueue T) (data : T)
    (hroom : q.contents.length + 1 < q.mQueueMaxSize) :
    (q.push data).2 = true ∧
      (q.push data).1.contents = q.contents ++ [data] := by
  rw [length_contents] at hroom
  have hfull : q.nextIndex q.mInputIndex ≠ q.mOutputIndex := by
    rw [Ne, full_iff]
    omega
  rw [push, if_neg hfull]
  refine ⟨rfl, ?_⟩
  have hadvance :=
    (q.writeCell q.mInputIndex data).contents_storeInputIndex hfull
  rw [contents_writeCell] at hadvance
  simpa [writeCell] using hadvance

/-- A push onto a full queue returns false and changes nothing. -/
theorem push_of_full (q : LockFreeCircleQueue T) (data : T)
    (hfull : q.contents.length + 1 = q.mQueueMaxSize) :
    q.push data = (q, false) := by
  rw [length_contents, ← full_iff] at hfull
  rw [push, if_pos hfull]

/-- The waiting elements never fill the whole buffer. -/
theorem length_contents_lt (q : LockFreeCircleQueue T) :
    q.contents.length < q.mQueueMaxSize := by
  rw [length_contents]
  exact q.waiting_lt

/-- `empty` tells whether no element is waiting. -/
theorem empty_eq (q : LockFreeCircleQueue T) :
    q.empty = q.contents.isEmpty := by
  rw [Bool.eq_iff_iff, List.isEmpty_iff, contents_eq_nil_iff, empty,
    decide_eq_true_iff, eq_comm]

/-- `size` is the number of waiting elements, whichever index is ahead. -/
theorem size_eq (q : LockFreeCircleQueue T) : q.size = q.contents.length := by
  have hout := q.outputIndex_lt
  rw [length_contents, size]
  rcases q.waiting_cases with ⟨hle, hw⟩ | ⟨hlt, hw⟩
  · rw [if_pos hle]
    omega
  · rw [if_neg (not_le.mpr hlt)]
    omega

/-- `Front` of a queue that is not empty is its front. -/
theorem front_of_cons (q : LockFreeCircleQueue T) {data : T} {rest : List T}
    (hcons : q.contents = data :: rest) : q.front = data := by
  have hempty : q.mOutputIndex ≠ q.mInputIndex := by
    rw [Ne, ← contents_eq_nil_iff, hcons]
    simp
  rw [q.contents_storeOutputIndex hempty, List.cons.injEq] at hcons
  exact hcons.1

@[simp] theorem contents_clear (q : LockFreeCircleQueue T) :
    q.clear.contents = [] :=
  (q.clear.contents_eq_nil_iff).mpr rfl

@[simp] theorem mQueueMaxSize_push (q : LockFreeCircleQueue T) (data : T) :
    (q.push data).1.mQueueMaxSize = q.mQueueMaxSize := by
  rw [push]
  split <;> rfl

/-- Pushing the elements of a list one after the other, whatever the calls
return. -/
def pushAll (q : LockFreeCircleQueue T) (data : List T) :
    LockFreeCircleQueue T :=
  data.foldl (fun q d => (q.push d).1) q

@[simp] theorem mQueueMaxSize_pushAll (q : LockFreeCircleQueue T)
    (data : List T) : (q.pushAll data).mQueueMaxSize = q.mQueueMaxSize := by
  induction data generalizing q with
  | nil => rfl
  | cons d data ih =>
      change ((q.push d).1.pushAll data).mQueueMaxSize = _
      rw [ih, mQueueMaxSize_push]

/-- The elements that no longer fit are dropped. -/
theorem contents_pushAll (q : LockFreeCircleQueue T) (data : List T) :
    (q.pushAll data).contents =
      (q.contents ++ data).take (q.mQueueMaxSize - 1) := by
  induction data generalizing q with
  | nil =>
      have hlt := q.length_contents_lt
      rw [List.append_nil, List.take_of_length_le (by omega)]
      rfl
  | cons d data ih =>
      change ((q.push d).1.pushAll data).contents = _
      rw [ih, mQueueMaxSize_push]
      have hlt := q.length_contents_lt
      by_cases hroom : q.contents.length + 1 < q.mQueueMaxSize
      · rw [(q.push_of_room d hroom).2, List.append_assoc]
        rfl
      · have hfull : q.contents.length = q.mQueueMaxSize - 1 := by omega
        rw [q.push_of_full d (by omega), List.take_left' hfull,
          List.take_left' hfull]

/-- What the calls return that push the elements of a list. -/
def pushResults (q : LockFreeCircleQueue T) : List T → List Bool
  | [] => []
  | d :: data => (q.push d).2 :: (q.push d).1.pushResults data

/-- As many pushes succeed as the queue has room for. -/
theorem pushResults_eq (q : LockFreeCircleQueue T) (data : List T) (room : ℕ)
    (hroom : q.contents.length + room + 1 = q.mQueueMaxSize) :
    q.pushResults data = List.replicate (min room data.length) true ++
      List.replicate (data.length - room) false := by
  induction data generalizing q room with
  | nil => simp [pushResults]
  | cons d data ih =>
      cases room with
      | zero =>
          have hfull := q.push_of_full d hroom
          rw [pushResults, hfull, ih q 0 hroom]
          simp [List.replicate_succ]
      | succ room =>
          obtain ⟨haccepted, hcontents⟩ := q.push_of_room d (by omega)
          have hrest : (q.push d).1.contents.length + room + 1 =
              (q.push d).1.mQueueMaxSize := by
            rw [hcontents, mQueueMaxSize_push, List.length_append,
              List.length_singleton]
            omega
          rw [pushResults, haccepted, ih _ room hrest, List.length_cons,
            Nat.succ_min_succ, List.replicate_succ, Nat.add_sub_add_right]
          rfl

variable [Inhabited T]

/-- A pop from an empty queue returns `T()` and changes nothing. -/
theorem pop_of_nil (q : LockFreeCircleQueue T) (hnil : q.contents = []) :
    q.pop = (q, default) := by
  rw [pop, if_pos ((q.contents_eq_nil_iff).mp hnil)]

/-- A pop from a queue that is not empty returns and removes the front. -/
theorem pop_of_cons (q : LockFreeCircleQueue T) {data : T} {rest : List T}
    (hcons : q.contents = data :: rest) :
    q.pop.2 = data ∧ q.pop.1.contents = rest := by
  have hempty : q.mOutputIndex ≠ q.mInputIndex := by
    rw [Ne, ← contents_eq_nil_iff, hcons]
    simp
  have hadvance := q.contents_storeOutputIndex hempty
  rw [hcons, List.cons.injEq] at hadvance
  rw [pop, if_neg hempty]
  exact ⟨hadvance.1.symm, hadvance.2.symm⟩

@[simp] theorem mQueueMaxSize_pop (q : LockFreeCircleQueue T) :
    q.pop.1.mQueueMaxSize = q.mQueueMaxSize := by
  rw [pop]
  split <;> rfl

end LockFreeCircleQueue

end RankingServer.Utility
