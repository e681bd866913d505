import RankingServer.Foundation.SortedLinks
import RankingServer.Foundation.Transition

/-!
# `tbb::concurrent_map`

The map of the clients is a `concurrent_skip_list` without equal keys.  Nodes
are linked on one level after the other, from the lowest to their height, with
compare-and-swap; nothing is erased while the map is in use.

Each load, store and compare-and-swap of a shared member is a step of its own,
and the steps of the threads interleave in a sequentially consistent order.  A
step has no result where it would read or write something that is not there: a
node that is not allocated, a link above the height of a node, an entry of an
array that was not set, or the key of the head, which has none.
-/

namespace Tbb

open Transition

universe u v w

/-! ## Heights -/

/-- `concurrent_geometric_level_generator<32>::max_level` -/
def max_level : ℕ := 32

/-- The numbers that `std::minstd_rand` generates. -/
def IsMinstdRand (random : ℕ) : Prop := 1 ≤ random ∧ random ≤ 2147483646

instance : DecidablePred IsMinstdRand :=
  fun random => inferInstanceAs (Decidable (1 ≤ random ∧ random ≤ 2147483646))

/-- `concurrent_geometric_level_generator::operator()`, for the number that the
engine of the thread generates. -/
def randomLevel (random : ℕ) : ℕ := max_level - Nat.log2 (random + 1) - 1

theorem randomLevel_pos {random : ℕ} (h : IsMinstdRand random) :
    0 < randomLevel random := by
  have hlog : Nat.log2 (random + 1) < 31 := by
    rw [Nat.log2_lt (by omega)]
    have hle := h.2
    omega
  rw [randomLevel, max_level]
  omega

theorem randomLevel_lt (random : ℕ) : randomLevel random < max_level := by
  rw [randomLevel, max_level]
  omega

/-! ## Nodes -/

/-- `skip_list_node`; the head has no value. -/
structure Node (K : Type u) (V : Type v) where
  my_value : Option (K × V)
  my_height : ℕ
  next : ℕ → Option ℕ

variable {T : Type w} {K : Type u} {V : Type v}

/-- `skip_list_node::create` -/
def Node.create (value : Option (K × V)) (height : ℕ) : Node K V :=
  ⟨value, height, fun _ => none⟩

/-- The nodes by their addresses, and the members of the list. -/
structure Shared (K : Type u) (V : Type v) where
  memory : ℕ → Option (Node K V)
  my_head_ptr : Option ℕ
  my_size : ℕ
  my_max_height : ℕ

/-- What a pass of the loop in `internal_find_position` leads to. -/
inductive Pass
  | on (prev : ℕ)
  | stop (curr : Option ℕ)

namespace Shared

/-- `concurrent_skip_list()` -/
def empty : Shared K V := ⟨fun _ => none, none, 0, 0⟩

def put (s : Shared K V) (n : ℕ) (node : Option (Node K V)) : Shared K V :=
  { s with memory := Function.update s.memory n node }

/-- `skip_list_node::destroy` -/
def destroy (s : Shared K V) (n : ℕ) : Shared K V := s.put n none

/-- The load of `atomic_next(level)`. -/
def next (s : Shared K V) (n level : ℕ) : Option (Option ℕ) :=
  (s.memory n).bind fun node =>
    if level < node.my_height then some (node.next level) else none

def store (s : Shared K V) (n level : ℕ) (next : Option ℕ) : Shared K V :=
  s.put n ((s.memory n).map fun node =>
    { node with next := Function.update node.next level next })

def set_next (s : Shared K V) (n level : ℕ) (next : Option ℕ) :
    Option (Shared K V) :=
  (s.memory n).bind fun node =>
    if level < node.my_height then some (s.store n level next) else none

/-- `compare_exchange_strong` on `atomic_next(level)`. -/
def exchange (s : Shared K V) (n level : ℕ) (expected desired : Option ℕ) :
    Option (Shared K V × Bool) :=
  (s.next n level).bind fun next =>
    if next = expected then
      (s.set_next n level desired).map fun s => (s, true)
    else some (s, false)

def get_key (s : Shared K V) (n : ℕ) : Option K :=
  (s.memory n).bind fun node => node.my_value.map Prod.fst

/-- The value of a node. -/
def value (s : Shared K V) (n : ℕ) : Option (K × V) :=
  (s.memory n).bind Node.my_value

variable [LinearOrder K]

def found (s : Shared K V) (key : K) : Option ℕ → Option Bool
  | none => some false
  | some n => (s.get_key n).map fun k => !decide (key < k)

/-- A pass of the loop in `internal_find_position`, with the load before its
condition. -/
def advance (s : Shared K V) (key : K) (level prev : ℕ) : Option Pass :=
  (s.next prev level).bind fun curr =>
    match curr with
    | none => some (.stop none)
    | some curr => (s.get_key curr).map fun k =>
        if k < key then .on curr else .stop (some curr)

end Shared

/-! ## The threads -/

/-- `prev_nodes` and `curr_nodes`, whose entries are not initialized. -/
structure Arrays where
  prev_nodes : ℕ → Option ℕ
  curr_nodes : ℕ → Option (Option ℕ)

namespace Arrays

def uninitialized : Arrays := ⟨fun _ => none, fun _ => none⟩

def set (a : Arrays) (level prev : ℕ) (curr : Option ℕ) : Option Arrays :=
  if level < max_level then
    some ⟨Function.update a.prev_nodes level (some prev),
      Function.update a.curr_nodes level (some curr)⟩
  else none

/-- The two `std::fill` in `fill_prev_curr_arrays`. -/
def fill (a : Arrays) (curr_max_height node_height head : ℕ) : Option Arrays :=
  if curr_max_height < node_height then
    if node_height ≤ max_level then
      some
        ⟨fun level => if curr_max_height ≤ level ∧ level < node_height
            then some head else a.prev_nodes level,
          fun level => if curr_max_height ≤ level ∧ level < node_height
            then some none else a.curr_nodes level⟩
    else none
  else some a

end Arrays

/-- `new_node`, its key and value, and `new_height`. -/
structure Insertion (K : Type u) (V : Type v) where
  node : ℕ
  key : K
  value : V
  height : ℕ

/-- Where a thread is in `internal_insert` or `internal_find`, in front of its
next access.  `inserted` and `present` are the two ways in which an insertion
returns, `result` is the end of a search, and `faulted` a thread whose access
went wrong. -/
inductive Point (K : Type u) (V : Type v)
  | idle
  | getHead (new : Insertion K V)
  | casHead (new : Insertion K V) (new_head : ℕ)
  | loadHeight (new : Insertion K V) (head : ℕ) (arrays : Arrays)
  | fill (new : Insertion K V) (head : ℕ) (arrays : Arrays) (level prev : ℕ)
  | compare (new : Insertion K V) (head : ℕ) (arrays : Arrays)
  | link (new : Insertion K V) (head : ℕ) (arrays : Arrays)
  | loadMax (new : Insertion K V) (arrays : Arrays)
  | raiseMax (new : Insertion K V) (arrays : Arrays) (max_height : ℕ)
  | setNext (new : Insertion K V) (arrays : Arrays) (level : ℕ)
  | linkUpper (new : Insertion K V) (arrays : Arrays) (level : ℕ)
  | refill (new : Insertion K V) (arrays : Arrays) (level lev prev : ℕ)
  | count (new : Insertion K V)
  | inserted (new : Insertion K V)
  | present (key : K) (node : ℕ)
  | findHead (key : K)
  | findHeight (key : K) (head : ℕ)
  | findAt (key : K) (level prev : ℕ)
  | result (key : K) (node : Option ℕ)
  | faulted

/-- The thread is between two calls. -/
def Point.done : Point K V → Bool
  | .idle | .inserted _ | .present _ _ | .result _ _ => true
  | _ => false

/-- In front of the levels from `level` on. -/
def Point.upper (new : Insertion K V) (arrays : Arrays) (level : ℕ) :
    Point K V :=
  if level < new.height then .setNext new arrays level else .count new

/-- The next access of a thread, after which it is at another point.  The
creation of a head is not among them, since it needs an address. -/
def Shared.access [LinearOrder K] (s : Shared K V) :
    Point K V → Option (Shared K V × Point K V)
  | .casHead new new_head =>
      match s.my_head_ptr with
      | none => some ({ s with my_head_ptr := some new_head },
          .loadHeight new new_head .uninitialized)
      | some head => some (s.destroy new_head,
          .loadHeight new head .uninitialized)
  | .loadHeight new head arrays =>
      (arrays.fill s.my_max_height new.height head).map fun arrays =>
        (s, if 0 < s.my_max_height
          then .fill new head arrays (s.my_max_height - 1) head
          else .compare new head arrays)
  | .fill new head arrays level prev =>
      (s.advance new.key level prev).bind fun pass =>
        match pass with
        | .on prev => some (s, .fill new head arrays level prev)
        | .stop curr => (arrays.set level prev curr).map fun arrays =>
            (s, if 0 < level then .fill new head arrays (level - 1) prev
              else .compare new head arrays)
  | .compare new head arrays =>
      (arrays.curr_nodes 0).bind fun next =>
      (s.found new.key next).bind fun found =>
        if found then next.map fun next =>
          (s.destroy new.node, .present new.key next)
        else (s.set_next new.node 0 next).map fun s =>
          (s, .link new head arrays)
  | .link new head arrays =>
      (arrays.prev_nodes 0).bind fun prev =>
      (arrays.curr_nodes 0).bind fun next =>
      (s.exchange prev 0 next (some new.node)).map fun r =>
        (r.1, if r.2 then .loadMax new arrays else .loadHeight new head arrays)
  | .loadMax new arrays => some (s, .raiseMax new arrays s.my_max_height)
  | .raiseMax new arrays max_height =>
      if new.height ≤ max_height then some (s, .upper new arrays 1)
      else if s.my_max_height = max_height then
        some ({ s with my_max_height := new.height }, .upper new arrays 1)
      else some (s, .raiseMax new arrays s.my_max_height)
  | .setNext new arrays level =>
      (arrays.curr_nodes level).bind fun next =>
      (s.set_next new.node level next).map fun s =>
        (s, .linkUpper new arrays level)
  | .linkUpper new arrays level =>
      (arrays.prev_nodes level).bind fun prev =>
      (arrays.curr_nodes level).bind fun next =>
      (s.exchange prev level next (some new.node)).map fun r =>
        (r.1, if r.2 then .upper new arrays (level + 1)
          else .refill new arrays level level prev)
  | .refill new arrays level lev prev =>
      (s.advance new.key lev prev).bind fun pass =>
        match pass with
        | .on prev => some (s, .refill new arrays level lev prev)
        | .stop curr => (arrays.set lev prev curr).bind fun arrays =>
            if lev + 1 < new.height then
              (arrays.prev_nodes (lev + 1)).map fun prev =>
                (s, .refill new arrays level (lev + 1) prev)
            else some (s, .setNext new arrays level)
  | .count new => some ({ s with my_size := s.my_size + 1 }, .inserted new)
  | .findHead key => some (s,
      match s.my_head_ptr with
      | none => .result key none
      | some head => .findHeight key head)
  | .findHeight key head => some (s,
      if 0 < s.my_max_height then .findAt key (s.my_max_height - 1) head
      else .result key none)
  | .findAt key level prev =>
      (s.advance key level prev).bind fun pass =>
        match pass with
        | .on prev => some (s, .findAt key level prev)
        | .stop curr =>
            if 0 < level then some (s, .findAt key (level - 1) prev)
            else match curr with
              | none => some (s, .result key none)
              | some n => (s.get_key n).map fun k =>
                  (s, .result key (if key < k then none else some n))
  | _ => none

/-! ## The system -/

structure State (T : Type w) (K : Type u) (V : Type v) where
  shared : Shared K V
  points : T → Point K V

/-- A thread begins an insertion, for which it allocates a node, or a search, or
makes its next access; `address` is used where that is the creation of a
head. -/
inductive Event (T : Type w) (K : Type u) (V : Type v)
  | insert (t : T) (key : K) (value : V) (address random : ℕ)
  | find (t : T) (key : K)
  | access (t : T) (address : ℕ)

variable [DecidableEq T]

def State.move (s : State T K V) (t : T) (shared : Shared K V)
    (point : Point K V) : State T K V :=
  ⟨shared, Function.update s.points t point⟩

@[simp] theorem State.points_move_self (s : State T K V) (t : T)
    (shared : Shared K V) (point : Point K V) :
    (s.move t shared point).points t = point :=
  Function.update_self _ _ _

theorem State.points_move_of_ne (s : State T K V) {t u : T} (h : u ≠ t)
    (shared : Shared K V) (point : Point K V) :
    (s.move t shared point).points u = s.points u :=
  Function.update_of_ne h _ _

variable [LinearOrder K]

def State.access (s : State T K V) (t : T) (address : ℕ) :
    Option (State T K V) :=
  match s.points t, s.shared.my_head_ptr with
  | .getHead new, some head =>
      some (s.move t s.shared (.loadHeight new head .uninitialized))
  | .getHead new, none =>
      if (s.shared.memory address).isNone then
        some (s.move t
          (s.shared.put address (some (Node.create none max_level)))
          (.casHead new address))
      else none
  | .faulted, _ => none
  | point, _ =>
      if point.done then none
      else match s.shared.access point with
        | none => some (s.move t s.shared .faulted)
        | some (shared, point) => some (s.move t shared point)

def step (s : State T K V) : Event T K V → Option (State T K V)
  | .insert t key value address random =>
      if (s.points t).done ∧ (s.shared.memory address).isNone ∧
          IsMinstdRand random then
        some (s.move t
          (s.shared.put address
            (some (Node.create (some (key, value)) (randomLevel random))))
          (.getHead ⟨address, key, value, randomLevel random⟩))
      else none
  | .find t key =>
      if (s.points t).done then some (s.move t s.shared (.findHead key))
      else none
  | .access t address => s.access t address

/-- The constructed map, which no thread uses yet. -/
def Initial (s : State T K V) : Prop :=
  s.shared = .empty ∧ ∀ t, s.points t = .idle

end Tbb
