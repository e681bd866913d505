import RankingServer.Business.Hub
import RankingServer.Foundation.Transition

/-!
# The shared Redis connection

All threads call `redisCommand` on the one context `mRedis`.  `hiredis.h`
describes such a call: it appends the command to the output buffer; then it
returns an unconsumed reply if the reader has one, and otherwise it flushes the
buffer and reads until there is a reply.  Here each of these accesses is a step
of a thread, and Redis answers the commands in the order in which they were
flushed.

What a thread does with a reply is followed as far as it decides the next
command: `ScoreDataSave` scans the keys and fetches each of them.  The calls are
numbered in the order in which their commands are appended; no step looks at the
numbers.
-/

namespace RankingServer.Business.SharedConnection

open Protocol Transition

/-! ## What threads ask of Redis -/

/-- The functions of `DatabaseWorker` that use the connection. -/
inductive Operation
  | getCachedData (table key : List UInt8)
  | setCachedData (table key jsonString : List UInt8) (ttl : ℕ)
  | scoreDataSave
deriving DecidableEq, Repr

/-- A call of `redisCommand` in one of these functions.  `ScoreDataSave` scans
from a cursor, or fetches a key with the rest of a key list to follow. -/
inductive Task
  | getCachedData (table key : List UInt8)
  | setCachedData (table key jsonString : List UInt8) (ttl : ℕ)
  | scan (cursor : ℤ)
  | fetch (key : List UInt8) (keys : List (List UInt8)) (cursor : ℤ)
deriving DecidableEq, Repr

def Operation.first : Operation → Task
  | getCachedData table key => .getCachedData table key
  | setCachedData table key jsonString ttl =>
      .setCachedData table key jsonString ttl
  | scoreDataSave => .scan 0

namespace Task

/-- The command that the call sends. -/
def command : Task → Command
  | getCachedData table key => .get (cString (cacheKey table key))
  | setCachedData table key jsonString ttl =>
      .set (Business.setCachedData table key jsonString ttl)
  | scan cursor => .scan cursor (ascii "table:Score:*")
  | fetch key _ _ => .get (cString key)

/-- The end of the `do` loop in `ScoreDataSave`. -/
def endBatch (cursor : ℤ) : Option Task :=
  if cursor = 0 then none else some (scan cursor)

/-- The `for` loop in `ScoreDataSave`. -/
def fetchNext (cursor : ℤ) : List (List UInt8) → Option Task
  | [] => endBatch cursor
  | key :: keys => some (fetch key keys cursor)

/-- The next call after a reply; `prepared` says that `SQLPrepare` succeeds. -/
def next (prepared : Bool) : Task → RedisReply → Option Task
  | getCachedData _ _, _ | setCachedData _ _ _ _, _ => none
  | scan _, .array cursor keys =>
      (stoi cursor).bind fun cursor => fetchNext cursor keys
  | scan _, .string _ | scan _, .nil | scan _, .status => none
  | fetch _ keys cursor, .string _ =>
      -- otherwise `break` leaves the `for` loop
      if prepared then fetchNext cursor keys else endBatch cursor
  | fetch _ keys cursor, .nil | fetch _ keys cursor, .status
  | fetch _ keys cursor, .array _ _ => fetchNext cursor keys

end Task

/-! ## The system -/

/-- How far a call of `redisCommand` has come. -/
inductive Progress
  | appended
  | flushing
  | reading
  | received
deriving DecidableEq, Repr

inductive Thread
  | idle
  | ready (task : Task)
  | calling (task : Task) (number : ℕ) (progress : Progress)
deriving DecidableEq, Repr

/-- A call of `redisCommand` whose command was appended. -/
structure Call (n : ℕ) where
  thread : Fin n
  number : ℕ
  command : Command
deriving DecidableEq, Repr

/-- The reply to the command of a call, given when Redis held `store`. -/
structure Answer (n : ℕ) where
  call : Call n
  store : Store
  cursor : ℕ
  keys : List (List UInt8)

def Answer.reply {n : ℕ} (answer : Answer n) : RedisReply :=
  answer.call.command.answer answer.store answer.cursor answer.keys

/-- The output buffer, the commands on their way to Redis, the replies on their
way back, and the unconsumed replies of the reader; `returned` records which
reply each finished call got, newest first. -/
structure State (n : ℕ) where
  obuf : List (Call n)
  flushed : List (Call n)
  answered : List (Answer n)
  reader : List (Answer n)
  store : Store
  threads : Fin n → Thread
  issued : ℕ
  returned : List (Call n × Answer n)

/-- Events.  `count` is the number of replies that come in with one read beyond
the first; an entry expires at any time. -/
inductive Event (n : ℕ)
  | start (w : Fin n) (operation : Operation)
  | append (w : Fin n)
  | getReply (w : Fin n) (prepared : Bool)
  | bufferWrite (w : Fin n)
  | bufferRead (w : Fin n) (count : ℕ)
  | serve (cursor : ℕ) (keys : List (List UInt8))
  | expire (key : List UInt8)
deriving DecidableEq, Repr

/-- The connection before its first command. -/
def connected (n : ℕ) (store : Store) : State n where
  obuf := []
  flushed := []
  answered := []
  reader := []
  store := store
  threads := fun _ => .idle
  issued := 0
  returned := []

namespace State

variable {n : ℕ}

def setThread (s : State n) (w : Fin n) (next : Thread) : State n :=
  { s with threads := Function.update s.threads w next }

/-- The call of the thread ends with the first unconsumed reply. -/
def endCall (s : State n) (w : Fin n) (task : Task) (number : ℕ)
    (prepared : Bool) (answer : Answer n) (rest : List (Answer n)) : State n :=
  { s.setThread w
      ((task.next prepared answer.reply).elim .idle .ready) with
    reader := rest
    returned := (⟨w, number, task.command⟩, answer) :: s.returned }

/-- `redisAppendCommand` -/
def append (w : Fin n) (s : State n) : Option (State n) :=
  match s.threads w with
  | .ready task => some
      { s.setThread w (.calling task s.issued .appended) with
        obuf := s.obuf ++ [⟨w, s.issued, task.command⟩]
        issued := s.issued + 1 }
  | _ => none

/-- `redisGetReplyFromReader`, before the buffer is flushed and after each
read. -/
def getReply (w : Fin n) (prepared : Bool) (s : State n) : Option (State n) :=
  match s.threads w, s.reader with
  | .calling task number .appended, [] =>
      some (s.setThread w (.calling task number .flushing))
  | .calling task number .received, [] =>
      some (s.setThread w (.calling task number .reading))
  | .calling task number .appended, answer :: rest
  | .calling task number .received, answer :: rest =>
      some (s.endCall w task number prepared answer rest)
  | _, _ => none

/-- `redisBufferWrite` -/
def bufferWrite (w : Fin n) (s : State n) : Option (State n) :=
  match s.threads w with
  | .calling task number .flushing => some
      { s.setThread w (.calling task number .reading) with
        obuf := []
        flushed := s.flushed ++ s.obuf }
  | _ => none

/-- `redisBufferRead`, which waits until something can be read. -/
def bufferRead (w : Fin n) (count : ℕ) (s : State n) : Option (State n) :=
  match s.threads w with
  | .calling task number .reading =>
      if count < s.answered.length then some
        { s.setThread w (.calling task number .received) with
          answered := s.answered.drop (count + 1)
          reader := s.reader ++ s.answered.take (count + 1) }
      else none
  | _ => none

/-- Redis executes a command. -/
def serve (cursor : ℕ) (keys : List (List UInt8)) (s : State n) :
    Option (State n) :=
  match s.flushed with
  | [] => none
  | call :: rest => some
      { s with
        flushed := rest
        answered := s.answered ++ [⟨call, s.store, cursor, keys⟩]
        store := call.command.execute s.store }

def step (s : State n) : Event n → Option (State n)
  | .start w operation =>
      match s.threads w with
      | .idle => some (s.setThread w (.ready operation.first))
      | _ => none
  | .append w => s.append w
  | .getReply w prepared => s.getReply w prepared
  | .bufferWrite w => s.bufferWrite w
  | .bufferRead w count => s.bufferRead w count
  | .serve cursor keys => s.serve cursor keys
  | .expire key => some { s with store := Function.update s.store key none }

end State

/-! ## Commands in progress -/

/-- The call that a thread is in. -/
def Thread.call {n : ℕ} (w : Fin n) : Thread → Option (Call n)
  | idle | ready _ => none
  | calling task number _ => some ⟨w, number, task.command⟩

namespace State

variable {n : ℕ}

/-- The call in progress on a thread. -/
def callOf (s : State n) (w : Fin n) : Option (Call n) := (s.threads w).call w

/-- The calls whose replies are still to be consumed, in the order in which
they will be. -/
def pending (s : State n) : List (Call n) :=
  s.reader.map Answer.call ++ (s.answered.map Answer.call ++
    (s.flushed ++ s.obuf))

end State

/-- What a step does to the calls: nothing, or it appends the command of a call,
or it ends a call with the first pending reply. -/
inductive Effect {n : ℕ} (s s' : State n) : Event n → Prop
  | silent {e : Event n} :
      (∀ w prepared, e = .getReply w prepared → s.reader = []) →
        s'.pending = s.pending → s'.callOf = s.callOf → s'.issued = s.issued →
        s'.returned = s.returned → Effect s s' e
  | append {w : Fin n} {command : Command} :
      s.callOf w = none →
        s'.pending = s.pending ++ [⟨w, s.issued, command⟩] →
        s'.callOf =
          Function.update s.callOf w (some ⟨w, s.issued, command⟩) →
        s'.issued = s.issued + 1 → s'.returned = s.returned →
        Effect s s' (.append w)
  | take {w : Fin n} {prepared : Bool} {call : Call n} {answer : Answer n} :
      s.reader ≠ [] → s.callOf w = some call →
        s.pending = answer.call :: s'.pending →
        s'.callOf = Function.update s.callOf w none → s'.issued = s.issued →
        s'.returned = (call, answer) :: s.returned →
        Effect s s' (.getReply w prepared)

variable {n : ℕ} {s s' : State n} {e : Event n}

theorem callOf_setThread (s : State n) (w : Fin n) (next : Thread) :
    (s.setThread w next).callOf =
      Function.update s.callOf w (next.call w) := by
  funext v
  by_cases hvw : v = w
  · subst hvw
    simp [State.callOf, State.setThread]
  · simp [State.callOf, State.setThread, hvw]

/-- A thread that goes on within its call. -/
theorem callOf_setThread_of_eq {w : Fin n} {next : Thread}
    (h : next.call w = s.callOf w) :
    (s.setThread w next).callOf = s.callOf := by
  rw [callOf_setThread, h, Function.update_eq_self]

theorem effect_of_append {w : Fin n} (h : s.append w = some s') :
    Effect s s' (.append w) := by
  unfold State.append at h
  cases hthread : s.threads w with
  | ready task =>
      simp only [hthread, Option.some.injEq] at h
      subst h
      have hidle : s.callOf w = none := by
        simp [State.callOf, hthread, Thread.call]
      refine .append hidle ?_ (callOf_setThread s w _) rfl rfl
      simp [State.pending, State.setThread]
  | idle | calling => simp [hthread] at h

theorem call_elim_ready (w : Fin n) (next : Option Task) :
    (next.elim Thread.idle Thread.ready).call w = none := by
  cases next <;> rfl

theorem effect_of_endCall {w : Fin n} {prepared : Bool} {task : Task}
    {number : ℕ} {progress : Progress} {answer : Answer n}
    {rest : List (Answer n)}
    (hthread : s.threads w = .calling task number progress)
    (hreader : s.reader = answer :: rest) :
    Effect s (s.endCall w task number prepared answer rest)
      (.getReply w prepared) := by
  have hbusy : s.callOf w = some ⟨w, number, task.command⟩ := by
    simp [State.callOf, hthread, Thread.call]
  have hpending : s.pending = answer.call ::
      (s.endCall w task number prepared answer rest).pending := by
    simp [State.pending, hreader, State.endCall, State.setThread]
  refine .take (by simp [hreader]) hbusy hpending ?_ rfl rfl
  exact (callOf_setThread s w _).trans (by rw [call_elim_ready])

theorem effect_of_getReply {w : Fin n} {prepared : Bool}
    (h : s.getReply w prepared = some s') :
    Effect s s' (.getReply w prepared) := by
  have hon {task : Task} {number : ℕ} {progress progress' : Progress}
      (hthread : s.threads w = .calling task number progress)
      (hreader : s.reader = []) :
      Effect s (s.setThread w (.calling task number progress'))
        (.getReply w prepared) := by
    refine .silent (fun _ _ _ => hreader) rfl (callOf_setThread_of_eq ?_)
      rfl rfl
    rw [State.callOf, hthread]
    rfl
  unfold State.getReply at h
  split at h
  · next hthread hreader =>
      simp only [Option.some.injEq] at h
      exact h ▸ hon hthread hreader
  · next hthread hreader =>
      simp only [Option.some.injEq] at h
      exact h ▸ hon hthread hreader
  · next hthread hreader =>
      simp only [Option.some.injEq] at h
      exact h ▸ effect_of_endCall hthread hreader
  · next hthread hreader =>
      simp only [Option.some.injEq] at h
      exact h ▸ effect_of_endCall hthread hreader
  · cases h

theorem effect_of_bufferWrite {w : Fin n} (h : s.bufferWrite w = some s') :
    Effect s s' (.bufferWrite w) := by
  unfold State.bufferWrite at h
  split at h
  · next hthread =>
      simp only [Option.some.injEq] at h
      subst h
      refine .silent (by simp) ?_ (callOf_setThread_of_eq ?_) rfl rfl
      · simp [State.pending, State.setThread]
      · rw [State.callOf, hthread]
        rfl
  · cases h

theorem effect_of_bufferRead {w : Fin n} {count : ℕ}
    (h : s.bufferRead w count = some s') :
    Effect s s' (.bufferRead w count) := by
  unfold State.bufferRead at h
  split at h
  · next hthread =>
      split at h
      · simp only [Option.some.injEq] at h
        subst h
        refine .silent (by simp) ?_ (callOf_setThread_of_eq ?_) rfl rfl
        · have hsplit := List.take_append_drop (count + 1)
            (s.answered.map Answer.call)
          simp only [State.pending, State.setThread, List.map_append,
            List.map_take, List.map_drop, List.append_assoc]
          rw [← List.append_assoc (List.take _ _), hsplit]
        · rw [State.callOf, hthread]
          rfl
      · cases h
  · cases h

theorem effect_of_serve {cursor : ℕ} {keys : List (List UInt8)}
    (h : s.serve cursor keys = some s') : Effect s s' (.serve cursor keys) := by
  unfold State.serve at h
  split at h
  · cases h
  · next hflushed =>
      simp only [Option.some.injEq] at h
      subst h
      exact .silent (by simp) (by simp [State.pending, hflushed]) rfl rfl rfl

theorem State.effect (h : s.step e = some s') : Effect s s' e := by
  cases e with
  | start w operation =>
      simp only [State.step] at h
      split at h
      · next hthread =>
          simp only [Option.some.injEq] at h
          subst h
          refine .silent (by simp) rfl (callOf_setThread_of_eq ?_) rfl rfl
          rw [State.callOf, hthread]
          rfl
      · cases h
  | append w => exact effect_of_append h
  | getReply w prepared => exact effect_of_getReply h
  | bufferWrite w => exact effect_of_bufferWrite h
  | bufferRead w count => exact effect_of_bufferRead h
  | serve cursor keys => exact effect_of_serve h
  | expire key =>
      simp only [State.step, Option.some.injEq] at h
      subst h
      exact .silent (by simp) rfl rfl rfl rfl

/-! ## Replies to the right call -/

/-- The command with which `Response_PlayerRanking` asks for a player. -/
def rankingQuery (playerId : List UInt8) : Command :=
  .get (cString (cacheKey (ascii "Ranking") playerId))

/-- Every call got the reply to its own command; in particular a ranking
response is built from the entry of its own player. -/
structure OwnReplies (s : State n) : Prop where
  replies : ∀ call answer, (call, answer) ∈ s.returned → answer.call = call
  rankings : ∀ call answer socketId playerId,
    (call, answer) ∈ s.returned → call.command = rankingQuery playerId →
      Hub.response_PlayerRanking answer.reply.value socketId playerId =
        Hub.response_PlayerRanking
          (answer.store (cString (cacheKey (ascii "Ranking") playerId)))
          socketId playerId

theorem ownReplies_iff :
    OwnReplies s ↔
      ∀ call answer, (call, answer) ∈ s.returned → answer.call = call := by
  refine ⟨OwnReplies.replies, fun h => ⟨h, ?_⟩⟩
  intro call answer socketId playerId hreturned hcommand
  have hown := h call answer hreturned
  have hvalue : answer.reply.value =
      answer.store (cString (cacheKey (ascii "Ranking") playerId)) := by
    rw [Answer.reply, hown, hcommand, rankingQuery, Command.value_answer_get]
  rw [hvalue]

/-- A call takes a reply only while no command that was appended before its own
is in progress. -/
def TakesInOrder (s : State n) : Event n → Prop
  | .getReply w _ => s.reader ≠ [] →
      ∀ call, s.callOf w = some call →
        ∀ v other, s.callOf v = some other → call.number ≤ other.number
  | _ => True

/-- The pending calls are in the order of their numbers, and as long as every
call got its own reply they are the calls in progress. -/
structure Inv (s : State n) : Prop where
  sorted : s.pending.Pairwise fun call other => call.number < other.number
  bounded : ∀ call ∈ s.pending, call.number < s.issued
  thread : ∀ w call, s.callOf w = some call → call.thread = w
  matched : OwnReplies s → ∀ call,
    call ∈ s.pending ↔ s.callOf call.thread = some call

theorem inv_connected (n : ℕ) (store : Store) : Inv (connected n store) where
  sorted := List.Pairwise.nil
  bounded _ hcall := absurd hcall List.not_mem_nil
  thread := by rintro _ _ ⟨⟩
  matched _ _ := ⟨(absurd · List.not_mem_nil), by rintro ⟨⟩⟩

theorem OwnReplies.of_returned (h : OwnReplies s')
    (hreturned : ∀ r ∈ s.returned, r ∈ s'.returned) : OwnReplies s :=
  ownReplies_iff.mpr fun call answer hmem =>
    h.replies call answer (hreturned _ hmem)

theorem Inv.step (hs : Inv s) (h : Effect s s' e) : Inv s' := by
  cases h with
  | silent hreader hpending hcall hissued hreturned =>
      refine ⟨hpending ▸ hs.sorted, hpending ▸ hissued ▸ hs.bounded,
        hcall ▸ hs.thread, fun hown => ?_⟩
      rw [hpending, hcall]
      exact hs.matched (hown.of_returned (by simp [hreturned]))
  | @append w command hidle hpending hcall hissued hreturned =>
      constructor
      · rw [hpending, List.pairwise_append]
        refine ⟨hs.sorted, List.pairwise_singleton _ _,
          fun call hmem new hnew => ?_⟩
        obtain rfl := List.mem_singleton.mp hnew
        exact hs.bounded call hmem
      · intro call hmem
        rw [hissued]
        rw [hpending, List.mem_append, List.mem_singleton] at hmem
        rcases hmem with hmem | rfl
        · exact Nat.lt_succ_of_lt (hs.bounded call hmem)
        · exact Nat.lt_succ_self _
      · intro v call hv
        rw [hcall] at hv
        by_cases hvw : v = w
        · subst hvw
          rw [Function.update_self, Option.some.injEq] at hv
          exact hv ▸ rfl
        · exact hs.thread v call (by rwa [Function.update_of_ne hvw] at hv)
      · intro hown call
        have hmatched :=
          hs.matched (hown.of_returned (by simp [hreturned])) call
        rw [hpending, hcall, List.mem_append, List.mem_singleton]
        by_cases hthread : call.thread = w
        · rw [hthread, hidle] at hmatched
          rw [hthread, Function.update_self, Option.some.injEq, hmatched]
          exact ⟨fun h => h.elim (by simp) Eq.symm, fun h => Or.inr h.symm⟩
        · rw [Function.update_of_ne hthread, hmatched]
          refine ⟨fun h => h.resolve_right ?_, Or.inl⟩
          rintro rfl
          exact hthread rfl
  | @take w prepared call answer hreader hbusy hpending hcall hissued
      hreturned =>
      have hsorted := hs.sorted
      rw [hpending, List.pairwise_cons] at hsorted
      obtain ⟨hfirst, hrest⟩ := hsorted
      constructor
      · exact hrest
      · intro other hmem
        rw [hissued]
        exact hs.bounded other (hpending ▸ List.mem_cons_of_mem _ hmem)
      · intro v other hv
        rw [hcall] at hv
        by_cases hvw : v = w
        · subst hvw
          rw [Function.update_self] at hv
          cases hv
        · exact hs.thread v other (by rwa [Function.update_of_ne hvw] at hv)
      · intro hown other
        have hanswer : answer.call = call :=
          hown.replies call answer (by simp [hreturned])
        have hmatched := hs.matched
          (hown.of_returned fun r hr => by simp [hreturned, hr]) other
        rw [hpending, hanswer, List.mem_cons] at hmatched
        rw [hanswer] at hfirst
        rw [hcall]
        by_cases hthread : other.thread = w
        · rw [hthread, hbusy, Option.some.injEq] at hmatched
          rw [hthread, Function.update_self]
          refine ⟨fun hmem => ?_, (by simp)⟩
          obtain rfl := hmatched.mp (Or.inr hmem)
          exact absurd (hfirst call hmem) (lt_irrefl _)
        · rw [Function.update_of_ne hthread, ← hmatched]
          refine ⟨Or.inr, fun h => h.resolve_left ?_⟩
          rintro rfl
          exact hthread (hs.thread w other hbusy)

/-- Among calls in progress the one that was appended first has the first
pending reply. -/
theorem Inv.answer_eq_iff (hs : Inv s) (hown : OwnReplies s) {w : Fin n}
    {call first : Call n} {rest : List (Call n)}
    (hbusy : s.callOf w = some call) (hpending : s.pending = first :: rest) :
    first = call ↔
      ∀ v other, s.callOf v = some other → call.number ≤ other.number := by
  have hsorted := hs.sorted
  rw [hpending, List.pairwise_cons] at hsorted
  have hmem {v : Fin n} {other : Call n} (hv : s.callOf v = some other) :
      other = first ∨ other ∈ rest := by
    have hthread := hs.thread v other hv
    rw [← List.mem_cons, ← hpending, hs.matched hown, hthread]
    exact hv
  constructor
  · rintro rfl v other hv
    rcases hmem hv with rfl | hrest
    · exact le_rfl
    · exact (hsorted.1 other hrest).le
  · intro hleast
    have hfirst : s.callOf first.thread = some first := by
      rw [← hs.matched hown, hpending]
      exact List.mem_cons_self
    have hle := hleast first.thread first hfirst
    rcases hmem hbusy with heq | hrest
    · exact heq.symm
    · exact absurd (hsorted.1 call hrest) (not_lt.mpr hle)

theorem ownReplies_step_iff (hs : Inv s) (hown : OwnReplies s)
    (h : Effect s s' e) : OwnReplies s' ↔ TakesInOrder s e := by
  cases h with
  | silent hreader hpending hcall hissued hreturned =>
      have hguard : TakesInOrder s e := by
        cases e with
        | getReply w prepared =>
            exact fun hne => absurd (hreader w prepared rfl) hne
        | start | append | bufferWrite | bufferRead | serve | expire => trivial
      refine ⟨fun _ => hguard, fun _ => ownReplies_iff.mpr ?_⟩
      rw [hreturned]
      exact hown.replies
  | append hidle hpending hcall hissued hreturned =>
      refine ⟨fun _ => trivial, fun _ => ownReplies_iff.mpr ?_⟩
      rw [hreturned]
      exact hown.replies
  | @take w prepared call answer hreader hbusy hpending hcall hissued
      hreturned =>
      have htake := hs.answer_eq_iff hown hbusy hpending
      constructor
      · intro hown' _ call' hbusy'
        obtain rfl := Option.some.inj (hbusy.symm.trans hbusy')
        exact htake.mp (hown'.replies call answer (by simp [hreturned]))
      · intro hguard
        have hanswer := htake.mpr (hguard hreader call hbusy)
        refine ownReplies_iff.mpr fun call' answer' hmem => ?_
        rw [hreturned, List.mem_cons, Prod.mk.injEq] at hmem
        rcases hmem with ⟨rfl, rfl⟩ | hmem
        · exact hanswer
        · exact hown.replies call' answer' hmem

/-- Along every run, every call gets the reply to its own command exactly when
replies are taken in the order in which the commands were appended. -/
theorem ownReplies_iff_takesInOrder (n : ℕ) (store : Store)
    (es : List (Event n)) :
    Throughout State.step OwnReplies (connected n store) es ↔
      Every State.step TakesInOrder (connected n store) es := by
  refine throughout_iff_every
    (fun s e s' (hs : Inv s) hstep => hs.step (State.effect hstep))
    (fun s e s' hs hown hstep => ?_) (inv_connected n store) ?_ es
  · exact ownReplies_step_iff hs hown (State.effect hstep)
  · exact ownReplies_iff.mpr fun _ _ hr => absurd hr List.not_mem_nil

/-- A cache with the rankings of the players `A` and `B`. -/
def twoRankings : Store := fun key =>
  if key = ascii "table:Ranking:A" then
    Json.dump (Data_Ranking.toJson 1 (ascii "A") 100)
  else if key = ascii "table:Ranking:B" then
    Json.dump (Data_Ranking.toJson 2 (ascii "B") 90)
  else none

/-- Thread `v` appends the command for `A`, thread `w` that for `B`; thread `w`
flushes both, reads both replies and takes the first one. -/
def overlap (v w : Fin 2) : List (Event 2) :=
  [.start v (.getCachedData (ascii "Ranking") (ascii "A")),
    .start w (.getCachedData (ascii "Ranking") (ascii "B")),
    .append v, .append w, .getReply w true, .bufferWrite w, .serve 0 [],
    .serve 0 [], .bufferRead w 1, .getReply w true]

/-- The response for `B` carries the rank and the score of `A`. -/
theorem not_ownReplies_of_overlap :
    ¬ ∀ (store : Store) (es : List (Event 2)),
      Throughout State.step OwnReplies (connected 2 store) es := by
  have hruns : ∃ s ∈ run State.step (connected 2 twoRankings) (overlap 0 1),
      ∃ r ∈ s.returned, r.1.command = rankingQuery (ascii "B") ∧
        Hub.response_PlayerRanking r.2.reply.value 1 (ascii "B") ≠
          Hub.response_PlayerRanking
            (r.2.store (cString (cacheKey (ascii "Ranking") (ascii "B"))))
            1 (ascii "B") := by
    decide +kernel
  obtain ⟨s, hrun, ⟨call, answer⟩, hmem, hcommand, hdiffers⟩ := hruns
  intro hall
  have hown := (hall twoRankings (overlap 0 1)).last hrun
  exact hdiffers (hown.rankings call answer 1 (ascii "B") hmem hcommand)

end RankingServer.Business.SharedConnection
