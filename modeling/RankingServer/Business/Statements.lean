import RankingServer.Foundation.Handles
import RankingServer.Foundation.Transition
import RankingServer.Business.Save

/-!
# The statement handle of the database worker

`DatabaseWorker` keeps one ODBC statement handle, `mHstmt`.  `Initalize`
allocates it, the loads close its cursor before they execute their query,
`ScoreDataSave` frees it and allocates another one for every entry, and
`RankingUpdate` allocates another one without freeing it.  Between two calls on
the handle lie only Redis commands and computations.

The calls follow the ODBC documentation: an allocation yields a handle that is
not live, a successful query opens a cursor, `SQL_CLOSE` closes it, and freeing
a handle closes what is open on it.  `Initalize` is taken to reach the database,
and allocations to succeed.

The last section compares the calls of `ScoreDataSave` with the loop that
`RankingServer.Business.Save` is about.
-/

namespace RankingServer.Business.Statements

open Transition
open Handles (Status)

/-! ## The methods, call by call -/

/-- The `SELECT` statements, in the order in which `DataLoadInSQL` executes
them; `RankingDataLoad` executes the last one. -/
inductive Query
  | tables
  | score
  | ranking

/-- The number of columns that a load reads from a row. -/
def Query.columns : Query → ℕ
  | .tables => 1
  | .score => 3
  | .ranking => 3

/-- A load in front of the call it makes next. -/
inductive Loading
  | freeStmt
  | execDirect
  | fetch
  | getData (column : ℕ)

/-- `ScoreDataSave` in front of the call or the command it issues next.  `str`
is the entry and `data` what is parsed of it, `keys` are the keys left in the
`for` loop, and `cursor` is the one from which the `do` loop goes on. -/
inductive Saving
  | scan (cursor : ℤ)
  | get (key : List UInt8) (keys : List (Option (List UInt8))) (cursor : ℤ)
  | freeHandle (str : List UInt8) (keys : List (Option (List UInt8)))
      (cursor : ℤ)
  | allocHandle (str : List UInt8) (keys : List (Option (List UInt8)))
      (cursor : ℤ)
  | prepare (str : List UInt8) (keys : List (Option (List UInt8)))
      (cursor : ℤ)
  | bindParameter (number : ℕ) (data : Data_Score)
      (keys : List (Option (List UInt8))) (cursor : ℤ)
  | execute (data : Data_Score) (keys : List (Option (List UInt8)))
      (cursor : ℤ)

inductive Updating
  | allocHandle
  | execDirect

/-- `sleep` is the head of the loop in `Hub::Work`; `thrown` is a `Work` that
was left by an exception. -/
inductive Point
  | initalize
  | load (query : Query) (loading : Loading)
  | sleep
  | save (saving : Saving)
  | update (updating : Updating)
  | thrown

/-- A reply to `SCAN` that passes the check: the next cursor and the list of
keys, if the second element is an array.  A key is `none` where the element has
no text. -/
structure ScanAnswer where
  cursor : ℕ
  keyList : Option (List (Option (List UInt8)))

def SQL_SUCCESS : ℤ := 0

def SQL_SUCCESS_WITH_INFO : ℤ := 1

def succeeded (ret : ℤ) : Bool :=
  ret = SQL_SUCCESS ∨ ret = SQL_SUCCESS_WITH_INFO

/-- What the worker goes on with: a new handle, the `SQLRETURN` of a call, the
end of a call whose result is not looked at, the end of the sleep, or the reply
to a Redis command.  A failing `SCAN` and a `GET` that yields no string are
`none`. -/
inductive Event
  | allocated (handle : ℕ)
  | returned (ret : ℤ)
  | done
  | wake
  | scanned (answer : Option ScanAnswer)
  | got (str : Option (List UInt8))

/-- Where the worker goes on after a query or its last row. -/
def Query.after : Query → Point
  | .tables => .load .score .freeStmt
  | .score => .load .ranking .freeStmt
  | .ranking => .sleep

def Loading.next (query : Query) : Loading → Event → Option Point
  | .freeStmt, .done => some (.load query .execDirect)
  | .execDirect, .returned ret =>
      some (if succeeded ret then .load query .fetch else query.after)
  | .fetch, .returned ret =>
      some (if ret = SQL_SUCCESS then .load query (.getData 1)
        else query.after)
  | .getData column, .done =>
      some (if column < query.columns then .load query (.getData (column + 1))
        else .load query .fetch)
  | _, _ => none

/-- After the `for` loop, or a `break` out of it. -/
def afterKeys (cursor : ℤ) : Point :=
  if cursor = 0 then .update .allocHandle else .save (.scan cursor)

/-- The `for` loop skips the elements without a text. -/
def forKeys (cursor : ℤ) : List (Option (List UInt8)) → Point
  | [] => afterKeys cursor
  | none :: keys => forKeys cursor keys
  | some key :: keys => .save (.get key keys cursor)

def Saving.next : Saving → Event → Option Point
  | .scan _, .scanned none => some (.update .allocHandle)
  | .scan _, .scanned (some answer) =>
      some (match stoi answer.cursor with
        | none => .thrown
        | some cursor => forKeys cursor (answer.keyList.getD []))
  | .get _ keys cursor, .got none => some (forKeys cursor keys)
  | .get _ keys cursor, .got (some str) =>
      some (.save (.freeHandle str keys cursor))
  | .freeHandle str keys cursor, .done =>
      some (.save (.allocHandle str keys cursor))
  | .allocHandle str keys cursor, .allocated _ =>
      some (.save (.prepare str keys cursor))
  | .prepare str keys cursor, .returned ret =>
      some (if succeeded ret then
          match readScore (some str) with
          | some (some data) => .save (.bindParameter 1 data keys cursor)
          | _ => .thrown
        else afterKeys cursor)
  | .bindParameter number data keys cursor, .done =>
      some (.save (if number < 3
        then .bindParameter (number + 1) data keys cursor
        else .execute data keys cursor))
  | .execute _ keys cursor, .returned _ => some (forKeys cursor keys)
  | _, _ => none

def Updating.next : Updating → Event → Option Point
  | .allocHandle, .allocated _ => some (.update .execDirect)
  | .execDirect, .returned _ => some (.load .ranking .freeStmt)
  | _, _ => none

/-- `Hub::Initialize` calls `Initalize` and `DataLoadInSQL`; each round of
`Hub::Work` calls `ScoreDataSave`, `RankingUpdate` and `RankingDataLoad`. -/
def Point.next : Point → Event → Option Point
  | .initalize, .allocated _ => some (.load .tables .execDirect)
  | .load query loading, e => loading.next query e
  | .sleep, .wake => some (.save (.scan 0))
  | .save saving, e => saving.next e
  | .update updating, e => updating.next e
  | _, _ => none

/-! ## The calls -/

/-- The calls on the statement handle.  `execDirect` tells whether the statement
is a query, which returns rows; the procedure `UpdateRanking` and the `MERGE` of
`execute` return no rows.  `other` is a Redis command, the sleep, or the end. -/
inductive Call
  | other
  | allocHandle
  | freeHandle
  | freeStmt
  | prepare
  | bindParameter
  | execute
  | execDirect (query : Bool)
  | fetch
  | getData

def Loading.call : Loading → Call
  | .freeStmt => .freeStmt
  | .execDirect => .execDirect true
  | .fetch => .fetch
  | .getData _ => .getData

def Saving.call : Saving → Call
  | .scan _ | .get _ _ _ => .other
  | .freeHandle _ _ _ => .freeHandle
  | .allocHandle _ _ _ => .allocHandle
  | .prepare _ _ _ => .prepare
  | .bindParameter _ _ _ _ => .bindParameter
  | .execute _ _ _ => .execute

def Updating.call : Updating → Call
  | .allocHandle => .allocHandle
  | .execDirect => .execDirect false

/-- The call that is made next. -/
def Point.call : Point → Call
  | .initalize => .allocHandle
  | .load _ loading => loading.call
  | .sleep => .other
  | .save saving => saving.call
  | .update updating => updating.call
  | .thrown => .other

/-- What the handle has to be for a call: live, and without an open cursor where
a statement is prepared or executed. -/
def Call.needs : Call → Status
  | .other | .allocHandle => .any
  | .prepare | .execute | .execDirect _ => .idle
  | .freeHandle | .freeStmt | .bindParameter | .fetch | .getData => .live

/-- The handles after a call, and `mHstmt`. -/
def Call.perform (handles : Handles ℕ) (mHstmt : ℕ) :
    Call → Event → Option (Handles ℕ × ℕ)
  | .allocHandle, .allocated handle =>
      if handle ∈ handles.live then none
      else some (handles.alloc handle, handle)
  | .allocHandle, _ => none
  | .freeHandle, _ => some (handles.free mHstmt, mHstmt)
  | .freeStmt, _ => some (handles.release mHstmt, mHstmt)
  | .execDirect true, .returned ret =>
      some (if succeeded ret then handles.occupy mHstmt else handles, mHstmt)
  | _, _ => some (handles, mHstmt)

structure State where
  handles : Handles ℕ
  mHstmt : ℕ
  point : Point

def State.step (s : State) (e : Event) : Option State :=
  (s.point.next e).bind fun point =>
    (s.point.call.perform s.handles s.mHstmt e).map fun r =>
      ⟨r.1, r.2, point⟩

/-- The constructor does not set `mHstmt`. -/
def State.initial (mHstmt : ℕ) : State := ⟨.empty, mHstmt, .initalize⟩

/-- The call that is made next finds the handle as it needs it. -/
def Proper (s : State) : Prop :=
  s.handles.Meets s.mHstmt s.point.call.needs

/-- The discipline of the handle: no call uses a handle that is not live, none
prepares or executes a statement while a cursor is open, and at most one handle
is live. -/
structure Disciplined (s : State) : Prop where
  proper : Proper s
  single : s.handles.live.card ≤ 1

/-- The step is not the allocation in `RankingUpdate`. -/
def KeepsHandle (s : State) (_ : Event) : Prop :=
  s.point ≠ .update .allocHandle

/-! ## What is known of the handle at each point -/

def Loading.status : Loading → Status
  | .freeStmt => .live
  | .execDirect => .idle
  | .fetch => .live
  | .getData _ => .live

def Saving.status : Saving → Status
  | .scan _ | .get _ _ _ | .freeHandle _ _ _ => .live
  | .allocHandle _ _ _ => .freed
  | .prepare _ _ _ | .bindParameter _ _ _ _ | .execute _ _ _ => .idle

def Updating.status : Updating → Status
  | .allocHandle => .live
  | .execDirect => .idle

def Point.status : Point → Status
  | .initalize => .freed
  | .load _ loading => loading.status
  | .sleep => .live
  | .save saving => saving.status
  | .update updating => updating.status
  | .thrown => .live

/-- What a call makes of the handle. -/
def Call.ensures (status : Status) : Call → Status
  | .allocHandle | .freeStmt => .idle
  | .freeHandle => .freed
  | .execDirect true => .live
  | _ => status

/-- The invariant: the handle is what the point says. -/
def Inv (s : State) : Prop := s.handles.Meets s.mHstmt s.point.status

theorem needs_of_status (point : Point) :
    point.status.Implies point.call.needs := by
  cases point with
  | load query loading => cases loading <;> trivial
  | save saving => cases saving <;> trivial
  | update updating => cases updating <;> trivial
  | _ => trivial

theorem Inv.proper {s : State} (hs : Inv s) : Proper s :=
  hs.of_implies (needs_of_status s.point)

theorem inv_initial (mHstmt : ℕ) : Inv (.initial mHstmt) :=
  Finset.notMem_empty mHstmt

/-! ### The control flow -/

theorem status_after (query : Query) : query.after.status = .live := by
  cases query <;> rfl

theorem status_afterKeys (cursor : ℤ) : (afterKeys cursor).status = .live := by
  unfold afterKeys
  split <;> rfl

theorem status_forKeys (cursor : ℤ) (keys : List (Option (List UInt8))) :
    (forKeys cursor keys).status = .live := by
  induction keys with
  | nil => exact status_afterKeys cursor
  | cons key keys ih =>
      cases key with
      | none => exact ih
      | some key => rfl

theorem Loading.status_next {query : Query} {loading : Loading} {e : Event}
    {point : Point} (h : loading.next query e = some point) :
    (loading.call.ensures loading.status).Implies point.status := by
  cases loading with
  | freeStmt => cases e <;> cases h; trivial
  | execDirect =>
      cases e <;> cases h
      split
      · trivial
      · rw [status_after]
        trivial
  | fetch =>
      cases e <;> cases h
      split
      · trivial
      · rw [status_after]
        trivial
  | getData column =>
      cases e <;> cases h
      split <;> trivial

theorem Saving.status_next {saving : Saving} {e : Event} {point : Point}
    (h : saving.next e = some point) :
    (saving.call.ensures saving.status).Implies point.status := by
  cases saving with
  | scan cursor =>
      cases e with
      | scanned answer =>
          cases answer with
          | none => cases h; trivial
          | some answer =>
              cases h
              cases stoi answer.cursor with
              | none => trivial
              | some cursor =>
                  change Status.Implies .live (Point.status (forKeys _ _))
                  rw [status_forKeys]
                  trivial
      | _ => cases h
  | get key keys cursor =>
      cases e with
      | got str =>
          cases str with
          | none =>
              cases h
              rw [status_forKeys]
              trivial
          | some str => cases h; trivial
      | _ => cases h
  | freeHandle str keys cursor => cases e <;> cases h; trivial
  | allocHandle str keys cursor => cases e <;> cases h; trivial
  | prepare str keys cursor =>
      cases e <;> cases h
      split
      · split <;> trivial
      · rw [status_afterKeys]
        trivial
  | bindParameter number data keys cursor =>
      cases e <;> cases h
      split <;> trivial
  | execute data keys cursor =>
      cases e <;> cases h
      rw [status_forKeys]
      trivial

theorem Updating.status_next {updating : Updating} {e : Event} {point : Point}
    (h : updating.next e = some point) :
    (updating.call.ensures updating.status).Implies point.status := by
  cases updating with
  | allocHandle => cases e <;> cases h; trivial
  | execDirect => cases e <;> cases h; trivial

/-- What a call makes of the handle is what the next point relies on. -/
theorem Point.status_next {point point' : Point} {e : Event}
    (h : point.next e = some point') :
    (point.call.ensures point.status).Implies point'.status := by
  cases point with
  | initalize => cases e <;> cases h; trivial
  | load query loading => exact Loading.status_next h
  | sleep => cases e <;> cases h; trivial
  | save saving => exact Saving.status_next h
  | update updating => exact Updating.status_next h
  | thrown => cases e <;> cases h

/-! ### The handle -/

theorem perform_allocHandle {handles handles' : Handles ℕ}
    {mHstmt mHstmt' : ℕ} {e : Event}
    (h : Call.perform handles mHstmt .allocHandle e =
      some (handles', mHstmt')) :
    mHstmt' ∉ handles.live ∧ handles' = handles.alloc mHstmt' := by
  cases e with
  | allocated handle =>
      by_cases hlive : handle ∈ handles.live
      · simp [Call.perform, hlive] at h
      · simp only [Call.perform, if_neg hlive] at h
        cases h
        exact ⟨hlive, rfl⟩
  | _ => cases h

theorem perform_query {handles handles' : Handles ℕ} {mHstmt mHstmt' : ℕ}
    {e : Event}
    (h : Call.perform handles mHstmt (.execDirect true) e =
      some (handles', mHstmt')) :
    mHstmt' = mHstmt ∧
      (handles' = handles ∨ handles' = handles.occupy mHstmt) := by
  cases e with
  | returned ret =>
      cases h
      refine ⟨rfl, ?_⟩
      split
      · exact .inr rfl
      · exact .inl rfl
  | _ => cases h; exact ⟨rfl, .inl rfl⟩

theorem meets_perform {handles handles' : Handles ℕ} {mHstmt mHstmt' : ℕ}
    {call : Call} {e : Event} {status : Status}
    (hmeets : handles.Meets mHstmt status)
    (hneeds : status.Implies call.needs)
    (h : call.perform handles mHstmt e = some (handles', mHstmt')) :
    handles'.Meets mHstmt' (call.ensures status) := by
  have hfound : handles.Meets mHstmt call.needs := hmeets.of_implies hneeds
  cases call with
  | allocHandle =>
      obtain ⟨hfresh, rfl⟩ := perform_allocHandle h
      exact Handles.idle_alloc hfresh
  | freeHandle => cases h; exact handles.freed_free mHstmt
  | freeStmt => cases h; exact Handles.idle_release hfound
  | execDirect query =>
      cases query with
      | false => cases h; exact hmeets
      | true =>
          obtain ⟨rfl, rfl | rfl⟩ := perform_query h
          · exact hfound.1
          · exact Handles.live_occupy hfound.1
  | _ => cases h; exact hmeets

theorem State.step_eq {s s' : State} {e : Event} (h : s.step e = some s') :
    s.point.next e = some s'.point ∧
      s.point.call.perform s.handles s.mHstmt e =
        some (s'.handles, s'.mHstmt) := by
  obtain ⟨point, hpoint, hperform⟩ := Option.bind_eq_some_iff.mp h
  obtain ⟨r, hr, rfl⟩ := Option.map_eq_some_iff.mp hperform
  exact ⟨hpoint, hr⟩

theorem Inv.step {s s' : State} {e : Event} (hs : Inv s)
    (h : s.step e = some s') : Inv s' := by
  obtain ⟨hpoint, hperform⟩ := State.step_eq h
  have hmeets := meets_perform hs (needs_of_status s.point) hperform
  exact hmeets.of_implies (Point.status_next hpoint)

/-- In every run, every call finds the handle as it needs it. -/
theorem proper_of_run (mHstmt : ℕ) (es : List Event) :
    Throughout State.step Proper (.initial mHstmt) es := by
  have hinv : Throughout State.step Inv (.initial mHstmt) es :=
    throughout_of_every (fun _ _ _ hs _ h => hs.step h) (inv_initial mHstmt)
      (every_unguarded _ es)
  exact hinv.mono fun _ hs => hs.proper

/-! ## The handles left behind -/

/-- The live handles that the worker does not know any more. -/
def State.lost (s : State) : Finset ℕ := s.handles.others s.mHstmt

theorem lost_initial (mHstmt : ℕ) : (State.initial mHstmt).lost = ∅ :=
  Finset.erase_empty mHstmt

/-- Only an allocation can lose a handle. -/
theorem others_perform {handles handles' : Handles ℕ} {mHstmt mHstmt' : ℕ}
    {call : Call} {e : Event} (hcall : call ≠ .allocHandle)
    (h : call.perform handles mHstmt e = some (handles', mHstmt')) :
    handles'.others mHstmt' = handles.others mHstmt := by
  cases call with
  | allocHandle => exact absurd rfl hcall
  | freeHandle => cases h; exact handles.others_free mHstmt
  | freeStmt => cases h; exact handles.others_release mHstmt mHstmt
  | execDirect query =>
      cases query with
      | false => cases h; rfl
      | true =>
          obtain ⟨rfl, rfl | rfl⟩ := perform_query h
          · rfl
          · exact handles.others_occupy mHstmt' mHstmt'
  | _ => cases h; rfl

theorem status_of_allocHandle {point : Point}
    (hcall : point.call = .allocHandle)
    (hpoint : point ≠ .update .allocHandle) :
    point.status = .freed := by
  cases point with
  | initalize => rfl
  | load query loading => cases loading <;> cases hcall
  | sleep => cases hcall
  | save saving => cases saving <;> first | rfl | cases hcall
  | update updating =>
      cases updating with
      | allocHandle => exact absurd rfl hpoint
      | execDirect => cases hcall
  | thrown => cases hcall

theorem Inv.lost_step {s s' : State} {e : Event} (hs : Inv s)
    (hkeeps : KeepsHandle s e) (h : s.step e = some s') :
    s'.lost = s.lost := by
  obtain ⟨-, hperform⟩ := State.step_eq h
  by_cases hcall : s.point.call = .allocHandle
  · have hfreed : s.handles.Meets s.mHstmt .freed := by
      rw [← status_of_allocHandle hcall hkeeps]
      exact hs
    rw [hcall] at hperform
    obtain ⟨hfresh, halloc⟩ := perform_allocHandle hperform
    calc
      s'.lost = (s.handles.alloc s'.mHstmt).others s'.mHstmt := by
        rw [State.lost, halloc]
      _ = s.handles.live := Handles.others_alloc hfresh
      _ = s.lost := (Handles.others_of_freed hfreed).symm
  · exact others_perform hcall hperform

/-- `RankingUpdate` loses the handle that the worker has. -/
theorem Inv.lost_rankingUpdate {s s' : State} {e : Event} (hs : Inv s)
    (hpoint : s.point = .update .allocHandle) (h : s.step e = some s') :
    s.handles.Meets s.mHstmt .live ∧ s'.lost = s.handles.live ∧
      s'.handles.live.card = s.handles.live.card + 1 := by
  obtain ⟨-, hperform⟩ := State.step_eq h
  unfold Inv at hs
  rw [hpoint] at hs hperform
  obtain ⟨hfresh, halloc⟩ := perform_allocHandle hperform
  refine ⟨hs, ?_, ?_⟩
  · rw [State.lost, halloc]
    exact Handles.others_alloc hfresh
  · rw [halloc]
    exact Handles.card_alloc hfresh

/-- A handle that was lost stays live. -/
theorem Inv.lost_subset {s s' : State} {e : Event} (hs : Inv s)
    (h : s.step e = some s') : s.lost ⊆ s'.lost := by
  by_cases hpoint : s.point = .update .allocHandle
  · obtain ⟨-, hlost, -⟩ := hs.lost_rankingUpdate hpoint h
    rw [hlost]
    exact Finset.erase_subset s.mHstmt s.handles.live
  · rw [hs.lost_step hpoint h]

theorem Inv.disciplined {s : State} (hs : Inv s) (hlost : s.lost = ∅) :
    Disciplined s :=
  ⟨hs.proper, Handles.card_le_of_others_eq_empty hlost⟩

theorem Inv.keepsHandle {s s' : State} {e : Event} (hs : Inv s)
    (h : s.step e = some s') (hsingle : s'.handles.live.card ≤ 1) :
    KeepsHandle s e := by
  intro hpoint
  obtain ⟨hlive, -, hcard⟩ := hs.lost_rankingUpdate hpoint h
  have hpos : 0 < s.handles.live.card := Finset.card_pos.mpr ⟨_, hlive⟩
  omega

/-- In every run, every call finds the handle as it needs it, and at most one
handle is live throughout the run exactly when `RankingUpdate` is not called. -/
theorem disciplined_iff_keepsHandle (mHstmt : ℕ) (es : List Event) :
    Throughout State.step Proper (.initial mHstmt) es ∧
      (Throughout State.step Disciplined (.initial mHstmt) es ↔
        Every State.step KeepsHandle (.initial mHstmt) es) := by
  refine ⟨proper_of_run mHstmt es, ?_⟩
  have hQP : ∀ s, Inv s ∧ s.lost = ∅ → Disciplined s :=
    fun _ hs => hs.1.disciplined hs.2
  have hkept : ∀ s e s', Inv s ∧ s.lost = ∅ → KeepsHandle s e →
      State.step s e = some s' → Inv s' ∧ s'.lost = ∅ := by
    rintro s e s' ⟨hs, hlost⟩ hkeeps h
    exact ⟨hs.step h, (hs.lost_step hkeeps h).trans hlost⟩
  have hleft : ∀ s e s', Inv s ∧ s.lost = ∅ → State.step s e = some s' →
      Disciplined s' → KeepsHandle s e :=
    fun _ _ _ hs h hdisciplined => hs.1.keepsHandle h hdisciplined.single
  exact throughout_iff_every_of_stronger hQP hkept hleft
    ⟨inv_initial mHstmt, lost_initial mHstmt⟩ es

/-- The tables are empty, and so is the cache in the first round. -/
def firstRound : List Event :=
  [.allocated 0, .returned SQL_SUCCESS, .returned 100,
    .done, .returned SQL_SUCCESS, .returned 100,
    .done, .returned SQL_SUCCESS, .returned 100,
    .wake, .scanned (some ⟨0, some []⟩), .allocated 1]

theorem not_disciplined_of_firstRound :
    ¬ ∀ (mHstmt : ℕ) (es : List Event),
      Throughout State.step Disciplined (.initial mHstmt) es := by
  intro hall
  have hruns : (run State.step (.initial 0) firstRound).map
      (·.handles.live.card) = some 2 := by
    decide +kernel
  obtain ⟨s, hrun, hcard⟩ := Option.map_eq_some_iff.mp hruns
  have hsingle := ((hall 0 firstRound).last hrun).single
  omega

/-! ## The number of live handles -/

/-- Whether the step from a point is the allocation in `RankingUpdate`. -/
def Point.updates : Point → ℕ
  | .update .allocHandle => 1
  | _ => 0

/-- How often `RankingUpdate` is called along a run. -/
def rankingUpdates : State → List Event → ℕ
  | _, [] => 0
  | s, e :: es =>
      match s.step e with
      | none => 0
      | some s' => s.point.updates + rankingUpdates s' es

theorem updates_eq_zero {point : Point}
    (hpoint : point ≠ .update .allocHandle) : point.updates = 0 := by
  cases point with
  | update updating =>
      cases updating with
      | allocHandle => exact absurd rfl hpoint
      | execDirect => rfl
  | _ => rfl

theorem Inv.card_lost_step {s s' : State} {e : Event} (hs : Inv s)
    (h : s.step e = some s') :
    s'.lost.card = s.lost.card + s.point.updates := by
  by_cases hpoint : s.point = .update .allocHandle
  · obtain ⟨hlive, hlost, -⟩ := hs.lost_rankingUpdate hpoint h
    rw [hlost, hpoint]
    exact (Handles.card_others_add_one hlive).symm
  · rw [hs.lost_step hpoint h, updates_eq_zero hpoint, Nat.add_zero]

/-- Every call of `RankingUpdate` loses one handle, and no handle that was lost
is ever freed. -/
theorem Inv.lost_of_run {s t : State} {es : List Event} (hs : Inv s)
    (hrun : run State.step s es = some t) :
    s.lost ⊆ t.lost ∧ t.lost.card = s.lost.card + rankingUpdates s es := by
  induction es generalizing s with
  | nil =>
      obtain rfl := Option.some.inj hrun
      exact ⟨Finset.Subset.rfl, rfl⟩
  | cons e es ih =>
      obtain ⟨s', hs', htail⟩ := Option.bind_eq_some_iff.mp hrun
      obtain ⟨hsubset, hcard⟩ := ih (hs.step hs') htail
      have hstep := hs.card_lost_step hs'
      refine ⟨(hs.lost_subset hs').trans hsubset, ?_⟩
      simp only [rankingUpdates, hs']
      omega

/-- While the worker has a handle, one handle is live more than `RankingUpdate`
has been called. -/
theorem card_live_of_run {mHstmt : ℕ} {es : List Event} {s : State}
    (hrun : run State.step (.initial mHstmt) es = some s)
    (hlive : s.handles.Meets s.mHstmt .live) :
    s.handles.live.card = rankingUpdates (.initial mHstmt) es + 1 := by
  obtain ⟨-, hcard⟩ := (inv_initial mHstmt).lost_of_run hrun
  rw [lost_initial, Finset.card_empty, Nat.zero_add] at hcard
  rw [← hcard]
  exact (Handles.card_others_add_one hlive).symm

/-! ## What `ScoreDataSave` saves -/

section Saved

variable {Date : Type*} {clock : Clock Date}

/-- `SQLExecute` merges the row that is bound. -/
def Point.merge (clock : Clock Date) :
    Point → ScoreTable Date → ScoreTable Date
  | .save (.execute data _ _), table => mergeScore clock data table
  | _, table => table

/-- A step of the worker, with the table of the scores. -/
def mergeStep (clock : Clock Date) (r : Point × ScoreTable Date) (e : Event) :
    Option (Point × ScoreTable Date) :=
  (r.1.next e).map fun point => (point, r.1.merge clock r.2)

/-- The reply to a `GET` and the results of the calls for the entry; every
`SQLPrepare` succeeds. -/
def valueEvents : Option (List UInt8) → List Event
  | none => [.got none]
  | some str =>
      [.got (some str), .done, .allocated 0, .returned SQL_SUCCESS,
        .done, .done, .done, .returned SQL_SUCCESS]

theorem readScore_ne_none (str : List UInt8) :
    readScore (some str) ≠ some none := by
  intro h
  obtain ⟨data, -, hdata⟩ := Option.map_eq_some_iff.mp h
  cases hdata

theorem mergeStep_prepare {str : List UInt8} {data : Data_Score}
    (hread : readScore (some str) = some (some data))
    (keys : List (Option (List UInt8))) (cursor : ℤ)
    (table : ScoreTable Date) :
    mergeStep clock (.save (.prepare str keys cursor), table)
        (.returned SQL_SUCCESS) =
      some (.save (.bindParameter 1 data keys cursor), table) := by
  simp [mergeStep, Point.next, Saving.next, Point.merge, succeeded, hread]

theorem run_valueEvents_some {str : List UInt8} {data : Data_Score}
    (hread : readScore (some str) = some (some data)) (key : List UInt8)
    (keys : List (Option (List UInt8))) (cursor : ℤ)
    (table : ScoreTable Date) :
    run (mergeStep clock) (.save (.get key keys cursor), table)
        (valueEvents (some str)) =
      some (forKeys cursor keys, mergeScore clock data table) := by
  change (mergeStep clock (.save (.prepare str keys cursor), table)
    (.returned SQL_SUCCESS)).bind (fun r => run (mergeStep clock) r
      [.done, .done, .done, .returned SQL_SUCCESS]) = _
  rw [mergeStep_prepare hread]
  rfl

/-- The `for` loop over the keys for which the replies are `values`. -/
theorem run_saveValues {values : List (Option (List UInt8))}
    {table table' : ScoreTable Date} (cursor : ℤ)
    (hsave : saveValues clock values table = some table') :
    run (mergeStep clock) (forKeys cursor (values.map fun _ => some []), table)
        (values.flatMap valueEvents) =
      some (afterKeys cursor, table') := by
  induction values generalizing table with
  | nil =>
      obtain rfl := Option.some.inj hsave
      rfl
  | cons value values ih =>
      rw [List.flatMap_cons]
      rw [saveValues] at hsave
      cases hread : readScore value with
      | none => simp [hread] at hsave
      | some read =>
          cases read with
          | none =>
              simp only [hread] at hsave
              cases value with
              | none => exact ih hsave
              | some str => exact absurd hread (readScore_ne_none str)
          | some data =>
              simp only [hread] at hsave
              cases value with
              | none => cases hread
              | some str =>
                  exact run_trans (run_valueEvents_some hread _ _ _ _)
                    (ih hsave)

/-- A reply to `SCAN` with a key for each of the values. -/
def ScanAnswer.ofReply (reply : ScanReply) : ScanAnswer where
  cursor := reply.cursor
  keyList := some (reply.values.map fun _ => some [])

/-- The replies to the `SCAN` and the `GET` commands up to the cursor zero. -/
def scanEvents : List ScanReply → List Event
  | [] => [.scanned none]
  | reply :: replies =>
      .scanned (some (.ofReply reply)) ::
        (reply.values.flatMap valueEvents ++
          if stoi reply.cursor = some 0 then [] else scanEvents replies)

theorem mergeStep_scan {reply : ScanReply} {next : ℤ}
    (hcursor : stoi reply.cursor = some next) (cursor : ℤ)
    (table : ScoreTable Date) :
    mergeStep clock (.save (.scan cursor), table)
        (.scanned (some (.ofReply reply))) =
      some (forKeys next (reply.values.map fun _ => some []), table) := by
  simp [mergeStep, Point.next, Saving.next, Point.merge, ScanAnswer.ofReply,
    hcursor]

/-- As long as no `SQLPrepare` fails, the calls of `ScoreDataSave` make of the
table what its loop makes of it, and `RankingUpdate` comes next. -/
theorem run_scanLoop {cursor : ℤ} {replies : List ScanReply}
    {table table' : ScoreTable Date}
    (hloop : (scanLoop clock cursor replies table).2.table = some table') :
    run (mergeStep clock) (.save (.scan cursor), table) (scanEvents replies) =
      some (.update .allocHandle, table') := by
  induction replies generalizing cursor table with
  | nil =>
      obtain rfl := Option.some.inj hloop
      rfl
  | cons reply replies ih =>
      rw [scanLoop] at hloop
      cases hcursor : stoi reply.cursor with
      | none => simp [hcursor, ScanEnd.table] at hloop
      | some next =>
          simp only [hcursor] at hloop
          cases hsave : saveValues clock reply.values table with
          | none => simp [hsave, ScanEnd.table] at hloop
          | some saved =>
              simp only [hsave] at hloop
              have hkeys := run_saveValues next hsave
              rw [scanEvents, run_cons, mergeStep_scan hcursor,
                Option.bind_some, hcursor]
              by_cases hzero : next = 0
              · subst hzero
                rw [if_pos rfl] at hloop ⊢
                obtain rfl := Option.some.inj hloop
                rw [List.append_nil]
                exact hkeys
              · rw [if_neg hzero] at hloop
                rw [if_neg fun h => hzero (Option.some.inj h)]
                refine run_trans hkeys ?_
                rw [afterKeys, if_neg hzero]
                exact ih hloop

/-- The same while the cache does not change. -/
theorem run_scoreDataSave {store : Store}
    {replies : List (ℕ × List (List UInt8))} {table table' : ScoreTable Date}
    (hsave : scoreDataSave clock store replies table = some table') :
    run (mergeStep clock) (.save (.scan 0), table)
        (scanEvents (replies.map (.ofStore store))) =
      some (.update .allocHandle, table') := by
  apply run_scanLoop
  rw [table_scanLoop]
  exact hsave

end Saved

end RankingServer.Business.Statements
