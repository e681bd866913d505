import RankingServer.Nlohmann.Lexer

/-!
# The parser

`parser::parse` of `nlohmann::json` with `json_sax_dom_parser`, as
`json::parse` calls them: no callback, no comments, and exceptions for errors.

The loop of `sax_parse_internal` keeps a stack of its own instead of calling
itself.  One of its iterations reads a value and then evaluates the state of the
enclosing array or object; `skip_to_state_evaluation` lets the next iteration
start with the second half.  `Phase` tells the halves apart.
-/

universe u

namespace Nlohmann

open Json

variable {F : Type u}

/-- The exceptions that leave `parse`. -/
inductive ParseFailure
  | parseError101
  | outOfRange406
deriving DecidableEq, Repr

/-! ## Building the value -/

/-- An array or an object that is still open.  `ref_stack` points to it, and in
an object `object_element` to the value of the last key. -/
inductive Frame (F : Type u)
  | array (elements : List (Value F))
  | object (members : Members F) (key : List UInt8)

def Frame.value : Frame F → Value F
  | .array elements => .array elements
  | .object members _ => .object members

/-- Add a value to an array, or assign it to the element of an object. -/
def Frame.add (v : Value F) : Frame F → Frame F
  | .array elements => .array (elements ++ [v])
  | .object members key => .object (Members.assign key v members) key

/-- `json_sax_dom_parser`.  A value that is still open is added to the one
around it when it is closed, and not when it is opened. -/
structure DomParser (F : Type u) where
  root : Value F
  refStack : List (Frame F)

namespace DomParser

/-- `handle_value` -/
def handleValue (dom : DomParser F) (v : Value F) : DomParser F :=
  match dom.refStack with
  | [] => { dom with root := v }
  | frame :: frames => { dom with refStack := frame.add v :: frames }

def startArray (dom : DomParser F) : DomParser F :=
  { dom with refStack := .array [] :: dom.refStack }

def startObject (dom : DomParser F) : DomParser F :=
  { dom with refStack := .object [] [] :: dom.refStack }

def key (dom : DomParser F) (key : List UInt8) : DomParser F :=
  match dom.refStack with
  | .object members _ :: frames =>
      { dom with refStack := .object members key :: frames }
  | _ => dom

/-- `end_array` and `end_object` -/
def endStructure (dom : DomParser F) : DomParser F :=
  match dom.refStack with
  | frame :: frames =>
      { dom with refStack := frames }.handleValue frame.value
  | [] => dom

end DomParser

/-! ## The loop -/

/-- Where an iteration starts: at a value, whose first token is `last_token`, or
behind `skip_to_state_evaluation`. -/
inductive Phase
  | value (lastToken : Token)
  | evaluate
deriving DecidableEq, Repr

/-- The locals of `sax_parse_internal`, the input that the lexer has not read,
and the handler.  In `states` an array is `true` and an object `false`. -/
structure ParserState (F : Type u) where
  phase : Phase
  input : List UInt8
  states : List Bool
  dom : DomParser F

/-- The end of an iteration: the state of the next one, or the exception or the
value with the input behind it. -/
abbrev Iteration (F : Type u) :=
  ParserState F ⊕ Except ParseFailure (Value F × List UInt8)

namespace ParserState

def fail (failure : ParseFailure) : Iteration F := .inr (.error failure)

/-- `get_token` before a value. -/
def next (input : List UInt8) (states : List Bool) (dom : DomParser F) :
    ParserState F :=
  ⟨.value (scan input).1, (scan input).2, states, dom⟩

/-- A value is complete. -/
def complete (s : ParserState F) (v : Value F) : Iteration F :=
  .inl { s with phase := .evaluate, dom := s.dom.handleValue v }

/-- A key, whose token is given, and the separator behind it. -/
def parseKey (token : Token) (input : List UInt8) (states : List Bool)
    (dom : DomParser F) : Iteration F :=
  match token with
  | .valueString key =>
      match scan input with
      | (.nameSeparator, input) => .inl (next input states (dom.key key))
      | _ => fail .parseError101
  | _ => fail .parseError101

/-- The switch on `last_token`. -/
def parseValue (strtod : List UInt8 → F) (isfinite : F → Bool)
    (s : ParserState F) (token : Token) : Iteration F :=
  match token with
  | .beginObject =>
      match scan s.input with
      | (.endObject, input) =>
          .inl ⟨.evaluate, input, s.states, s.dom.startObject.endStructure⟩
      | (token, input) =>
          parseKey token input (false :: s.states) s.dom.startObject
  | .beginArray =>
      match scan s.input with
      | (.endArray, input) =>
          .inl ⟨.evaluate, input, s.states, s.dom.startArray.endStructure⟩
      | (token, input) =>
          .inl ⟨.value token, input, true :: s.states, s.dom.startArray⟩
  | .valueFloat text =>
      if isfinite (strtod text) then s.complete (.numberFloat (strtod text))
      else fail .outOfRange406
  | .literalFalse => s.complete (.boolean false)
  | .literalNull => s.complete .null
  | .literalTrue => s.complete (.boolean true)
  | .valueInteger n => s.complete (.numberInteger n)
  | .valueString text => s.complete (.string text)
  | .valueUnsigned n => s.complete (.numberUnsigned n)
  | .parseError | .endOfInput | .endArray | .endObject | .nameSeparator
  | .valueSeparator => fail .parseError101

/-- What follows a value. -/
def evaluate (s : ParserState F) : Iteration F :=
  match s.states with
  | [] => .inr (.ok (s.dom.root, s.input))
  | true :: states =>
      match scan s.input with
      | (.valueSeparator, input) => .inl (next input s.states s.dom)
      | (.endArray, input) =>
          .inl ⟨.evaluate, input, states, s.dom.endStructure⟩
      | _ => fail .parseError101
  | false :: states =>
      match scan s.input with
      | (.valueSeparator, input) =>
          parseKey (scan input).1 (scan input).2 s.states s.dom
      | (.endObject, input) =>
          .inl ⟨.evaluate, input, states, s.dom.endStructure⟩
      | _ => fail .parseError101

/-- One half of an iteration. -/
def pass (strtod : List UInt8 → F) (isfinite : F → Bool)
    (s : ParserState F) : Iteration F :=
  match s.phase with
  | .value token => s.parseValue strtod isfinite token
  | .evaluate => s.evaluate

end ParserState

/-! ## Termination -/

def Phase.left : Phase → ℕ
  | .value token => if token.final then 0 else 2
  | .evaluate => 1

/-- Every iteration but the last reads on. -/
def ParserState.left (s : ParserState F) : ℕ :=
  3 * s.input.length + s.phase.left

namespace ParserState

variable {s t : ParserState F}

theorem left_next (input : List UInt8) (states : List Bool)
    (dom : DomParser F) : (next input states dom).left ≤ 3 * input.length := by
  rw [left, next]
  simp only [Phase.left]
  rcases length_scan input with h | ⟨hfinal, hle⟩
  · split_ifs <;> omega
  · rw [if_pos hfinal]
    omega

theorem length_of_scan {input rest : List UInt8} {token : Token}
    (h : scan input = (token, rest)) (hfinal : token.final = false) :
    rest.length + 1 ≤ input.length := by
  have hscan := length_scan input
  rw [h] at hscan
  rcases hscan with hless | ⟨htrue, -⟩
  · exact hless
  · rw [hfinal] at htrue
    cases htrue

theorem length_scan_le (input : List UInt8) :
    (scan input).2.length ≤ input.length := by
  rcases length_scan input with h | ⟨-, h⟩
  · exact (Nat.le_succ _).trans h
  · exact h

theorem left_parseKey {token : Token} {input : List UInt8}
    {states : List Bool} {dom : DomParser F}
    (h : parseKey token input states dom = .inl t) :
    t.left ≤ 3 * input.length := by
  rw [parseKey.eq_def] at h
  split at h
  · next key =>
      split at h
      · next rest hscan =>
          obtain rfl := Sum.inl.inj h
          have hless := length_of_scan hscan rfl
          have hle := left_next rest states (dom.key key)
          omega
      · cases h
  · cases h

theorem left_complete {v : Value F} (h : s.complete v = .inl t) :
    t.left = 3 * s.input.length + 1 := by
  obtain rfl := Sum.inl.inj h
  rfl

theorem left_evaluate (h : s.evaluate = .inl t) :
    t.left < 3 * s.input.length + 1 := by
  rw [evaluate.eq_def] at h
  split at h
  · cases h
  · split at h
    · next input hscan =>
        obtain rfl := Sum.inl.inj h
        have hless := length_of_scan hscan rfl
        have hle := left_next input s.states s.dom
        omega
    · next input hscan =>
        obtain rfl := Sum.inl.inj h
        have hless := length_of_scan hscan rfl
        change 3 * input.length + 1 < _
        omega
    · cases h
  · split at h
    · next input hscan =>
        have hless := length_of_scan hscan rfl
        have hle := left_parseKey h
        have hscan' := length_scan_le input
        omega
    · next input hscan =>
        obtain rfl := Sum.inl.inj h
        have hless := length_of_scan hscan rfl
        change 3 * input.length + 1 < _
        omega
    · cases h

theorem left_value {input rest : List UInt8} {token : Token}
    (h : scan input = (token, rest)) (states : List Bool) (dom : DomParser F) :
    (ParserState.mk (.value token) rest states dom).left ≤
      3 * input.length := by
  have hle := left_next input states dom
  rwa [next, h] at hle

theorem left_parseValue {strtod : List UInt8 → F} {isfinite : F → Bool}
    {token : Token}
    (h : s.parseValue strtod isfinite token = .inl t) :
    t.left < 3 * s.input.length + (Phase.value token).left := by
  cases token with
  | beginObject =>
      rw [parseValue.eq_def] at h
      simp only at h
      split at h
      · next input hscan =>
          obtain rfl := Sum.inl.inj h
          have hless := length_of_scan hscan rfl
          change 3 * input.length + 1 < 3 * s.input.length + 2
          omega
      · next token input _ hscan =>
          have hle := left_parseKey h
          have hscan' := length_scan_le s.input
          rw [hscan] at hscan'
          change input.length ≤ s.input.length at hscan'
          change t.left < 3 * s.input.length + 2
          omega
  | beginArray =>
      rw [parseValue.eq_def] at h
      simp only at h
      split at h
      · next input hscan =>
          obtain rfl := Sum.inl.inj h
          have hless := length_of_scan hscan rfl
          change 3 * input.length + 1 < 3 * s.input.length + 2
          omega
      · next token input _ hscan =>
          obtain rfl := Sum.inl.inj h
          have hle := left_value hscan (true :: s.states) s.dom.startArray
          change _ < 3 * s.input.length + 2
          omega
  | valueFloat text =>
      rw [parseValue] at h
      split_ifs at h
      · rw [left_complete h]
        exact Nat.lt_succ_self _
      · cases h
  | literalFalse | literalNull | literalTrue | valueInteger | valueString
  | valueUnsigned =>
      rw [left_complete h]
      exact Nat.lt_succ_self _
  | parseError | endOfInput | endArray | endObject | nameSeparator
  | valueSeparator => cases h

theorem pass_decreases (strtod : List UInt8 → F) (isfinite : F → Bool)
    (s t : ParserState F) (h : s.pass strtod isfinite = .inl t) :
    t.left < s.left := by
  rw [pass] at h
  rw [left.eq_def s]
  split at h
  · next token hphase =>
      rw [hphase]
      exact left_parseValue h
  · next hphase =>
      rw [hphase]
      exact left_evaluate h

end ParserState

/-- `sax_parse_internal` -/
def saxParse (strtod : List UInt8 → F) (isfinite : F → Bool) :
    Loop (ParserState F) (Except ParseFailure (Value F × List UInt8)) :=
  ⟨ParserState.pass strtod isfinite, ParserState.left,
    ParserState.pass_decreases strtod isfinite⟩

/-- `json::parse`: behind the value there must be nothing.  A NUL ends the
input, too. -/
def parse (strtod : List UInt8 → F) (isfinite : F → Bool)
    (text : List UInt8) : Except ParseFailure (Value F) :=
  ((saxParse strtod isfinite).result
    ⟨.value (scanFirst text).1, (scanFirst text).2, [], ⟨.null, []⟩⟩).bind
      fun (v, input) =>
        if (scan input).1 = .endOfInput then .ok v else .error .parseError101

end Nlohmann
