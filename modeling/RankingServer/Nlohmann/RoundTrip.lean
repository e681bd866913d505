import RankingServer.Nlohmann.Parser
import RankingServer.Nlohmann.Tokens

/-!
# Dumping and parsing

The parser reads back the value that the serializer wrote (`parsed_of_dumped`),
up to the difference between signed and unsigned numbers that no text shows.
And whatever text the parser accepts, the value is one that the serializer
writes without an exception (`dumped_of_parsed`): what is read from the cache
can always be written to it again.
-/

universe u

namespace Nlohmann

open Json ParserState

variable {F : Type u} {strtod : List UInt8 → F} {isfinite : F → Bool}
  {floatText : F → List UInt8} {P : F → Prop}

/-! ## Values -/

/-- The text of a floating-point number is a number with a fraction or an
exponent, from which `strtod` gets the number back. -/
def ReadsFloat (strtod : List UInt8 → F) (isfinite : F → Bool)
    (floatText : F → List UInt8) (x : F) : Prop :=
  isfinite x = true ∧ ∀ rest, Delimited rest →
    ∃ text, scan (floatText x ++ rest) = (.valueFloat text, rest) ∧
      strtod text = x

/-- The parser gets from the text of `v` to the evaluation behind it. -/
def Reads (strtod : List UInt8 → F) (isfinite : F → Bool)
    (text : List UInt8) (v : Value F) : Prop :=
  ∀ rest states dom, Delimited rest →
    (saxParse strtod isfinite).result (next (text ++ rest) states dom) =
      (saxParse strtod isfinite).result
        ⟨.evaluate, rest, states, dom.handleValue v⟩

/-- A value that is a single token. -/
theorem reads_of_token {text : List UInt8} {v : Value F}
    (h : ∀ rest, Delimited rest → ∃ token,
      scan (text ++ rest) = (token, rest) ∧ ∀ s : ParserState F,
        s.parseValue strtod isfinite token = s.complete v) :
    Reads strtod isfinite text v := by
  intro rest states dom hrest
  obtain ⟨token, hscan, hvalue⟩ := h rest hrest
  apply (saxParse strtod isfinite).result_of_inl
  rw [next, hscan]
  exact hvalue _

theorem ofNat_natAbs {n : Int64} (h : ¬ n.toInt < 0) :
    UInt64.ofNat n.toInt.natAbs = n.toUInt64 := by
  apply UInt64.toNat.inj
  have hlt := n.toInt_lt
  have hle : (0 : Int64) ≤ n :=
    Int64.le_iff_toInt_le.mpr (by simpa using h)
  rw [UInt64.toNat_ofNat_of_lt' (by simp only [UInt64.size]; omega),
    Int64.toNat_toUInt64_of_le hle, Int64.toNatClampNeg]
  omega

theorem reads_numberInteger (n : Int64) :
    Reads strtod isfinite (Json.dumpInteger n.toInt)
      (Value.numberInteger n).reread := by
  apply reads_of_token
  intro rest hrest
  rw [Value.reread]
  by_cases hneg : n < 0
  · have hint : n.toInt < 0 := by
      simpa using Int64.lt_iff_toInt_lt.mp hneg
    have hscan := scan_dumpInteger_neg hint n.le_toInt hrest
    rw [Int64.ofInt_toInt] at hscan
    exact ⟨_, hscan, fun s => by rw [if_pos hneg]; rfl⟩
  · have hint : ¬ n.toInt < 0 := by
      intro hlt
      exact hneg (Int64.lt_iff_toInt_lt.mpr (by simpa using hlt))
    have hlt := n.toInt_lt
    have hscan := scan_dumpNat (n := n.toInt.natAbs) (by omega) hrest
    rw [Json.dumpInteger, if_neg hint]
    rw [ofNat_natAbs hint] at hscan
    exact ⟨_, hscan, fun s => by rw [if_neg hneg]; rfl⟩

theorem reads_numberUnsigned (n : UInt64) :
    Reads strtod isfinite (Json.dumpInteger n.toNat)
      (Value.numberUnsigned n) := by
  apply reads_of_token
  intro rest hrest
  have hscan := scan_dumpNat (n := n.toNat) n.toNat_lt hrest
  rw [UInt64.ofNat_toNat] at hscan
  rw [Json.dumpInteger, if_neg (by omega), Int.natAbs_natCast]
  exact ⟨_, hscan, fun s => rfl⟩

/-! ## Arrays and objects -/

theorem delimited_elementsText (floatText : F → List UInt8)
    (elements : List (Value F)) (rest : List UInt8) :
    Delimited (elementsText floatText elements ++ 93 :: rest) := by
  cases elements <;> exact delimited_cons (by simp) _

theorem delimited_membersText (floatText : F → List UInt8)
    (members : Members F) (rest : List UInt8) :
    Delimited (membersText floatText members ++ 125 :: rest) := by
  cases members <;> exact delimited_cons (by simp) _

/-- The elements behind the first one, and the closing bracket. -/
theorem result_elements {elements : List (Value F)}
    (h : ∀ v ∈ elements, Reads strtod isfinite (v.text floatText) v.reread)
    (done : List (Value F)) (rest : List UInt8) (states : List Bool)
    (root : Value F) (frames : List (Frame F)) :
    (saxParse strtod isfinite).result
        ⟨.evaluate, elementsText floatText elements ++ 93 :: rest,
          true :: states, ⟨root, .array done :: frames⟩⟩ =
      (saxParse strtod isfinite).result
        ⟨.evaluate, rest, states, DomParser.handleValue ⟨root, frames⟩
          (.array (done ++ rereadElements elements))⟩ := by
  induction elements generalizing done with
  | nil =>
      apply (saxParse strtod isfinite).result_of_inl
      rw [rereadElements, List.append_nil]
      rfl
  | cons v elements ih =>
      obtain ⟨hv, helements⟩ := List.forall_mem_cons.mp h
      have hdelimited := delimited_elementsText floatText elements rest
      have hpass : (saxParse strtod isfinite).pass
          ⟨.evaluate, 44 :: (v.text floatText ++
            (elementsText floatText elements ++ 93 :: rest)),
            true :: states, ⟨root, .array done :: frames⟩⟩ =
          .inl (next (v.text floatText ++
            (elementsText floatText elements ++ 93 :: rest))
            (true :: states) ⟨root, .array done :: frames⟩) := rfl
      rw [elementsText, List.cons_append, List.append_assoc,
        (saxParse strtod isfinite).result_of_inl hpass, hv _ _ _ hdelimited]
      change (saxParse strtod isfinite).result
        ⟨_, _, _, ⟨root, .array (done ++ [v.reread]) :: frames⟩⟩ = _
      rw [ih helements, List.append_assoc]
      rfl

/-- The first token of a value is neither a closing bracket nor an error. -/
def Starts (token : Token) : Prop := token ≠ .endArray ∧ token ≠ .parseError

theorem starts_scan_text {v : Value F} (hv : v.Valid P)
    (hfloat : ∀ x, P x → ReadsFloat strtod isfinite floatText x)
    {rest : List UInt8} (hrest : Delimited rest) :
    Starts (scan (v.text floatText ++ rest)).1 := by
  cases hv with
  | null => exact (by simp [Starts] : Starts .literalNull)
  | boolean b =>
      cases b with
      | false => exact (by simp [Starts] : Starts .literalFalse)
      | true => exact (by simp [Starts] : Starts .literalTrue)
  | numberInteger n =>
      have hle := n.le_toInt
      have hlt := n.toInt_lt
      rw [Value.text]
      by_cases hneg : n.toInt < 0
      · rw [scan_dumpInteger_neg hneg hle hrest]
        simp [Starts]
      · rw [Json.dumpInteger, if_neg hneg, scan_dumpNat (by omega) hrest]
        simp [Starts]
  | numberUnsigned n =>
      have hlt := n.toNat_lt
      rw [Value.text, Json.dumpInteger, if_neg (by omega),
        scan_dumpNat (by omega) hrest]
      simp [Starts]
  | numberFloat hx =>
      obtain ⟨text, hscan, -⟩ := (hfloat _ hx).2 rest hrest
      rw [Value.text, hscan]
      simp [Starts]
  | string hs =>
      rw [Value.text, scan_quoted hs]
      simp [Starts]
  | @array elements =>
      cases elements <;> exact (by simp [Starts] : Starts .beginArray)
  | @object members =>
      cases members <;> exact (by simp [Starts] : Starts .beginObject)

theorem parseValue_beginArray (strtod : List UInt8 → F)
    (isfinite : F → Bool) {s : ParserState F}
    (h : (scan s.input).1 ≠ .endArray) :
    s.parseValue strtod isfinite .beginArray =
      .inl (next s.input (true :: s.states) s.dom.startArray) := by
  rw [ParserState.parseValue.eq_def]
  simp only
  rfl

theorem reads_array {elements : List (Value F)}
    (h : ∀ v ∈ elements, Reads strtod isfinite (v.text floatText) v.reread)
    (hstart : ∀ v ∈ elements, ∀ rest, Delimited rest →
      Starts (scan (v.text floatText ++ rest)).1) :
    Reads strtod isfinite ((Value.array elements).text floatText)
      (Value.array elements).reread := by
  intro rest states dom hrest
  cases elements with
  | nil =>
      have hpass : (saxParse strtod isfinite).pass
          (next (91 :: 93 :: rest) states dom) =
        .inl ⟨.evaluate, rest, states, dom.startArray.endStructure⟩ := rfl
      exact (saxParse strtod isfinite).result_of_inl hpass
  | cons v elements =>
      obtain ⟨hv, helements⟩ := List.forall_mem_cons.mp h
      have hdelimited := delimited_elementsText floatText elements rest
      have hfirst := hstart v List.mem_cons_self _ hdelimited
      have hpass : (saxParse strtod isfinite).pass
          (next (91 :: (v.text floatText ++
            (elementsText floatText elements ++ 93 :: rest))) states dom) =
          .inl (next (v.text floatText ++
            (elementsText floatText elements ++ 93 :: rest))
              (true :: states) dom.startArray) :=
        parseValue_beginArray strtod isfinite hfirst.1
      have htext : (Value.array (v :: elements)).text floatText ++ rest =
          91 :: (v.text floatText ++
            (elementsText floatText elements ++ 93 :: rest)) := by
        simp [Value.text]
      rw [htext, (saxParse strtod isfinite).result_of_inl hpass,
        hv _ _ _ hdelimited]
      exact result_elements helements [v.reread] rest states dom.root
        dom.refStack

/-- A key and the colon behind it. -/
theorem parseKey_quoted {key : List UInt8} (hkey : wellFormed key = true)
    (input : List UInt8) (states : List Bool) (dom : DomParser F) :
    parseKey (scan (quoted key ++ 58 :: input)).1
        (scan (quoted key ++ 58 :: input)).2 states dom =
      .inl (next input states (dom.key key)) := by
  rw [scan_quoted hkey]
  rfl

theorem parseValue_beginObject (strtod : List UInt8 → F)
    (isfinite : F → Bool) {s : ParserState F} {key input : List UInt8}
    (hkey : wellFormed key = true) (h : s.input = quoted key ++ 58 :: input) :
    s.parseValue strtod isfinite .beginObject =
      .inl (next input (false :: s.states) (s.dom.startObject.key key)) := by
  rw [ParserState.parseValue.eq_def, h]
  simp only [scan_quoted hkey]
  rfl

/-- The members behind the first one, and the closing brace. -/
theorem result_members {members : Members F}
    (h : ∀ m ∈ members,
      Reads strtod isfinite (m.2.text floatText) m.2.reread)
    (hkeys : ∀ m ∈ members, wellFormed m.1 = true)
    {done : Members F} (hascending : Members.Ascending (done ++ members))
    (key rest : List UInt8) (states : List Bool) (root : Value F)
    (frames : List (Frame F)) :
    (saxParse strtod isfinite).result
        ⟨.evaluate, membersText floatText members ++ 125 :: rest,
          false :: states, ⟨root, .object done key :: frames⟩⟩ =
      (saxParse strtod isfinite).result
        ⟨.evaluate, rest, states, DomParser.handleValue ⟨root, frames⟩
          (.object (done ++ rereadMembers members))⟩ := by
  induction members generalizing done key with
  | nil =>
      apply (saxParse strtod isfinite).result_of_inl
      rw [rereadMembers, List.append_nil]
      rfl
  | cons member members ih =>
      obtain ⟨k, v⟩ := member
      obtain ⟨hv, hmembers⟩ := List.forall_mem_cons.mp h
      obtain ⟨hkey, hkeys⟩ := List.forall_mem_cons.mp hkeys
      have hdelimited := delimited_membersText floatText members rest
      have hpass : (saxParse strtod isfinite).pass
          ⟨.evaluate, 44 :: (quoted k ++ 58 :: (v.text floatText ++
            (membersText floatText members ++ 125 :: rest))),
            false :: states, ⟨root, .object done key :: frames⟩⟩ =
          .inl (next (v.text floatText ++
            (membersText floatText members ++ 125 :: rest))
            (false :: states) ⟨root, .object done k :: frames⟩) :=
        parseKey_quoted hkey _ _ _
      have htext : membersText floatText ((k, v) :: members) ++ 125 :: rest =
          44 :: (quoted k ++ 58 :: (v.text floatText ++
            (membersText floatText members ++ 125 :: rest))) := by
        simp [membersText, memberText]
      have hlast : ∀ m ∈ done, m.1 < k := by
        intro m hm
        have hpair := (List.pairwise_append.mp hascending).2.2
        exact hpair m hm (k, v) List.mem_cons_self
      have hassign : Members.assign k v.reread done =
          done ++ [(k, v.reread)] := Members.assign_of_forall_lt _ hlast
      rw [htext, (saxParse strtod isfinite).result_of_inl hpass,
        hv _ _ _ hdelimited]
      change (saxParse strtod isfinite).result
        ⟨_, _, _, ⟨root, .object (Members.assign k v.reread done) k ::
          frames⟩⟩ = _
      rw [hassign, ih hmembers hkeys]
      · rw [List.append_assoc]
        rfl
      · have hsame : (done ++ [(k, v.reread)] ++ members).map Prod.fst =
            (done ++ (k, v) :: members).map Prod.fst := by
          simp
        rw [Members.ascending_iff] at hascending ⊢
        rw [hsame]
        exact hascending

theorem reads_object {members : Members F} (hascending : members.Ascending)
    (hkeys : ∀ m ∈ members, wellFormed m.1 = true)
    (h : ∀ m ∈ members,
      Reads strtod isfinite (m.2.text floatText) m.2.reread) :
    Reads strtod isfinite ((Value.object members).text floatText)
      (Value.object members).reread := by
  intro rest states dom hrest
  cases members with
  | nil =>
      have hpass : (saxParse strtod isfinite).pass
          (next (123 :: 125 :: rest) states dom) =
        .inl ⟨.evaluate, rest, states, dom.startObject.endStructure⟩ := rfl
      exact (saxParse strtod isfinite).result_of_inl hpass
  | cons member members =>
      obtain ⟨k, v⟩ := member
      obtain ⟨hv, hmembers⟩ := List.forall_mem_cons.mp h
      obtain ⟨hkey, hkeys⟩ := List.forall_mem_cons.mp hkeys
      have hdelimited := delimited_membersText floatText members rest
      have hpass : (saxParse strtod isfinite).pass
          (next (123 :: (quoted k ++ 58 :: (v.text floatText ++
            (membersText floatText members ++ 125 :: rest)))) states dom) =
          .inl (next (v.text floatText ++
            (membersText floatText members ++ 125 :: rest))
              (false :: states) (dom.startObject.key k)) :=
        parseValue_beginObject strtod isfinite hkey rfl
      have htext :
          (Value.object ((k, v) :: members)).text floatText ++ rest =
            123 :: (quoted k ++ 58 :: (v.text floatText ++
              (membersText floatText members ++ 125 :: rest))) := by
        simp [Value.text, memberText]
      rw [htext, (saxParse strtod isfinite).result_of_inl hpass,
        hv _ _ _ hdelimited]
      have hdone : Members.Ascending ([(k, v.reread)] ++ members) := by
        rw [Members.ascending_iff] at hascending ⊢
        exact hascending
      exact result_members hmembers hkeys hdone k rest states dom.root
        dom.refStack

theorem reads_text {v : Value F} (hv : v.Valid P)
    (hfloat : ∀ x, P x → ReadsFloat strtod isfinite floatText x) :
    Reads strtod isfinite (v.text floatText) v.reread := by
  induction hv with
  | null => exact reads_of_token fun _ _ => ⟨.literalNull, rfl, fun _ => rfl⟩
  | boolean b =>
      cases b with
      | false =>
          exact reads_of_token fun _ _ => ⟨.literalFalse, rfl, fun _ => rfl⟩
      | true =>
          exact reads_of_token fun _ _ => ⟨.literalTrue, rfl, fun _ => rfl⟩
  | numberInteger n => exact reads_numberInteger n
  | numberUnsigned n => exact reads_numberUnsigned n
  | @numberFloat x hx =>
      apply reads_of_token
      intro rest hrest
      obtain ⟨text, hscan, hstrtod⟩ := (hfloat x hx).2 rest hrest
      refine ⟨_, hscan, ?_⟩
      intro s
      rw [ParserState.parseValue, hstrtod, if_pos (hfloat x hx).1]
      rfl
  | string hs =>
      exact reads_of_token fun rest _ =>
        ⟨_, scan_quoted hs rest, fun _ => rfl⟩
  | array helements ih =>
      exact reads_array ih fun v hv rest hrest =>
        starts_scan_text (helements v hv) hfloat hrest
  | object hascending hkeys _ ih => exact reads_object hascending hkeys ih

/-! ## Texts -/

theorem scanFirst_eq_scan {text : List UInt8}
    (h : (scan text).1 ≠ .parseError) : scanFirst text = scan text := by
  rw [scanFirst.eq_def]
  split
  · exact absurd rfl h
  · exact absurd rfl h
  · rfl

theorem parse_text {v : Value F} (hv : v.Valid P)
    (hfloat : ∀ x, P x → ReadsFloat strtod isfinite floatText x) :
    parse strtod isfinite (v.text floatText) = .ok v.reread := by
  have hstart := starts_scan_text hv hfloat delimited_nil
  have hread := reads_text hv hfloat [] [] ⟨.null, []⟩ delimited_nil
  rw [List.append_nil] at hstart hread
  rw [parse, scanFirst_eq_scan hstart.2]
  change Except.bind ((saxParse strtod isfinite).result
    (next (v.text floatText) [] ⟨.null, []⟩)) _ = _
  have hdone : (saxParse strtod isfinite).pass
      ⟨.evaluate, [], [], DomParser.handleValue ⟨.null, []⟩ v.reread⟩ =
    .inr (.ok (v.reread, [])) := rfl
  rw [hread, (saxParse strtod isfinite).result_of_inr hdone]
  rfl

theorem mem_elementsStrings {s : List UInt8} {elements : List (Value F)}
    (h : s ∈ elementsStrings elements) : ∃ v ∈ elements, s ∈ v.strings := by
  induction elements with
  | nil => cases h
  | cons v elements ih =>
      rcases List.mem_append.mp h with h | h
      · exact ⟨v, List.mem_cons_self, h⟩
      · obtain ⟨w, hw, hs⟩ := ih h
        exact ⟨w, List.mem_cons_of_mem _ hw, hs⟩

theorem mem_membersStrings {s : List UInt8} {members : Members F}
    (h : s ∈ membersStrings members) :
    ∃ m ∈ members, s = m.1 ∨ s ∈ m.2.strings := by
  induction members with
  | nil => cases h
  | cons member members ih =>
      obtain ⟨key, v⟩ := member
      rcases List.mem_append.mp h with h | h
      · exact ⟨(key, v), List.mem_cons_self, List.mem_cons.mp h⟩
      · obtain ⟨m, hm, hs⟩ := ih h
        exact ⟨m, List.mem_cons_of_mem _ hm, hs⟩

theorem wellFormed_of_mem_strings {v : Value F} (hv : v.Valid P)
    {s : List UInt8} (hs : s ∈ v.strings) : wellFormed s = true := by
  induction hv with
  | null | boolean | numberInteger | numberUnsigned | numberFloat => cases hs
  | string hwell =>
      obtain rfl := List.mem_singleton.mp hs
      exact hwell
  | array _ ih =>
      obtain ⟨v, hv, hs⟩ := mem_elementsStrings hs
      exact ih v hv hs
  | object _ hkeys _ ih =>
      obtain ⟨m, hm, rfl | hs⟩ := mem_membersStrings hs
      · exact hkeys m hm
      · exact ih m hm hs

theorem dump_of_valid {v : Value F} (hv : v.Valid P)
    (floatText : F → List UInt8) :
    dump floatText v = .ok (v.text floatText) := by
  have hall : v.strings.all wellFormed = true :=
    List.all_eq_true.mpr fun s hs => wellFormed_of_mem_strings hv hs
  rw [dump_eq, ifWellFormed, if_pos hall]

/-- What the serializer writes for a value is read back as this value.  Of the
conversions of floating-point numbers it takes that they are inverse to each
other on the numbers in the value. -/
theorem parsed_of_dumped {v : Value F} (hv : v.Valid P)
    (hfloat : ∀ x, P x → ReadsFloat strtod isfinite floatText x) :
    ∃ text, dump floatText v = .ok text ∧
      parse strtod isfinite text = .ok v.reread :=
  ⟨_, dump_of_valid hv floatText, parse_text hv hfloat⟩

/-- An object with an array, a number and a string of several bytes. -/
def nestedObject : Value Unit :=
  .object [([97], .array [.numberInteger (-3), .null]),
    ([98], .string [0xC3, 0xA9])]

theorem parsed_of_dumped_nestedObject :
    ∃ text, dump (fun _ => []) nestedObject = .ok text ∧
      parse (fun _ => ()) (fun _ => true) text = .ok nestedObject.reread := by
  have hvalid : nestedObject.Valid fun _ => False := by
    have hkeys : ([97] : List UInt8) < [98] := by decide
    refine .object (by simp [Members.Ascending, hkeys]) (by decide) ?_
    simp only [List.forall_mem_cons]
    refine ⟨.array ?_, .string (by decide), by simp⟩
    simp only [List.forall_mem_cons]
    exact ⟨.numberInteger _, .null, by simp⟩
  exact parsed_of_dumped hvalid fun _ h => h.elim

/-! ## What is parsed -/

/-- What an open array or object holds so far is valid. -/
def Frame.Valid (P : F → Prop) : Frame F → Prop
  | .array elements => ∀ v ∈ elements, v.Valid P
  | .object members key => members.Ascending ∧ wellFormed key = true ∧
      ∀ m ∈ members, wellFormed m.1 = true ∧ m.2.Valid P

theorem Frame.Valid.value {frame : Frame F} (h : frame.Valid P) :
    frame.value.Valid P := by
  cases frame with
  | array elements => exact .array h
  | object members key =>
      obtain ⟨hascending, -, hmembers⟩ := h
      exact .object hascending (fun m hm => (hmembers m hm).1)
        (fun m hm => (hmembers m hm).2)

theorem Frame.Valid.add {frame : Frame F} (h : frame.Valid P) {v : Value F}
    (hv : v.Valid P) : (frame.add v).Valid P := by
  cases frame with
  | array elements =>
      intro w hw
      rcases List.mem_append.mp hw with hw | hw
      · exact h w hw
      · obtain rfl := List.mem_singleton.mp hw
        exact hv
  | object members key =>
      obtain ⟨hascending, hkey, hmembers⟩ := h
      refine ⟨hascending.assign key v, hkey, ?_⟩
      intro m hm
      rcases Members.mem_assign hm with rfl | hm
      · exact ⟨hkey, hv⟩
      · exact hmembers m hm

/-- The invariant of the handler. -/
structure DomParser.Valid (P : F → Prop) (dom : DomParser F) : Prop where
  root : dom.root.Valid P
  refStack : ∀ frame ∈ dom.refStack, frame.Valid P

namespace DomParser.Valid

variable {dom : DomParser F}

theorem handleValue (h : dom.Valid P) {v : Value F} (hv : v.Valid P) :
    (dom.handleValue v).Valid P := by
  obtain ⟨root, refStack⟩ := dom
  cases refStack with
  | nil => exact ⟨hv, h.refStack⟩
  | cons frame frames =>
      obtain ⟨hframe, hframes⟩ := List.forall_mem_cons.mp h.refStack
      exact ⟨h.root, List.forall_mem_cons.mpr ⟨hframe.add hv, hframes⟩⟩

theorem startArray (h : dom.Valid P) : dom.startArray.Valid P :=
  ⟨h.root, List.forall_mem_cons.mpr ⟨by simp [Frame.Valid], h.refStack⟩⟩

theorem startObject (h : dom.Valid P) : dom.startObject.Valid P :=
  ⟨h.root, List.forall_mem_cons.mpr
    ⟨⟨List.Pairwise.nil, rfl, by simp⟩, h.refStack⟩⟩

theorem key (h : dom.Valid P) {key : List UInt8}
    (hkey : wellFormed key = true) : (dom.key key).Valid P := by
  obtain ⟨root, refStack⟩ := dom
  cases refStack with
  | nil => exact h
  | cons frame frames =>
      cases frame with
      | array elements => exact h
      | object members old =>
          obtain ⟨hframe, hframes⟩ := List.forall_mem_cons.mp h.refStack
          exact ⟨h.root, List.forall_mem_cons.mpr
            ⟨⟨hframe.1, hkey, hframe.2.2⟩, hframes⟩⟩

theorem endStructure (h : dom.Valid P) : dom.endStructure.Valid P := by
  obtain ⟨root, refStack⟩ := dom
  cases refStack with
  | nil => exact h
  | cons frame frames =>
      obtain ⟨hframe, hframes⟩ := List.forall_mem_cons.mp h.refStack
      have hpopped : (DomParser.mk root frames).Valid P := ⟨h.root, hframes⟩
      exact hpopped.handleValue hframe.value

end DomParser.Valid

def Phase.Valid : Phase → Prop
  | .value token => token.Valid
  | .evaluate => True

/-- The invariant of the loop. -/
structure ParserState.Valid (P : F → Prop) (s : ParserState F) : Prop where
  phase : s.phase.Valid
  dom : s.dom.Valid P

namespace ParserState.Valid

variable {s t : ParserState F}

theorem next {dom : DomParser F} (h : dom.Valid P) (input : List UInt8)
    (states : List Bool) : (ParserState.next input states dom).Valid P :=
  ⟨valid_scan input, h⟩

theorem parseKey {dom : DomParser F} (h : dom.Valid P) {token : Token}
    (htoken : token.Valid) {input : List UInt8} {states : List Bool}
    (hpass : ParserState.parseKey token input states dom = .inl t) :
    t.Valid P := by
  rw [ParserState.parseKey.eq_def] at hpass
  split at hpass
  · split at hpass
    · obtain rfl := Sum.inl.inj hpass
      exact next (h.key htoken) _ _
    · cases hpass
  · cases hpass

theorem complete (h : s.Valid P) {v : Value F} (hv : v.Valid P)
    (hpass : s.complete v = .inl t) : t.Valid P := by
  obtain rfl := Sum.inl.inj hpass
  exact ⟨trivial, h.dom.handleValue hv⟩

theorem of_scan {input rest : List UInt8} {token : Token}
    (h : scan input = (token, rest)) : token.Valid := by
  have hvalid := valid_scan input
  rw [h] at hvalid
  exact hvalid

theorem evaluate (h : s.Valid P) (hpass : s.evaluate = .inl t) :
    t.Valid P := by
  rw [ParserState.evaluate.eq_def] at hpass
  split at hpass
  · cases hpass
  · split at hpass
    · obtain rfl := Sum.inl.inj hpass
      exact next h.dom _ _
    · obtain rfl := Sum.inl.inj hpass
      exact ⟨trivial, h.dom.endStructure⟩
    · cases hpass
  · split at hpass
    · exact parseKey h.dom (valid_scan _) hpass
    · obtain rfl := Sum.inl.inj hpass
      exact ⟨trivial, h.dom.endStructure⟩
    · cases hpass

theorem parseValue (h : s.Valid fun x => isfinite x = true) {token : Token}
    (htoken : token.Valid)
    (hpass : s.parseValue strtod isfinite token = .inl t) :
    t.Valid fun x => isfinite x = true := by
  cases token with
  | beginObject =>
      rw [ParserState.parseValue.eq_def] at hpass
      simp only at hpass
      split at hpass
      · obtain rfl := Sum.inl.inj hpass
        exact ⟨trivial, h.dom.startObject.endStructure⟩
      · next token input _ hscan =>
          exact parseKey h.dom.startObject (of_scan hscan) hpass
  | beginArray =>
      rw [ParserState.parseValue.eq_def] at hpass
      simp only at hpass
      split at hpass
      · obtain rfl := Sum.inl.inj hpass
        exact ⟨trivial, h.dom.startArray.endStructure⟩
      · next token input _ hscan =>
          obtain rfl := Sum.inl.inj hpass
          exact ⟨of_scan hscan, h.dom.startArray⟩
  | valueFloat text =>
      rw [ParserState.parseValue] at hpass
      split_ifs at hpass with hfinite
      · exact h.complete (.numberFloat hfinite) hpass
      · cases hpass
  | literalFalse => exact h.complete (.boolean false) hpass
  | literalTrue => exact h.complete (.boolean true) hpass
  | literalNull => exact h.complete .null hpass
  | valueInteger n => exact h.complete (.numberInteger n) hpass
  | valueString text => exact h.complete (.string htoken) hpass
  | valueUnsigned n => exact h.complete (.numberUnsigned n) hpass
  | parseError | endOfInput | endArray | endObject | nameSeparator
  | valueSeparator => cases hpass

theorem pass (h : s.Valid fun x => isfinite x = true)
    (hpass : s.pass strtod isfinite = .inl t) :
    t.Valid fun x => isfinite x = true := by
  have hphase := h.phase
  rw [ParserState.pass] at hpass
  split at hpass
  · next token heq =>
      rw [heq] at hphase
      exact h.parseValue hphase hpass
  · exact h.evaluate hpass

end ParserState.Valid

theorem parseKey_ne_ok (token : Token) (input : List UInt8)
    (states : List Bool) (dom : DomParser F) (r : Value F × List UInt8) :
    parseKey token input states dom ≠ .inr (.ok r) := by
  rw [ParserState.parseKey.eq_def]
  split
  · split <;> simp [fail]
  · simp [fail]

theorem parseValue_ne_ok (s : ParserState F) (token : Token)
    (r : Value F × List UInt8) :
    s.parseValue strtod isfinite token ≠ .inr (.ok r) := by
  rw [ParserState.parseValue.eq_def]
  split
  · split
    · simp
    · exact parseKey_ne_ok _ _ _ _ r
  · split <;> simp
  · split_ifs <;> simp [complete, fail]
  all_goals simp [complete, fail]

/-- The loop returns nothing but the value that the handler has built. -/
theorem root_of_pass {s : ParserState F} {r : Value F × List UInt8}
    (h : s.pass strtod isfinite = .inr (.ok r)) : r.1 = s.dom.root := by
  rw [ParserState.pass] at h
  split at h
  · exact absurd h (parseValue_ne_ok s _ r)
  · rw [ParserState.evaluate.eq_def] at h
    split at h
    · obtain rfl := Except.ok.inj (Sum.inr.inj h)
      rfl
    · split at h <;> simp [fail] at h
    · split at h
      · exact absurd h (parseKey_ne_ok _ _ _ _ r)
      · cases h
      · cases h

/-- A parsed value holds no ill-formed string, no key twice and no infinite
number. -/
theorem valid_of_parse {text : List UInt8} {v : Value F}
    (h : parse strtod isfinite text = .ok v) :
    v.Valid fun x => isfinite x = true := by
  have hstart : (scanFirst text).1.Valid := by
    rw [scanFirst.eq_def]
    split
    · exact valid_scan _
    · trivial
    · exact valid_scan _
  have hresult := (saxParse strtod isfinite).invariant
    (I := fun s => s.Valid fun x => isfinite x = true)
    (P := fun r => ∀ p, r = .ok p → p.1.Valid fun x => isfinite x = true)
    (s := ⟨.value (scanFirst text).1, (scanFirst text).2, [], ⟨.null, []⟩⟩)
    (fun s t hs hpass => hs.pass hpass)
    (fun s r hs hpass p hp => by
      subst hp
      rw [root_of_pass hpass]
      exact hs.dom.root)
    ⟨hstart, .null, by simp⟩
  rw [parse] at h
  cases hloop : (saxParse strtod isfinite).result
      ⟨.value (scanFirst text).1, (scanFirst text).2, [], ⟨.null, []⟩⟩ with
  | error failure =>
      rw [hloop] at h
      cases h
  | ok p =>
      rw [hloop] at h
      change (if _ then _ else _) = _ at h
      split_ifs at h
      obtain rfl := Except.ok.inj h
      exact hresult p hloop

/-- What the parser accepts has no ill-formed strings and no key twice in an
object.  It can be written again: the serializer does not throw, and the text it
writes is read as the same value. -/
theorem dumped_of_parsed {text : List UInt8} {v : Value F}
    (hfloat : ∀ x, isfinite x = true →
      ReadsFloat strtod isfinite floatText x)
    (h : parse strtod isfinite text = .ok v) :
    (v.Valid fun x => isfinite x = true) ∧
      ∃ text', dump floatText v = .ok text' ∧
        parse strtod isfinite text' = .ok v.reread :=
  ⟨valid_of_parse h, _, dump_of_valid (valid_of_parse h) floatText,
    parse_text (valid_of_parse h) hfloat⟩

/-- A string in which two escapes stand for one character. -/
def surrogatePair : List UInt8 :=
  [34, 92, 117, 100, 56, 51, 100, 92, 117, 100, 101, 48, 48, 34]

theorem dumped_of_parsed_surrogatePair :
    let v : Value Unit := .string [0xF0, 0x9F, 0x98, 0x80]
    parse (fun _ => ()) (fun _ => false) surrogatePair = .ok v ∧
      ∃ text', dump (fun _ => []) v = .ok text' ∧
        parse (fun _ => ()) (fun _ => false) text' = .ok v := by
  intro v
  have hscan : scanFirst surrogatePair =
      (.valueString [0xF0, 0x9F, 0x98, 0x80], []) := by
    decide +kernel
  have hparse :
      parse (fun _ => ()) (fun _ => false) surrogatePair = .ok v := by
    rw [parse, hscan,
      (saxParse _ _).result_of_inl (t := ⟨.evaluate, [], [], ⟨v, []⟩⟩) rfl,
      (saxParse _ _).result_of_inr (r := .ok (v, [])) rfl]
    rfl
  exact ⟨hparse, (dumped_of_parsed (by simp) hparse).2⟩

end Nlohmann
