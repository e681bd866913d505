import RankingServer.Tbb.ConcurrentSkipList

/-!
# The levels of the skip list

Whatever the threads do, each level links a set of nodes in the order of their
keys, and each node of a level is also on the levels below.  The sets are not
stored anywhere; `Levels` says of given ones that the links are theirs.

A thread relies on little: a node that it passed stays where it is, and nobody
else touches the node that it is about to link.  `Point.Ok` says what is known
at each point, and `Keeps` what a thread leaves as it was for the others.
-/

namespace Tbb

open Transition SortedLinks

universe u v w

variable {T : Type w} {K : Type u} {V : Type v} [LinearOrder K]
  {s s' : Shared K V} {S S' : ℕ → Set ℕ} {level n : ℕ} {key : K}

namespace Shared

/-- The key of a node, which the head has below all others. -/
def rank (s : Shared K V) (n : ℕ) : WithBot K :=
  (s.get_key n).elim ⊥ fun key => key

def link (s : Shared K V) (level n : ℕ) : Option ℕ :=
  (s.memory n).bind fun node => node.next level

section

omit [LinearOrder K]

theorem memory_put_self (s : Shared K V) (n : ℕ) (node : Option (Node K V)) :
    (s.put n node).memory n = node :=
  Function.update_self _ _ _

theorem memory_put_of_ne {m : ℕ} (h : n ≠ m) (node : Option (Node K V)) :
    (s.put m node).memory n = s.memory n :=
  Function.update_of_ne h _ _

theorem link_put_of_ne {m : ℕ} (h : n ≠ m) (node : Option (Node K V)) :
    (s.put m node).link level n = s.link level n := by
  rw [link, memory_put_of_ne h, link]

/-- A store changes one link and nothing else of the node. -/
theorem memory_store (s : Shared K V) (n level : ℕ) (next : Option ℕ) {m : ℕ}
    {node : Node K V} (h : s.memory m = some node) :
    ∃ node', (s.store n level next).memory m = some node' ∧
      node'.my_value = node.my_value ∧ node'.my_height = node.my_height := by
  by_cases hm : m = n
  · subst hm
    refine ⟨{ node with next := Function.update node.next level next }, ?_,
      rfl, rfl⟩
    rw [store, memory_put_self, h, Option.map_some]
  · exact ⟨node, (memory_put_of_ne hm _).trans h, rfl, rfl⟩

theorem link_store_self {node : Node K V} (h : s.memory n = some node)
    (next : Option ℕ) : (s.store n level next).link level n = next := by
  rw [link, store, memory_put_self, h]
  exact Function.update_self _ _ _

theorem link_store_of_ne (s : Shared K V) (next : Option ℕ) {n m l : ℕ}
    (h : m ≠ n ∨ l ≠ level) :
    (s.store n level next).link l m = s.link l m := by
  by_cases hm : m = n
  · subst hm
    have hl : l ≠ level := h.resolve_left fun hne => hne rfl
    rw [link, store, memory_put_self, link]
    cases s.memory m with
    | none => rfl
    | some node => exact Function.update_of_ne hl _ _
  · exact link_put_of_ne hm _

theorem rank_store (s : Shared K V) (n level : ℕ) (next : Option ℕ) (m : ℕ) :
    (s.store n level next).rank m = s.rank m := by
  rw [rank, rank, get_key, get_key]
  by_cases hm : m = n
  · subst hm
    rw [store, memory_put_self, Option.bind_map]
    rfl
  · rw [store, memory_put_of_ne hm]

theorem get_key_of_value {value : V} (h : s.value n = some (key, value)) :
    s.get_key n = some key := by
  obtain ⟨node, hmemory, hvalue⟩ := Option.bind_eq_some_iff.mp h
  rw [get_key, hmemory, Option.bind_some, hvalue]
  rfl

theorem rank_of_get_key (h : s.get_key n = some key) : s.rank n = key := by
  rw [rank, h]
  rfl

end

end Shared

/-! ## Levels -/

/-- The links of each level are those of the set of nodes on it. -/
structure Levels (s : Shared K V) (S : ℕ → Set ℕ) : Prop where
  empty : s.my_head_ptr = none → ∀ level, S level = ∅
  head : ∀ head, s.my_head_ptr = some head → ∃ node,
    s.memory head = some node ∧ node.my_value = none ∧
      node.my_height = max_level
  links : ∀ head, s.my_head_ptr = some head → ∀ level < max_level,
    Links s.rank (s.link level) head (S level)
  nodes : ∀ level, ∀ n ∈ S level, ∃ node,
    s.memory n = some node ∧ node.my_value.isSome ∧ level < node.my_height
  nested : Antitone S
  finite : (S 0).Finite
  height : s.my_max_height ≤ max_level

/-- The head, or a node of the level. -/
def At (s : Shared K V) (S : Set ℕ) (n : ℕ) : Prop :=
  s.my_head_ptr = some n ∨ n ∈ S

/-- A node from which a search for the key can go on. -/
structure Before (s : Shared K V) (S : Set ℕ) (key : K) (prev : ℕ) : Prop where
  pos : At s S prev
  lt : s.rank prev < key

namespace Levels

variable (h : Levels s S)
include h

theorem exists_head (hn : At s (S level) n) :
    ∃ head, s.my_head_ptr = some head ∧ n ∈ insert head (S level) := by
  cases hhead : s.my_head_ptr with
  | none =>
      rcases hn with hn | hn
      · rw [hhead] at hn
        cases hn
      · rw [h.empty hhead level] at hn
        cases hn
  | some head =>
      refine ⟨head, rfl, ?_⟩
      rcases hn with hn | hn
      · exact .inl (Option.some.inj (hn.symm.trans hhead))
      · exact .inr hn

theorem exists_node (hlevel : level < max_level) (hn : At s (S level) n) :
    ∃ node, s.memory n = some node ∧ level < node.my_height := by
  rcases hn with hn | hn
  · obtain ⟨node, hmemory, -, hheight⟩ := h.head n hn
    exact ⟨node, hmemory, hheight ▸ hlevel⟩
  · obtain ⟨node, hmemory, -, hheight⟩ := h.nodes level n hn
    exact ⟨node, hmemory, hheight⟩

theorem next_eq (hlevel : level < max_level) (hn : At s (S level) n) :
    s.next n level = some (s.link level n) := by
  obtain ⟨node, hmemory, hheight⟩ := h.exists_node hlevel hn
  rw [Shared.next, Shared.link, hmemory]
  exact if_pos hheight

theorem isNext (hlevel : level < max_level) (hn : At s (S level) n) :
    IsNext s.rank (S level) (s.rank n) (s.link level n) := by
  obtain ⟨head, hhead, hmem⟩ := h.exists_head hn
  exact (h.links head hhead level hlevel).isNext n hmem

theorem exists_key (hn : n ∈ S level) : ∃ key, s.get_key n = some key := by
  obtain ⟨node, hmemory, hvalue, -⟩ := h.nodes level n hn
  obtain ⟨value, hvalue⟩ := Option.isSome_iff_exists.mp hvalue
  refine ⟨value.1, ?_⟩
  rw [Shared.get_key, hmemory, Option.bind_some, hvalue]
  rfl

theorem injective {m : ℕ} (hlevel : level < max_level) (hn : n ∈ S level)
    (hm : m ∈ S level) (hrank : s.rank n = s.rank m) : n = m := by
  obtain ⟨head, hhead, -⟩ := h.exists_head (.inr hn)
  exact (h.links head hhead level hlevel).injective hn hm hrank

theorem rank_head (hhead : s.my_head_ptr = some n) : s.rank n = ⊥ := by
  obtain ⟨node, hmemory, hvalue, -⟩ := h.head n hhead
  rw [Shared.rank, Shared.get_key, hmemory, Option.bind_some, hvalue]
  rfl

theorem before_head (hhead : s.my_head_ptr = some n) (key : K) :
    Before s (S level) key n :=
  ⟨.inl hhead, h.rank_head hhead ▸ WithBot.bot_lt_coe key⟩

theorem before_of_le {prev level' : ℕ} (hle : level' ≤ level)
    (hprev : Before s (S level) key prev) :
    Before s (S level') key prev :=
  ⟨hprev.pos.imp_right fun hn => h.nested hle hn, hprev.lt⟩

/-- A pass either moves on in front of the key, or has found the first node that
does not come before it. -/
theorem advance_spec {prev : ℕ} (hlevel : level < max_level)
    (hprev : Before s (S level) key prev) :
    (∃ n, s.advance key level prev = some (.on n) ∧ n ∈ S level ∧
        s.link level prev = some n ∧ s.rank n < key) ∨
      (s.advance key level prev = some (.stop (s.link level prev)) ∧
        ∀ n ∈ s.link level prev, n ∈ S level ∧ key ≤ s.rank n) := by
  have hnext := h.isNext hlevel hprev.pos
  rw [Shared.advance, h.next_eq hlevel hprev.pos, Option.bind_some]
  cases hlink : s.link level prev with
  | none => exact .inr ⟨rfl, by simp⟩
  | some n =>
      rw [hlink] at hnext
      obtain ⟨hn, -⟩ := hnext.mem n rfl
      obtain ⟨k, hk⟩ := h.exists_key hn
      have hrank := Shared.rank_of_get_key hk
      by_cases hlt : k < key
      · refine .inl ⟨n, ?_, hn, rfl, ?_⟩
        · simp only [hk, Option.map_some, if_pos hlt]
        · rw [hrank]
          exact WithBot.coe_lt_coe.mpr hlt
      · refine .inr ⟨?_, ?_⟩
        · simp only [hk, Option.map_some, if_neg hlt]
        · intro m hm
          obtain rfl := Option.some.inj hm
          refine ⟨hn, ?_⟩
          rw [hrank]
          exact WithBot.coe_le_coe.mpr (not_lt.mp hlt)

end Levels

/-! ## What the threads know -/

/-- The node of an insertion, which is on the levels below `level`. -/
structure Own (s : Shared K V) (S : ℕ → Set ℕ) (new : Insertion K V)
    (level : ℕ) : Prop where
  node : ∃ node, s.memory new.node = some node ∧
    node.my_value = some (new.key, new.value) ∧
      node.my_height = new.height
  linked : ∀ l, new.node ∈ S l ↔ l < level
  pos : 0 < new.height
  le : new.height ≤ max_level

/-- The entries of the arrays for a level, between which the key belongs. -/
structure Entry (s : Shared K V) (S : Set ℕ) (key : K) (prev : ℕ)
    (curr : Option ℕ) : Prop where
  before : Before s S key prev
  after : ∀ n ∈ curr, n ∈ S ∧ key ≤ s.rank n

/-- The entries from `level` on, as far as the node is high. -/
def Filled (s : Shared K V) (S : ℕ → Set ℕ) (new : Insertion K V)
    (arrays : Arrays) (level : ℕ) : Prop :=
  ∀ l, level ≤ l → l < new.height → ∃ prev curr,
    arrays.prev_nodes l = some prev ∧ arrays.curr_nodes l = some curr ∧
      Entry s (S l) new.key prev curr

/-- The link that was stored in the node on the level leads to the entry. -/
def Aimed (s : Shared K V) (new : Insertion K V) (arrays : Arrays)
    (level : ℕ) : Prop :=
  arrays.curr_nodes level = some (s.link level new.node) ∧
    ∀ n ∈ s.link level new.node, new.key < s.rank n

/-- A node that a search for the key finds from now on. -/
structure Holds (s : Shared K V) (S : ℕ → Set ℕ) (key : K) (n : ℕ) : Prop where
  mem : n ∈ S 0
  rank : s.rank n = key
  height : 0 < s.my_max_height

/-- An unused head. -/
structure Spare (s : Shared K V) (S : ℕ → Set ℕ) (new_head : ℕ) : Prop where
  node : ∃ node, s.memory new_head = some node ∧ node.my_value = none ∧
    node.my_height = max_level
  link : ∀ level, s.link level new_head = none
  unused : ∀ level, ¬ At s (S level) new_head

/-- What is known at a point. -/
def Point.Ok (s : Shared K V) (S : ℕ → Set ℕ) : Point K V → Prop
  | .idle | .findHead _ => True
  | .getHead new => Own s S new 0
  | .casHead new new_head => Own s S new 0 ∧ Spare s S new_head
  | .loadHeight new head _ => Own s S new 0 ∧ s.my_head_ptr = some head
  | .fill new head arrays level prev =>
      Own s S new 0 ∧ s.my_head_ptr = some head ∧ level < max_level ∧
        0 < s.my_max_height ∧ Before s (S level) new.key prev ∧
          Filled s S new arrays (level + 1)
  | .compare new head arrays =>
      Own s S new 0 ∧ s.my_head_ptr = some head ∧ Filled s S new arrays 0 ∧
        (arrays.curr_nodes 0 = some none ∨ 0 < s.my_max_height)
  | .link new head arrays =>
      Own s S new 0 ∧ s.my_head_ptr = some head ∧ Filled s S new arrays 0 ∧
        Aimed s new arrays 0
  | .loadMax new arrays => Own s S new 1 ∧ Filled s S new arrays 1
  | .raiseMax new arrays max_height =>
      Own s S new 1 ∧ Filled s S new arrays 1 ∧ max_height ≤ s.my_max_height
  | .setNext new arrays level =>
      Own s S new level ∧ 0 < level ∧ level < new.height ∧
        0 < s.my_max_height ∧ Filled s S new arrays level
  | .linkUpper new arrays level =>
      Own s S new level ∧ 0 < level ∧ level < new.height ∧
        0 < s.my_max_height ∧ Filled s S new arrays level ∧
          Aimed s new arrays level
  | .refill new arrays level lev prev =>
      Own s S new level ∧ 0 < level ∧ level ≤ lev ∧ lev < new.height ∧
        0 < s.my_max_height ∧ Filled s S new arrays level ∧
          Before s (S lev) new.key prev
  | .count new => Own s S new new.height ∧ 0 < s.my_max_height
  | .inserted new => Holds s S new.key new.node ∧
      s.value new.node = some (new.key, new.value)
  | .present key node => Holds s S key node
  | .findHeight _ head => s.my_head_ptr = some head
  | .findAt key level prev =>
      level < max_level ∧ 0 < s.my_max_height ∧ Before s (S level) key prev
  | .result key node => ∀ n ∈ node, Holds s S key n
  | .faulted => False

/-- The nodes that no other thread touches. -/
def Point.owned : Point K V → List ℕ
  | .getHead new | .loadHeight new _ _ | .fill new _ _ _ _
  | .compare new _ _ | .link new _ _ | .loadMax new _ | .raiseMax new _ _
  | .setNext new _ _ | .linkUpper new _ _ | .refill new _ _ _ _
  | .count new => [new.node]
  | .casHead new new_head => [new.node, new_head]
  | _ => []

inductive Call (K : Type u) (V : Type v)
  | insertion (new : Insertion K V)
  | search (key : K)

/-- The call that the thread is in, or has come back from. -/
def Point.Serves (call : Call K V) : Point K V → Prop
  | .getHead new | .casHead new _ | .loadHeight new _ _ | .fill new _ _ _ _
  | .compare new _ _ | .link new _ _ | .loadMax new _ | .raiseMax new _ _
  | .setNext new _ _ | .linkUpper new _ _ | .refill new _ _ _ _ | .count new
  | .inserted new => call = .insertion new
  | .present key _ => ∃ new, call = .insertion new ∧ new.key = key
  | .findHead key | .findHeight key _ | .findAt key _ _ | .result key _ =>
      call = .search key
  | .idle | .faulted => False

namespace Own

variable {new : Insertion K V} (h : Own s S new level)
include h

omit [LinearOrder K] in
theorem rank_eq : s.rank new.node = new.key := by
  obtain ⟨node, hmemory, hvalue, -⟩ := h.node
  apply Shared.rank_of_get_key
  rw [Shared.get_key, hmemory, Option.bind_some, hvalue]
  rfl

omit [LinearOrder K] in
theorem value_eq : s.value new.node = some (new.key, new.value) := by
  obtain ⟨node, hmemory, hvalue, -⟩ := h.node
  rw [Shared.value, hmemory, Option.bind_some, hvalue]

theorem ne_head (hs : Levels s S) : s.my_head_ptr ≠ some new.node := by
  intro hhead
  have hrank := hs.rank_head hhead
  rw [h.rank_eq] at hrank
  exact WithBot.coe_ne_bot hrank

theorem not_at (hs : Levels s S) {l : ℕ} (hl : level ≤ l) :
    ¬ At s (S l) new.node := by
  rintro (hhead | hmem)
  · exact h.ne_head hs hhead
  · exact hl.not_gt ((h.linked l).mp hmem)

end Own

theorem Point.Ok.exists_node {point : Point K V} (h : point.Ok s S)
    (hn : n ∈ point.owned) : ∃ node, s.memory n = some node := by
  have hnew : ∀ {new level}, Own s S new level → n ∈ [new.node] →
      ∃ node, s.memory n = some node := by
    intro new level hown hn
    obtain rfl := List.mem_singleton.mp hn
    exact hown.node.imp fun _ h => h.1
  cases point with
  | getHead new => exact hnew h hn
  | casHead new new_head =>
      rcases List.mem_cons.mp hn with rfl | hn
      · exact h.1.node.imp fun _ h => h.1
      · obtain rfl := List.mem_singleton.mp hn
        exact h.2.node.imp fun _ h => h.1
  | loadHeight | fill | compare | link | loadMax | raiseMax | setNext
  | linkUpper | refill | count => exact hnew h.1 hn
  | _ => cases hn

/-! ## What is kept for the other threads -/

/-- A thread that owns `mine` links its nodes and changes nothing else. -/
structure Keeps (mine : List ℕ) (s : Shared K V) (S : ℕ → Set ℕ)
    (s' : Shared K V) (S' : ℕ → Set ℕ) : Prop where
  head : ∀ n, s.my_head_ptr = some n → s'.my_head_ptr = some n
  newHead : ∀ n ∉ mine, s'.my_head_ptr = some n → s.my_head_ptr = some n
  height : s.my_max_height ≤ s'.my_max_height
  mono : ∀ level, S level ⊆ S' level
  new : ∀ n ∉ mine, ∀ level, n ∈ S' level → n ∈ S level
  same : ∀ n node, s.memory n = some node → At s (S 0) n ∨ n ∉ mine →
    ∃ node', s'.memory n = some node' ∧ node'.my_value = node.my_value ∧
      node'.my_height = node.my_height
  links : ∀ n ∉ mine, ∀ level, ¬ At s (S level) n →
    s'.link level n = s.link level n

section Keeps

variable {mine : List ℕ}

omit [LinearOrder K] in
theorem Keeps.refl (mine : List ℕ) (s : Shared K V) (S : ℕ → Set ℕ) :
    Keeps mine s S s S :=
  ⟨fun _ h => h, fun _ _ h => h, le_rfl, fun _ => subset_rfl, fun _ _ _ h => h,
    fun _ node h _ => ⟨node, h, rfl, rfl⟩, fun _ _ _ _ => rfl⟩

variable (h : Keeps mine s S s' S')
include h

omit [LinearOrder K] in
theorem Keeps.rank_eq {node : Node K V} (hmemory : s.memory n = some node)
    (hn : At s (S 0) n ∨ n ∉ mine) : s'.rank n = s.rank n := by
  obtain ⟨node', hmemory', hvalue, -⟩ := h.same n node hmemory hn
  rw [Shared.rank, Shared.get_key, hmemory', Option.bind_some, hvalue,
    Shared.rank, Shared.get_key, hmemory, Option.bind_some]

theorem Keeps.rank_of_at (hs : Levels s S) (hn : At s (S level) n) :
    s'.rank n = s.rank n := by
  have hn : At s (S 0) n := hn.imp_right fun hn => hs.nested (Nat.zero_le _) hn
  obtain ⟨node, hmemory, -⟩ := hs.exists_node (by decide) hn
  exact h.rank_eq hmemory (.inl hn)

theorem Keeps.value_of_at (hs : Levels s S) (hn : At s (S 0) n) :
    s'.value n = s.value n := by
  obtain ⟨node, hmemory, -⟩ := hs.exists_node (by decide) hn
  obtain ⟨node', hmemory', hvalue, -⟩ := h.same n node hmemory (.inl hn)
  rw [Shared.value, hmemory', Option.bind_some, hvalue, Shared.value, hmemory,
    Option.bind_some]

omit [LinearOrder K] in
theorem Keeps.at (hn : At s (S level) n) : At s' (S' level) n :=
  hn.imp (h.head n) fun hn => h.mono level hn

theorem Keeps.before (hs : Levels s S) (hn : Before s (S level) key n) :
    Before s' (S' level) key n :=
  ⟨h.at hn.pos, (h.rank_of_at hs hn.pos).symm ▸ hn.lt⟩

theorem Keeps.entry (hs : Levels s S) {prev : ℕ} {curr : Option ℕ}
    (he : Entry s (S level) key prev curr) :
    Entry s' (S' level) key prev curr := by
  refine ⟨h.before hs he.before, ?_⟩
  intro n hn
  obtain ⟨hmem, hle⟩ := he.after n hn
  exact ⟨h.mono level hmem, (h.rank_of_at hs (.inr hmem)).symm ▸ hle⟩

theorem Keeps.filled (hs : Levels s S) {new : Insertion K V} {arrays : Arrays}
    (hf : Filled s S new arrays level) : Filled s' S' new arrays level := by
  intro l hl hheight
  obtain ⟨prev, curr, hprev, hcurr, he⟩ := hf l hl hheight
  exact ⟨prev, curr, hprev, hcurr, h.entry hs he⟩

theorem Keeps.holds (hs : Levels s S) (hn : Holds s S key n) :
    Holds s' S' key n :=
  ⟨h.mono 0 hn.mem, (h.rank_of_at hs (.inr hn.mem)).trans hn.rank,
    hn.height.trans_le h.height⟩

omit [LinearOrder K] in
theorem Keeps.own {new : Insertion K V} (hown : Own s S new level)
    (hmine : new.node ∉ mine) : Own s' S' new level := by
  obtain ⟨node, hmemory, hvalue, hheight⟩ := hown.node
  obtain ⟨node', hmemory', hvalue', hheight'⟩ :=
    h.same new.node node hmemory (.inr hmine)
  refine ⟨⟨node', hmemory', hvalue'.trans hvalue,
    hheight'.trans hheight⟩, ?_, hown.pos, hown.le⟩
  intro l
  rw [← hown.linked l]
  exact ⟨h.new new.node hmine l, fun hn => h.mono l hn⟩

omit [LinearOrder K] in
theorem Keeps.spare {new_head : ℕ} (hspare : Spare s S new_head)
    (hmine : new_head ∉ mine) : Spare s' S' new_head := by
  obtain ⟨node, hmemory, hvalue, hheight⟩ := hspare.node
  obtain ⟨node', hmemory', hvalue', hheight'⟩ :=
    h.same new_head node hmemory (.inr hmine)
  refine ⟨⟨node', hmemory', hvalue'.trans hvalue, hheight'.trans hheight⟩,
    ?_, ?_⟩
  · intro level
    rw [h.links new_head hmine level (hspare.unused level)]
    exact hspare.link level
  · intro level hat
    exact hspare.unused level
      (hat.imp (h.newHead new_head hmine) (h.new new_head hmine level))

theorem Keeps.aimed (hs : Levels s S) {new : Insertion K V} {arrays : Arrays}
    (hown : Own s S new level) (hmine : new.node ∉ mine)
    (hlevel : level < new.height) (hf : Filled s S new arrays level)
    (ha : Aimed s new arrays level) : Aimed s' new arrays level := by
  obtain ⟨hcurr, hlt⟩ := ha
  obtain ⟨prev, curr, -, hcurr', hentry⟩ := hf level le_rfl hlevel
  obtain rfl := Option.some.inj (hcurr.symm.trans hcurr')
  have hlink := h.links new.node hmine level (hown.not_at hs le_rfl)
  refine ⟨hlink ▸ hcurr, ?_⟩
  intro n hn
  rw [hlink] at hn
  rw [h.rank_of_at hs (.inr (hentry.after n hn).1)]
  exact hlt n hn

/-- What a thread knows still holds after a step of another one. -/
theorem Keeps.ok (hs : Levels s S) {point : Point K V}
    (hok : point.Ok s S) (hmine : ∀ n ∈ point.owned, n ∉ mine) :
    point.Ok s' S' := by
  cases point with
  | idle | findHead => trivial
  | faulted => exact hok
  | getHead new => exact h.own hok (hmine new.node (by simp [Point.owned]))
  | casHead new new_head =>
      exact ⟨h.own hok.1 (hmine new.node (by simp [Point.owned])),
        h.spare hok.2 (hmine new_head (by simp [Point.owned]))⟩
  | loadHeight new head arrays =>
      obtain ⟨hown, hhead⟩ := hok
      exact ⟨h.own hown (hmine new.node (by simp [Point.owned])),
        h.head head hhead⟩
  | fill new head arrays level prev =>
      obtain ⟨hown, hhead, hlevel, hpos, hbefore, hfilled⟩ := hok
      exact ⟨h.own hown (hmine new.node (by simp [Point.owned])),
        h.head head hhead,
        hlevel, hpos.trans_le h.height, h.before hs hbefore,
        h.filled hs hfilled⟩
  | compare new head arrays =>
      obtain ⟨hown, hhead, hfilled, hfound⟩ := hok
      exact ⟨h.own hown (hmine new.node (by simp [Point.owned])),
        h.head head hhead,
        h.filled hs hfilled,
        hfound.imp_right fun hpos => hpos.trans_le h.height⟩
  | link new head arrays =>
      obtain ⟨hown, hhead, hfilled, haimed⟩ := hok
      have hnode := hmine new.node (by simp [Point.owned])
      exact ⟨h.own hown hnode, h.head head hhead, h.filled hs hfilled,
        h.aimed hs hown hnode hown.pos hfilled haimed⟩
  | loadMax new arrays =>
      obtain ⟨hown, hfilled⟩ := hok
      exact ⟨h.own hown (hmine new.node (by simp [Point.owned])),
        h.filled hs hfilled⟩
  | raiseMax new arrays max_height =>
      obtain ⟨hown, hfilled, hle⟩ := hok
      exact ⟨h.own hown (hmine new.node (by simp [Point.owned])),
        h.filled hs hfilled, hle.trans h.height⟩
  | setNext new arrays level =>
      obtain ⟨hown, hlevel, hlt, hpos, hfilled⟩ := hok
      exact ⟨h.own hown (hmine new.node (by simp [Point.owned])),
        hlevel, hlt,
        hpos.trans_le h.height, h.filled hs hfilled⟩
  | linkUpper new arrays level =>
      obtain ⟨hown, hlevel, hlt, hpos, hfilled, haimed⟩ := hok
      have hnode := hmine new.node (by simp [Point.owned])
      exact ⟨h.own hown hnode, hlevel, hlt, hpos.trans_le h.height,
        h.filled hs hfilled, h.aimed hs hown hnode hlt hfilled haimed⟩
  | refill new arrays level lev prev =>
      obtain ⟨hown, hlevel, hle, hlt, hpos, hfilled, hbefore⟩ := hok
      exact ⟨h.own hown (hmine new.node (by simp [Point.owned])),
        hlevel, hle, hlt,
        hpos.trans_le h.height, h.filled hs hfilled, h.before hs hbefore⟩
  | count new =>
      exact ⟨h.own hok.1 (hmine new.node (by simp [Point.owned])),
        hok.2.trans_le h.height⟩
  | inserted new =>
      obtain ⟨hholds, hvalue⟩ := hok
      exact ⟨h.holds hs hholds,
        (h.value_of_at hs (.inr hholds.mem)).trans hvalue⟩
  | present key node => exact h.holds hs hok
  | findHeight key head => exact h.head head hok
  | findAt key level prev =>
      obtain ⟨hlevel, hpos, hbefore⟩ := hok
      exact ⟨hlevel, hpos.trans_le h.height, h.before hs hbefore⟩
  | result key node => exact fun n hn => h.holds hs (hok n hn)

end Keeps

end Tbb
