import RankingServer.Tbb.Levels

/-!
# The steps of an insertion

What a thread knows at a point is enough for its next access: the access finds
what it needs, leaves the levels in order and the other threads undisturbed, and
what is known at the point behind it holds.  A compare-and-swap that succeeds
puts the node on one more level; everything else a thread does changes nodes
that nobody else has seen.
-/

namespace Tbb

open Transition SortedLinks

universe u v w

variable {T : Type w} {K : Type u} {V : Type v} [LinearOrder K]
  {s s' : Shared K V} {S S' : ℕ → Set ℕ} {level n : ℕ} {key : K}
  {new : Insertion K V} {arrays : Arrays}

/-! ## Changes of the memory -/

/-- The levels stay in order when their nodes stay as they are. -/
theorem Levels.of_same (h : Levels s S)
    (hhead : s'.my_head_ptr = s.my_head_ptr)
    (hheight : s'.my_max_height ≤ max_level)
    (hsame : ∀ n node, At s (S 0) n → s.memory n = some node →
      ∃ node', s'.memory n = some node' ∧ node'.my_value = node.my_value ∧
        node'.my_height = node.my_height)
    (hlink : ∀ level n, At s (S level) n →
      s'.link level n = s.link level n) : Levels s' S := by
  have hrank : ∀ n, At s (S 0) n → s'.rank n = s.rank n := by
    intro n hn
    obtain ⟨node, hmemory, -⟩ := h.exists_node (by decide) hn
    obtain ⟨node', hmemory', hvalue, -⟩ := hsame n node hn hmemory
    rw [Shared.rank, Shared.get_key, hmemory', Option.bind_some, hvalue,
      Shared.rank, Shared.get_key, hmemory, Option.bind_some]
  have hzero : ∀ {level n}, At s (S level) n → At s (S 0) n :=
    fun hn => hn.imp_right fun hn => h.nested (Nat.zero_le _) hn
  refine ⟨?_, ?_, ?_, ?_, h.nested, h.finite, hheight⟩
  · intro hnone
    exact h.empty (hhead ▸ hnone)
  · intro head hsome
    rw [hhead] at hsome
    obtain ⟨node, hmemory, hvalue, hmax⟩ := h.head head hsome
    obtain ⟨node', hmemory', hvalue', hmax'⟩ :=
      hsame head node (.inl hsome) hmemory
    exact ⟨node', hmemory', hvalue'.trans hvalue, hmax'.trans hmax⟩
  · intro head hsome level hlevel
    rw [hhead] at hsome
    have hat : ∀ n ∈ insert head (S level), At s (S level) n := by
      rintro n (rfl | hn)
      · exact .inl hsome
      · exact .inr hn
    refine (h.links head hsome level hlevel).congr ?_ ?_
    · exact fun n hn => hrank n (hzero (hat n hn))
    · exact fun n hn => hlink level n (hat n hn)
  · intro level n hn
    obtain ⟨node, hmemory, hvalue, hlt⟩ := h.nodes level n hn
    obtain ⟨node', hmemory', hvalue', hheight'⟩ :=
      hsame n node (hzero (.inr hn)) hmemory
    exact ⟨node', hmemory', hvalue' ▸ hvalue, hheight' ▸ hlt⟩

omit [LinearOrder K] in
/-- A new node is none of the nodes of the list. -/
theorem keeps_create (mine : List ℕ) (hfresh : s.memory n = none)
    (value : Option (K × V)) (height : ℕ) :
    Keeps mine s S (s.put n (some (Node.create value height))) S := by
  refine ⟨fun _ h => h, fun _ _ h => h, le_rfl, fun _ => subset_rfl,
    fun _ _ _ h => h, ?_, ?_⟩
  · intro m node hmemory _
    have hm : m ≠ n := by
      rintro rfl
      rw [hfresh] at hmemory
      cases hmemory
    exact ⟨node, (Shared.memory_put_of_ne hm _).trans hmemory, rfl, rfl⟩
  · intro m _ level _
    by_cases hm : m = n
    · subst hm
      rw [Shared.link, Shared.memory_put_self, Shared.link, hfresh]
      rfl
    · exact Shared.link_put_of_ne hm _

theorem levels_put (h : Levels s S) (hn : ∀ level, ¬ At s (S level) n)
    (node : Option (Node K V)) : Levels (s.put n node) S := by
  refine h.of_same rfl h.height ?_ ?_
  · intro m node hm hmemory
    have hne : m ≠ n := by
      rintro rfl
      exact hn 0 hm
    exact ⟨node, (Shared.memory_put_of_ne hne _).trans hmemory, rfl, rfl⟩
  · intro level m hm
    have hne : m ≠ n := by
      rintro rfl
      exact hn level hm
    exact Shared.link_put_of_ne hne _

omit [LinearOrder K] in
/-- Nobody misses a node that is not linked. -/
theorem keeps_destroy {mine : List ℕ} (hmine : n ∈ mine)
    (hn : ∀ level, ¬ At s (S level) n) :
    Keeps mine s S (s.destroy n) S := by
  refine ⟨fun _ h => h, fun _ _ h => h, le_rfl, fun _ => subset_rfl,
    fun _ _ _ h => h, ?_, ?_⟩
  · intro m node hmemory hm
    have hne : m ≠ n := by
      rintro rfl
      exact hm.elim (hn 0) fun hm => hm hmine
    exact ⟨node, (Shared.memory_put_of_ne hne _).trans hmemory, rfl, rfl⟩
  · intro m hm level _
    have hne : m ≠ n := fun heq => hm (heq ▸ hmine)
    exact Shared.link_put_of_ne hne _

theorem levels_store (h : Levels s S) (hn : ¬ At s (S level) n)
    (next : Option ℕ) : Levels (s.store n level next) S := by
  refine h.of_same rfl h.height ?_ ?_
  · intro m node _ hmemory
    exact Shared.memory_store s n level next hmemory
  · intro l m hm
    apply Shared.link_store_of_ne
    by_cases hm' : m = n
    · subst hm'
      exact .inr fun hl => hn (hl ▸ hm)
    · exact .inl hm'

omit [LinearOrder K] in
/-- Others do not see a link that is not on its level. -/
theorem keeps_store {mine : List ℕ} (hmine : n ∈ mine) (level : ℕ)
    (next : Option ℕ) : Keeps mine s S (s.store n level next) S := by
  refine ⟨fun _ h => h, fun _ _ h => h, le_rfl, fun _ => subset_rfl,
    fun _ _ _ h => h, ?_, ?_⟩
  · intro m node hmemory _
    exact Shared.memory_store s n level next hmemory
  · intro m hm l _
    exact Shared.link_store_of_ne s next
      (.inl fun heq => hm (heq ▸ hmine))

/-! ## Linking a node -/

/-- The levels with one more node. -/
def raise (S : ℕ → Set ℕ) (level n : ℕ) : ℕ → Set ℕ :=
  Function.update S level (insert n (S level))

theorem mem_raise {m l : ℕ} :
    m ∈ raise S level n l ↔ m ∈ S l ∨ (m = n ∧ l = level) := by
  rw [raise]
  by_cases hl : l = level
  · subst hl
    rw [Function.update_self, Set.mem_insert_iff]
    exact ⟨fun h => h.symm.imp_right fun h => ⟨h, rfl⟩,
      fun h => (h.imp_right And.left).symm⟩
  · rw [Function.update_of_ne hl]
    exact ⟨.inl, fun h => h.resolve_right fun h => hl h.2⟩

theorem subset_raise (S : ℕ → Set ℕ) (level n l : ℕ) :
    S l ⊆ raise S level n l :=
  fun _ hm => mem_raise.mpr (.inl hm)

section Link

variable {prev : ℕ} (h : Levels s S) (hown : Own s S new level)
  (hlevel : level < new.height) (hprev : Before s (S level) new.key prev)
  (hlink : s.link level new.node = s.link level prev)
  (hlt : ∀ n ∈ s.link level prev, new.key < s.rank n)
include h hown hlevel hprev hlink hlt

/-- The compare-and-swap of the link in front of the node puts it on the
level. -/
theorem levels_link :
    Levels (s.store prev level (some new.node)) (raise S level new.node) := by
  have hmax : level < max_level := hlevel.trans_le hown.le
  obtain ⟨node, hmemory, hvalue, hheight⟩ := hown.node
  obtain ⟨prevNode, hprevMemory, -⟩ := h.exists_node hmax hprev.pos
  have hne : prev ≠ new.node := by
    rintro rfl
    exact hown.not_at h le_rfl hprev.pos
  have hrank : (s.store prev level (some new.node)).rank = s.rank :=
    funext fun n => Shared.rank_store s prev level (some new.node) n
  refine ⟨?_, ?_, ?_, ?_, ?_, ?_, h.height⟩
  · intro hnone
    obtain ⟨head, hhead, -⟩ := h.exists_head hprev.pos
    exact absurd (hhead.symm.trans hnone) (by simp)
  · intro head hhead
    obtain ⟨node, hmemory, hvalue, hmaxHeight⟩ := h.head head hhead
    obtain ⟨node', hmemory', hvalue', hheight'⟩ :=
      Shared.memory_store s prev level (some new.node) hmemory
    exact ⟨node', hmemory', hvalue'.trans hvalue, hheight'.trans hmaxHeight⟩
  · intro head hhead l hl
    rw [hrank]
    by_cases heq : l = level
    · subst heq
      obtain ⟨_, hhead', hmem⟩ := h.exists_head hprev.pos
      obtain rfl := Option.some.inj (hhead.symm.trans hhead')
      have hbetween := hown.rank_eq.symm ▸ hprev.lt
      rw [raise, Function.update_self]
      refine (h.links head hhead l hl).insert hmem hbetween ?_
        (Shared.link_store_self hprevMemory _) ?_ ?_
      · intro c hc
        rw [hown.rank_eq]
        exact hlt c hc
      · rw [Shared.link_store_of_ne s _ (.inl hne.symm)]
        exact hlink
      · intro q _ hq
        exact Shared.link_store_of_ne s _ (.inl hq)
    · rw [raise, Function.update_of_ne heq]
      refine (h.links head hhead l hl).congr (fun _ _ => rfl) ?_
      intro q _
      exact Shared.link_store_of_ne s _ (.inr heq)
  · intro l m hm
    rcases mem_raise.mp hm with hm | ⟨rfl, rfl⟩
    · obtain ⟨node, hmemory, hvalue, hheight⟩ := h.nodes l m hm
      obtain ⟨node', hmemory', hvalue', hheight'⟩ :=
        Shared.memory_store s prev level (some new.node) hmemory
      exact ⟨node', hmemory', hvalue' ▸ hvalue, hheight' ▸ hheight⟩
    · obtain ⟨node', hmemory', hvalue', hheight'⟩ :=
        Shared.memory_store s prev l (some new.node) hmemory
      refine ⟨node', hmemory', ?_, ?_⟩
      · rw [hvalue', hvalue]
        rfl
      · rw [hheight', hheight]
        exact hlevel
  · intro l l' hle m hm
    rcases mem_raise.mp hm with hm | ⟨rfl, rfl⟩
    · exact subset_raise S level new.node l (h.nested hle hm)
    · rcases hle.eq_or_lt with rfl | hlt'
      · exact hm
      · exact subset_raise S l' new.node l ((hown.linked l).mpr hlt')
  · refine (h.finite.insert new.node).subset ?_
    intro m hm
    rcases mem_raise.mp hm with hm | ⟨rfl, -⟩
    · exact .inr hm
    · exact .inl rfl

omit h hown hlevel hlink hlt in
theorem keeps_link {mine : List ℕ} (hmine : new.node ∈ mine) :
    Keeps mine s S (s.store prev level (some new.node))
      (raise S level new.node) := by
  refine ⟨fun _ h => h, fun _ _ h => h, le_rfl, subset_raise S level new.node,
    ?_, ?_, ?_⟩
  · intro m hm l hl
    exact (mem_raise.mp hl).resolve_right fun heq => hm (heq.1 ▸ hmine)
  · intro m node hmemory _
    exact Shared.memory_store s prev level (some new.node) hmemory
  · intro m _ l hl
    apply Shared.link_store_of_ne
    by_cases heq : m = prev
    · subst heq
      exact .inr fun heq => hl (heq ▸ hprev.pos)
    · exact .inl heq

omit [LinearOrder K] h hlevel hprev hlink hlt in
theorem own_link : Own (s.store prev level (some new.node))
    (raise S level new.node) new (level + 1) := by
  obtain ⟨node, hmemory, hvalue, hheight⟩ := hown.node
  obtain ⟨node', hmemory', hvalue', hheight'⟩ :=
    Shared.memory_store s prev level (some new.node) hmemory
  refine ⟨⟨node', hmemory', hvalue'.trans hvalue,
    hheight'.trans hheight⟩, ?_, hown.pos, hown.le⟩
  intro l
  rw [mem_raise, hown.linked l]
  simp only [true_and]
  omega

end Link

/-- The levels are the same, or have one more node, which is that of the
insertion that the thread is in. -/
def Linked (S : ℕ → Set ℕ) (point : Point K V) (s' : Shared K V)
    (S' : ℕ → Set ℕ) : Prop :=
  S' = S ∨ ∃ level new, S' = raise S level new.node ∧
    point.Serves (.insertion new) ∧
      s'.value new.node = some (new.key, new.value)

/-- What an access leads to. -/
structure Outcome (s : Shared K V) (S : ℕ → Set ℕ) (point : Point K V)
    (s' : Shared K V) (point' : Point K V) (S' : ℕ → Set ℕ) : Prop where
  levels : Levels s' S'
  ok : point'.Ok s' S'
  keeps : Keeps point.owned s S s' S'
  owned : point'.owned ⊆ point.owned
  serves : ∀ call, point.Serves call → point'.Serves call
  linked : Linked S point s' S'

/-- An access that changes nothing but the point of the thread. -/
theorem Outcome.stay {point point' : Point K V} (h : Levels s S)
    (hok : point'.Ok s S) (howned : point'.owned ⊆ point.owned)
    (hserves : ∀ call, point.Serves call → point'.Serves call) :
    Outcome s S point s point' S :=
  ⟨h, hok, .refl _ _ _, howned, hserves, .inl rfl⟩

/-- The access of a thread that knows what it should finds what it needs. -/
def Succeeds (s : Shared K V) (S : ℕ → Set ℕ) (point : Point K V) : Prop :=
  ∃ s' point' S', s.access point = some (s', point') ∧
    Outcome s S point s' point' S'

/-! ## The head and the arrays -/

theorem succeeds_casHead {new_head : ℕ} (h : Levels s S)
    (hok : (Point.casHead new new_head).Ok s S) :
    Succeeds s S (.casHead new new_head) := by
  obtain ⟨hown, hspare⟩ := hok
  have hne : new.node ≠ new_head := by
    intro heq
    obtain ⟨node, hmemory, hvalue, -⟩ := hspare.node
    obtain ⟨node', hmemory', hvalue', -⟩ := hown.node
    rw [heq] at hmemory'
    obtain rfl := Option.some.inj (hmemory.symm.trans hmemory')
    rw [hvalue] at hvalue'
    cases hvalue'
  cases hhead : s.my_head_ptr with
  | none =>
      have hempty := h.empty hhead
      have haccess : s.access (.casHead new new_head) =
          some ({ s with my_head_ptr := some new_head },
            .loadHeight new new_head .uninitialized) := by
        rw [Shared.access, hhead]
      refine ⟨_, _, S, haccess, ?_, ⟨?_, rfl⟩, ?_, ?_, fun _ h => h,
        .inl rfl⟩
      · refine ⟨?_, ?_, ?_, h.nodes, h.nested, h.finite, h.height⟩
        · rintro ⟨⟩
        · rintro head ⟨⟩
          exact hspare.node
        · rintro head ⟨⟩ level -
          rw [hempty level]
          exact links_empty (hspare.link level)
      · exact ⟨hown.node, hown.linked, hown.pos, hown.le⟩
      · refine ⟨?_, ?_, le_rfl, fun _ => subset_rfl, fun _ _ _ h => h, ?_, ?_⟩
        · intro n hn
          rw [hhead] at hn
          cases hn
        · rintro n hn ⟨⟩
          exact absurd (by simp [Point.owned]) hn
        · exact fun n node hmemory _ => ⟨node, hmemory, rfl, rfl⟩
        · exact fun _ _ _ _ => rfl
      · simp [Point.owned]
  | some head =>
      have haccess : s.access (.casHead new new_head) =
          some (s.destroy new_head, .loadHeight new head .uninitialized) := by
        rw [Shared.access, hhead]
      have hkeeps : Keeps [new_head] s S (s.destroy new_head) S :=
        keeps_destroy (by simp) hspare.unused
      refine ⟨_, _, S, haccess, levels_put h hspare.unused none, ⟨?_, hhead⟩,
        keeps_destroy (by simp [Point.owned]) hspare.unused, ?_,
        fun _ h => h, .inl rfl⟩
      · exact hkeeps.own hown (by simpa using hne)
      · simp [Point.owned]

theorem Filled.set {arrays' : Arrays} {lev prev : ℕ} {curr : Option ℕ}
    (hset : arrays.set lev prev curr = some arrays')
    (he : Entry s (S lev) new.key prev curr)
    (hf : ∀ l, level ≤ l → l ≠ lev → l < new.height → ∃ prev curr,
      arrays.prev_nodes l = some prev ∧ arrays.curr_nodes l = some curr ∧
        Entry s (S l) new.key prev curr) :
    Filled s S new arrays' level := by
  rw [Arrays.set] at hset
  split at hset
  · obtain rfl := Option.some.inj hset
    intro l hl hheight
    by_cases heq : l = lev
    · subst heq
      exact ⟨prev, curr, Function.update_self _ _ _,
        Function.update_self _ _ _, he⟩
    · obtain ⟨prev', curr', hprev', hcurr', he'⟩ := hf l hl heq hheight
      exact ⟨prev', curr', (Function.update_of_ne heq _ _).trans hprev',
        (Function.update_of_ne heq _ _).trans hcurr', he'⟩
  · cases hset

theorem exists_set (hlevel : level < max_level) (arrays : Arrays) (prev : ℕ)
    (curr : Option ℕ) : ∃ arrays', arrays.set level prev curr = some arrays' :=
  ⟨_, if_pos hlevel⟩

/-- The levels above the current height have only the head so far. -/
theorem exists_fill (h : Levels s S) {head : ℕ}
    (hhead : s.my_head_ptr = some head) (hle : new.height ≤ max_level)
    (arrays : Arrays) :
    ∃ arrays', arrays.fill s.my_max_height new.height head = some arrays' ∧
      Filled s S new arrays' s.my_max_height ∧
        (s.my_max_height = 0 → 0 < new.height →
          arrays'.curr_nodes 0 = some none) := by
  rw [Arrays.fill]
  by_cases hlt : s.my_max_height < new.height
  · rw [if_pos hlt, if_pos hle]
    refine ⟨_, rfl, ?_, ?_⟩
    · intro l hl hheight
      refine ⟨head, none, if_pos ⟨hl, hheight⟩, if_pos ⟨hl, hheight⟩,
        h.before_head hhead new.key, ?_⟩
      simp
    · intro hzero hpos
      exact if_pos ⟨hzero.le, hpos⟩
  · rw [if_neg hlt]
    refine ⟨arrays, rfl, ?_, ?_⟩
    · intro l hl hheight
      omega
    · intro hzero hpos
      omega

theorem succeeds_loadHeight {head : ℕ} (h : Levels s S)
    (hok : (Point.loadHeight new head arrays).Ok s S) :
    Succeeds s S (.loadHeight new head arrays) := by
  obtain ⟨hown, hhead⟩ := hok
  obtain ⟨arrays', hfill, hfilled, hempty⟩ :=
    exists_fill h hhead hown.le arrays
  have hheight := h.height
  refine ⟨_, _, S, by rw [Shared.access, hfill]; rfl, ?_⟩
  split
  · next hpos =>
      refine .stay h ⟨hown, hhead, by omega, hpos, h.before_head hhead new.key,
        ?_⟩ (by simp [Point.owned])
          fun _ h => h
      rw [Nat.sub_add_cancel hpos]
      exact hfilled
  · next hzero =>
      obtain hzero : s.my_max_height = 0 := by omega
      rw [hzero] at hfilled
      exact .stay h ⟨hown, hhead, hfilled, .inl (hempty hzero hown.pos)⟩
        (by simp [Point.owned])
          fun _ h => h

theorem succeeds_fill {head prev : ℕ} (h : Levels s S)
    (hok : (Point.fill new head arrays level prev).Ok s S) :
    Succeeds s S (.fill new head arrays level prev) := by
  obtain ⟨hown, hhead, hlevel, hpos, hbefore, hfilled⟩ := hok
  rcases h.advance_spec hlevel hbefore with
    ⟨n, hadvance, hn, -, hlt⟩ | ⟨hadvance, hafter⟩
  · refine ⟨s, .fill new head arrays level n, S, ?_, ?_⟩
    · rw [Shared.access, hadvance]
      rfl
    · exact .stay h ⟨hown, hhead, hlevel, hpos, ⟨.inr hn, hlt⟩, hfilled⟩
        (by simp [Point.owned])
          fun _ h => h
  · obtain ⟨arrays', hset⟩ :=
      exists_set hlevel arrays prev (s.link level prev)
    have hfilled' : Filled s S new arrays' level :=
      .set hset ⟨hbefore, hafter⟩
        fun l hl hne => hfilled l (by omega)
    by_cases hlow : 0 < level
    · refine ⟨s, .fill new head arrays' (level - 1) prev, S, ?_, ?_⟩
      · simp only [Shared.access, hadvance, Option.bind_some, hset,
          Option.map_some, if_pos hlow]
      · refine .stay h ⟨hown, hhead, by omega, hpos,
          h.before_of_le (by omega) hbefore, ?_⟩ (by simp [Point.owned])
            fun _ h => h
        rw [Nat.sub_add_cancel hlow]
        exact hfilled'
    · obtain rfl : level = 0 := by omega
      refine ⟨s, .compare new head arrays', S, ?_, ?_⟩
      · simp only [Shared.access, hadvance, Option.bind_some, hset,
          Option.map_some, if_neg hlow]
      · exact .stay h ⟨hown, hhead, hfilled', .inr hpos⟩
          (by simp [Point.owned])
            fun _ h => h

/-! ## The levels of the node -/

section Own

variable {curr : Option ℕ}

omit [LinearOrder K] in
theorem Own.set_next (h : Own s S new level) {l : ℕ} (hl : l < new.height) :
    s.set_next new.node l curr = some (s.store new.node l curr) := by
  obtain ⟨node, hmemory, -, hheight⟩ := h.node
  rw [Shared.set_next, hmemory, Option.bind_some, if_pos (hheight ▸ hl)]

omit [LinearOrder K] in
theorem Own.store (h : Own s S new level) (l : ℕ) (curr : Option ℕ) :
    Own (s.store new.node l curr) S new level := by
  obtain ⟨node, hmemory, hvalue, hheight⟩ := h.node
  obtain ⟨node', hmemory', hvalue', hheight'⟩ :=
    Shared.memory_store s new.node l curr hmemory
  exact ⟨⟨node', hmemory', hvalue'.trans hvalue,
    hheight'.trans hheight⟩, h.linked, h.pos, h.le⟩

theorem Own.aimed (h : Own s S new level) {l : ℕ}
    (hcurr : arrays.curr_nodes l = some curr)
    (hlt : ∀ n ∈ curr, new.key < s.rank n) :
    Aimed (s.store new.node l curr) new arrays l := by
  obtain ⟨node, hmemory, -⟩ := h.node
  rw [Aimed, Shared.link_store_self hmemory]
  refine ⟨hcurr, ?_⟩
  intro n hn
  rw [Shared.rank_store]
  exact hlt n hn

end Own

theorem succeeds_compare {head : ℕ} (h : Levels s S)
    (hok : (Point.compare new head arrays).Ok s S) :
    Succeeds s S (.compare new head arrays) := by
  obtain ⟨hown, hhead, hfilled, hfound⟩ := hok
  obtain ⟨prev, curr, hprev, hcurr, hentry⟩ := hfilled 0 le_rfl hown.pos
  have hlinked : ∀ level, ¬ At s (S level) new.node :=
    fun level => hown.not_at h (Nat.zero_le level)
  by_cases heq : ∃ n ∈ curr, s.rank n = new.key
  · obtain ⟨n, rfl, hrank⟩ := heq
    obtain ⟨hn, -⟩ := hentry.after n rfl
    obtain ⟨k, hk⟩ := h.exists_key hn
    obtain rfl : k = new.key :=
      WithBot.coe_inj.mp ((Shared.rank_of_get_key hk).symm.trans hrank)
    refine ⟨s.destroy new.node, .present new.key n, S, ?_, ?_⟩
    · simp [Shared.access, hcurr, Shared.found, hk]
    · have hkeeps : Keeps [new.node] s S (s.destroy new.node) S :=
        keeps_destroy (by simp) hlinked
      refine ⟨levels_put h hlinked none, ?_, hkeeps, by simp [Point.owned],
        fun _ h => ⟨new, h, rfl⟩, .inl rfl⟩
      have hpos : 0 < s.my_max_height := by
        rcases hfound with hnone | hpos
        · rw [hcurr] at hnone
          cases hnone
        · exact hpos
      exact hkeeps.holds h ⟨hn, hrank, hpos⟩
  · have hlt : ∀ n ∈ curr, new.key < s.rank n := by
      intro n hn
      exact lt_of_le_of_ne (hentry.after n hn).2
        fun hrank => heq ⟨n, hn, hrank.symm⟩
    have hnot : s.found new.key curr = some false := by
      cases curr with
      | none => rfl
      | some n =>
          obtain ⟨k, hk⟩ := h.exists_key (hentry.after n rfl).1
          have hkey := hlt n rfl
          rw [Shared.rank_of_get_key hk, WithBot.coe_lt_coe] at hkey
          simp [Shared.found, hk, hkey]
    have hkeeps : Keeps [new.node] s S (s.store new.node 0 curr) S :=
      keeps_store (List.mem_singleton_self new.node) 0 curr
    refine ⟨s.store new.node 0 curr, .link new head arrays, S, ?_, ?_⟩
    · simp [Shared.access, hcurr, hnot, hown.set_next hown.pos]
    · exact ⟨levels_store h (hlinked 0) curr,
        ⟨hown.store 0 curr, hhead, hkeeps.filled h hfilled,
          hown.aimed hcurr hlt⟩, hkeeps, by simp [Point.owned], fun _ h => h,
        .inl rfl⟩

theorem succeeds_setNext (h : Levels s S)
    (hok : (Point.setNext new arrays level).Ok s S) :
    Succeeds s S (.setNext new arrays level) := by
  obtain ⟨hown, hpos, hlt, hheight, hfilled⟩ := hok
  obtain ⟨prev, curr, hprev, hcurr, hentry⟩ := hfilled level le_rfl hlt
  have hkeeps : Keeps [new.node] s S (s.store new.node level curr) S :=
    keeps_store (List.mem_singleton_self new.node) level curr
  refine ⟨s.store new.node level curr, .linkUpper new arrays level, S, ?_, ?_⟩
  · simp [Shared.access, hcurr, hown.set_next hlt]
  · have hfirst : ∀ n ∈ curr, new.key < s.rank n := by
      intro n hn
      obtain ⟨hmem, hle⟩ := hentry.after n hn
      refine lt_of_le_of_ne hle ?_
      intro hrank
      have hzero : n ∈ S 0 := h.nested (Nat.zero_le level) hmem
      have heq := h.injective (by decide) hzero ((hown.linked 0).mpr hpos)
        (hrank.symm.trans hown.rank_eq.symm)
      exact lt_irrefl _ ((hown.linked level).mp (heq ▸ hmem))
    exact ⟨levels_store h (hown.not_at h le_rfl) curr,
      ⟨hown.store level curr, hpos, hlt, hheight, hkeeps.filled h hfilled,
        hown.aimed hcurr hfirst⟩, hkeeps, by simp [Point.owned],
        fun _ h => h, .inl rfl⟩

/-- The compare-and-swap on a level, which succeeds when the link has not been
changed since it was loaded. -/
theorem exchange_spec (h : Levels s S) (hown : Own s S new level)
    (hlevel : level < new.height) {prev : ℕ} {curr : Option ℕ}
    (hentry : Entry s (S level) new.key prev curr)
    (hcurr : arrays.curr_nodes level = some curr)
    (haimed : Aimed s new arrays level) :
    (s.exchange prev level curr (some new.node) =
        some (s.store prev level (some new.node), true) ∧
      Levels (s.store prev level (some new.node)) (raise S level new.node)) ∨
    s.exchange prev level curr (some new.node) = some (s, false) := by
  have hmax : level < max_level := hlevel.trans_le hown.le
  obtain ⟨haimed, hlt⟩ := haimed
  obtain rfl := Option.some.inj (haimed.symm.trans hcurr)
  obtain ⟨node, hmemory, hheight⟩ := h.exists_node hmax hentry.before.pos
  rw [Shared.exchange, h.next_eq hmax hentry.before.pos, Option.bind_some]
  by_cases heq : s.link level prev = s.link level new.node
  · left
    refine ⟨?_, levels_link h hown hlevel hentry.before heq.symm (heq ▸ hlt)⟩
    rw [if_pos heq, Shared.set_next, hmemory, Option.bind_some, if_pos hheight]
    rfl
  · exact .inr (if_neg heq)

theorem succeeds_link {head : ℕ} (h : Levels s S)
    (hok : (Point.link new head arrays).Ok s S) :
    Succeeds s S (.link new head arrays) := by
  obtain ⟨hown, hhead, hfilled, haimed⟩ := hok
  obtain ⟨prev, curr, hprev, hcurr, hentry⟩ := hfilled 0 le_rfl hown.pos
  rcases exchange_spec h hown hown.pos hentry hcurr haimed with
    ⟨hexchange, hlevels⟩ | hexchange
  · have hkeeps := keeps_link hentry.before (List.mem_singleton_self new.node)
    refine ⟨_, .loadMax new arrays, _, ?_, hlevels,
      ⟨own_link hown, ?_⟩, hkeeps, by simp [Point.owned], fun _ h => h,
      .inr ⟨0, new, rfl, rfl, (own_link hown).value_eq⟩⟩
    · simp [Shared.access, hprev, hcurr, hexchange]
    · exact hkeeps.filled h fun l hl => hfilled l (Nat.zero_le l)
  · refine ⟨s, .loadHeight new head arrays, S, ?_,
      .stay h ⟨hown, hhead⟩ (by simp [Point.owned])
        fun _ h => h⟩
    simp [Shared.access, hprev, hcurr, hexchange]

theorem upper_ok (hown : Own s S new level) (hpos : 0 < level)
    (hle : level ≤ new.height) (hheight : 0 < s.my_max_height)
    (hfilled : Filled s S new arrays level) :
    (Point.upper new arrays level).Ok s S ∧
      (Point.upper new arrays level).owned = [new.node] ∧
        ∀ call, call = .insertion new →
          (Point.upper new arrays level).Serves call := by
  rw [Point.upper]
  split
  · next hlt =>
      exact ⟨⟨hown, hpos, hlt, hheight, hfilled⟩, rfl, fun _ h => h⟩
  · next hnot =>
      obtain rfl : level = new.height := by omega
      exact ⟨⟨hown, hheight⟩, rfl, fun _ h => h⟩

theorem succeeds_raiseMax {max_height : ℕ} (h : Levels s S)
    (hok : (Point.raiseMax new arrays max_height).Ok s S) :
    Succeeds s S (.raiseMax new arrays max_height) := by
  obtain ⟨hown, hfilled, hle⟩ := hok
  have hpos := hown.pos
  by_cases henough : new.height ≤ max_height
  · obtain ⟨hupper, howned, hserves⟩ :=
      upper_ok hown one_pos hpos (by omega) hfilled
    refine ⟨s, .upper new arrays 1, S, ?_, .stay h hupper ?_ hserves⟩
    · rw [Shared.access, if_pos henough]
    · rw [howned]
      simp [Point.owned]
  · by_cases hsame : s.my_max_height = max_height
    · have hlevels : Levels { s with my_max_height := new.height } S :=
        h.of_same rfl hown.le
          (fun n node _ hmemory => ⟨node, hmemory, rfl, rfl⟩)
          fun _ _ _ => rfl
      have hkeeps : Keeps [new.node] s S
          { s with my_max_height := new.height } S := by
        refine ⟨fun _ h => h, fun _ _ h => h, ?_, fun _ => subset_rfl,
          fun _ _ _ h => h, ?_, fun _ _ _ _ => rfl⟩
        · change s.my_max_height ≤ new.height
          omega
        · exact fun n node hmemory _ => ⟨node, hmemory, rfl, rfl⟩
      obtain ⟨hupper, howned, hserves⟩ := upper_ok
        (s := { s with my_max_height := new.height })
        ⟨hown.node, hown.linked, hown.pos, hown.le⟩ one_pos hpos hpos
        (hkeeps.filled h hfilled)
      refine ⟨_, .upper new arrays 1, S, ?_, hlevels, hupper, hkeeps, ?_,
        hserves, .inl rfl⟩
      · rw [Shared.access, if_neg henough, if_pos hsame]
      · rw [howned]
        simp [Point.owned]
    · refine ⟨s, .raiseMax new arrays s.my_max_height, S, ?_,
        .stay h ⟨hown, hfilled, le_rfl⟩ (by simp [Point.owned])
          fun _ h => h⟩
      rw [Shared.access, if_neg henough, if_neg hsame]

theorem succeeds_linkUpper (h : Levels s S)
    (hok : (Point.linkUpper new arrays level).Ok s S) :
    Succeeds s S (.linkUpper new arrays level) := by
  obtain ⟨hown, hpos, hlt, hheight, hfilled, haimed⟩ := hok
  obtain ⟨prev, curr, hprev, hcurr, hentry⟩ := hfilled level le_rfl hlt
  rcases exchange_spec h hown hlt hentry hcurr haimed with
    ⟨hexchange, hlevels⟩ | hexchange
  · have hkeeps := keeps_link hentry.before (List.mem_singleton_self new.node)
    obtain ⟨hupper, howned, hserves⟩ := upper_ok (own_link hown) (by omega)
      (by omega : level + 1 ≤ new.height) (hheight.trans_le hkeeps.height)
      (hkeeps.filled h fun l hl => hfilled l (by omega))
    refine ⟨_, .upper new arrays (level + 1), _, ?_, hlevels, hupper, hkeeps,
      ?_, hserves, .inr ⟨level, new, rfl, rfl, (own_link hown).value_eq⟩⟩
    · simp [Shared.access, hprev, hcurr, hexchange]
    · rw [howned]
      simp [Point.owned]
  · refine ⟨s, .refill new arrays level level prev, S, ?_,
      .stay h ⟨hown, hpos, le_rfl, hlt, hheight, hfilled, hentry.before⟩
        (by simp [Point.owned])
          fun _ h => h⟩
    simp [Shared.access, hprev, hcurr, hexchange]

theorem succeeds_refill {lev prev : ℕ} (h : Levels s S)
    (hok : (Point.refill new arrays level lev prev).Ok s S) :
    Succeeds s S (.refill new arrays level lev prev) := by
  obtain ⟨hown, hpos, hle, hlt, hheight, hfilled, hbefore⟩ := hok
  have hmax : lev < max_level := hlt.trans_le hown.le
  rcases h.advance_spec hmax hbefore with
    ⟨n, hadvance, hn, -, hrank⟩ | ⟨hadvance, hafter⟩
  · refine ⟨s, .refill new arrays level lev n, S, ?_,
      .stay h ⟨hown, hpos, hle, hlt, hheight, hfilled, .inr hn, hrank⟩
        (by simp [Point.owned])
          fun _ h => h⟩
    rw [Shared.access, hadvance]
    rfl
  · obtain ⟨arrays', hset⟩ := exists_set hmax arrays prev (s.link lev prev)
    have hfilled' : Filled s S new arrays' level :=
      .set hset ⟨hbefore, hafter⟩ fun l hl _ => hfilled l hl
    by_cases hlast : lev + 1 < new.height
    · obtain ⟨prev', curr', hprev', -, hentry'⟩ :=
        hfilled' (lev + 1) (by omega) hlast
      refine ⟨s, .refill new arrays' level (lev + 1) prev', S, ?_,
        .stay h ⟨hown, hpos, by omega, hlast, hheight, hfilled',
          hentry'.before⟩ (by simp [Point.owned])
            fun _ h => h⟩
      simp only [Shared.access, hadvance, Option.bind_some, hset, if_pos hlast,
        hprev', Option.map_some]
    · refine ⟨s, .setNext new arrays' level, S, ?_,
        .stay h ⟨hown, hpos, by omega, hheight, hfilled'⟩
          (by simp [Point.owned])
            fun _ h => h⟩
      simp only [Shared.access, hadvance, Option.bind_some, hset, if_neg hlast]

theorem succeeds_count (h : Levels s S) (hok : (Point.count new).Ok s S) :
    Succeeds s S (.count new) := by
  obtain ⟨hown, hheight⟩ := hok
  have hkeeps : Keeps [new.node] s S { s with my_size := s.my_size + 1 } S :=
    ⟨fun _ h => h, fun _ _ h => h, le_rfl, fun _ => subset_rfl,
      fun _ _ _ h => h, fun n node hmemory _ => ⟨node, hmemory, rfl, rfl⟩,
      fun _ _ _ _ => rfl⟩
  refine ⟨_, _, S, rfl, ?_, ?_, hkeeps, by simp [Point.owned], fun _ h => h,
    .inl rfl⟩
  · exact h.of_same rfl h.height
      (fun n node _ hmemory => ⟨node, hmemory, rfl, rfl⟩) fun _ _ _ => rfl
  · exact ⟨hkeeps.holds h
      ⟨(hown.linked 0).mpr hown.pos, hown.rank_eq, hheight⟩, hown.value_eq⟩

/-! ## Searches -/

theorem succeeds_findHead (h : Levels s S) :
    Succeeds s S (.findHead key) := by
  cases hhead : s.my_head_ptr with
  | none =>
      refine ⟨s, .result key none, S, by rw [Shared.access, hhead],
        .stay h ?_ (by simp [Point.owned]) fun _ h => h⟩
      rintro n ⟨⟩
  | some head =>
      exact ⟨s, .findHeight key head, S, by rw [Shared.access, hhead],
        .stay h hhead (by simp [Point.owned]) fun _ h => h⟩

theorem succeeds_findHeight {head : ℕ} (h : Levels s S)
    (hok : (Point.findHeight key head).Ok s S) :
    Succeeds s S (.findHeight key head) := by
  have hheight := h.height
  by_cases hpos : 0 < s.my_max_height
  · refine ⟨s, .findAt key (s.my_max_height - 1) head, S, ?_,
      .stay h ⟨by omega, hpos, h.before_head hok key⟩ (by simp [Point.owned])
        fun _ h => h⟩
    rw [Shared.access, if_pos hpos]
  · refine ⟨s, .result key none, S, ?_,
      .stay h ?_ (by simp [Point.owned]) fun _ h => h⟩
    · rw [Shared.access, if_neg hpos]
    · rintro n ⟨⟩

theorem succeeds_findAt {prev : ℕ} (h : Levels s S)
    (hok : (Point.findAt key level prev).Ok s S) :
    Succeeds s S (.findAt key level prev) := by
  obtain ⟨hlevel, hheight, hbefore⟩ := hok
  rcases h.advance_spec hlevel hbefore with
    ⟨n, hadvance, hn, -, hlt⟩ | ⟨hadvance, hafter⟩
  · refine ⟨s, .findAt key level n, S, ?_,
      .stay h ⟨hlevel, hheight, .inr hn, hlt⟩ (by simp [Point.owned])
        fun _ h => h⟩
    rw [Shared.access, hadvance]
    rfl
  · by_cases hlow : 0 < level
    · refine ⟨s, .findAt key (level - 1) prev, S, ?_,
        .stay h ⟨by omega, hheight, h.before_of_le (by omega) hbefore⟩
          (by simp [Point.owned])
            fun _ h => h⟩
      simp only [Shared.access, hadvance, Option.bind_some, if_pos hlow]
    · obtain rfl : level = 0 := by omega
      cases hlink : s.link 0 prev with
      | none =>
          refine ⟨s, .result key none, S, ?_,
            .stay h (fun n hn => by cases hn) (by simp [Point.owned])
              fun _ h => h⟩
          simp only [Shared.access, hadvance, hlink, Option.bind_some,
            if_neg hlow]
      | some n =>
          obtain ⟨hn, hle⟩ := hafter n hlink
          obtain ⟨k, hk⟩ := h.exists_key hn
          have hrank := Shared.rank_of_get_key hk
          rw [hrank, WithBot.coe_le_coe] at hle
          refine ⟨s, .result key (if key < k then none else some n), S, ?_,
            .stay h ?_ (by simp [Point.owned])
              fun _ h => h⟩
          · simp only [Shared.access, hadvance, hlink, Option.bind_some,
              if_neg hlow, hk, Option.map_some]
          · intro m hm
            split at hm
            · cases hm
            · next hnot =>
                obtain rfl := Option.some.inj hm
                obtain rfl : k = key := le_antisymm (not_lt.mp hnot) hle
                exact ⟨hn, hrank, hheight⟩

/-- Every access of a thread succeeds. -/
theorem succeeds_of_ok {point : Point K V} (h : Levels s S)
    (hok : point.Ok s S) (hdone : point.done = false)
    (hhead : ∀ new, point ≠ .getHead new) : Succeeds s S point := by
  cases point with
  | idle | inserted | present | result => cases hdone
  | getHead new => exact absurd rfl (hhead new)
  | faulted => exact hok.elim
  | casHead new new_head => exact succeeds_casHead h hok
  | loadHeight new head arrays => exact succeeds_loadHeight h hok
  | fill new head arrays level prev => exact succeeds_fill h hok
  | compare new head arrays => exact succeeds_compare h hok
  | link new head arrays => exact succeeds_link h hok
  | loadMax new arrays =>
      exact ⟨s, _, S, rfl, .stay h ⟨hok.1, hok.2, le_rfl⟩
        (by simp [Point.owned])
          fun _ h => h⟩
  | raiseMax new arrays max_height => exact succeeds_raiseMax h hok
  | setNext new arrays level => exact succeeds_setNext h hok
  | linkUpper new arrays level => exact succeeds_linkUpper h hok
  | refill new arrays level lev prev => exact succeeds_refill h hok
  | count new => exact succeeds_count h hok
  | findHead key => exact succeeds_findHead h
  | findHeight key head => exact succeeds_findHeight h hok
  | findAt key level prev => exact succeeds_findAt h hok

end Tbb
