import KvStore.Spec.SkipListSearch
import Mathlib.Data.List.Nodup

/-!
# Pointer updates of the skip list

The loops of `Put` and `Delete` that store one pointer on each level of a node, and
what they leave unchanged: `link_eq` and `unlink_eq` give every pointer afterwards. From
these, `Linked.insert` and `Linked.remove` restore the representation invariant around
a spliced or an unlinked node of any height.
-/

namespace KvStore.SkipList

variable {K V : Type}

/-! ## Frames -/

/-- Two nodes that differ in their pointers at most. -/
structure SameData (m n : Node K V) : Prop where
  key : m.key = n.key
  value : m.value = n.value
  topLevel : m.topLevel = n.topLevel
  marked : m.marked = n.marked
  fullyLinked : m.fullyLinked = n.fullyLinked

/-- Two skip lists that differ in the pointers of their nodes at most. -/
structure SameNodes (t s : SkipList K V) : Prop where
  maxLevel : t.maxLevel = s.maxLevel
  allocated : t.allocated = s.allocated
  currentLevel : t.currentLevel = s.currentLevel
  size : t.size = s.size
  data : ∀ p, SameData (t.node p) (s.node p)

theorem SameNodes.refl (s : SkipList K V) : SameNodes s s :=
  ⟨rfl, rfl, rfl, rfl, fun _ => ⟨rfl, rfl, rfl, rfl, rfl⟩⟩

/-- What is kept by two changes. -/
theorem SameNodes.trans {s t u : SkipList K V} (h : SameNodes u t) (h' : SameNodes t s) :
    SameNodes u s where
  maxLevel := h.maxLevel.trans h'.maxLevel
  allocated := h.allocated.trans h'.allocated
  currentLevel := h.currentLevel.trans h'.currentLevel
  size := h.size.trans h'.size
  data p :=
    { key := (h.data p).key.trans (h'.data p).key
      value := (h.data p).value.trans (h'.data p).value
      topLevel := (h.data p).topLevel.trans (h'.data p).topLevel
      marked := (h.data p).marked.trans (h'.data p).marked
      fullyLinked := (h.data p).fullyLinked.trans (h'.data p).fullyLinked }

/-- Storing one pointer: the store succeeds inside the node, changes no other pointer
    and no other data. -/
theorem storeForward_eq (s : SkipList K V) (p : NodeId) (level : Nat)
    (hp : p < s.allocated) (hlevel : level ≤ (s.node p).topLevel) (target : Option NodeId) :
    ∃ t, s.storeForward p level target = some t ∧ SameNodes t s ∧
      ∀ q l, t.loadForward q l =
        if q = p ∧ l = level then some target else s.loadForward q l := by
  refine ⟨_, if_pos ⟨hp, hlevel⟩, ⟨rfl, rfl, rfl, rfl, fun q => ?_⟩, fun q l => ?_⟩
  · by_cases hq : q = p
    · subst hq
      constructor <;> simp [setNode]
    · constructor <;> simp [setNode, hq]
  · by_cases hq : q = p
    · subst hq
      by_cases hl : l = level
      · simp [loadForward, setNode, hp, hl, hlevel]
      · simp [loadForward, setNode, hl]
    · simp [loadForward, setNode, hq]

/-- A loop that stores the pointer `target l` in the node `pred l` for each level `l` of a
    list. Its rounds may read anything but the pointers of the nodes it writes to. -/
theorem foldlM_store (s : SkipList K V) (step : SkipList K V → Nat → Option (SkipList K V))
    (pred : Nat → NodeId) (target : Nat → Option NodeId) (levels : List Nat)
    (hpred : ∀ l ∈ levels, pred l < s.allocated ∧ l ≤ (s.node (pred l)).topLevel)
    (hstep : ∀ t, ∀ l ∈ levels, SameNodes t s →
      (∀ q k, (∀ l ∈ levels, q ≠ pred l) → t.loadForward q k = s.loadForward q k) →
      step t l = t.storeForward (pred l) l (target l)) :
    ∃ t, levels.foldlM step s = some t ∧ SameNodes t s ∧
      ∀ q l, t.loadForward q l =
        if l ∈ levels ∧ q = pred l then some (target l) else s.loadForward q l := by
  -- the rounds that are still to come, from the state `u` reached so far
  suffices ∀ rest ⊆ levels, ∀ u, SameNodes u s →
      (∀ q k, (∀ l ∈ levels, q ≠ pred l) → u.loadForward q k = s.loadForward q k) →
      ∃ t, rest.foldlM step u = some t ∧ SameNodes t s ∧
        ∀ q l, t.loadForward q l =
          if l ∈ rest ∧ q = pred l then some (target l) else u.loadForward q l from
    this levels (List.Subset.refl _) s (.refl s) fun _ _ _ => rfl
  intro rest
  induction rest with
  | nil => exact fun _ u hu _ => ⟨u, rfl, hu, by simp⟩
  | cons l rest ih =>
    intro hsub u hu hoff
    -- one round stores at its own level only
    have hl : l ∈ levels := hsub List.mem_cons_self
    obtain ⟨hp, htop⟩ := hpred l hl
    obtain ⟨u', hstore, hsame, hload⟩ := u.storeForward_eq (pred l) l
      (hu.allocated ▸ hp) ((hu.data _).topLevel ▸ htop) (target l)
    obtain ⟨t, ht, hts, htload⟩ := ih (fun k hk => hsub (List.mem_cons_of_mem l hk)) u'
      (hsame.trans hu) fun q k hq => by
        rw [hload, if_neg fun hqk => hq l hl hqk.1]
        exact hoff q k hq
    refine ⟨t, ?_, hts, fun q k => ?_⟩
    · rw [List.foldlM_cons, hstep u l hl hu hoff, hstore]
      exact ht
    · rw [htload, hload]
      grind

/-- The linking loop of `Put` points the predecessor on every level at the new node. -/
theorem link_eq (s : SkipList K V) (predecessors : Nat → Option NodeId) (pred : Nat → NodeId)
    (target : NodeId) (nodeLevel : Nat)
    (hpredecessors : ∀ l ≤ nodeLevel, predecessors l = some (pred l))
    (hpred : ∀ l ≤ nodeLevel, pred l < s.allocated ∧ l ≤ (s.node (pred l)).topLevel) :
    ∃ t, s.link predecessors target nodeLevel = some t ∧ SameNodes t s ∧
      ∀ q l, t.loadForward q l =
        if l ≤ nodeLevel ∧ q = pred l then some (some target) else s.loadForward q l := by
  have h := s.foldlM_store (fun s level => do
      let predecessor ← predecessors level
      s.storeForward predecessor level (some target)) pred (fun _ => some target)
    (List.range (nodeLevel + 1)) (fun l hl => hpred l (by simpa [Nat.lt_succ_iff] using hl))
    (fun t l hl _ _ => by
      rw [hpredecessors l (by simpa [Nat.lt_succ_iff] using hl)]
      rfl)
  simpa only [link, List.mem_range, Nat.lt_succ_iff] using h

/-- The unlinking loop of `Delete` gives the predecessor on every level the pointer of
    the victim. -/
theorem unlink_eq (s : SkipList K V) (predecessors : Nat → Option NodeId) (pred : Nat → NodeId)
    (next : Nat → Option NodeId) (victim : NodeId) (victimLevel : Nat)
    (hpredecessors : ∀ l ≤ victimLevel, predecessors l = some (pred l))
    (hpred : ∀ l ≤ victimLevel, pred l < s.allocated ∧ l ≤ (s.node (pred l)).topLevel)
    (hvictim : ∀ l ≤ victimLevel, victim ≠ pred l)
    (hnext : ∀ l ≤ victimLevel, s.loadForward victim l = some (next l)) :
    ∃ t, s.unlink predecessors victim victimLevel = some t ∧ SameNodes t s ∧
      ∀ q l, t.loadForward q l =
        if l ≤ victimLevel ∧ q = pred l then some (next l) else s.loadForward q l := by
  have hmem : ∀ l, l ∈ (List.range (victimLevel + 1)).reverse ↔ l ≤ victimLevel := fun l => by
    rw [List.mem_reverse, List.mem_range, Nat.lt_succ_iff]
  have h := s.foldlM_store (fun s level => do
      let predecessor ← predecessors level
      let forward ← s.loadForward victim level
      s.storeForward predecessor level forward) pred next
    (List.range (victimLevel + 1)).reverse (fun l hl => hpred l ((hmem l).mp hl))
    (fun t l hl _ hoff => by
      -- the victim itself is not written to, so its pointers stay readable
      have hl := (hmem l).mp hl
      have hload : t.loadForward victim l = some (next l) := by
        rw [hoff victim l fun k hk => hvictim k ((hmem k).mp hk), hnext l hl]
      simp [hpredecessors l hl, hload])
  simpa only [unlink, hmem] using h

/-- Replacing a node by one with the same pointers changes no pointer. -/
theorem loadForward_setNode (s : SkipList K V) (p : NodeId) (node : Node K V)
    (htop : node.topLevel = (s.node p).topLevel) (hforward : node.forward = (s.node p).forward)
    (q : NodeId) (level : Nat) :
    (s.setNode p node).loadForward q level = s.loadForward q level := by
  by_cases hq : q = p
  · subst hq
    simp [loadForward, setNode, htop, hforward]
  · simp [loadForward, setNode, hq]

/-- A new node adds its own pointers and changes no other. -/
theorem loadForward_allocate (s : SkipList K V) (node : Node K V) (q : NodeId) (level : Nat) :
    (s.allocate node).2.loadForward q level =
      if level ≤ node.topLevel ∧ q = s.allocated then some (node.forward level)
      else s.loadForward q level := by
  by_cases hq : q = s.allocated
  · subst hq
    simp [loadForward, allocate, setNode]
  · have hlt : q < s.allocated + 1 ↔ q < s.allocated :=
      ⟨fun h => (Nat.lt_succ_iff_lt_or_eq.mp h).resolve_right hq, Nat.lt_succ_of_lt⟩
    simp [loadForward, allocate, setNode, hq, hlt]

/-- Creating a node and linking it behind `pred l` on each of its levels. -/
theorem insertNode_eq (s : SkipList K V) (predecessors successors : Nat → Option NodeId)
    (pred : Nat → NodeId) (nodeLevel : Nat) (key : K) (value : V)
    (hpredecessors : ∀ l ≤ nodeLevel, predecessors l = some (pred l))
    (hpred : ∀ l ≤ nodeLevel, pred l < s.allocated ∧ l ≤ (s.node (pred l)).topLevel) :
    ∃ t, s.insertNode predecessors successors nodeLevel key value = some t ∧
      t.maxLevel = s.maxLevel ∧ t.allocated = s.allocated + 1 ∧ t.size = s.size + 1 ∧
      t.currentLevel = s.currentLevel ∧
      (∀ p, p ≠ s.allocated → SameData (t.node p) (s.node p)) ∧
      SameData (t.node s.allocated)
        { key := key, value := value, topLevel := nodeLevel, fullyLinked := true } ∧
      ∀ q l, t.loadForward q l =
        if l ≤ nodeLevel ∧ q = pred l then some (some s.allocated)
        else if l ≤ nodeLevel ∧ q = s.allocated then some (successors l)
        else s.loadForward q l := by
  let node : Node K V :=
    { key := key, value := value, topLevel := nodeLevel, forward := successors }
  -- the new node is at an address that no other node has
  have hold : ∀ p, p ≠ s.allocated → (s.allocate node).2.node p = s.node p :=
    fun p hp => Function.update_of_ne hp _ _
  have hnew : (s.allocate node).2.node s.allocated = node := Function.update_self _ _ _
  obtain ⟨t, hlink, hsame, hload⟩ := (s.allocate node).2.link_eq predecessors pred s.allocated
    nodeLevel hpredecessors fun l hl => by
      obtain ⟨halloc, htop⟩ := hpred l hl
      rw [hold _ (Nat.ne_of_lt halloc)]
      exact ⟨Nat.lt_succ_of_lt halloc, htop⟩
  have hdata := hsame.data s.allocated
  rw [hnew] at hdata
  -- `fully_linked` is set when all levels are linked
  refine ⟨{ t.setNode s.allocated { t.node s.allocated with fullyLinked := true } with
      size := t.size + 1 }, ?_, hsame.maxLevel, hsame.allocated,
    congrArg (· + 1) hsame.size, hsame.currentLevel, ?_, ?_, ?_⟩
  · show ((s.allocate node).2.link predecessors s.allocated nodeLevel).bind _ = _
    rw [hlink]
    rfl
  · intro p hp
    have hp' := hsame.data p
    rw [hold p hp] at hp'
    simpa [setNode, hp] using hp'
  · constructor <;> simp [setNode, hdata.key, hdata.value, hdata.topLevel, hdata.marked, node]
  · intro q l
    have hflag := t.loadForward_setNode s.allocated
      { t.node s.allocated with fullyLinked := true } rfl rfl q l
    exact hflag.trans (by rw [hload, loadForward_allocate])

/-- Marking a node and unlinking it from behind `pred l` on each of its levels. -/
theorem removeNode_eq (s : SkipList K V) (predecessors : Nat → Option NodeId)
    (pred : Nat → NodeId) (next : Nat → Option NodeId) (victim : NodeId)
    (halloc : victim < s.allocated)
    (hpredecessors : ∀ l ≤ (s.node victim).topLevel, predecessors l = some (pred l))
    (hpred : ∀ l ≤ (s.node victim).topLevel,
      pred l < s.allocated ∧ l ≤ (s.node (pred l)).topLevel ∧ victim ≠ pred l)
    (hnext : ∀ l ≤ (s.node victim).topLevel, s.loadForward victim l = some (next l)) :
    ∃ t, s.removeNode predecessors victim = some t ∧
      t.maxLevel = s.maxLevel ∧ t.allocated = s.allocated ∧ t.size = s.size - 1 ∧
      (∀ p, p ≠ victim → SameData (t.node p) (s.node p)) ∧
      ∀ q l, t.loadForward q l =
        if l ≤ (s.node victim).topLevel ∧ q = pred l then some (next l)
        else s.loadForward q l := by
  -- the mark changes no pointer, and the loop that unlinks starts from it
  let s₁ := s.setNode victim { s.node victim with marked := true }
  have hold : ∀ p, p ≠ victim → s₁.node p = s.node p := fun p hp => Function.update_of_ne hp _ _
  have hload₁ : ∀ q l, s₁.loadForward q l = s.loadForward q l :=
    s.loadForward_setNode victim _ rfl rfl
  obtain ⟨t, hunlink, hsame, hload⟩ := s₁.unlink_eq predecessors pred next victim
    (s.node victim).topLevel hpredecessors
    (fun l hl => by
      obtain ⟨halloc, htop, hne⟩ := hpred l hl
      rw [hold _ hne.symm]
      exact ⟨halloc, htop⟩)
    (fun l hl => (hpred l hl).2.2) (fun l hl => (hload₁ victim l).trans (hnext l hl))
  refine ⟨{ t with size := t.size - 1 }, ?_, hsame.maxLevel, hsame.allocated,
    congrArg (· - 1) hsame.size, ?_, ?_⟩
  · show (s.deref victim).bind _ = _
    rw [deref_of_lt halloc]
    show (s₁.unlink predecessors victim (s.node victim).topLevel).bind _ = _
    rw [hunlink]
    rfl
  · intro p hp
    have hp' := hsame.data p
    rwa [hold p hp] at hp'
  · intro q l
    rw [← hload₁]
    exact hload q l

/-! ## Splicing in and taking out a node -/

/-- The levels of nodes whose data stays the same keep their members. -/
theorem reaching_congr {s t : SkipList K V} {ids : List NodeId} (level : Nat)
    (hdata : ∀ p ∈ ids, SameData (t.node p) (s.node p)) :
    t.reaching level ids = s.reaching level ids :=
  List.filter_congr fun p hp => by rw [(hdata p hp).topLevel]

/-- A node in use stays so where its data are kept. -/
theorem InUse.congr {s t : SkipList K V} {p : NodeId} (h : s.InUse p)
    (hdata : SameData (t.node p) (s.node p)) (hmax : t.maxLevel = s.maxLevel)
    (halloc : s.allocated ≤ t.allocated) : t.InUse p where
  ne_head := h.ne_head
  alloc := Nat.lt_of_lt_of_le h.alloc halloc
  top_lt := by rw [hdata.topLevel, hmax]; exact h.top_lt
  unmarked := hdata.marked.trans h.unmarked
  fullyLinked := hdata.fullyLinked.trans h.fullyLinked

/-- The nodes of one level are nodes of the list. -/
private theorem mem_of_mem_levels {s : SkipList K V} {below above : List NodeId}
    {level : Nat} {q : NodeId}
    (hq : q ∈ head :: (s.reaching level below ++ s.reaching level above)) :
    q ∈ head :: (below ++ above) := by
  rw [← reaching_append] at hq
  exact (List.filter_sublist.cons_cons head).subset hq

/-- What inserting the node `new` between `below` and `above` changes. -/
structure Inserted [LT K] (s t : SkipList K V) (new : NodeId) (below above : List NodeId) :
    Prop where
  maxLevel : t.maxLevel = s.maxLevel
  allocated : t.allocated = s.allocated + 1
  size : t.size = s.size + 1
  fresh : new = s.allocated
  data : ∀ p, p ≠ new → SameData (t.node p) (s.node p)
  inUse : t.InUse new
  below_lt : ∀ p ∈ below, (s.node p).key < (t.node new).key
  lt_above : ∀ p ∈ above, (t.node new).key < (s.node p).key
  load : ∀ q l, t.loadForward q l =
    if l ≤ (t.node new).topLevel ∧ q = s.lastBefore l below then some (some new)
    else if l ≤ (t.node new).topLevel ∧ q = new then some (s.reaching l above).head?
    else s.loadForward q l

/-- What unlinking `victim` from between `below` and `above` changes. -/
structure Removed (s t : SkipList K V) (victim : NodeId) (below above : List NodeId) :
    Prop where
  maxLevel : t.maxLevel = s.maxLevel
  allocated : t.allocated = s.allocated
  size : t.size = s.size - 1
  data : ∀ p, p ≠ victim → SameData (t.node p) (s.node p)
  load : ∀ q l, t.loadForward q l =
    if l ≤ (s.node victim).topLevel ∧ q = s.lastBefore l below then
      some (s.reaching l above).head?
    else s.loadForward q l

section Order

variable [LinearOrder K] {s t : SkipList K V} {ids below above : List NodeId}

/-- The head and the nodes are distinct. -/
theorem Chained.nodup (h : s.Chained ids) : (head :: ids).Nodup :=
  List.nodup_cons.mpr ⟨fun hmem => (h.inUse head hmem).ne_head rfl,
    h.sorted.imp fun hlt heq => (heq ▸ hlt).false⟩

/-- No node is twice on a level. -/
theorem Chained.nodup_reaching (h : s.Chained ids) (level : Nat) :
    (head :: s.reaching level ids).Nodup :=
  h.nodup.sublist (List.filter_sublist.cons_cons head)

/-- The new node is none of the list. -/
private theorem Inserted.ne_new {new : NodeId} (hins : Inserted s t new below above)
    (h : s.Chained (below ++ above)) {p : NodeId} (hp : p ∈ head :: (below ++ above)) :
    p ≠ new := by
  rw [hins.fresh]
  rcases List.mem_cons.mp hp with rfl | hp
  · exact Nat.ne_of_lt h.head_alloc
  · exact Nat.ne_of_lt (h.inUse p hp).alloc

/-- After an insertion every level is the sublist of the nodes that reach it. -/
private theorem Inserted.path {new : NodeId} (hins : Inserted s t new below above)
    (h : s.Chained (below ++ above)) {level : Nat} (hlevel : level < s.maxLevel) :
    PtrPath (fun p => t.loadForward p level) head
      (t.reaching level (below ++ new :: above)) := by
  have hpath := h.path level hlevel
  have hdata : ∀ p ∈ below ++ above, SameData (t.node p) (s.node p) :=
    fun p hp => hins.data p (hins.ne_new h (List.mem_cons_of_mem head hp))
  have hbelow : t.reaching level below = s.reaching level below :=
    reaching_congr level fun p hp => hdata p (List.mem_append_left above hp)
  have habove : t.reaching level above = s.reaching level above :=
    reaching_congr level fun p hp => hdata p (List.mem_append_right below hp)
  rw [reaching_append] at hpath
  rw [reaching_append, hbelow]
  by_cases htop : level ≤ (t.node new).topLevel
  · -- the new node is on this level
    have hcons : t.reaching level (new :: above) = new :: s.reaching level above := by
      rw [← habove]
      simp [reaching, htop]
    rw [hcons]
    refine hpath.insert ?_ ?_ ?_ fun q hq hlast => ?_
    · rw [← reaching_append]
      exact h.nodup_reaching level
    · have hne : new ≠ s.lastBefore level below := by
        have halloc := (h.lastBefore_spec hlevel).2.1
        rw [hins.fresh]
        exact Nat.ne_of_gt halloc
      rw [hins.load, if_neg fun hq => hne hq.2, if_pos ⟨htop, rfl⟩]
    · exact (hins.load _ _).trans (if_pos ⟨htop, rfl⟩)
    · rw [hins.load, if_neg fun hq' => hlast hq'.2,
        if_neg fun hq' => hins.ne_new h (mem_of_mem_levels hq) hq'.2]
  · -- the level is above the new node and stays as it is
    have hcons : t.reaching level (new :: above) = s.reaching level above := by
      rw [← habove]
      simp [reaching, htop]
    rw [hcons]
    refine hpath.congr fun q _ => ?_
    rw [hins.load, if_neg fun hq => htop hq.1, if_neg fun hq => htop hq.1]

/-- An inserted node joins every level up to its own. -/
theorem Chained.insert {new : NodeId} (h : s.Chained (below ++ above))
    (hins : Inserted s t new below above) : t.Chained (below ++ new :: above) where
  head_alloc := by rw [hins.allocated]; exact Nat.lt_succ_of_lt h.head_alloc
  head_top := by
    rw [(hins.data head (hins.ne_new h List.mem_cons_self)).topLevel, hins.maxLevel]
    exact h.head_top
  head_unmarked :=
    (hins.data head (hins.ne_new h List.mem_cons_self)).marked.trans h.head_unmarked
  inUse p hp := by
    by_cases hpnew : p = new
    · exact hpnew ▸ hins.inUse
    · refine (h.inUse p ?_).congr (hins.data p hpnew) hins.maxLevel ?_
      · simpa [hpnew] using hp
      · rw [hins.allocated]
        exact Nat.le_succ _
  sorted := by
    have hkey : ∀ p ∈ below ++ above, (t.node p).key = (s.node p).key :=
      fun p hp => (hins.data p (hins.ne_new h (List.mem_cons_of_mem head hp))).key
    have hsorted : (below ++ above).Pairwise fun p q => (t.node p).key < (t.node q).key :=
      h.sorted.imp_of_mem fun hp hq hlt => by rwa [hkey _ hp, hkey _ hq]
    obtain ⟨hb, ha, hba⟩ := List.pairwise_append.mp hsorted
    refine List.pairwise_append.mpr ⟨hb, List.pairwise_cons.mpr ⟨fun p hp => ?_, ha⟩, ?_⟩
    · -- behind the new node
      rw [hkey p (List.mem_append_right below hp)]
      exact hins.lt_above p hp
    · -- in front of it
      intro p hp q hq
      rcases List.mem_cons.mp hq with rfl | hq
      · rw [hkey p (List.mem_append_left above hp)]
        exact hins.below_lt p hp
      · exact hba p hp q hq
  path level hlevel := hins.path h (hins.maxLevel ▸ hlevel)
  size_eq := by
    rw [hins.size, h.size_eq]
    simp only [List.length_append, List.length_cons]
    omega

/-- After a removal every level is the sublist of the remaining nodes that reach it. -/
private theorem Removed.path {victim : NodeId} (hrem : Removed s t victim below above)
    (h : s.Chained (below ++ victim :: above)) {level : Nat} (hlevel : level < s.maxLevel) :
    PtrPath (fun p => t.loadForward p level) head (t.reaching level (below ++ above)) := by
  have hpath := h.path level hlevel
  have hnodup := h.nodup
  have hne : ∀ p ∈ below ++ above, p ≠ victim := by
    rintro p hp rfl
    have : (below ++ p :: above).Nodup := (List.nodup_cons.mp hnodup).2
    rw [List.nodup_middle] at this
    exact (List.nodup_cons.mp this).1 hp
  rw [reaching_congr level fun p hp => hrem.data p (hne p hp), reaching_append]
  rw [reaching_append] at hpath
  -- the victim is taken out of the levels that it reaches
  by_cases htop : level ≤ (s.node victim).topLevel
  · have hcons : s.reaching level (victim :: above) = victim :: s.reaching level above := by
      simp [reaching, htop]
    rw [hcons] at hpath
    refine hpath.remove ?_ ?_ fun q hq hlast => ?_
    · rw [← hcons, ← reaching_append]
      exact h.nodup_reaching level
    · exact (hrem.load _ _).trans (if_pos ⟨htop, rfl⟩)
    · rw [hrem.load, if_neg fun hq' => hlast hq'.2]
  · -- the victim does not reach the level: no pointer of the level changes
    have hcons : s.reaching level (victim :: above) = s.reaching level above := by
      simp [reaching, htop]
    rw [hcons] at hpath
    refine hpath.congr fun q _ => ?_
    rw [hrem.load, if_neg fun hq => htop hq.1]

/-- A removed node leaves every level up to its own. -/
theorem Chained.remove {victim : NodeId} (h : s.Chained (below ++ victim :: above))
    (hrem : Removed s t victim below above) : t.Chained (below ++ above) := by
  have hmem : ∀ p ∈ below ++ above, p ∈ below ++ victim :: above := by simp; tauto
  have hnodup := h.nodup
  rw [← List.cons_append, List.nodup_middle] at hnodup
  have hne : ∀ p ∈ head :: (below ++ above), p ≠ victim := by
    rintro p hp rfl
    exact (List.nodup_cons.mp hnodup).1 hp
  -- the nodes that stay keep their data
  have hdata : ∀ p ∈ below ++ above, SameData (t.node p) (s.node p) :=
    fun p hp => hrem.data p (hne p (List.mem_cons_of_mem head hp))
  have hhead := hrem.data head (hne head List.mem_cons_self)
  exact
    { head_alloc := hrem.allocated ▸ h.head_alloc
      head_top := by rw [hhead.topLevel, hrem.maxLevel]; exact h.head_top
      head_unmarked := hhead.marked.trans h.head_unmarked
      inUse := fun p hp => (h.inUse p (hmem p hp)).congr (hdata p hp) hrem.maxLevel
        (Nat.le_of_eq hrem.allocated.symm)
      sorted := by
        refine (h.sorted.sublist ?_).imp_of_mem fun hp hq hlt => ?_
        · simp
        · rwa [(hdata _ hp).key, (hdata _ hq).key]
      path := fun level hlevel => hrem.path h (hrem.maxLevel ▸ hlevel)
      size_eq := by
        rw [hrem.size, h.size_eq]
        simp only [List.length_append, List.length_cons]
        omega }

end Order

end KvStore.SkipList
