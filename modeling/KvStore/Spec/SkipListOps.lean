import KvStore.Spec.SkipListUpdate
import KvStore.ForStd.Lookup
import Mathlib.Data.List.TakeWhile

/-!
# Operations of the skip list

Under the representation invariant every operation returns, keeps the invariant, and
acts on the key-value pairs of the list as the same operation of an ordered map does:

- `Linked.get_eq`, `Linked.scan_eq`, `Linked.snapshot_eq`: what the reading calls return
- `Linked.put_eq`, `Linked.delete_eq`: what the writing calls return, in the first pass
  of their loops, and the pairs they leave behind
- `linked_new`, `Linked.clear`: the empty list
-/

namespace KvStore.SkipList

variable {K V : Type}

/-- The key-value pairs of the nodes `ids`. -/
def entries (s : SkipList K V) (ids : List NodeId) : List (K × V) :=
  ids.map fun p => ((s.node p).key, (s.node p).value)

@[simp] theorem entries_append (s : SkipList K V) (front rest : List NodeId) :
    s.entries (front ++ rest) = s.entries front ++ s.entries rest :=
  List.map_append

/-- Nodes whose data stays the same keep their pairs. -/
theorem entries_congr {s t : SkipList K V} {ids : List NodeId}
    (hdata : ∀ p ∈ ids, SameData (t.node p) (s.node p)) : t.entries ids = s.entries ids :=
  List.map_congr_left fun p hp => by rw [(hdata p hp).key, (hdata p hp).value]

@[simp] theorem raiseCurrentLevel_maxLevel (s : SkipList K V) (candidate : Nat) :
    (s.raiseCurrentLevel candidate).maxLevel = s.maxLevel := by
  unfold raiseCurrentLevel
  split <;> rfl

@[simp] theorem raiseCurrentLevel_size (s : SkipList K V) (candidate : Nat) :
    (s.raiseCurrentLevel candidate).size = s.size := by
  unfold raiseCurrentLevel
  split <;> rfl

@[simp] theorem entries_raiseCurrentLevel (s : SkipList K V) (candidate : Nat)
    (ids : List NodeId) : (s.raiseCurrentLevel candidate).entries ids = s.entries ids := by
  unfold raiseCurrentLevel
  split <;> rfl

variable [LinearOrder K] {s : SkipList K V} {key : K} {ids below above : List NodeId}
  {fuel : Nat}

/-- The entries are sorted by their keys. -/
theorem Linked.entries_sorted (h : s.Linked ids) :
    (s.entries ids).Pairwise fun a b => a.1 < b.1 :=
  List.pairwise_map.mpr h.sorted

/-- No entry in front of the position has the key. -/
theorem Around.ne_below (h : s.Around key below above) : ∀ e ∈ s.entries below, e.1 ≠ key := by
  intro e he
  obtain ⟨p, hp, rfl⟩ := List.mem_map.mp he
  exact (h.lt p hp).ne

/-- The first node that is not below a key either holds it, or no node does. -/
theorem Linked.holds_or_absent (h : s.Linked (below ++ above)) (hkey : s.Around key below above) :
    (∃ p rest, above = p :: rest ∧ (s.node p).key = key ∧
      ∀ q ∈ rest, key < (s.node q).key) ∨
    ∀ q ∈ above, key < (s.node q).key := by
  cases above with
  | nil => exact .inr (by simp)
  | cons p rest =>
    have hrest : ∀ q ∈ rest, (s.node p).key < (s.node q).key :=
      (List.pairwise_cons.mp (List.pairwise_append.mp h.sorted).2.1).1
    rcases (not_lt.mp (hkey.not_lt p List.mem_cons_self)).eq_or_lt with heq | hlt
    · exact .inl ⟨p, rest, rfl, heq.symm, fun q hq => heq ▸ hrest q hq⟩
    · apply Or.inr
      intro q hq
      rcases List.mem_cons.mp hq with rfl | hq
      · exact hlt
      · exact hlt.trans (hrest q hq)

/-- A key that no node holds is met on no level. -/
theorem foundFrom_absent (habsent : ∀ q ∈ above, key < (s.node q).key) :
    s.foundFrom key above 0 = none := by
  unfold foundFrom
  cases hhead : above.head? with
  | none => rfl
  | some q => simp [(habsent q (List.mem_of_head? hhead)).ne']

/-- What `FindNode` and `FindNodeNoLock` meet is what the map holds. -/
theorem Linked.lookup_eq (h : s.Linked (below ++ above)) (hkey : s.Around key below above) :
    (s.entries (below ++ above)).lookup key =
      if (s.foundFrom key above 0).isSome then above.head?.map fun p => (s.node p).value
      else none := by
  have hbelow := List.lookup_eq_none_of_forall_ne hkey.ne_below
  rw [entries_append, List.lookup_append, hbelow, Option.none_or]
  rcases h.holds_or_absent hkey with ⟨p, rest, rfl, hp, _⟩ | habsent
  · simp [foundFrom, hp, entries]
  · have hnone : (s.entries above).lookup key = none := by
      apply List.lookup_eq_none_of_forall_ne
      intro e he
      obtain ⟨q, hq, rfl⟩ := List.mem_map.mp he
      exact (habsent q hq).ne'
    rw [hnone, foundFrom_absent habsent]
    rfl

/-! ## Reading -/

/-- `Get` returns the value that the map holds under the key. -/
theorem Linked.get_eq (h : s.Linked ids) (key : K) (hfuel : ids.length < fuel) :
    s.get fuel key = some ((s.entries ids).lookup key) := by
  obtain ⟨below, above, rfl, hkey⟩ := h.exists_around key
  simp only [get, h.findNodeNoLock_eq hkey hfuel, h.lookup_eq hkey, Option.bind_eq_bind,
    Option.bind_some]
  by_cases hfound : (s.foundFrom key above 0).isSome
  · rw [if_pos hfound, if_pos hfound]
    cases hhead : above.head? with
    | none => rfl
    | some p =>
      have hp : p ∈ below ++ above := List.mem_append_right below (List.mem_of_head? hhead)
      have hin := h.inUse p hp
      simp [h.toChained.deref hp, hin.unmarked, hin.fullyLinked]
  · rw [if_neg hfound, if_neg hfound]

omit [LinearOrder K] in
/-- The walk along level 0 collects the pairs up to the first key out of range. -/
private theorem collect_eq (inRange : K → Bool) {p : NodeId}
    (hpath : PtrPath (fun p => s.loadForward p 0) p ids) (hin : ∀ q ∈ ids, s.InUse q)
    (hfuel : ids.length < fuel) :
    s.collect inRange fuel ids.head? = some ((s.entries ids).takeWhile fun e => inRange e.1) := by
  induction ids generalizing p fuel with
  | nil =>
    obtain ⟨fuel, rfl⟩ := Nat.exists_eq_succ_of_ne_zero (Nat.ne_of_gt hfuel)
    rfl
  | cons q ids ih =>
    obtain ⟨fuel, rfl⟩ := Nat.exists_eq_succ_of_ne_zero (Nat.ne_of_gt (Nat.zero_lt_of_lt hfuel))
    have hq := hin q List.mem_cons_self
    have hnext : s.loadForward q 0 = some ids.head? := hpath.2.load_eq
    have hrec := ih hpath.2 (fun r hr => hin r (List.mem_cons_of_mem q hr))
      (Nat.lt_of_succ_lt_succ hfuel)
    cases hrange : inRange (s.node q).key with
    | true =>
      simp [collect, deref_of_lt hq.alloc, hrange, hnext, hrec, hq.unmarked, hq.fullyLinked,
        entries]
    | false => simp [collect, deref_of_lt hq.alloc, hrange, entries]

/-- `Snapshot` returns every pair. -/
theorem Linked.snapshot_eq (h : s.Linked ids) (hfuel : ids.length < fuel) :
    s.snapshot fuel = some (s.entries ids) := by
  have hpath := h.path 0 (Nat.lt_of_lt_of_le h.level_pos h.level_le)
  rw [reaching_zero] at hpath
  have hload : s.loadForward head 0 = some ids.head? := hpath.load_eq
  have hall : (s.entries ids).takeWhile (fun _ => true) = s.entries ids :=
    List.takeWhile_eq_self_iff.mpr fun _ _ => rfl
  simp [snapshot, hload, collect_eq (fun _ => true) hpath h.inUse hfuel, hall]

/-- `Scan` returns the pairs in its range. -/
theorem Linked.scan_eq (h : s.Linked ids) (start stop : K) (hfuel : ids.length < fuel) :
    s.scan fuel start stop =
      some ((s.entries ids).filter fun e => decide (start ≤ e.1 ∧ e.1 ≤ stop)) := by
  obtain ⟨below, above, rfl, hkey⟩ := h.exists_around start
  by_cases hempty : stop < start
  · -- nothing lies in the range
    have hnil : (s.entries (below ++ above)).filter
        (fun e => decide (start ≤ e.1 ∧ e.1 ≤ stop)) = [] := by
      rw [List.filter_eq_nil_iff]
      intro e _ he
      have hrange := of_decide_eq_true he
      exact (hrange.1.trans hrange.2).not_gt hempty
    rw [scan, if_pos hempty, hnil]
  · have hpath := h.path 0 (Nat.lt_of_lt_of_le h.level_pos h.level_le)
    rw [reaching_append, reaching_zero, reaching_zero] at hpath
    have hpath' : PtrPath (fun p => s.loadForward p 0) (s.lastBefore 0 below) above := by
      rw [lastBefore, reaching_zero]
      exact hpath.suffix
    have hload : s.loadForward (s.lastBefore 0 below) 0 = some above.head? := hpath'.load_eq
    have hlen : above.length < fuel := by
      rw [List.length_append] at hfuel
      omega
    have hcollect := collect_eq (fun key => !decide (stop < key)) hpath'
      (fun q hq => h.inUse q (List.mem_append_right below hq)) hlen
    rw [scan, if_neg hempty]
    simp only [h.descend_eq hkey hfuel, hload, hcollect, Option.bind_eq_bind, Option.bind_some]
    -- below the start no key qualifies, and from there on the qualifying keys are a prefix
    have hbelow : (s.entries below).filter
        (fun e => decide (start ≤ e.1 ∧ e.1 ≤ stop)) = [] := by
      rw [List.filter_eq_nil_iff]
      intro e he
      obtain ⟨p, hp, rfl⟩ := List.mem_map.mp he
      simp [(hkey.lt p hp).not_ge]
    have habove : (s.entries above).Pairwise fun a b => a.1 < b.1 := by
      have hsorted := h.entries_sorted
      rw [entries_append] at hsorted
      exact (List.pairwise_append.mp hsorted).2.1
    rw [entries_append, List.filter_append, hbelow, List.nil_append,
      List.takeWhile_eq_filter_of_pairwise habove]
    · congr 1
      apply List.filter_congr
      intro e he
      obtain ⟨p, hp, rfl⟩ := List.mem_map.mp he
      have hstart : start ≤ (s.node p).key := not_lt.mp (hkey.not_lt p hp)
      by_cases hstop : (s.node p).key ≤ stop
      · simp [hstart, hstop]
      · simp [hstop, not_le.mp hstop]
    · intro a b hab hb
      simp only [Bool.not_eq_true', decide_eq_false_iff_not, not_lt] at hb ⊢
      exact hab.le.trans hb

/-! ## Inserting -/

/-- A check that holds on every level holds on all of them. -/
private theorem allM_eq_true {check : Nat → Option Bool} {levels : List Nat}
    (h : ∀ l ∈ levels, check l = some true) : levels.allM check = some true := by
  induction levels with
  | nil => rfl
  | cons l levels ih =>
    simp only [List.allM, h l List.mem_cons_self, Option.bind_eq_bind, Option.bind_some]
    exact ih fun k hk => h k (List.mem_cons_of_mem l hk)

/-- The pointer of the last node before a key leads to the first node from the key on. -/
private theorem Linked.load_lastBefore (h : s.Linked (below ++ above)) {level : Nat}
    (hlevel : level < s.maxLevel) :
    s.loadForward (s.lastBefore level below) level =
      some (s.reaching level above).head? := by
  have hpath := h.path level hlevel
  rw [reaching_append] at hpath
  exact hpath.load_getLastD

/-- `CanInsert` holds for what `FindNode` returned. -/
theorem Linked.canInsert_eq (h : s.Linked (below ++ above)) (key : K) {nodeLevel : Nat}
    (hlevel : nodeLevel < s.maxLevel) :
    s.canInsert (s.searchResult key below above).predecessors
      (s.searchResult key below above).successors nodeLevel = some true := by
  apply allM_eq_true
  intro level hmem
  have hlt : level < s.maxLevel := by
    rw [List.mem_range] at hmem
    omega
  obtain ⟨_, halloc, _, hunmarked⟩ := h.lastBefore_spec hlt
  simp only [canInsertAt, searchResult, if_pos hlt, deref_of_lt halloc,
    h.load_lastBefore hlt]
  cases hhead : (s.reaching level above).head? with
  | none => simp [hunmarked]
  | some q =>
    have hq : q ∈ below ++ above :=
      List.mem_append_right below (mem_reaching.mp (List.mem_of_head? hhead)).1
    simp [hunmarked, deref_of_lt (h.inUse q hq).alloc, (h.inUse q hq).unmarked]

omit [LinearOrder K] in
/-- The nodes and the pointers do not depend on the active level count. -/
private theorem Chained.withLevel [LT K] (h : s.Chained ids) (level : Nat) :
    ({ s with currentLevel := level } : SkipList K V).Chained ids where
  head_alloc := h.head_alloc
  head_top := h.head_top
  head_unmarked := h.head_unmarked
  inUse p hp :=
    { ne_head := (h.inUse p hp).ne_head
      alloc := (h.inUse p hp).alloc
      top_lt := (h.inUse p hp).top_lt
      unmarked := (h.inUse p hp).unmarked
      fullyLinked := (h.inUse p hp).fullyLinked }
  sorted := h.sorted
  path := h.path
  size_eq := h.size_eq

/-- `RaiseCurrentLevel` makes the level count exact again after an insertion. -/
private theorem Inserted.linked_raise {t : SkipList K V} {new : NodeId}
    (hins : Inserted s t new below above) (h : s.Linked (below ++ above))
    (hlevel : t.currentLevel = s.currentLevel) :
    (t.raiseCurrentLevel ((t.node new).topLevel + 1)).Linked (below ++ new :: above) := by
  have hchained := h.toChained.insert hins
  have htop := hins.inUse.top_lt
  have hle := h.level_le
  have hmax := hins.maxLevel
  have hold : ∀ p ∈ below ++ new :: above, p ≠ new →
      p ∈ below ++ above ∧ (t.node p).topLevel = (s.node p).topLevel := by
    intro p hp hne
    exact ⟨by simpa [hne] using hp, (hins.data p hne).topLevel⟩
  unfold raiseCurrentLevel
  split
  · -- the new node is now the highest one
    rename_i hlt
    refine
      { toChained := hchained.withLevel _, top_lt := ?_, level_pos := Nat.succ_pos _
        level_le := htop, level_exact := .inr ⟨new, by simp, rfl⟩ }
    intro p hp
    by_cases hpnew : p = new
    · exact hpnew ▸ Nat.lt_succ_self _
    · obtain ⟨hmem, hsame⟩ := hold p hp hpnew
      have := h.top_lt p hmem
      show (t.node p).topLevel < (t.node new).topLevel + 1
      omega
  · -- the new node is no higher than the highest one
    rename_i hlt
    refine
      { toChained := hchained, top_lt := ?_, level_pos := hlevel ▸ h.level_pos
        level_le := by omega, level_exact := ?_ }
    · intro p hp
      by_cases hpnew : p = new
      · subst hpnew
        omega
      · obtain ⟨hmem, hsame⟩ := hold p hp hpnew
        have := h.top_lt p hmem
        omega
    · rw [hlevel]
      rcases h.level_exact with hone | ⟨p, hp, hp'⟩
      · exact .inl hone
      · have hne : p ≠ new := by
          rw [hins.fresh]
          exact Nat.ne_of_lt (h.inUse p hp).alloc
        refine .inr ⟨p, ?_, (congrArg (· + 1) (hins.data p hne).topLevel).trans hp'⟩
        rcases List.mem_append.mp hp with hp | hp <;> simp [hp]

/-- `s` is a well-formed list and holds the map `m`. -/
def Holds (s : SkipList K V) (m : K → Option V) : Prop :=
  ∃ ids, s.Linked ids ∧ ∀ k, (s.entries ids).lookup k = m k

/-- What a writing call leaves behind: a well-formed list with room for the same levels
    and at most one more node. -/
structure Leaves (s t : SkipList K V) (m : K → Option V) : Prop where
  holds : t.Holds m
  maxLevel : t.maxLevel = s.maxLevel
  size_le : t.size ≤ s.size + 1

/-- `Put` of a key that no node holds inserts a node of the drawn height. -/
private theorem Linked.putPass_absent (h : s.Linked (below ++ above))
    (hkey : s.Around key below above) (habsent : ∀ q ∈ above, key < (s.node q).key)
    (value : V) {height : Nat} (hpos : 0 < height) (hmax : height ≤ s.maxLevel)
    (hfuel : (below ++ above).length < fuel) :
    ∃ t, s.putPass fuel key value height = some (.done (true, t)) ∧
      s.Leaves t (Function.update (fun k => (s.entries (below ++ above)).lookup k) key
        (some value)) := by
  have hlt : ∀ l ≤ height - 1, l < s.maxLevel := fun l hl => by omega
  obtain ⟨t, hinsert, htmax, htalloc, htsize, htlevel, hdata, hnew, hload⟩ :=
    s.insertNode_eq (s.searchResult key below above).predecessors
      (s.searchResult key below above).successors (fun l => s.lastBefore l below)
      (height - 1) key value (fun l hl => if_pos (hlt l hl))
      (fun l hl => ⟨(h.lastBefore_spec (hlt l hl)).2.1, (h.lastBefore_spec (hlt l hl)).2.2.1⟩)
  -- the new node stands between the smaller keys and the greater ones
  have hins : Inserted s t s.allocated below above :=
    { maxLevel := htmax, allocated := htalloc, size := htsize, fresh := rfl, data := hdata
      inUse :=
        { ne_head := Nat.ne_of_gt h.head_alloc
          alloc := htalloc ▸ Nat.lt_succ_self _
          top_lt := by rw [hnew.topLevel, htmax]; exact hlt _ le_rfl
          unmarked := hnew.marked
          fullyLinked := hnew.fullyLinked }
      below_lt := fun p hp => hnew.key ▸ hkey.lt p hp
      lt_above := fun p hp => hnew.key ▸ habsent p hp
      load := fun q l => by
        rw [hload, hnew.topLevel]
        by_cases hl : l ≤ height - 1
        · simp [hl, searchResult, hlt l hl]
        · simp [hl] }
  have hlinked := hins.linked_raise h htlevel
  rw [hnew.topLevel] at hlinked
  refine ⟨t.raiseCurrentLevel (height - 1 + 1), ?_, ⟨_, hlinked, ?_⟩, ?_, ?_⟩
  · have hlevel : (s.searchResult key below above).foundLevel = none :=
      foundFrom_absent habsent
    simp [putPass, h.findNode_eq hkey hfuel, hlevel, h.canInsert_eq key (hlt _ le_rfl), hinsert]
  · intro k
    -- the entries around the new one are kept
    have hold : ∀ ids ⊆ below ++ above,
        (t.raiseCurrentLevel (height - 1 + 1)).entries ids = s.entries ids := by
      intro ids hids
      rw [entries_raiseCurrentLevel]
      apply entries_congr
      intro p hp
      exact hdata p (Nat.ne_of_lt (h.inUse p (hids hp)).alloc)
    have hnode : (t.raiseCurrentLevel (height - 1 + 1)).entries (s.allocated :: above) =
        (key, value) :: s.entries above := by
      rw [← hold above (by simp), entries_raiseCurrentLevel, entries_raiseCurrentLevel]
      simp [entries, hnew.key, hnew.value]
    rw [entries_append, hold below (by simp), hnode, List.lookup_insert value hkey.ne_below,
      entries_append]
  · rw [raiseCurrentLevel_maxLevel, htmax]
  · rw [raiseCurrentLevel_size, htsize]

/-- Replacing a value changes neither the order nor the pointers. -/
private theorem Linked.setValue (h : s.Linked ids) (p : NodeId) (value : V) :
    (s.setNode p { s.node p with value := value }).Linked ids := by
  let t := s.setNode p { s.node p with value := value }
  have hnode : ∀ q, (t.node q).key = (s.node q).key ∧
      (t.node q).topLevel = (s.node q).topLevel ∧ (t.node q).marked = (s.node q).marked ∧
      (t.node q).fullyLinked = (s.node q).fullyLinked := by
    intro q
    by_cases hq : q = p
    · subst hq
      simp [t, setNode]
    · simp [t, setNode, hq]
  have hload : ∀ q l, t.loadForward q l = s.loadForward q l :=
    s.loadForward_setNode p _ rfl rfl
  -- no top level and no pointer changes
  have hreach : ∀ l, t.reaching l ids = s.reaching l ids :=
    fun l => List.filter_congr fun q _ => by rw [(hnode q).2.1]
  exact
    { head_alloc := h.head_alloc
      head_top := by rw [(hnode head).2.1]; exact h.head_top
      head_unmarked := (hnode head).2.2.1.trans h.head_unmarked
      inUse := fun q hq =>
        { ne_head := (h.inUse q hq).ne_head
          alloc := (h.inUse q hq).alloc
          top_lt := by rw [(hnode q).2.1]; exact (h.inUse q hq).top_lt
          unmarked := (hnode q).2.2.1.trans (h.inUse q hq).unmarked
          fullyLinked := (hnode q).2.2.2.trans (h.inUse q hq).fullyLinked }
      sorted := h.sorted.imp fun hlt => by rwa [(hnode _).1, (hnode _).1]
      path := fun level hlevel => by
        rw [hreach]
        exact (h.path level hlevel).congr fun q _ => hload q level
      size_eq := h.size_eq
      top_lt := fun q hq => by rw [(hnode q).2.1]; exact h.top_lt q hq
      level_pos := h.level_pos
      level_le := h.level_le
      level_exact := by
        rcases h.level_exact with hone | ⟨q, hq, hq'⟩
        · exact .inl hone
        · exact .inr ⟨q, hq, by rw [(hnode q).2.1]; exact hq'⟩ }

/-- The level at which `FindNode` meets the key leads to the node that holds it. -/
theorem searchResult_found {p : NodeId} {rest : List NodeId}
    (h : s.Linked (below ++ p :: rest)) (hp : (s.node p).key = key) :
    (s.searchResult key below (p :: rest)).foundLevel = some (s.node p).topLevel ∧
      (s.searchResult key below (p :: rest)).successors (s.node p).topLevel = some p := by
  have htop : (s.node p).topLevel < s.maxLevel := (h.inUse p (by simp)).top_lt
  constructor
  · simp [searchResult, foundFrom, hp]
  · simp [searchResult, htop, reaching]

/-- `Put` of a key that a node holds replaces the value of that node. -/
private theorem Linked.putPass_present {p : NodeId} {rest : List NodeId}
    (h : s.Linked (below ++ p :: rest)) (hkey : s.Around key below (p :: rest))
    (hp : (s.node p).key = key) (hrest : ∀ q ∈ rest, key < (s.node q).key) (value : V)
    (height : Nat) (hfuel : (below ++ p :: rest).length < fuel) :
    ∃ t, s.putPass fuel key value height = some (.done (false, t)) ∧
      s.Leaves t (Function.update (fun k => (s.entries (below ++ p :: rest)).lookup k) key
        (some value)) := by
  have hin := h.inUse p (by simp)
  obtain ⟨hlevel, hsucc⟩ := searchResult_found h hp
  refine ⟨s.setNode p { s.node p with value := value }, ?_, ⟨_, h.setValue p value, ?_⟩, rfl,
    Nat.le_succ _⟩
  · simp [putPass, h.findNode_eq hkey hfuel, hlevel, hsucc, deref_of_lt hin.alloc,
      hin.unmarked, hin.fullyLinked]
  · intro k
    -- the entries of the other nodes are kept
    have hother : ∀ ids : List NodeId, p ∉ ids →
        (s.setNode p { s.node p with value := value }).entries ids = s.entries ids := by
      intro ids hids
      apply List.map_congr_left
      intro q hq
      have hqp : q ≠ p := fun heq => hids (heq ▸ hq)
      simp [setNode, hqp]
    have hbelow : p ∉ below := fun hmem => (hkey.lt p hmem).ne hp
    have hrest' : p ∉ rest := fun hmem => (hrest p hmem).ne' hp
    have hnew : (s.setNode p { s.node p with value := value }).entries (p :: rest) =
        (key, value) :: s.entries rest := by
      rw [← hother rest hrest']
      simp [entries, setNode, hp]
    have hold : s.entries (p :: rest) = (key, (s.node p).value) :: s.entries rest := by
      simp [entries, hp]
    rw [entries_append, entries_append, hother below hbelow, hnew, hold]
    exact List.lookup_replace _ value hkey.ne_below k

/-- One pass of `Put` is enough. It returns whether the key was absent, and the list then
    holds the value under the key. -/
theorem Linked.putPass_eq (h : s.Linked ids) (key : K) (value : V) {height : Nat}
    (hpos : 0 < height) (hmax : height ≤ s.maxLevel) (hfuel : ids.length < fuel) :
    ∃ t, s.putPass fuel key value height =
        some (.done (((s.entries ids).lookup key).isNone, t)) ∧
      s.Leaves t (Function.update (fun k => (s.entries ids).lookup k) key (some value)) := by
  obtain ⟨below, above, rfl, hkey⟩ := h.exists_around key
  rw [h.lookup_eq hkey]
  rcases h.holds_or_absent hkey with ⟨p, rest, rfl, hp, hrest⟩ | habsent
  · obtain ⟨t, hput, hleaves⟩ := h.putPass_present hkey hp hrest value height hfuel
    refine ⟨t, ?_, hleaves⟩
    rw [hput]
    simp [foundFrom, hp]
  · obtain ⟨t, hput, hleaves⟩ := h.putPass_absent hkey habsent value hpos hmax hfuel
    refine ⟨t, ?_, hleaves⟩
    rw [hput, foundFrom_absent habsent]
    rfl

/-- `Put` returns in the first pass of its loop, whatever levels it draws. -/
theorem Linked.put_eq (h : s.Linked ids) (key : K) (value : V) {heights : Nat → Nat}
    (hheight : 0 < heights 0 ∧ heights 0 ≤ s.maxLevel) (hfuel : ids.length < fuel) :
    ∃ t, s.put fuel heights key value = some (((s.entries ids).lookup key).isNone, t) ∧
      s.Leaves t (Function.update (fun k => (s.entries ids).lookup k) key (some value)) := by
  obtain ⟨t, hpass, hleaves⟩ := h.putPass_eq key value hheight.1 hheight.2 hfuel
  obtain ⟨fuel, rfl⟩ := Nat.exists_eq_succ_of_ne_zero (Nat.ne_of_gt (Nat.zero_lt_of_lt hfuel))
  refine ⟨t, ?_, hleaves⟩
  simp only [put, retryLoop, hpass, Option.bind_eq_bind, Option.bind_some]

/-! ## Deleting -/

/-- `CanDelete` holds for what `FindNode` returned. -/
theorem Linked.canDelete_eq {victim : NodeId} {rest : List NodeId}
    (h : s.Linked (below ++ victim :: rest)) (key : K) :
    s.canDelete (s.searchResult key below (victim :: rest)).predecessors victim =
      some true := by
  have hin := h.inUse victim (by simp)
  simp only [canDelete, deref_of_lt hin.alloc, Option.bind_eq_bind, Option.bind_some]
  apply allM_eq_true
  intro level hmem
  have hle : level ≤ (s.node victim).topLevel := Nat.lt_succ_iff.mp (List.mem_range.mp hmem)
  have hlt : level < s.maxLevel := Nat.lt_of_le_of_lt hle hin.top_lt
  obtain ⟨_, halloc, _, hunmarked⟩ := h.lastBefore_spec hlt
  have hload : s.loadForward (s.lastBefore level below) level = some (some victim) := by
    rw [h.load_lastBefore hlt]
    simp [reaching, hle]
  simp [canDeleteAt, searchResult, hlt, deref_of_lt halloc, hload, hunmarked]

/-- The pointers of a node lead to the nodes after it. -/
private theorem Linked.load_member {p : NodeId} {rest : List NodeId}
    (h : s.Linked (below ++ p :: rest)) {level : Nat} (hlevel : level ≤ (s.node p).topLevel) :
    s.loadForward p level = some (s.reaching level rest).head? := by
  have hpath := h.path level (Nat.lt_of_le_of_lt hlevel (h.inUse p (by simp)).top_lt)
  have hlevels : s.reaching level (below ++ p :: rest) =
      (s.reaching level below ++ [p]) ++ s.reaching level rest := by
    simp [reaching, hlevel]
  rw [hlevels] at hpath
  simpa [List.getLastD_eq_getLast?] using hpath.load_getLastD

/-- The loop of `RecomputeCurrentLevel` stops at the highest level that is in use. -/
private theorem Chained.recomputeLoop_eq (h : s.Chained ids) (level : Nat)
    (hpos : 0 < level) (hle : level ≤ s.maxLevel)
    (htop : ∀ p ∈ ids, (s.node p).topLevel < level) :
    ∃ n, s.recomputeLoop level = some n ∧ 0 < n ∧ n ≤ level ∧
      (∀ p ∈ ids, (s.node p).topLevel < n) ∧
      (n = 1 ∨ ∃ p ∈ ids, (s.node p).topLevel + 1 = n) := by
  -- by induction on the level: it goes down as long as the head points to nothing
  induction level with
  | zero => omega
  | succ level ih =>
    cases level with
    | zero => exact ⟨1, rfl, Nat.one_pos, le_rfl, htop, .inl rfl⟩
    | succ level =>
      have hload : s.loadForward head (level + 1) =
          some (s.reaching (level + 1) ids).head? :=
        (h.path (level + 1) hle).load_eq
      cases hhead : (s.reaching (level + 1) ids).head? with
      | none =>
        -- nothing is left on this level
        have hlower : ∀ p ∈ ids, (s.node p).topLevel < level + 1 := by
          intro p hp
          by_contra hnot
          have hmem : p ∈ s.reaching (level + 1) ids := mem_reaching.mpr ⟨hp, by omega⟩
          rw [List.head?_eq_none_iff.mp hhead] at hmem
          exact absurd hmem List.not_mem_nil
        obtain ⟨n, hn, hspec⟩ := ih (Nat.succ_pos _) (by omega) hlower
        refine ⟨n, ?_, hspec.1, by omega, hspec.2.2⟩
        simp only [recomputeLoop, hload, hhead, Option.bind_eq_bind, Option.bind_some]
        exact hn
      | some p =>
        obtain ⟨hp, hreach⟩ := mem_reaching.mp (List.mem_of_head? hhead)
        have := htop p hp
        refine ⟨level + 2, ?_, Nat.succ_pos _, le_rfl, htop, .inr ⟨p, hp, by omega⟩⟩
        simp only [recomputeLoop, hload, hhead, Option.bind_eq_bind, Option.bind_some]

/-- `RecomputeCurrentLevel` makes the level count exact. -/
private theorem Chained.recomputeCurrentLevel_eq (h : s.Chained ids) :
    ∃ t, s.recomputeCurrentLevel = some t ∧ t.Linked ids ∧ t.maxLevel = s.maxLevel ∧
      t.size = s.size ∧ t.entries ids = s.entries ids := by
  have hmax : 0 < s.maxLevel := h.head_top ▸ Nat.succ_pos _
  obtain ⟨n, hloop, hpos, hle, htop, hexact⟩ :=
    h.recomputeLoop_eq s.maxLevel hmax le_rfl fun p hp => (h.inUse p hp).top_lt
  refine ⟨{ s with currentLevel := n }, ?_, ⟨h.withLevel n, htop, hpos, hle, hexact⟩, rfl, rfl,
    rfl⟩
  simp only [recomputeCurrentLevel, hloop, Option.bind_eq_bind, Option.bind_some]

/-- `Delete` of a key that a node holds unlinks this node. -/
private theorem Linked.deletePass_present {p : NodeId} {rest : List NodeId}
    (h : s.Linked (below ++ p :: rest)) (hkey : s.Around key below (p :: rest))
    (hp : (s.node p).key = key) (hrest : ∀ q ∈ rest, key < (s.node q).key)
    (hfuel : (below ++ p :: rest).length < fuel) :
    ∃ t, s.deletePass fuel key = some (.done (true, t)) ∧
      s.Leaves t (Function.update (fun k => (s.entries (below ++ p :: rest)).lookup k) key
        none) := by
  have hin := h.inUse p (by simp)
  obtain ⟨hlevel, hsucc⟩ := searchResult_found h hp
  have hlt : ∀ l ≤ (s.node p).topLevel, l < s.maxLevel :=
    fun l hl => Nat.lt_of_le_of_lt hl hin.top_lt
  have hnodup := h.nodup
  rw [← List.cons_append, List.nodup_middle] at hnodup
  -- the node stands in the list once
  have hne : ∀ q ∈ head :: (below ++ rest), q ≠ p := by
    rintro q hq rfl
    exact (List.nodup_cons.mp hnodup).1 hq
  have hbefore : ∀ l ≤ (s.node p).topLevel, p ≠ s.lastBefore l below := by
    intro l hl
    refine (hne _ ?_).symm
    have hmem := (h.lastBefore_spec (hlt l hl)).1
    exact (List.Sublist.cons_cons head (List.sublist_append_left below rest)).subset hmem
  obtain ⟨t, hremove, htmax, htalloc, htsize, hdata, hload⟩ :=
    s.removeNode_eq (s.searchResult key below (p :: rest)).predecessors
      (fun l => s.lastBefore l below) (fun l => (s.reaching l rest).head?) p hin.alloc
      (fun l hl => if_pos (hlt l hl))
      (fun l hl => ⟨(h.lastBefore_spec (hlt l hl)).2.1, (h.lastBefore_spec (hlt l hl)).2.2.1,
        hbefore l hl⟩)
      (fun l hl => h.load_member hl)
  have hrem : Removed s t p below rest := ⟨htmax, htalloc, htsize, hdata, hload⟩
  obtain ⟨u, hrecompute, hlinked, humax, husize, huentries⟩ :=
    (h.toChained.remove hrem).recomputeCurrentLevel_eq
  refine ⟨u, ?_, ⟨_, hlinked, ?_⟩, humax.trans htmax, ?_⟩
  · simp [deletePass, h.findNode_eq hkey hfuel, hlevel, hsucc, deref_of_lt hin.alloc,
      hin.unmarked, hin.fullyLinked, hp, h.canDelete_eq key, hremove, hrecompute]
  · intro k
    -- no other node has changed
    have hkept : t.entries (below ++ rest) = s.entries (below ++ rest) :=
      entries_congr fun q hq => hdata q (hne q (List.mem_cons_of_mem head hq))
    have hrest' : ∀ e ∈ s.entries rest, e.1 ≠ key := by
      intro e he
      obtain ⟨q, hq, rfl⟩ := List.mem_map.mp he
      exact (hrest q hq).ne'
    have hold : s.entries (p :: rest) = (key, (s.node p).value) :: s.entries rest := by
      simp [entries, hp]
    rw [huentries, hkept, entries_append, entries_append, hold]
    exact List.lookup_remove _ hkey.ne_below hrest' k
  · rw [husize, htsize]
    omega

/-- One pass of `Delete` is enough. It returns whether the key was present, and the list
    then holds nothing under the key. -/
theorem Linked.deletePass_eq (h : s.Linked ids) (key : K) (hfuel : ids.length < fuel) :
    ∃ t, s.deletePass fuel key = some (.done (((s.entries ids).lookup key).isSome, t)) ∧
      s.Leaves t (Function.update (fun k => (s.entries ids).lookup k) key none) := by
  obtain ⟨below, above, rfl, hkey⟩ := h.exists_around key
  have hlookup := h.lookup_eq hkey
  rcases h.holds_or_absent hkey with ⟨p, rest, rfl, hp, hrest⟩ | habsent
  · obtain ⟨t, hdelete, hleaves⟩ := h.deletePass_present hkey hp hrest hfuel
    refine ⟨t, ?_, hleaves⟩
    rw [hdelete, hlookup]
    simp [foundFrom, hp]
  · rw [foundFrom_absent habsent] at hlookup
    have hlevel : (s.searchResult key below above).foundLevel = none := foundFrom_absent habsent
    refine ⟨s, ?_, ⟨_, h, ?_⟩, rfl, Nat.le_succ _⟩
    · rw [hlookup]
      simp [deletePass, h.findNode_eq hkey hfuel, hlevel]
    · intro k
      -- the map has nothing under the key to begin with
      have hsame := Function.update_eq_self key fun k => (s.entries (below ++ above)).lookup k
      rw [hlookup] at hsame
      exact (congrFun hsame k).symm

/-- `Delete` returns in the first pass of its loop. -/
theorem Linked.delete_eq (h : s.Linked ids) (key : K) (hfuel : ids.length < fuel) :
    ∃ t, s.delete fuel key = some (((s.entries ids).lookup key).isSome, t) ∧
      s.Leaves t (Function.update (fun k => (s.entries ids).lookup k) key none) := by
  obtain ⟨t, hpass, hleaves⟩ := h.deletePass_eq key hfuel
  obtain ⟨fuel, rfl⟩ := Nat.exists_eq_succ_of_ne_zero (Nat.ne_of_gt (Nat.zero_lt_of_lt hfuel))
  refine ⟨t, ?_, hleaves⟩
  simp only [delete, retryLoop, hpass, Option.bind_eq_bind, Option.bind_some]

/-! ## Empty lists -/

/-- A list whose head has no successor on any level holds nothing. -/
private theorem linked_nil (hmax : 0 < s.maxLevel) (halloc : head < s.allocated)
    (htop : (s.node head).topLevel + 1 = s.maxLevel) (hmarked : (s.node head).marked = false)
    (hforward : (s.node head).forward = fun _ => none) (hlevel : s.currentLevel = 1)
    (hsize : s.size = 0) : s.Linked [] where
  head_alloc := halloc
  head_top := htop
  head_unmarked := hmarked
  inUse := by simp
  sorted := List.Pairwise.nil
  path level hlt := by
    have hle : level ≤ (s.node head).topLevel := by omega
    show s.loadForward head level = some none
    rw [loadForward, if_pos ⟨halloc, hle⟩, hforward]
  size_eq := hsize
  top_lt := by simp
  level_pos := by omega
  level_le := by omega
  level_exact := .inl hlevel

/-- The constructor makes an empty list. -/
theorem linked_new [Inhabited K] [Inhabited V] (maxLevel : Nat) :
    (new maxLevel : SkipList K V).Linked [] := by
  have hpos : 0 < if maxLevel = 0 then 1 else maxLevel := by
    split <;> omega
  exact linked_nil hpos Nat.one_pos (Nat.sub_add_cancel hpos) rfl rfl rfl rfl

/-- `Clear` empties a list. -/
theorem Linked.clear (h : s.Linked ids) : s.clear.Linked [] := by
  have hhead : s.clear.node head = { s.node head with forward := fun _ => none } := by
    simp [SkipList.clear, setNode]
  have hmax : 0 < s.clear.maxLevel := Nat.lt_of_lt_of_le h.level_pos h.level_le
  refine linked_nil hmax Nat.one_pos ?_ ?_ ?_ rfl rfl
  · rw [hhead]
    exact h.head_top
  · rw [hhead]
    exact h.head_unmarked
  · rw [hhead]

/-! ## Random levels -/

/-- The loop of `RandomLevel` stays between its start and the room it has. -/
private theorem randomLevelLoop_mem (coin : Nat → Bool) (room level : Nat) :
    level ≤ randomLevelLoop coin room level ∧
      randomLevelLoop coin room level ≤ level + room := by
  induction room generalizing level with
  | zero => exact ⟨le_rfl, le_rfl⟩
  | succ room ih =>
    unfold randomLevelLoop
    split
    · have := ih (level + 1)
      omega
    · omega

/-- `RandomLevel` draws a level between one and `max_level_`. -/
theorem randomLevel_mem {maxLevel : Nat} (hmax : 0 < maxLevel) (coin : Nat → Bool) :
    0 < randomLevel maxLevel coin ∧ randomLevel maxLevel coin ≤ maxLevel := by
  have h := randomLevelLoop_mem coin (maxLevel - 1) 1
  unfold randomLevel
  omega

/-- The loop of `RandomLevel` reaches every level when the coin lands on heads below it. -/
private theorem randomLevelLoop_eq (height room level : Nat) (hle : level ≤ height)
    (hroom : height ≤ level + room) :
    randomLevelLoop (fun i => decide (i < height)) room level = height := by
  induction room generalizing level with
  | zero => exact Nat.le_antisymm hle hroom
  | succ room ih =>
    unfold randomLevelLoop
    by_cases hlt : level < height
    · rw [if_pos (decide_eq_true hlt)]
      exact ih (level + 1) hlt (by omega)
    · rw [if_neg (by simpa using hlt)]
      omega

/-- Every level up to `max_level_` is drawn by some coin flips. -/
theorem exists_randomLevel_eq {maxLevel height : Nat} (hpos : 0 < height)
    (hle : height ≤ maxLevel) : ∃ coin, randomLevel maxLevel coin = height :=
  ⟨fun i => decide (i < height), randomLevelLoop_eq height _ 1 hpos (by omega)⟩

end KvStore.SkipList
