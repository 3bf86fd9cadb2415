import KvStore.Native.SkipList
import KvStore.ForStd.PtrPath
import Mathlib.Algebra.Order.Group.Nat

/-!
# Skip list invariant and searches

`Linked s ids` says that the skip list `s` holds exactly the nodes `ids`, in this
order: level `l` is the sublist of `ids` whose nodes reach up to `l`, and the active
level count, the size and the flags agree with it. Under this invariant every search
ends, and its result is a function of `ids` alone:

- `advance_eq`: the walk along one level
- `findNode_eq`: `FindNode`, including the entries above the active levels
- `descend_eq`, `findNodeNoLock_eq`: the searches that keep no predecessors
-/

namespace KvStore.SkipList

section Defs

variable {K V : Type}

/-- The nodes of `ids` that reach up to `level`. -/
def reaching (s : SkipList K V) (level : Nat) (ids : List NodeId) : List NodeId :=
  ids.filter fun p => decide (level ≤ (s.node p).topLevel)

/-- The last node of `below` on `level`, or the head. -/
def lastBefore (s : SkipList K V) (level : Nat) (below : List NodeId) : NodeId :=
  (s.reaching level below).getLastD head

/-- A node in use: an allocated node other than the head, fully linked and not marked,
    that fits below `maxLevel`. -/
structure InUse (s : SkipList K V) (p : NodeId) : Prop where
  ne_head : p ≠ head
  alloc : p < s.allocated
  top_lt : (s.node p).topLevel < s.maxLevel
  unmarked : (s.node p).marked = false
  fullyLinked : (s.node p).fullyLinked = true

/-- The nodes of `s` are `ids`, in ascending order of their keys, and every level is the
    sublist of those that reach it. -/
structure Chained [LT K] (s : SkipList K V) (ids : List NodeId) : Prop where
  head_alloc : head < s.allocated
  head_top : (s.node head).topLevel + 1 = s.maxLevel
  head_unmarked : (s.node head).marked = false
  inUse : ∀ p ∈ ids, s.InUse p
  sorted : ids.Pairwise fun p q => (s.node p).key < (s.node q).key
  path : ∀ level < s.maxLevel,
    PtrPath (fun p => s.loadForward p level) head (s.reaching level ids)
  size_eq : s.size = ids.length

/-- The representation invariant: `s` holds the nodes `ids`, and `currentLevel` is one
    more than the highest level in use, or one if there is no node. -/
structure Linked [LT K] (s : SkipList K V) (ids : List NodeId) : Prop
    extends s.Chained ids where
  top_lt : ∀ p ∈ ids, (s.node p).topLevel < s.currentLevel
  level_pos : 0 < s.currentLevel
  level_le : s.currentLevel ≤ s.maxLevel
  level_exact : s.currentLevel = 1 ∨ ∃ p ∈ ids, (s.node p).topLevel + 1 = s.currentLevel

/-- `key` belongs between the nodes `below` and the nodes `above`, or is the key of the
    first of the latter. -/
structure Around [LT K] (s : SkipList K V) (key : K) (below above : List NodeId) : Prop where
  lt : ∀ p ∈ below, (s.node p).key < key
  not_lt : ∀ p ∈ above, ¬ (s.node p).key < key

/-! ## Memory -/

/-- An address that is in use can be dereferenced. -/
theorem deref_of_lt {s : SkipList K V} {p : NodeId} (h : p < s.allocated) :
    s.deref p = some (s.node p) :=
  if_pos h

/-- A node of the list can be dereferenced. -/
theorem Chained.deref [LT K] {s : SkipList K V} {ids : List NodeId} (h : s.Chained ids)
    {p : NodeId} (hp : p ∈ ids) : s.deref p = some (s.node p) :=
  deref_of_lt (h.inUse p hp).alloc

/-- The last node before a key is one of them, or the head; it reaches its level. -/
theorem Chained.lastBefore_spec [LT K] {s : SkipList K V} {below above : List NodeId}
    (h : s.Chained (below ++ above)) {level : Nat} (hlevel : level < s.maxLevel) :
    s.lastBefore level below ∈ head :: below ∧ s.lastBefore level below < s.allocated ∧
      level ≤ (s.node (s.lastBefore level below)).topLevel ∧
      (s.node (s.lastBefore level below)).marked = false := by
  rw [lastBefore, List.getLastD_eq_getLast?]
  cases hlast : (s.reaching level below).getLast? with
  | none =>
    have htop := h.head_top
    exact ⟨List.mem_cons_self, h.head_alloc, by simp only [Option.getD_none]; omega,
      h.head_unmarked⟩
  | some p =>
    obtain ⟨hp, htop⟩ := List.mem_filter.mp (List.mem_of_getLast? hlast)
    have hids : p ∈ below ++ above := List.mem_append_left above hp
    exact ⟨List.mem_cons_of_mem head hp, (h.inUse p hids).alloc, of_decide_eq_true htop,
      (h.inUse p hids).unmarked⟩

/-- No node is on a level that no node reaches. -/
theorem reaching_eq_nil {s : SkipList K V} {level : Nat} {ids : List NodeId}
    (h : ∀ p ∈ ids, (s.node p).topLevel < level) : s.reaching level ids = [] := by
  refine List.filter_eq_nil_iff.mpr fun p hp => ?_
  have := h p hp
  simp only [decide_eq_true_eq]
  omega

/-- Where no node is high enough, the head is the last before. -/
theorem lastBefore_eq_head {s : SkipList K V} {level : Nat} {below : List NodeId}
    (h : ∀ p ∈ below, (s.node p).topLevel < level) : s.lastBefore level below = head := by
  rw [lastBefore, reaching_eq_nil h]
  rfl

@[simp] theorem reaching_append (s : SkipList K V) (level : Nat) (front rest : List NodeId) :
    s.reaching level (front ++ rest) = s.reaching level front ++ s.reaching level rest :=
  List.filter_append ..

@[simp] theorem reaching_zero (s : SkipList K V) (ids : List NodeId) :
    s.reaching 0 ids = ids := by
  simp [reaching]

/-- The nodes of a level are those that are high enough. -/
theorem mem_reaching {s : SkipList K V} {level : Nat} {ids : List NodeId} {p : NodeId} :
    p ∈ s.reaching level ids ↔ p ∈ ids ∧ level ≤ (s.node p).topLevel := by
  simp [reaching]

end Defs

variable {K V : Type} [LinearOrder K] {s : SkipList K V} {key : K}
  {ids below above : List NodeId} {fuel : Nat}

@[simp] theorem keysEqual_eq (lhs rhs : K) : keysEqual lhs rhs = decide (lhs = rhs) := by
  rcases lt_trichotomy lhs rhs with h | h | h
  · simp [keysEqual, h, h.ne]
  · simp [keysEqual, h]
  · simp [keysEqual, h, h.ne']

/-! ## Where a key belongs -/

/-- The nodes of a sorted list split around every key. -/
theorem Linked.exists_around (h : s.Linked ids) (key : K) :
    ∃ below above, ids = below ++ above ∧ s.Around key below above := by
  have hsorted := h.sorted
  clear h
  induction ids with
  | nil => exact ⟨[], [], rfl, by simp, by simp⟩
  | cons p ids ih =>
    obtain ⟨hp, hids⟩ := List.pairwise_cons.mp hsorted
    by_cases hlt : (s.node p).key < key
    · obtain ⟨below, above, rfl, hb, ha⟩ := ih hids
      exact ⟨p :: below, above, rfl, by simpa [hlt] using hb, ha⟩
    · refine ⟨[], p :: ids, rfl, by simp, ?_⟩
      intro q hq
      rcases List.mem_cons.mp hq with rfl | hq
      · exact hlt
      · exact fun hqk => hlt ((hp q hq).trans hqk)

/-- The level at which `FindNode` has met `key` once it is done with the levels from
    `level` on: the top level of the node that holds the key, if that is high enough. -/
def foundFrom (s : SkipList K V) (key : K) (above : List NodeId) (level : Nat) : Option Nat :=
  match above.head? with
  | none => none
  | some p =>
    if (s.node p).key = key ∧ level ≤ (s.node p).topLevel then some (s.node p).topLevel
    else none

/-- On every level, only the first node above the key can hold it. -/
theorem Linked.holdsKey_reaching (h : s.Linked (below ++ above))
    (hkey : s.Around key below above) (level : Nat) :
    s.holdsKey key (s.reaching level above).head? =
      some (s.foundFrom key above level).isSome := by
  cases above with
  | nil => rfl
  | cons p rest =>
    by_cases htop : level ≤ (s.node p).topLevel
    · have hp : s.deref p = some (s.node p) := h.toChained.deref (by simp)
      simp [reaching, htop, holdsKey, hp, foundFrom]
      split <;> simp_all
    · -- the first node does not reach the level
      have hfound : s.foundFrom key (p :: rest) level = none := by
        simp [foundFrom, htop]
      have hrest : s.reaching level (p :: rest) = s.reaching level rest := by
        simp [reaching, htop]
      rw [hfound, hrest]
      cases hq : (s.reaching level rest).head? with
      | none => rfl
      | some q =>
        have hmem : q ∈ rest := (mem_reaching.mp (List.mem_of_head? hq)).1
        -- a later node holds a larger key than `p`, whose key is not below `key`
        have hpq : (s.node p).key < (s.node q).key :=
          (List.pairwise_cons.mp (List.pairwise_append.mp h.sorted).2.1).1 q hmem
        have hne : (s.node q).key ≠ key := by
          rintro rfl
          exact hkey.not_lt p (by simp) hpq
        simp [holdsKey, h.toChained.deref (show q ∈ below ++ p :: rest by simp [hmem]), hne]

/-! ## The walk along one level -/

/-- The inner loop stops after the last node of its level whose key is smaller. -/
theorem advance_eq {level : Nat} {p : NodeId} {front rest : List NodeId}
    (hpath : PtrPath (fun p => s.loadForward p level) p (front ++ rest))
    (halloc : ∀ q ∈ front ++ rest, q < s.allocated)
    (hfront : ∀ q ∈ front, (s.node q).key < key)
    (hrest : ∀ q ∈ rest, ¬ (s.node q).key < key) (hfuel : front.length < fuel) :
    s.advance key level fuel p = some (front.getLastD p, rest.head?) := by
  induction front generalizing p fuel with
  | nil =>
    obtain ⟨fuel, rfl⟩ := Nat.exists_eq_succ_of_ne_zero (Nat.ne_of_gt hfuel)
    have hload : s.loadForward p level = some rest.head? := hpath.load_eq
    cases rest with
    | nil => simp [advance, hload]
    | cons q rest =>
      have hq : s.deref q = some (s.node q) := deref_of_lt (halloc q (by simp))
      simp [advance, hload, hq, hrest q (by simp)]
  | cons q front ih =>
    obtain ⟨fuel, rfl⟩ := Nat.exists_eq_succ_of_ne_zero (Nat.ne_of_gt (Nat.zero_lt_of_lt hfuel))
    -- the next key is smaller, so the loop goes on from its node
    have hload : s.loadForward p level = some (some q) := hpath.1
    have hq : s.deref q = some (s.node q) := deref_of_lt (halloc q (by simp))
    have hrec : s.advance key level fuel q = some (front.getLastD q, rest.head?) :=
      ih hpath.2 (fun r hr => halloc r (List.mem_cons_of_mem q hr))
        (fun r hr => hfront r (List.mem_cons_of_mem q hr)) (by simpa using hfuel)
    simp only [advance, hload, hq, Option.bind_eq_bind, Option.bind_some, hfront q (by simp),
      if_true, hrec, List.getLastD_cons]

/-- The node where the walk of one level ends is on the next lower level too, and is
    followed there by the nodes up to `key` that only reach the lower level. -/
private theorem Linked.path_lastBefore (h : s.Linked (below ++ above)) {level : Nat}
    (hlevel : level < s.maxLevel) :
    ∃ front, PtrPath (fun p => s.loadForward p level) (s.lastBefore (level + 1) below)
        (front ++ s.reaching level above) ∧
      front.Sublist below ∧
      front.getLastD (s.lastBefore (level + 1) below) = s.lastBefore level below := by
  have hpath := h.path level hlevel
  rw [reaching_append] at hpath
  cases hlast : (s.reaching (level + 1) below).getLast? with
  | none =>
    -- no node before the key reaches the higher level: the walk starts at the head
    refine ⟨s.reaching level below, ?_, List.filter_sublist, ?_⟩
    · simpa [lastBefore, List.getLastD_eq_getLast?, hlast] using hpath
    · simp [lastBefore, List.getLastD_eq_getLast?, hlast]
  | some q =>
    have hmem := mem_reaching.mp (List.mem_of_getLast? hlast)
    have hq : q ∈ s.reaching level below := mem_reaching.mpr ⟨hmem.1, by omega⟩
    -- the walk on this level starts where the walk above has ended
    obtain ⟨before, front, hsplit⟩ := List.append_of_mem hq
    have hsub : front.Sublist below := by
      have hfront : front.Sublist (s.reaching level below) := by
        rw [hsplit]
        simp
      exact hfront.trans List.filter_sublist
    have hbefore : s.lastBefore (level + 1) below = q := by
      simp [lastBefore, List.getLastD_eq_getLast?, hlast]
    refine ⟨front, ?_, hsub, ?_⟩
    · have hsuffix : PtrPath (fun p => s.loadForward p level) ((before ++ [q]).getLastD head)
          (front ++ s.reaching level above) :=
        PtrPath.suffix (by simpa [hsplit] using hpath)
      simpa [hbefore] using hsuffix
    · rw [hbefore, lastBefore, hsplit]
      simp only [List.getLastD_eq_getLast?, List.getLast?_append, List.getLast?_cons,
        Option.some_or, Option.getD_some]

/-- The walk of one level, started where the walk of the level above it ended. -/
theorem Linked.advance_level (h : s.Linked (below ++ above)) (hkey : s.Around key below above)
    {level : Nat} (hlevel : level < s.maxLevel) (hfuel : (below ++ above).length < fuel) :
    s.advance key level fuel (s.lastBefore (level + 1) below) =
      some (s.lastBefore level below, (s.reaching level above).head?) := by
  obtain ⟨front, hpath, hsub, hlast⟩ := h.path_lastBefore hlevel
  rw [← hlast]
  refine advance_eq hpath ?_ (fun q hq => hkey.lt q (hsub.subset hq)) ?_ ?_
  · intro q hq
    refine InUse.alloc (h.inUse q (List.mem_append.mpr ((List.mem_append.mp hq).imp ?_ ?_)))
    · exact fun hq => hsub.subset hq
    · exact fun hq => (mem_reaching.mp hq).1
  · exact fun q hq => hkey.not_lt q (mem_reaching.mp hq).1
  · have := hsub.length_le
    rw [List.length_append] at hfuel
    omega

/-- The head precedes everything above the active levels, and nothing is there. -/
theorem Linked.above_active (h : s.Linked (below ++ above)) {level : Nat}
    (hlevel : s.currentLevel ≤ level) :
    s.lastBefore level below = head ∧ s.reaching level above = [] := by
  have htop : ∀ p ∈ below ++ above, (s.node p).topLevel < level :=
    fun p hp => (h.top_lt p hp).trans_le hlevel
  exact ⟨lastBefore_eq_head fun p hp => htop p (List.mem_append_left above hp),
    reaching_eq_nil fun p hp => htop p (List.mem_append_right below hp)⟩

/-! ## The searches -/

/-- The descent ends at the last node before the key. -/
theorem Linked.descend_eq (h : s.Linked (below ++ above)) (hkey : s.Around key below above)
    (hfuel : (below ++ above).length < fuel) :
    s.descend fuel key s.currentLevel head = some (s.lastBefore 0 below) := by
  suffices ∀ level ≤ s.maxLevel,
      s.descend fuel key level (s.lastBefore level below) = some (s.lastBefore 0 below) by
    rw [← (h.above_active le_rfl).1]
    exact this _ h.level_le
  intro level
  induction level with
  | zero => exact fun _ => rfl
  | succ level ih =>
    intro hlevel
    simp only [descend, h.advance_level hkey hlevel hfuel, Option.bind_eq_bind, Option.bind_some]
    exact ih (by omega)

/-- `FindNodeNoLock` returns the node that holds the key. -/
theorem Linked.findNodeNoLock_eq (h : s.Linked (below ++ above))
    (hkey : s.Around key below above) (hfuel : (below ++ above).length < fuel) :
    s.findNodeNoLock fuel key =
      some (if (s.foundFrom key above 0).isSome then above.head? else none) := by
  have hload : s.loadForward (s.lastBefore 0 below) 0 = some above.head? := by
    have hpath := h.path 0 (Nat.lt_of_lt_of_le h.level_pos h.level_le)
    rw [reaching_append] at hpath
    simpa [lastBefore] using hpath.load_getLastD
  have hhit := h.holdsKey_reaching hkey 0
  rw [reaching_zero] at hhit
  simp only [findNodeNoLock, h.descend_eq hkey hfuel, hload, hhit, Option.bind_eq_bind,
    Option.bind_some]

/-- What `FindNode` returns for a key between `below` and `above`. -/
def searchResult (s : SkipList K V) (key : K) (below above : List NodeId) : FindResult where
  foundLevel := s.foundFrom key above 0
  predecessors := fun level =>
    if level < s.maxLevel then some (s.lastBefore level below) else none
  successors := fun level =>
    if level < s.maxLevel then (s.reaching level above).head? else none

/-- One round of the loop of `FindNode` moves the level at which the key was met. -/
private theorem foundFrom_step (s : SkipList K V) (key : K) (above : List NodeId)
    (level : Nat) :
    (if (s.foundFrom key above (level + 1)).isNone && (s.foundFrom key above level).isSome
      then some level else s.foundFrom key above (level + 1)) = s.foundFrom key above level := by
  unfold foundFrom
  cases above.head? with
  | none => rfl
  | some p =>
    by_cases hkey : (s.node p).key = key
    · rcases Nat.lt_trichotomy level (s.node p).topLevel with hlt | heq | hgt
      · simp [hkey, Nat.succ_le_of_lt hlt, Nat.le_of_lt hlt]
      · simp [hkey, ← heq]
      · simp [hkey, show ¬ level + 1 ≤ (s.node p).topLevel by omega,
          show ¬ level ≤ (s.node p).topLevel by omega]
    · simp [hkey]

/-- The loop of `FindNode` fills in the levels below its argument. -/
private theorem Linked.findNodeLoop_eq (h : s.Linked (below ++ above))
    (hkey : s.Around key below above) (hfuel : (below ++ above).length < fuel) (level : Nat)
    (hlevel : level ≤ s.maxLevel) (predecessors successors : Nat → Option NodeId) :
    s.findNodeLoop fuel key level (s.lastBefore level below)
        { foundLevel := s.foundFrom key above level, predecessors, successors } =
      some { foundLevel := s.foundFrom key above 0
             predecessors := fun l =>
               if l < level then some (s.lastBefore l below) else predecessors l
             successors := fun l =>
               if l < level then (s.reaching l above).head? else successors l } := by
  induction level generalizing predecessors successors with
  | zero => simp [findNodeLoop]
  | succ level ih =>
    simp only [findNodeLoop, h.advance_level hkey hlevel hfuel, h.holdsKey_reaching hkey,
      Option.bind_eq_bind, Option.bind_some, foundFrom_step]
    rw [ih (by omega)]
    -- the entry of this round is the one the lower rounds leave alone
    have hentry : ∀ (f : Nat → Option NodeId) (x : Option NodeId) (g : Nat → Option NodeId),
        f level = x → (fun l => if l < level then f l else Function.update g level x l) =
          fun l => if l < level + 1 then f l else g l := by
      intro f x g hx
      funext l
      rcases Nat.lt_trichotomy l level with hlt | rfl | hgt
      · simp [hlt, Nat.lt_succ_of_lt hlt]
      · simp [hx]
      · simp [show ¬ l < level by omega, show ¬ l < level + 1 by omega, Nat.ne_of_gt hgt]
    rw [hentry (fun l => some (s.lastBefore l below)) _ _ rfl,
      hentry (fun l => (s.reaching l above).head?) _ _ rfl]

/-- `FindNode` returns, on every level, the last node before the key and its successor;
    above the active levels these are the head and null, as it fills them in. -/
theorem Linked.findNode_eq (h : s.Linked (below ++ above)) (hkey : s.Around key below above)
    (hfuel : (below ++ above).length < fuel) :
    s.findNode fuel key = some (s.searchResult key below above) := by
  -- no node reaches the current level
  have htop : s.foundFrom key above s.currentLevel = none := by
    unfold foundFrom
    cases habove : above.head? with
    | none => rfl
    | some p =>
      have := h.top_lt p (List.mem_append_right below (List.mem_of_head? habove))
      simp [show ¬ s.currentLevel ≤ (s.node p).topLevel by omega]
  have hloop := h.findNodeLoop_eq hkey hfuel s.currentLevel h.level_le
    (fun _ => none) (fun _ => none)
  rw [(h.above_active le_rfl).1, htop] at hloop
  simp only [findNode, hloop, Option.bind_eq_bind, Option.bind_some, searchResult]
  congr 2
  · funext level
    by_cases hactive : level < s.currentLevel
    · simp [hactive, Nat.not_le.mpr hactive, Nat.lt_of_lt_of_le hactive h.level_le]
    · have hempty := (h.above_active (Nat.not_lt.mp hactive)).1
      simp [hactive, Nat.not_lt.mp hactive, hempty]
  · funext level
    by_cases hactive : level < s.currentLevel
    · simp [hactive, Nat.not_le.mpr hactive, Nat.lt_of_lt_of_le hactive h.level_le]
    · have hempty := (h.above_active (Nat.not_lt.mp hactive)).2
      simp [hactive, Nat.not_lt.mp hactive, hempty]

end KvStore.SkipList
