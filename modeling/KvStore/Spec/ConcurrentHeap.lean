import KvStore.ForStd.PtrPath
import KvStore.Native.ConcurrentSkipList

/-!
# The nodes of a concurrent skip list

Following the pointers of a level from the head leads through the nodes that are *listed*
at that level. A node is *published* at a level if it is listed there or marked: it was
listed once, and its removal may have begun. A heap is `Sound` if every pointer leads to a
published node with a larger key.

`Moves` says what one step of one thread may do to the heap, in terms of the nodes that
the thread has locked and of the node that it has created. Each store of the source is
shown to be such a step and to leave the heap sound.
-/

namespace KvStore

namespace ConcurrentSkipList

open SkipList (head)

namespace Heap

variable {K V : Type} {h h' : Heap K V} {p q n m new victim : NodeId} {level level' : Nat}

/-! ## What a store changes -/

@[simp] theorem loadForward_storeForward (target : Option NodeId) :
    (h.storeForward p level target).loadForward n level' =
      if n = p ∧ level' = level then target else h.loadForward n level' := by
  by_cases hn : n = p
  · subst hn
    by_cases hlevel : level' = level
    · simp [loadForward, storeForward, setNode, hlevel]
    · simp [loadForward, storeForward, setNode, hlevel]
  · simp [loadForward, storeForward, setNode, hn]

@[simp] theorem key_storeForward (target : Option NodeId) :
    ((h.storeForward p level target).node n).key = (h.node n).key := by
  by_cases hn : n = p <;> simp [storeForward, setNode, hn]

@[simp] theorem topLevel_storeForward (target : Option NodeId) :
    ((h.storeForward p level target).node n).topLevel = (h.node n).topLevel := by
  by_cases hn : n = p <;> simp [storeForward, setNode, hn]

@[simp] theorem marked_storeForward (target : Option NodeId) :
    ((h.storeForward p level target).node n).marked = (h.node n).marked := by
  by_cases hn : n = p <;> simp [storeForward, setNode, hn]

@[simp] theorem fullyLinked_storeForward (target : Option NodeId) :
    ((h.storeForward p level target).node n).fullyLinked = (h.node n).fullyLinked := by
  by_cases hn : n = p <;> simp [storeForward, setNode, hn]

@[simp] theorem allocated_storeForward (target : Option NodeId) :
    (h.storeForward p level target).allocated = h.allocated := rfl

@[simp] theorem loadForward_storeMarked :
    (h.storeMarked p).loadForward n level = h.loadForward n level := by
  by_cases hn : n = p <;> simp [loadForward, storeMarked, setNode, hn]

@[simp] theorem key_storeMarked : ((h.storeMarked p).node n).key = (h.node n).key := by
  by_cases hn : n = p <;> simp [storeMarked, setNode, hn]

@[simp] theorem topLevel_storeMarked :
    ((h.storeMarked p).node n).topLevel = (h.node n).topLevel := by
  by_cases hn : n = p <;> simp [storeMarked, setNode, hn]

@[simp] theorem marked_storeMarked :
    ((h.storeMarked p).node n).marked = true ↔ n = p ∨ (h.node n).marked = true := by
  by_cases hn : n = p <;> simp [storeMarked, setNode, hn]

@[simp] theorem fullyLinked_storeMarked :
    ((h.storeMarked p).node n).fullyLinked = (h.node n).fullyLinked := by
  by_cases hn : n = p <;> simp [storeMarked, setNode, hn]

@[simp] theorem allocated_storeMarked : (h.storeMarked p).allocated = h.allocated := rfl

@[simp] theorem loadForward_storeFullyLinked :
    (h.storeFullyLinked p).loadForward n level = h.loadForward n level := by
  by_cases hn : n = p <;> simp [loadForward, storeFullyLinked, setNode, hn]

@[simp] theorem key_storeFullyLinked :
    ((h.storeFullyLinked p).node n).key = (h.node n).key := by
  by_cases hn : n = p <;> simp [storeFullyLinked, setNode, hn]

@[simp] theorem topLevel_storeFullyLinked :
    ((h.storeFullyLinked p).node n).topLevel = (h.node n).topLevel := by
  by_cases hn : n = p <;> simp [storeFullyLinked, setNode, hn]

@[simp] theorem marked_storeFullyLinked :
    ((h.storeFullyLinked p).node n).marked = (h.node n).marked := by
  by_cases hn : n = p <;> simp [storeFullyLinked, setNode, hn]

@[simp] theorem fullyLinked_storeFullyLinked :
    ((h.storeFullyLinked p).node n).fullyLinked = true ↔
      n = p ∨ (h.node n).fullyLinked = true := by
  by_cases hn : n = p <;> simp [storeFullyLinked, setNode, hn]

@[simp] theorem allocated_storeFullyLinked :
    (h.storeFullyLinked p).allocated = h.allocated := rfl

@[simp] theorem loadForward_storeValue (value : V) :
    (h.storeValue p value).loadForward n level = h.loadForward n level := by
  by_cases hn : n = p <;> simp [loadForward, storeValue, setNode, hn]

@[simp] theorem key_storeValue (value : V) :
    ((h.storeValue p value).node n).key = (h.node n).key := by
  by_cases hn : n = p <;> simp [storeValue, setNode, hn]

@[simp] theorem topLevel_storeValue (value : V) :
    ((h.storeValue p value).node n).topLevel = (h.node n).topLevel := by
  by_cases hn : n = p <;> simp [storeValue, setNode, hn]

@[simp] theorem marked_storeValue (value : V) :
    ((h.storeValue p value).node n).marked = (h.node n).marked := by
  by_cases hn : n = p <;> simp [storeValue, setNode, hn]

@[simp] theorem fullyLinked_storeValue (value : V) :
    ((h.storeValue p value).node n).fullyLinked = (h.node n).fullyLinked := by
  by_cases hn : n = p <;> simp [storeValue, setNode, hn]

@[simp] theorem allocated_storeValue (value : V) :
    (h.storeValue p value).allocated = h.allocated := rfl

/-- A new node changes no other. -/
theorem node_create_of_ne (node : Node K V) (hn : n ≠ p) :
    (h.create p node).node n = h.node n := by
  simp [create, setNode, hn]

@[simp] theorem node_create_self (node : Node K V) : (h.create p node).node p = node := by
  simp [create, setNode]

@[simp] theorem allocated_create (node : Node K V) :
    (h.create p node).allocated n = true ↔ n = p ∨ h.allocated n = true := by
  by_cases hn : n = p <;> simp [create, hn]

/-! ## The lists -/

/-- The pointers of a level. -/
def load (h : Heap K V) (level : Nat) (p : NodeId) : Option (Option NodeId) :=
  some (h.loadForward p level)

/-- The nodes of a level in their order, without the head. -/
def Lists (h : Heap K V) (level : Nat) (cells : List NodeId) : Prop :=
  PtrPath (h.load level) head cells

instance (level : Nat) (cells : List NodeId) : Decidable (h.Lists level cells) :=
  PtrPath.decidable _ _ _

/-- The node can be reached from the head at this level. -/
def Listed (h : Heap K V) (level : Nat) (n : NodeId) : Prop :=
  ∃ cells, h.Lists level cells ∧ n ∈ head :: cells

/-- The node is listed at this level, or its removal has begun. -/
def Published (h : Heap K V) (level : Nat) (n : NodeId) : Prop :=
  h.Listed level n ∨ (h.node n).marked = true

/-- The node is in the list, fully linked and not marked. -/
structure Alive (h : Heap K V) (n : NodeId) : Prop where
  listed : h.Listed 0 n
  ne_head : n ≠ head
  fullyLinked : (h.node n).fullyLinked = true
  unmarked : (h.node n).marked = false

/-- The key is in the list with this value. -/
def Present (h : Heap K V) (key : K) (value : V) : Prop :=
  ∃ n, h.Alive n ∧ (h.node n).key = key ∧ (h.node n).value = value

/-- The nodes of a level are those of its list. -/
theorem Lists.listed_iff {cells : List NodeId} (hlists : h.Lists level cells) :
    h.Listed level n ↔ n ∈ head :: cells := by
  constructor
  · rintro ⟨cells', hlists', hn⟩
    exact hlists.unique hlists' ▸ hn
  · exact fun hn => ⟨cells, hlists, hn⟩

/-- The node behind a listed one is listed. -/
theorem Listed.next (hp : h.Listed level p) (hload : h.loadForward p level = some q) :
    h.Listed level q := by
  obtain ⟨cells, hlists, hmem⟩ := hp
  exact ⟨cells, hlists,
    List.mem_cons_of_mem head (hlists.mem_of_load hmem (congrArg some hload))⟩

/-- A published node that is not marked is listed. -/
theorem Published.listed (hn : h.Published level n) (hmarked : (h.node n).marked = false) :
    h.Listed level n :=
  hn.resolve_right (by simp [hmarked])

/-- The lists of a level depend only on the pointers of that level. -/
theorem lists_congr (hload : ∀ n, h'.loadForward n level = h.loadForward n level)
    (cells : List NodeId) : h'.Lists level cells ↔ h.Lists level cells := by
  have heq : h'.load level = h.load level := funext fun n => congrArg some (hload n)
  rw [Lists, Lists, heq]

/-- What is listed on a level depends only on the pointers of that level. -/
theorem listed_congr (hload : ∀ n, h'.loadForward n level = h.loadForward n level)
    (n : NodeId) : h'.Listed level n ↔ h.Listed level n := by
  simp only [Listed, lists_congr hload]

/-- A list whose own pointers are kept is kept. -/
theorem Lists.of_load {cells : List NodeId} (hlists : h.Lists level cells)
    (hload : ∀ n, h.Listed level n → h'.loadForward n level = h.loadForward n level) :
    h'.Lists level cells :=
  PtrPath.congr hlists fun n hn => congrArg some (hload n ⟨cells, hlists, hn⟩)

/-! ## Steps -/

/-- What one step of a thread may do to the heap. The thread has locked the nodes `mine`,
    and `own` is the node that it has created and not yet fully linked. -/
structure Moves (mine : NodeId → Prop) (own : Option NodeId) (h h' : Heap K V) : Prop where
  allocated : ∀ {n}, h.allocated n = true → h'.allocated n = true
  key : ∀ {n}, h.allocated n = true → (h'.node n).key = (h.node n).key
  topLevel : ∀ {n}, h.allocated n = true → (h'.node n).topLevel = (h.node n).topLevel
  marked : ∀ {n}, h.allocated n = true → (h.node n).marked = true → (h'.node n).marked = true
  marks : ∀ {n}, h.allocated n = true → (h'.node n).marked = true →
    (h.node n).marked = true ∨ mine n ∧ (h.node n).fullyLinked = true
  fullyLinked : ∀ {n}, h.allocated n = true → (h.node n).fullyLinked = true →
    (h'.node n).fullyLinked = true
  fullyLinks : ∀ {n}, h.allocated n = true → (h'.node n).fullyLinked = true →
    (h.node n).fullyLinked = true ∨ own = some n
  listed : ∀ {level n}, h.Listed level n →
    h'.Listed level n ∨ mine n ∧ (h.node n).marked = true
  links : ∀ {level n}, h'.Listed level n →
    h.Listed level n ∨ own = some n ∧ ¬ h.Published level n
  stores : ∀ {n} level, h.allocated n = true →
    h'.loadForward n level = h.loadForward n level ∨
      (h.node n).marked = false ∧
        (mine n ∧ h.Listed level n ∨ own = some n ∧ ¬ h.Published level n)

/-- The list of level 0 gains the nodes `linked` and loses the nodes `unlinked`. -/
def Relists (linked unlinked : List NodeId) (h h' : Heap K V) : Prop :=
  ∀ cells, h.Lists 0 cells → ∃ cells', h'.Lists 0 cells' ∧
    (cells' ++ unlinked).Perm (cells ++ linked)

/-- A published node stays published: it is listed, or marked for ever. -/
theorem Moves.published {mine : NodeId → Prop} {own : Option NodeId}
    (hmoves : Moves mine own h h') (halloc : h.allocated n = true)
    (hn : h.Published level n) : h'.Published level n := by
  rcases hn with hlisted | hmarked
  · exact (hmoves.listed hlisted).imp_right fun hn => hmoves.marked halloc hn.2
  · exact .inr (hmoves.marked halloc hmarked)

/-- A node that another thread has locked is not marked by a step. -/
theorem Moves.unmarked {mine : NodeId → Prop} {own : Option NodeId}
    (hmoves : Moves mine own h h')
    (halloc : h.allocated n = true) (hn : ¬ mine n) (hmarked : (h.node n).marked = false) :
    (h'.node n).marked = false := by
  by_contra hmarked'
  rcases hmoves.marks halloc (by simpa using hmarked') with hm | ⟨hm, -⟩
  · exact absurd hm (by simp [hmarked])
  · exact hn hm

/-- The pointers of a marked node do not change any more. -/
theorem Moves.frozen {mine : NodeId → Prop} {own : Option NodeId}
    (hmoves : Moves mine own h h')
    (halloc : h.allocated n = true) (hmarked : (h.node n).marked = true) (level : Nat) :
    h'.loadForward n level = h.loadForward n level := by
  rcases hmoves.stores level halloc with heq | ⟨hm, -⟩
  · exact heq
  · exact absurd hmarked (by simp [hm])

/-! ## Sound heaps -/

variable [LinearOrder K]

/-- The node comes before the key. The head comes before every key. -/
def Before (h : Heap K V) (n : NodeId) (key : K) : Prop :=
  n = head ∨ (h.node n).key < key

/-- Where a pointer of the node `n` may lead to. -/
structure Leads (h : Heap K V) (n : NodeId) (level : Nat) (m : NodeId) : Prop where
  height : n = head ∨ level ≤ (h.node n).topLevel
  allocated : h.allocated m = true
  ne_head : m ≠ head
  before : h.Before n (h.node m).key
  topLevel : level ≤ (h.node m).topLevel
  published : h.Published level m

/-- The lists of all levels end and are nested, and every pointer leads to a published
    node with a larger key. -/
structure Sound (h : Heap K V) : Prop where
  head : h.allocated head = true
  lists : ∀ level, ∃ cells, h.Lists level cells
  leads : ∀ {n level m}, h.allocated n = true → h.loadForward n level = some m →
    h.Leads n level m
  nested : ∀ {level n}, h.Listed (level + 1) n → h.Listed level n

namespace Sound

variable {cells : List NodeId}

theorem listed_head (hsound : h.Sound) (level : Nat) : h.Listed level SkipList.head := by
  obtain ⟨cells, hlists⟩ := hsound.lists level
  exact ⟨cells, hlists, List.mem_cons_self⟩

/-- A listed node is listed at every lower level. -/
theorem listed_of_le (hsound : h.Sound) (hlevel : level' ≤ level) (hn : h.Listed level n) :
    h.Listed level' n := by
  induction hlevel with
  | refl => exact hn
  | step _ ih => exact ih (hsound.nested hn)

/-- Only allocated nodes are listed. -/
theorem allocated (hsound : h.Sound) (hn : h.Listed level n) : h.allocated n = true := by
  obtain ⟨cells, hlists, hmem⟩ := hn
  refine hlists.invariant (P := fun n => h.allocated n = true) hsound.head
    (fun q r hq hload => ?_) n hmem
  exact (hsound.leads hq (Option.some.inj hload)).allocated

/-- A node is listed only at its own levels. -/
theorem le_topLevel (hsound : h.Sound) (hn : h.Listed level n) (hne : n ≠ SkipList.head) :
    level ≤ (h.node n).topLevel := by
  obtain ⟨cells, hlists, hmem⟩ := hn
  have htop := hlists.invariant
    (P := fun n => h.allocated n = true ∧ (n ≠ SkipList.head → level ≤ (h.node n).topLevel))
    ⟨hsound.head, fun h => absurd rfl h⟩ fun q r hq hload => by
      have hleads := hsound.leads hq.1 (Option.some.inj hload)
      exact ⟨hleads.allocated, fun _ => hleads.topLevel⟩
  exact (htop n hmem).2 hne

theorem height_of_listed (hsound : h.Sound) (hn : h.Listed level n) :
    n = SkipList.head ∨ level ≤ (h.node n).topLevel :=
  or_iff_not_imp_left.mpr (hsound.le_topLevel hn)

/-- A list is strictly ascending. -/
theorem pairwise (hsound : h.Sound) (hlists : h.Lists level cells) :
    (SkipList.head :: cells).Pairwise fun n m =>
      m ≠ SkipList.head ∧ h.Before n (h.node m).key := by
  refine PtrPath.pairwise hlists ?_ fun q hq r hload => ?_
  · rintro a b c ⟨hb, hab⟩ ⟨hc, hbc⟩
    have hlt := hbc.resolve_left hb
    exact ⟨hc, hab.imp_right (·.trans hlt)⟩
  · have hleads := hsound.leads (hsound.allocated ⟨cells, hlists, hq⟩) (Option.some.inj hload)
    exact ⟨hleads.ne_head, hleads.before⟩

/-- No node is twice in a list. -/
theorem nodup (hsound : h.Sound) (hlists : h.Lists level cells) :
    (SkipList.head :: cells).Nodup := by
  refine (hsound.pairwise hlists).imp ?_
  rintro n _ ⟨hne, hbefore⟩ rfl
  exact lt_irrefl _ (hbefore.resolve_left hne)

/-- Listed nodes with equal keys are equal. -/
theorem eq_of_key (hsound : h.Sound) (hn : h.Listed level n) (hm : h.Listed level m)
    (hn' : n ≠ SkipList.head) (hm' : m ≠ SkipList.head)
    (hkey : (h.node n).key = (h.node m).key) : n = m := by
  obtain ⟨cells, hlists⟩ := hsound.lists level
  rw [hlists.listed_iff] at hn hm
  -- of two different nodes of the list, the key of the first is smaller
  have hlt := (hsound.pairwise hlists).imp fun {a b} hab (ha : a ≠ SkipList.head) =>
    hab.2.resolve_left ha
  refine List.Pairwise.forall_of_forall_of_flip
    (R := fun a b => a ≠ SkipList.head → b ≠ SkipList.head →
      (h.node a).key = (h.node b).key → a = b)
    (fun a _ _ _ _ => rfl) (hlt.imp ?_) (hlt.imp ?_) hn hm hn' hm' hkey
  · exact fun hab ha _ heq => absurd heq (ne_of_lt (hab ha))
  · exact fun hab _ ha heq => absurd heq.symm (ne_of_lt (hab ha))

/-- The pointer of a node does not lead past a larger key of the list. -/
theorem exists_next (hsound : h.Sound) (hn : h.Listed level n)
    (hm : h.Listed level m) (hne : m ≠ SkipList.head) (hbefore : h.Before n (h.node m).key) :
    ∃ q, h.loadForward n level = some q ∧ (q = m ∨ (h.node q).key < (h.node m).key) := by
  obtain ⟨cells, hlists⟩ := hsound.lists level
  rw [hlists.listed_iff] at hn hm
  have hasymm : ∀ {a b}, (b ≠ SkipList.head ∧ h.Before a (h.node b).key) →
      ¬ (a ≠ SkipList.head ∧ h.Before b (h.node a).key) := fun hab hba =>
    lt_asymm (hab.2.resolve_left hba.1) (hba.2.resolve_left hab.1)
  obtain ⟨q, hload, hq⟩ :=
    PtrPath.exists_next hlists (hsound.pairwise hlists) hasymm hn hm ⟨hne, hbefore⟩
  have hmem := PtrPath.mem_of_load hlists hn hload
  have hq' : q ≠ SkipList.head := fun heq =>
    (List.nodup_cons.mp (hsound.nodup hlists)).1 (heq ▸ hmem)
  exact ⟨q, Option.some.inj hload, hq.imp_right fun h => h.2.resolve_left hq'⟩

end Sound

/-- A step that leaves the heap sound. -/
structure Effect (mine : NodeId → Prop) (own : Option NodeId) (linked unlinked : List NodeId)
    (h h' : Heap K V) : Prop where
  sound : h'.Sound
  moves : Moves mine own h h'
  relists : Relists linked unlinked h h'

section

variable {mine : NodeId → Prop} {own : Option NodeId} {cells : List NodeId}

/-- A step changes no key. -/
theorem Before.move (hmoves : Moves mine own h h') (halloc : h.allocated n = true) {key : K}
    (hn : h.Before n key) : h'.Before n key :=
  hn.imp_right fun hlt => by rwa [hmoves.key halloc]

/-- Where a pointer may lead to, it may lead to after a step. -/
theorem Leads.move (hmoves : Moves mine own h h') (halloc : h.allocated n = true)
    (hleads : h.Leads n level m) : h'.Leads n level m where
  height := by
    rw [hmoves.topLevel halloc]
    exact hleads.height
  allocated := hmoves.allocated hleads.allocated
  ne_head := hleads.ne_head
  before := by
    rw [hmoves.key hleads.allocated]
    exact hleads.before.move hmoves halloc
  topLevel := by
    rw [hmoves.topLevel hleads.allocated]
    exact hleads.topLevel
  published := hmoves.published hleads.allocated hleads.published

/-- A level whose list keeps its pointers. -/
theorem Sound.listed_iff (hsound : h.Sound)
    (hload : ∀ n, h.Listed level n → h'.loadForward n level = h.loadForward n level) :
    h'.Listed level n ↔ h.Listed level n := by
  obtain ⟨cells, hlists⟩ := hsound.lists level
  rw [hlists.listed_iff, (hlists.of_load hload).listed_iff]

/-- What is left to show for a step that keeps all lists. -/
theorem Sound.effect_of_load (hsound : h.Sound)
    (hload : ∀ n level, h.Listed level n → h'.loadForward n level = h.loadForward n level)
    (hmoves : Moves mine own h h')
    (hleads : ∀ {n level m}, h'.allocated n = true → h'.loadForward n level = some m →
      h.allocated n = true ∧ h.Leads n level m ∨ h'.Leads n level m) :
    Effect mine own [] [] h h' where
  sound :=
    { head := hmoves.allocated hsound.head
      lists := fun level =>
        (hsound.lists level).imp fun cells hlists => hlists.of_load (hload · level)
      leads := fun hn hm => by
        -- a pointer leads where it did, or to a node that stands behind as well
        rcases hleads hn hm with ⟨halloc, hleads⟩ | hleads
        · exact hleads.move hmoves halloc
        · exact hleads
      nested := fun {level n} hn => by
        rw [hsound.listed_iff (hload · level)]
        rw [hsound.listed_iff (hload · (level + 1))] at hn
        exact hsound.nested hn }
  moves := hmoves
  relists := fun cells hlists => ⟨cells, hlists.of_load (hload · 0), .refl _⟩

/-! ## The stores of the source -/

/-- Nothing is changed. -/
theorem Sound.effect_refl (hsound : h.Sound) : Effect mine own [] [] h h :=
  hsound.effect_of_load (fun _ _ _ => rfl)
    { allocated := id
      key := fun _ => rfl
      topLevel := fun _ => rfl
      marked := fun _ => id
      marks := fun _ => .inl
      fullyLinked := fun _ => id
      fullyLinks := fun _ => .inl
      listed := .inl
      links := .inl
      stores := fun _ _ => .inl rfl }
    fun halloc hm => .inl ⟨halloc, hsound.leads halloc hm⟩

/-- The store of a value concerns no pointer. -/
theorem Sound.storeValue (hsound : h.Sound) (p : NodeId) (value : V) :
    Effect mine own [] [] h (h.storeValue p value) :=
  hsound.effect_of_load (by simp)
    { allocated := id
      key := by simp
      topLevel := by simp
      marked := by simp
      marks := fun _ hn => .inl (by simpa using hn)
      fullyLinked := by simp
      fullyLinks := fun _ hn => .inl (by simpa using hn)
      listed := fun hn => .inl ((listed_congr (by simp) _).mpr hn)
      links := fun hn => .inl ((listed_congr (by simp) _).mp hn)
      stores := fun _ _ => .inl (by simp) }
    fun halloc hm => .inl ⟨halloc, hsound.leads halloc (by simpa using hm)⟩

/-- The store of `marked`, by the thread that has locked the node. -/
theorem Sound.storeMarked (hsound : h.Sound) (hmine : mine p)
    (hfully : (h.node p).fullyLinked = true) : Effect mine own [] [] h (h.storeMarked p) :=
  hsound.effect_of_load (by simp)
    { allocated := id
      key := by simp
      topLevel := by simp
      marked := fun _ hn => by simp [hn]
      marks := fun _ hn => by
        rcases marked_storeMarked.mp hn with rfl | hn
        · exact .inr ⟨hmine, hfully⟩
        · exact .inl hn
      fullyLinked := by simp
      fullyLinks := fun _ hn => .inl (by simpa using hn)
      listed := fun hn => .inl ((listed_congr (by simp) _).mpr hn)
      links := fun hn => .inl ((listed_congr (by simp) _).mp hn)
      stores := fun _ _ => .inl (by simp) }
    fun halloc hm => .inl ⟨halloc, hsound.leads halloc (by simpa using hm)⟩

/-- The store of `fully_linked`, by the thread that has created the node. -/
theorem Sound.storeFullyLinked (hsound : h.Sound) (p : NodeId) :
    Effect mine (some p) [] [] h (h.storeFullyLinked p) :=
  hsound.effect_of_load (by simp)
    { allocated := id
      key := by simp
      topLevel := by simp
      marked := by simp
      marks := fun _ hn => .inl (by simpa using hn)
      fullyLinked := fun _ hn => by simp [hn]
      fullyLinks := fun _ hn => by
        rcases fullyLinked_storeFullyLinked.mp hn with rfl | hn
        · exact .inr rfl
        · exact .inl hn
      listed := fun hn => .inl ((listed_congr (by simp) _).mpr hn)
      links := fun hn => .inl ((listed_congr (by simp) _).mp hn)
      stores := fun _ _ => .inl (by simp) }
    fun halloc hm => .inl ⟨halloc, hsound.leads halloc (by simpa using hm)⟩

/-- A new node, whose pointers are null. -/
theorem Sound.create (hsound : h.Sound) (hfree : h.allocated p = false) {node : Node K V}
    (hforward : ∀ level, node.forward level = none) :
    Effect mine own [] [] h (h.create p node) := by
  -- a list holds allocated nodes only, so it does not see the new one
  have hne : ∀ {n}, h.allocated n = true → n ≠ p := by
    rintro n hn rfl
    exact absurd hn (by simp [hfree])
  have hnode : ∀ {n}, h.allocated n = true → (h.create p node).node n = h.node n :=
    fun hn => node_create_of_ne node (hne hn)
  have hload : ∀ {n} level, h.allocated n = true →
      (h.create p node).loadForward n level = h.loadForward n level := by
    intro n level hn
    rw [loadForward, hnode hn]
    rfl
  have hkeep : ∀ n level, h.Listed level n →
      (h.create p node).loadForward n level = h.loadForward n level :=
    fun n level hn => hload level (hsound.allocated hn)
  refine hsound.effect_of_load hkeep ?_ fun {n level m} halloc hm => .inl ?_
  · exact
      { allocated := fun hn => allocated_create node |>.mpr (.inr hn)
        key := fun hn => by rw [hnode hn]
        topLevel := fun hn => by rw [hnode hn]
        marked := fun hn hmarked => by rwa [hnode hn]
        marks := fun hn hmarked => .inl (by rwa [hnode hn] at hmarked)
        fullyLinked := fun hn hfully => by rwa [hnode hn]
        fullyLinks := fun hn hfully => .inl (by rwa [hnode hn] at hfully)
        listed := fun hn => .inl ((hsound.listed_iff (hkeep · _)).mpr hn)
        links := fun hn => .inl ((hsound.listed_iff (hkeep · _)).mp hn)
        stores := fun level hn => .inl (hload level hn) }
  · rcases (allocated_create node).mp halloc with rfl | halloc
    · -- the pointers of the new node are null
      simp [loadForward, hforward] at hm
    · exact ⟨halloc, hsound.leads halloc (hload level halloc ▸ hm)⟩

/-- A pointer that no list contains. -/
theorem Sound.listed_initForward (hsound : h.Sound) (hnew : ¬ h.Published level new)
    (target : Option NodeId) :
    (h.storeForward new level target).Listed level' n ↔ h.Listed level' n := by
  refine hsound.listed_iff fun n hn => ?_
  rw [loadForward_storeForward, if_neg]
  rintro ⟨rfl, rfl⟩
  exact hnew (.inl hn)

/-- A pointer of a node that nobody else can reach at that level. -/
theorem Sound.initForward (hsound : h.Sound) (hnew : ¬ h.Published level new)
    (halloc : h.allocated new = true) {target : Option NodeId}
    (htarget : ∀ m, target = some m → h.Leads new level m) :
    Effect mine (some new) [] [] h (h.storeForward new level target) := by
  have hmarked : (h.node new).marked = false := by
    by_contra hmarked
    exact hnew (.inr (by simpa using hmarked))
  -- the node is not listed at the level, so the lists do not see the store
  have hkeep : ∀ n level', h.Listed level' n →
      (h.storeForward new level target).loadForward n level' = h.loadForward n level' := by
    intro n level' hn
    rw [loadForward_storeForward, if_neg]
    rintro ⟨rfl, rfl⟩
    exact hnew (.inl hn)
  have hmoves : Moves mine (some new) h (h.storeForward new level target) :=
    { allocated := id
      key := by simp
      topLevel := by simp
      marked := by simp
      marks := fun _ hn => .inl (by simpa using hn)
      fullyLinked := by simp
      fullyLinks := fun _ hn => .inl (by simpa using hn)
      listed := fun hn => .inl ((hsound.listed_initForward hnew target).mpr hn)
      links := fun hn => .inl ((hsound.listed_initForward hnew target).mp hn)
      stores := fun {n} level' _ => by
        rw [loadForward_storeForward]
        split
        · -- the pointer that is stored is the only one that changes
          rename_i heq
          obtain ⟨rfl, rfl⟩ := heq
          exact .inr ⟨hmarked, .inr ⟨rfl, hnew⟩⟩
        · exact .inl rfl }
  refine hsound.effect_of_load hkeep hmoves fun {n level' m} hn hm => ?_
  rw [loadForward_storeForward] at hm
  split at hm
  · rename_i heq
    obtain ⟨rfl, rfl⟩ := heq
    exact .inr ((htarget m hm).move hmoves halloc)
  · exact .inl ⟨hn, hsound.leads hn hm⟩

/-- A new node behind a listed one. -/
theorem Lists.link {cells : List NodeId} (hsound : h.Sound) (hlists : h.Lists level cells)
    (hp : h.Listed level p) (hnew : ¬ h.Listed level new)
    (hload : h.loadForward new level = h.loadForward p level) :
    ∃ front rest, cells = front ++ rest ∧
      (h.storeForward p level (some new)).Lists level (front ++ new :: rest) := by
  obtain ⟨front, rest, rfl, hlast⟩ := PtrPath.exists_front (hlists.listed_iff.mp hp)
  have hne : new ≠ p := fun heq => hnew (heq ▸ hp)
  have hnext : h.loadForward p level = rest.head? :=
    Option.some.inj (hlast ▸ PtrPath.load_getLastD hlists)
  refine ⟨front, rest, rfl, PtrPath.insert hlists (hsound.nodup hlists) ?_ ?_ fun q hq hq' => ?_⟩
  · simp [load, hne, hload, hnext]
  · rw [hlast]
    simp [load]
  · rw [hlast] at hq'
    simp [load, hq']

/-- A node behind a listed one is passed over. -/
theorem Lists.unlink {cells : List NodeId} (hsound : h.Sound) (hlists : h.Lists level cells)
    (hp : h.Listed level p) (hvictim : h.loadForward p level = some victim) :
    ∃ front rest, cells = front ++ victim :: rest ∧
      (h.storeForward p level (h.loadForward victim level)).Lists level (front ++ rest) := by
  obtain ⟨front, rest, rfl, hlast⟩ := PtrPath.exists_front (hlists.listed_iff.mp hp)
  have hnext : h.loadForward p level = rest.head? :=
    Option.some.inj (hlast ▸ PtrPath.load_getLastD hlists)
  obtain ⟨rest, rfl⟩ : ∃ rest', rest = victim :: rest' := by
    cases rest with
    | nil => exact absurd (hvictim.symm.trans hnext) (by simp)
    | cons q rest =>
      have hq : victim = q := by simpa using hvictim.symm.trans hnext
      exact ⟨rest, by rw [hq]⟩
  -- what the victim points to is what stands behind it in the list
  have hbehind : h.loadForward victim level = rest.head? := by
    have hsuffix : PtrPath (h.load level) ((front ++ [victim]).getLastD head) rest :=
      PtrPath.suffix (by rw [List.append_assoc]; exact hlists)
    rw [List.getLastD_eq_getLast?, List.getLast?_concat] at hsuffix
    exact Option.some.inj hsuffix.load_eq
  refine ⟨front, rest, rfl, PtrPath.remove hlists (hsound.nodup hlists) ?_ fun q hq hq' => ?_⟩
  · rw [hlast]
    simp [load, hbehind]
  · rw [hlast] at hq'
    simp [load, hq']

/-- What is listed when a new node is linked at a level. -/
theorem Sound.listed_link (hsound : h.Sound) (hp : h.Listed level p)
    (hnew : ¬ h.Listed level new) (hload : h.loadForward new level = h.loadForward p level) :
    (h.storeForward p level (some new)).Listed level' n ↔
      h.Listed level' n ∨ level' = level ∧ n = new := by
  by_cases hlevel : level' = level
  · subst hlevel
    obtain ⟨cells, hlists⟩ := hsound.lists level'
    obtain ⟨front, rest, rfl, hlists'⟩ := hlists.link hsound hp hnew hload
    rw [hlists'.listed_iff, hlists.listed_iff]
    simp only [List.mem_cons, List.mem_append]
    tauto
  · rw [listed_congr (h := h) fun n => by simp [hlevel]]
    tauto

/-- What is listed when a node is unlinked at a level. -/
theorem Sound.listed_unlink (hsound : h.Sound) (hp : h.Listed level p)
    (hvictim : h.loadForward p level = some victim) :
    (h.storeForward p level (h.loadForward victim level)).Listed level' n ↔
      h.Listed level' n ∧ ¬ (level' = level ∧ n = victim) := by
  by_cases hlevel : level' = level
  · subst hlevel
    have hleads := hsound.leads (hsound.allocated hp) hvictim
    obtain ⟨cells, hlists⟩ := hsound.lists level'
    have hnodup := hsound.nodup hlists
    obtain ⟨front, rest, rfl, hlists'⟩ := hlists.unlink hsound hp hvictim
    -- the victim is nowhere else in the list
    have hperm : (SkipList.head :: (front ++ victim :: rest)).Perm
        (victim :: (SkipList.head :: (front ++ rest))) :=
      @List.perm_middle _ victim (SkipList.head :: front) rest
    have hnot : victim ∉ SkipList.head :: (front ++ rest) :=
      (List.nodup_cons.mp (hperm.nodup_iff.mp hnodup)).1
    rw [hlists'.listed_iff, hlists.listed_iff]
    constructor
    · refine fun hn => ⟨?_, fun heq => hnot (heq.2 ▸ hn)⟩
      simp only [List.mem_cons, List.mem_append] at hn ⊢
      tauto
    · rintro ⟨hn, hne⟩
      simp only [List.mem_cons, List.mem_append, true_and] at hn hne ⊢
      tauto
  · -- the other levels keep their pointers
    rw [listed_congr (h := h) fun n => by simp [hlevel]]
    tauto

/-- `Put`: the store that links a new node at a level. -/
theorem Sound.link (hsound : h.Sound) (hmine : mine p) (hp : h.Listed level p)
    (hmarked : (h.node p).marked = false) (hnew : ¬ h.Published level new)
    (halloc : h.allocated new = true) (hhead : new ≠ SkipList.head)
    (hbefore : h.Before p (h.node new).key) (htop : level ≤ (h.node new).topLevel)
    (hload : h.loadForward new level = h.loadForward p level)
    (hbelow : ∀ l, level = l + 1 → h.Listed l new) :
    Effect mine (some new) (if level = 0 then [new] else []) [] h
      (h.storeForward p level (some new)) := by
  have hnew' : ¬ h.Listed level new := fun hn => hnew (.inl hn)
  have hlisted : ∀ {level' n}, (h.storeForward p level (some new)).Listed level' n ↔
      h.Listed level' n ∨ level' = level ∧ n = new :=
    hsound.listed_link hp hnew' hload
  have hmoves : Moves mine (some new) h (h.storeForward p level (some new)) :=
    { allocated := id
      key := by simp
      topLevel := by simp
      marked := by simp
      marks := fun _ hn => .inl (by simpa using hn)
      fullyLinked := by simp
      fullyLinks := fun _ hn => .inl (by simpa using hn)
      listed := fun hn => .inl (hlisted.mpr (.inl hn))
      links := fun hn => by
        rcases hlisted.mp hn with hn | ⟨rfl, rfl⟩
        · exact .inl hn
        · exact .inr ⟨rfl, hnew⟩
      stores := fun {n} level' _ => by
        rw [loadForward_storeForward]
        split
        · rename_i heq
          obtain ⟨rfl, rfl⟩ := heq
          exact .inr ⟨hmarked, .inl ⟨hmine, hp⟩⟩
        · exact .inl rfl }
  refine ⟨⟨hsound.head, fun level' => ?_, fun {n level' m} hn hm => ?_, fun {level' n} hn => ?_⟩,
    hmoves, fun cells hlists => ?_⟩
  · obtain ⟨cells, hlists⟩ := hsound.lists level'
    by_cases hlevel : level' = level
    · subst hlevel
      obtain ⟨front, rest, -, hlists'⟩ := hlists.link hsound hp hnew' hload
      exact ⟨_, hlists'⟩
    · exact ⟨cells, (lists_congr (fun n => by simp [hlevel]) cells).mpr hlists⟩
  · rw [loadForward_storeForward] at hm
    split at hm
    · rename_i heq
      obtain ⟨rfl, rfl⟩ := heq
      cases hm
      exact
        { height := by simpa using hsound.height_of_listed hp
          allocated := halloc
          ne_head := hhead
          before := by simpa [Before] using hbefore
          topLevel := by simpa using htop
          published := .inl (hlisted.mpr (.inr ⟨rfl, rfl⟩)) }
    · exact (hsound.leads hn hm).move hmoves hn
  · -- the level below lists the new node already
    rcases hlisted.mp hn with hn | ⟨rfl, rfl⟩
    · exact hlisted.mpr (.inl (hsound.nested hn))
    · exact hlisted.mpr (.inl (hbelow level' rfl))
  · -- only the link at level 0 adds to the list that counts
    by_cases hlevel : level = 0
    · subst hlevel
      obtain ⟨front, rest, rfl, hlists'⟩ := hlists.link hsound hp hnew' hload
      refine ⟨_, hlists', ?_⟩
      rw [if_pos rfl, List.append_nil]
      exact List.perm_middle.trans (List.perm_append_singleton new _).symm
    · refine ⟨cells, (lists_congr (fun n => by simp [Ne.symm hlevel]) cells).mpr hlists, ?_⟩
      rw [if_neg hlevel]

/-- `Delete`: the store that unlinks its victim at a level. -/
theorem Sound.unlink (hsound : h.Sound) (hmine : mine p) (hmine' : mine victim)
    (hp : h.Listed level p) (hmarked : (h.node p).marked = false)
    (hvictim : h.loadForward p level = some victim)
    (hremoved : (h.node victim).marked = true) (habove : ¬ h.Listed (level + 1) victim) :
    Effect mine own [] (if level = 0 then [victim] else []) h
      (h.storeForward p level (h.loadForward victim level)) := by
  have hp' := hsound.allocated hp
  have hleads := hsound.leads hp' hvictim
  have hlisted : ∀ {level' n},
      (h.storeForward p level (h.loadForward victim level)).Listed level' n ↔
        h.Listed level' n ∧ ¬ (level' = level ∧ n = victim) :=
    hsound.listed_unlink hp hvictim
  have hmoves : Moves mine own h (h.storeForward p level (h.loadForward victim level)) :=
    { allocated := id
      key := by simp
      topLevel := by simp
      marked := by simp
      marks := fun _ hn => .inl (by simpa using hn)
      fullyLinked := by simp
      fullyLinks := fun _ hn => .inl (by simpa using hn)
      listed := fun {level' n} hn => by
        -- the victim is marked, and locked with its predecessor
        by_cases heq : level' = level ∧ n = victim
        · exact .inr ⟨heq.2 ▸ hmine', heq.2 ▸ hremoved⟩
        · exact .inl (hlisted.mpr ⟨hn, heq⟩)
      links := fun hn => .inl (hlisted.mp hn).1
      stores := fun {n} level' _ => by
        rw [loadForward_storeForward]
        split
        · rename_i heq
          obtain ⟨rfl, rfl⟩ := heq
          exact .inr ⟨hmarked, .inl ⟨hmine, hp⟩⟩
        · exact .inl rfl }
  refine ⟨⟨hsound.head, fun level' => ?_, fun {n level' m} hn hm => ?_, fun {level' n} hn => ?_⟩,
    hmoves, fun cells hlists => ?_⟩
  · obtain ⟨cells, hlists⟩ := hsound.lists level'
    by_cases hlevel : level' = level
    · subst hlevel
      obtain ⟨front, rest, -, hlists'⟩ := hlists.unlink hsound hp hvictim
      exact ⟨_, hlists'⟩
    · exact ⟨cells, (lists_congr (fun n => by simp [hlevel]) cells).mpr hlists⟩
  · rw [loadForward_storeForward] at hm
    split at hm
    · rename_i heq
      obtain ⟨rfl, rfl⟩ := heq
      -- past the victim, to a node with a larger key than its
      have hbehind := hsound.leads hleads.allocated hm
      have hlt := hbehind.before.resolve_left hleads.ne_head
      have hnext : h.Leads n level' m :=
        { hbehind with
          height := hleads.height
          before := hleads.before.imp_right (·.trans hlt) }
      exact hnext.move hmoves hp'
    · exact (hsound.leads hn hm).move hmoves hn
  · have hn' := (hlisted.mp hn).1
    refine hlisted.mpr ⟨hsound.nested hn', ?_⟩
    rintro ⟨rfl, rfl⟩
    exact habove hn'
  · -- only the unlinking at level 0 takes from the list that counts
    by_cases hlevel : level = 0
    · subst hlevel
      obtain ⟨front, rest, rfl, hlists'⟩ := hlists.unlink hsound hp hvictim
      refine ⟨_, hlists', ?_⟩
      rw [if_pos rfl, List.append_nil]
      exact (List.perm_append_singleton victim _).trans List.perm_middle.symm
    · refine ⟨cells, (lists_congr (fun n => by simp [Ne.symm hlevel]) cells).mpr hlists, ?_⟩
      rw [if_neg hlevel]

end

end Heap

end ConcurrentSkipList

end KvStore
