import KvStore.Spec.ConcurrentCover

/-!
# Get and Scan beside writers

A call of `Get` or `Scan` visits nodes that were in the list at some moment of the call
(`Seen`). These nodes keep two properties while other threads link and unlink nodes: their
pointers lead to such nodes again, and on level 0 they do not lead past a key that has been
in the list all the time (`Searchable`). An assertion for every point of the call
(`Local.Reads`) says from there what has been collected so far.
-/

namespace KvStore

namespace ConcurrentSkipList

open SkipList (head keysEqual keysEqual_eq)
open Heap

variable {K V T : Type}

namespace Heap

variable [LinearOrder K] {h h' : Heap K V} {mine : NodeId → Prop} {own : Option NodeId}

/-- A node stays in the list for as long as its key is in the list all the time. -/
theorem Alive.move (hmoves : Moves mine own h h') (hsound : h.Sound) (hsound' : h'.Sound)
    {n : NodeId} (hn : h.Alive n) {value : V} (hpresent : h'.Present (h.node n).key value) :
    h'.Alive n := by
  obtain ⟨m, hm, hkey, -⟩ := hpresent
  have hlisted : h'.Listed 0 n := (hmoves.listed hn.listed).resolve_right fun hmarked =>
    absurd hmarked.2 (by simp [hn.unmarked])
  have hnkey := hmoves.key (hsound.allocated hn.listed)
  exact hsound'.eq_of_key hm.listed hlisted hm.ne_head hn.ne_head (hkey.trans hnkey.symm) ▸ hm

end Heap

/-! ## The nodes that a call may visit -/

/-- The node was in the list in one of the states. -/
def Seen (states : List (State K V T)) (n : NodeId) : Prop :=
  ∃ s ∈ states, s.shared.heap.Listed 0 n

/-- The key was in the list in all of the states. -/
def Stable (states : List (State K V T)) (key : K) : Prop :=
  ∀ s ∈ states, ∃ value, s.shared.heap.Present key value

/-- A node that has been in the list in one of the states is so in more of them. -/
theorem Seen.append {states : List (State K V T)} {n : NodeId} (hn : Seen states n)
    (s : State K V T) : Seen (states ++ [s]) n := by
  obtain ⟨u, hu, hlisted⟩ := hn
  exact ⟨u, List.mem_append_left _ hu, hlisted⟩

/-- A key that is in the list in all of the states is so in fewer of them. -/
theorem Stable.of_append {states : List (State K V T)} {key : K} {s : State K V T}
    (hkey : Stable (states ++ [s]) key) : Stable states key :=
  fun u hu => hkey u (List.mem_append_left _ hu)

variable [LinearOrder K]

/-- What the pointers of the nodes have in common that a call may visit. -/
structure Searchable (states : List (State K V T)) (h : Heap K V) : Prop where
  published : ∀ n, Seen states n → h.allocated n = true ∧ h.Published 0 n
  closed : ∀ n level q, Seen states n → h.loadForward n level = some q → Seen states q
  next : ∀ n key, Seen states n → Stable states key → h.Before n key →
    ∃ q, h.loadForward n 0 = some q ∧
      ((h.node q).key < key ∨ (h.node q).key = key ∧ h.Alive q)

section

variable {s s' : State K V T} {states : List (State K V T)} {label : T × Choice K V}

/-- A node of the list, in a state in which the key is in the list. -/
private theorem exists_next_of_present (hsound : s.shared.heap.Sound) {n : NodeId} {key : K}
    (hn : s.shared.heap.Listed 0 n) (hbefore : s.shared.heap.Before n key) {value : V}
    (hpresent : s.shared.heap.Present key value) :
    ∃ q, s.shared.heap.loadForward n 0 = some q ∧
      ((s.shared.heap.node q).key < key ∨
        (s.shared.heap.node q).key = key ∧ s.shared.heap.Alive q) := by
  obtain ⟨m, hm, rfl, -⟩ := hpresent
  obtain ⟨q, hload, rfl | hlt⟩ := hsound.exists_next hn hm.listed hm.ne_head hbefore
  · exact ⟨q, hload, .inr ⟨rfl, hm⟩⟩
  · exact ⟨q, hload, .inl hlt⟩

/-- When a call begins, it can search the list as it is. -/
theorem searchable_start (houtline : outline.Holds s.shared s.thread) (hcovered : s.Covered) :
    Searchable [s] s.shared.heap := by
  have hsound : s.shared.heap.Sound := houtline.inv
  have hseen : ∀ {n}, Seen [s] n → s.shared.heap.Listed 0 n := by
    rintro n ⟨u, hu, hlisted⟩
    exact List.mem_singleton.mp hu ▸ hlisted
  exact
    { published := fun n hn => ⟨hsound.allocated (hseen hn), .inl (hseen hn)⟩
      closed := fun n level q hn hload => by
        have hlisted := State.listed_of_load hcovered houtline (hseen hn) hload
        exact ⟨s, List.mem_singleton_self s, hsound.listed_of_le (Nat.zero_le level) hlisted⟩
      next := fun n key hn hkey hbefore => by
        obtain ⟨value, hpresent⟩ := hkey s (List.mem_singleton_self s)
        exact exists_next_of_present hsound (hseen hn) hbefore hpresent }

/-- A step of any thread. -/
theorem Searchable.step {mine : NodeId → Prop} {own : Option NodeId}
    (hsearch : Searchable states s.shared.heap)
    (hmoves : Moves mine own s.shared.heap s'.shared.heap) (hsound : s.shared.heap.Sound)
    (houtline : outline.Holds s'.shared s'.thread) (hcovered : s'.Covered) :
    Searchable (states ++ [s']) s'.shared.heap := by
  have hsound' : s'.shared.heap.Sound := houtline.inv
  -- a node of an earlier state is still in the list, or its pointers do not change any more
  have hseen : ∀ {n}, Seen (states ++ [s']) n → s'.shared.heap.Listed 0 n ∨
      Seen states n ∧ s.shared.heap.allocated n = true ∧
        (s.shared.heap.node n).marked = true := by
    rintro n ⟨u, hu, hlisted⟩
    rcases List.mem_append.mp hu with hu | hu
    · obtain ⟨halloc, hlisted' | hmarked⟩ := hsearch.published n ⟨u, hu, hlisted⟩
      · exact (hmoves.listed hlisted').imp_right fun hm => ⟨⟨u, hu, hlisted⟩, halloc, hm.2⟩
      · exact .inr ⟨⟨u, hu, hlisted⟩, halloc, hmarked⟩
    · exact .inl (List.mem_singleton.mp hu ▸ hlisted)
  refine
    { published := fun n hn => ?_
      closed := fun n level q hn hload => ?_
      next := fun n key hn hkey hbefore => ?_ }
  · rcases hseen hn with hlisted | ⟨-, halloc, hmarked⟩
    · exact ⟨hsound'.allocated hlisted, .inl hlisted⟩
    · exact ⟨hmoves.allocated halloc, .inr (hmoves.marked halloc hmarked)⟩
  · -- a pointer leads to a node of the list of now, or of the state in which it was stored
    rcases hseen hn with hlisted | ⟨hold, halloc, hmarked⟩
    · have hq := State.listed_of_load hcovered houtline hlisted hload
      exact ⟨s', List.mem_append_right _ (List.mem_singleton_self s'),
        hsound'.listed_of_le (Nat.zero_le level) hq⟩
    · rw [hmoves.frozen halloc hmarked] at hload
      exact (hsearch.closed n level q hold hload).append s'
  · -- a key that is there all the time cannot be passed: the pointers of an unlinked node lead
    -- back
    obtain ⟨value, hpresent⟩ := hkey s' (List.mem_append_right _ (List.mem_singleton_self s'))
    rcases hseen hn with hlisted | ⟨hold, halloc, hmarked⟩
    · exact exists_next_of_present hsound' hlisted hbefore hpresent
    · have hbefore' : s.shared.heap.Before n key :=
        hbefore.imp_right fun hlt => hmoves.key halloc ▸ hlt
      obtain ⟨q, hload, hq⟩ := hsearch.next n key hold hkey.of_append hbefore'
      have hqalloc := (hsound.leads halloc hload).allocated
      refine ⟨q, (hmoves.frozen halloc hmarked 0).trans hload, ?_⟩
      rw [hmoves.key hqalloc]
      refine hq.imp_right fun ⟨hqkey, halive⟩ => ⟨hqkey, ?_⟩
      exact halive.move hmoves hsound hsound' (hqkey ▸ hpresent)

end

/-! ## The assertions of a call -/

/-- The node that the thread is about to load behind its search, if the key is smaller than
    the one it has searched for. -/
def State.candidateBehind (s : State K V T) (t : T) : Option NodeId :=
  match s.thread t with
  | .read reader (.candidate p) => s.shared.heap.passes reader.key (s.shared.heap.loadForward p 0)
  | _ => none

/-- A step in which the thread `t` does not load, behind its search, a smaller key than the
    one it has searched for. -/
def State.LoadsAhead (t : T) (s : State K V T) (label : T × Choice K V) : Prop :=
  label.1 = t → s.candidateBehind t = none

instance [DecidableEq T] (t : T) (s : State K V T) (label : T × Choice K V) :
    Decidable (s.LoadsAhead t label) :=
  inferInstanceAs (Decidable (label.1 = t → s.candidateBehind t = none))

/-- What is known of the pairs that `Scan` has collected. -/
structure Collected (ahead : Prop) (states : List (State K V T)) (start stop : K)
    (result : List (K × V)) : Prop where
  sorted : (result.map Prod.fst).Pairwise (· < ·)
  present : ∀ pair ∈ result, ∃ s ∈ states, s.shared.heap.Present pair.1 pair.2
  le_stop : ∀ pair ∈ result, pair.1 ≤ stop
  start_le : ahead → ∀ pair ∈ result, start ≤ pair.1

/-- What is known of an answer. -/
def Answered (ahead : Prop) (states : List (State K V T)) : Call K V → Answer K V → Prop
  | .get key, .get (some value) => ∃ s ∈ states, s.shared.heap.Present key value
  | .get key, .get none => ahead → ¬ Stable states key
  | .scan start stop, .scan result =>
    Collected ahead states start stop result ∧
      ∀ key, Stable states key → start ≤ key → key ≤ stop → key ∈ result.map Prod.fst
  | _, _ => True

namespace Reader

/-- Nothing has been collected yet. -/
def Fresh : Reader K V → Prop
  | get _ => True
  | scan _ _ result => result = []

/-- The call looks at a node. -/
def Visits (ahead : Prop) (states : List (State K V T)) (h : Heap K V) (n : NodeId) :
    Reader K V → Prop
  | get key => Seen states n ∧ n ≠ head ∧ (h.node n).key = key ∧ (Stable states key → h.Alive n)
  | scan start stop result =>
    Seen states n ∧ n ≠ head ∧ (h.node n).key ≤ stop ∧
      (ahead → start ≤ (h.node n).key) ∧
      Collected ahead states start stop result ∧ (∀ pair ∈ result, pair.1 < (h.node n).key) ∧
      ∀ key, Stable states key → start ≤ key → key ≤ stop →
        key ∈ result.map Prod.fst ∨ (h.node n).key < key ∨ (h.node n).key = key ∧ h.Alive n

/-- The call is done with a node. -/
def Passed (ahead : Prop) (states : List (State K V T)) (h : Heap K V) (n : NodeId) :
    Reader K V → Prop
  | get _ => False
  | scan start stop result =>
    Seen states n ∧ n ≠ head ∧
      (ahead → start ≤ (h.node n).key) ∧
      Collected ahead states start stop result ∧ (∀ pair ∈ result, pair.1 ≤ (h.node n).key) ∧
      ∀ key, Stable states key → start ≤ key → key ≤ stop →
        key ∈ result.map Prod.fst ∨ (h.node n).key < key

end Reader

/-- What is known at a point of `Get` and `Scan`. -/
def ReadStep.Asserts (ahead : Prop) (states : List (State K V T)) (h : Heap K V)
    (reader : Reader K V) : ReadStep → Prop
  | loadLevel => reader.Fresh
  | walk _ p | candidate p => reader.Fresh ∧ Seen states p ∧ h.Before p reader.key
  | marked n | fullyLinked n | lock n | markedLocked n => reader.Visits ahead states h n
  | fullyLinkedLocked n => reader.Visits ahead states h n ∧ (h.node n).marked = false
  | value n =>
    reader.Visits ahead states h n ∧ (h.node n).marked = false ∧ (h.node n).fullyLinked = true
  | next n => reader.Passed ahead states h n

def Next.Asserts (ahead : Prop) (states : List (State K V T)) (h : Heap K V) : Next K V → Prop
  | retry _ => False
  | done call answer => Answered ahead states call answer
  | resume reader n => reader.Passed ahead states h n

/-- What is known while a thread is in a call of `Get` or `Scan`. -/
def Local.Reads (ahead : Prop) (states : List (State K V T)) (h : Heap K V) : Local K V → Prop
  | read reader step => step.Asserts ahead states h reader
  | unlock _ next => next.Asserts ahead states h
  | returning call answer => Answered ahead states call answer
  | _ => False

/-! ## Steps -/

section

variable {ahead : Prop} {t : T} {states : List (State K V T)} {s : State K V T} {h h' : Heap K V}
  {mine : NodeId → Prop} {own : Option NodeId} {reader : Reader K V} {n : NodeId}

/-- What has been collected is right for more states. -/
theorem Collected.append {start stop : K} {result : List (K × V)}
    (hresult : Collected ahead states start stop result) :
    Collected ahead (states ++ [s]) start stop result where
  sorted := hresult.sorted
  present pair hpair := by
    obtain ⟨u, hu, hpresent⟩ := hresult.present pair hpair
    exact ⟨u, List.mem_append_left _ hu, hpresent⟩
  le_stop := hresult.le_stop
  start_le := hresult.start_le

/-- An answer that is right is right for more states. -/
theorem Answered.append {call : Call K V} {answer : Answer K V}
    (hanswer : Answered ahead states call answer) : Answered ahead (states ++ [s]) call answer := by
  cases call with
  | get key =>
    cases answer with
    | get value =>
      cases value with
      | none =>
        exact fun hahead hkey => hanswer hahead hkey.of_append
      | some value =>
        obtain ⟨u, hu, hpresent⟩ := hanswer
        exact ⟨u, List.mem_append_left _ hu, hpresent⟩
    | _ => trivial
  | scan start stop =>
    cases answer with
    | scan result => exact ⟨hanswer.1.append, fun key hkey => hanswer.2 key hkey.of_append⟩
    | _ => trivial
  | _ => trivial

/-- The node of a stable key. -/
private theorem alive_move (hmoves : Moves mine own h s.shared.heap) (hsound : h.Sound)
    (hsound' : s.shared.heap.Sound) {key : K} (hstable : Stable (states ++ [s]) key)
    (hkey : (h.node n).key = key) (hn : h.Alive n) : s.shared.heap.Alive n := by
  obtain ⟨value, hpresent⟩ := hstable s (List.mem_append_right _ (List.mem_singleton_self s))
  exact hn.move hmoves hsound hsound' (hkey ▸ hpresent)

/-- A step of another thread leaves the assertions true. -/
theorem Reader.Visits.move (hmoves : Moves mine own h s.shared.heap) (hsound : h.Sound)
    (hsound' : s.shared.heap.Sound) (halloc : h.allocated n = true)
    (hn : reader.Visits ahead states h n) :
    reader.Visits ahead (states ++ [s]) s.shared.heap n := by
  have hnkey := hmoves.key halloc
  -- a node that is visited keeps its key, and is seen in the new state too
  cases reader with
  | get key =>
    obtain ⟨hseen, hne, hkey, halive⟩ := hn
    exact ⟨hseen.append s, hne, hnkey.trans hkey, fun hstable =>
      alive_move hmoves hsound hsound' hstable hkey (halive hstable.of_append)⟩
  | scan start stop result =>
    obtain ⟨hseen, hne, hstop, hstart, hresult, hlt, hkeys⟩ := hn
    unfold Reader.Visits
    rw [hnkey]
    refine ⟨hseen.append s, hne, hstop, hstart,
      hresult.append, hlt, fun key hstable hlo hhi => ?_⟩
    rcases hkeys key hstable.of_append hlo hhi with hmem | hbefore | ⟨hkey, halive⟩
    · exact .inl hmem
    · exact .inr (.inl hbefore)
    · exact .inr (.inr ⟨hkey, alive_move hmoves hsound hsound' hstable hkey halive⟩)

/-- A step of another thread leaves a node passed that has been passed. -/
theorem Reader.Passed.move (hmoves : Moves mine own h s.shared.heap)
    (halloc : h.allocated n = true) (hn : reader.Passed ahead states h n) :
    reader.Passed ahead (states ++ [s]) s.shared.heap n := by
  cases reader with
  | get key => exact hn.elim
  | scan start stop result =>
    obtain ⟨hseen, hne, hstart, hresult, hle, hkeys⟩ := hn
    unfold Reader.Passed
    rw [hmoves.key halloc]
    exact ⟨hseen.append s, hne, hstart,
      hresult.append, hle, fun key hstable => hkeys key hstable.of_append⟩

theorem Reader.Visits.seen (hn : reader.Visits ahead states h n) : Seen states n := by
  cases reader <;> exact hn.1

theorem Reader.Passed.seen (hn : reader.Passed ahead states h n) : Seen states n := by
  cases reader with
  | get key => exact hn.elim
  | scan start stop result => exact hn.1

/-- A step of another thread leaves true what is known of a search. -/
theorem Local.Reads.move (hmoves : Moves mine own h s.shared.heap) (hsound : h.Sound)
    (hsound' : s.shared.heap.Sound) (hsearch : Searchable states h) {l : Local K V}
    (hmine : ∀ n ∈ l.held, ¬ mine n) (hl : l.Reads ahead states h) :
    l.Reads ahead (states ++ [s]) s.shared.heap := by
  have hvisits : ∀ {reader : Reader K V} {n}, reader.Visits ahead states h n →
      reader.Visits ahead (states ++ [s]) s.shared.heap n := fun hn =>
    hn.move hmoves hsound hsound' (hsearch.published _ hn.seen).1
  have hpassed : ∀ {reader : Reader K V} {n}, reader.Passed ahead states h n →
      reader.Passed ahead (states ++ [s]) s.shared.heap n := fun hn =>
    hn.move hmoves (hsearch.published _ hn.seen).1
  -- a node that is locked is not marked by another thread
  have hunmarked : ∀ {reader : Reader K V} {n}, reader.Visits ahead states h n → ¬ mine n →
      (h.node n).marked = false → (s.shared.heap.node n).marked = false := fun hn =>
    hmoves.unmarked (hsearch.published _ hn.seen).1
  cases l with
  | read reader step =>
    cases step with
    | loadLevel => exact hl
    | walk level p | candidate p =>
      obtain ⟨hfresh, hseen, hbefore⟩ := hl
      exact ⟨hfresh, hseen.append s, hbefore.move hmoves (hsearch.published p hseen).1⟩
    | marked n | fullyLinked n | lock n | markedLocked n => exact hvisits hl
    | fullyLinkedLocked n =>
      obtain ⟨hn, hm⟩ := hl
      exact ⟨hvisits hn, hunmarked hn (hmine n (List.mem_singleton_self n)) hm⟩
    | value n =>
      -- what has been seen under the lock stays as it is
      obtain ⟨hn, hm, hfully⟩ := hl
      exact ⟨hvisits hn, hunmarked hn (hmine n (List.mem_singleton_self n)) hm,
        hmoves.fullyLinked (hsearch.published n hn.seen).1 hfully⟩
    | next n => exact hpassed hl
  | unlock held next =>
    cases next with
    | retry update => exact hl
    | done call answer => exact Answered.append hl
    | resume reader n => exact hpassed hl
  | returning call answer => exact Answered.append hl
  | _ => exact hl

/-! ## The steps of the call -/

/-- What `Scan` does with the node that it has loaded. -/
theorem reads_visit_scan {start stop : K} {result : List (K × V)} {current : Option NodeId}
    (hcurrent : ∀ q, current = some q → Seen states q ∧ q ≠ head)
    (hstart : ahead → ∀ q, current = some q → start ≤ (h.node q).key)
    (hresult : Collected ahead states start stop result)
    (hlt : ∀ pair ∈ result, ∀ q, current = some q → pair.1 < (h.node q).key)
    (hkeys : ∀ key, Stable states key → start ≤ key → key ≤ stop →
      key ∈ result.map Prod.fst ∨ ∃ q, current = some q ∧
        ((h.node q).key < key ∨ (h.node q).key = key ∧ h.Alive q)) :
    ((Reader.scan start stop result).visit h current).Reads ahead states h := by
  cases current with
  | none =>
    -- the end of the list: nothing is behind
    refine ⟨hresult, fun key hstable hlo hhi => (hkeys key hstable hlo hhi).resolve_right ?_⟩
    rintro ⟨q, heq, -⟩
    cases heq
  | some q =>
    unfold Reader.visit
    dsimp only
    split
    · -- the node is behind the end
      rename_i hbehind
      refine ⟨hresult, fun key hstable hlo hhi => (hkeys key hstable hlo hhi).resolve_right ?_⟩
      rintro ⟨q', heq, hq⟩
      cases heq
      exact absurd (hbehind.trans_le (hq.elim le_of_lt fun hq => hq.1.le)) (not_lt.mpr hhi)
    · rename_i hstop
      obtain ⟨hseen, hne⟩ := hcurrent q rfl
      refine ⟨hseen, hne, not_lt.mp hstop, fun hahead => hstart hahead q rfl, hresult,
        fun pair hpair => hlt pair hpair q rfl, fun key hstable hlo hhi => ?_⟩
      refine (hkeys key hstable hlo hhi).imp_right ?_
      rintro ⟨q', heq, hq⟩
      cases heq
      exact hq

/-- The node behind the search. -/
theorem reads_candidate (hsearch : Searchable states s.shared.heap)
    (hsound : s.shared.heap.Sound) (hs : ahead → s.candidateBehind t = none) {p : NodeId}
    (hpc : s.thread t = .read reader (.candidate p)) (hfresh : reader.Fresh)
    (hp : Seen states p) (hbefore : s.shared.heap.Before p reader.key) :
    (reader.visit s.shared.heap (s.shared.heap.loadForward p 0)).Reads ahead states
      s.shared.heap := by
  have halloc := (hsearch.published p hp).1
  -- the second load has found no smaller key than the first
  have hahead : ahead → ∀ q, s.shared.heap.loadForward p 0 = some q →
      reader.key ≤ (s.shared.heap.node q).key :=
    fun hahead q hq => by
      have hbehind := hs hahead
      rw [State.candidateBehind, hpc] at hbehind
      exact not_lt.mp (passes_eq_none.mp hbehind q hq)
  cases reader with
  | get key =>
    -- the search for a key that is there does not stop behind it
    have hnone : (∀ q, s.shared.heap.loadForward p 0 = some q →
        (s.shared.heap.node q).key ≠ key) →
        Answered ahead states (.get key : Call K V) (.get none) := by
      intro hne hall hstable
      obtain ⟨q, hq, hlt | ⟨heq, -⟩⟩ := hsearch.next p key hp hstable hbefore
      · exact absurd hlt (not_lt.mpr (hahead hall q hq))
      · exact hne q hq heq
    cases hload : s.shared.heap.loadForward p 0 with
    | none => exact hnone fun q hq => by simp [hload] at hq
    | some q =>
      unfold Reader.visit
      dsimp only
      split
      · rename_i hkey
        have hkey : (s.shared.heap.node q).key = key := by simpa using hkey
        refine ⟨hsearch.closed p 0 q hp hload, (hsound.leads halloc hload).ne_head, hkey,
          fun hstable => ?_⟩
        -- the node is the one in which the key is
        obtain ⟨q', hq', hlt | ⟨-, halive⟩⟩ := hsearch.next p key hp hstable hbefore
        · cases hload.symm.trans hq'
          exact absurd hlt (by simp [hkey])
        · cases hload.symm.trans hq'
          exact halive
      · rename_i hkey
        refine hnone fun q' hq' heq => hkey ?_
        cases hload.symm.trans hq'
        simpa [keysEqual_eq] using heq
  | scan start stop result =>
    -- `Scan` begins to collect
    obtain rfl : result = [] := hfresh
    refine reads_visit_scan (fun q hq => ?_) (fun hall q hq => hahead hall q hq) ?_
      (fun pair hpair => by cases hpair) fun key hstable hlo hhi => .inr ?_
    · exact ⟨hsearch.closed p 0 q hp hq, (hsound.leads halloc hq).ne_head⟩
    · exact ⟨List.Pairwise.nil, by simp, by simp, by simp⟩
    · exact hsearch.next p key hp hstable (hbefore.imp_right fun hlt => hlt.trans_le hlo)

/-- The node behind one that `Scan` is done with. -/
theorem reads_next (hsearch : Searchable states h) (hsound : h.Sound)
    (hn : reader.Passed ahead states h n) :
    (reader.visit h (h.loadForward n 0)).Reads ahead states h := by
  cases reader with
  | get key => exact hn.elim
  | scan start stop result =>
    obtain ⟨hseen, hne, hstart, hresult, hle, hkeys⟩ := hn
    have hleads : ∀ {q}, h.loadForward n 0 = some q → h.Leads n 0 q :=
      hsound.leads (hsearch.published n hseen).1
    have hlt : ∀ {q}, h.loadForward n 0 = some q → (h.node n).key < (h.node q).key :=
      fun hq => (hleads hq).before.resolve_left hne
    refine reads_visit_scan (fun q hq => ?_) (fun hall q hq => ?_) hresult
      (fun pair hpair q hq => ?_) fun key hstable hlo hhi => ?_
    · exact ⟨hsearch.closed n 0 q hseen hq, (hleads hq).ne_head⟩
    · exact (hstart hall).trans (hlt hq).le
    · exact (hle pair hpair).trans_lt (hlt hq)
    · exact (hkeys key hstable hlo hhi).imp_right fun hbefore =>
        hsearch.next n key hseen hstable (.inr hbefore)

/-- A node that is marked, or not fully linked, is passed over. -/
theorem Reader.Visits.skip (hn : reader.Visits ahead states h n) (hdead : ¬ h.Alive n) :
    (reader.skip n).Asserts ahead states h := by
  cases reader with
  | get key => exact fun _ hstable => hdead (hn.2.2.2 hstable)
  | scan start stop result =>
    obtain ⟨hseen, hne, -, hstart, hresult, hlt, hkeys⟩ := hn
    refine ⟨hseen, hne, hstart, hresult, fun pair hpair => (hlt pair hpair).le,
      fun key hstable hlo hhi => ?_⟩
    rcases hkeys key hstable hlo hhi with hmem | hbefore | ⟨-, halive⟩
    · exact .inl hmem
    · exact .inr hbefore
    · exact absurd halive hdead

/-- The value of a node that is in the list is taken. -/
theorem Reader.Visits.accept (hn : reader.Visits ahead states s.shared.heap n) (hs : s ∈ states)
    (halive : s.shared.heap.Alive n) :
    (reader.accept s.shared.heap n).Asserts ahead states s.shared.heap := by
  -- the node is in the list in the state of now
  have hpresent : ∃ u ∈ states, u.shared.heap.Present (s.shared.heap.node n).key
      (s.shared.heap.node n).value := ⟨s, hs, n, halive, rfl, rfl⟩
  cases reader with
  | get key => exact hn.2.2.1 ▸ hpresent
  | scan start stop result =>
    obtain ⟨hseen, hne, hstop, hstart, hresult, hlt, hkeys⟩ := hn
    refine ⟨hseen, hne, hstart, ?_, fun pair hpair => ?_, fun key hstable hlo hhi => ?_⟩
    · exact
        { sorted := by
            rw [List.map_append, List.pairwise_append]
            refine ⟨hresult.sorted, List.pairwise_singleton _ _, fun a ha b hb => ?_⟩
            obtain ⟨pair, hpair, rfl⟩ := List.mem_map.mp ha
            rw [List.map_singleton, List.mem_singleton] at hb
            exact hb ▸ hlt pair hpair
          present := fun pair hpair => by
            rcases List.mem_append.mp hpair with hpair | hpair
            · exact hresult.present pair hpair
            · rw [List.mem_singleton.mp hpair]
              exact hpresent
          le_stop := fun pair hpair => by
            rcases List.mem_append.mp hpair with hpair | hpair
            · exact hresult.le_stop pair hpair
            · rw [List.mem_singleton.mp hpair]
              exact hstop
          start_le := fun hahead pair hpair => by
            rcases List.mem_append.mp hpair with hpair | hpair
            · exact hresult.start_le hahead pair hpair
            · rw [List.mem_singleton.mp hpair]
              exact hstart hahead }
    · rcases List.mem_append.mp hpair with hpair | hpair
      · exact (hlt pair hpair).le
      · rw [List.mem_singleton.mp hpair]
    · rw [List.map_append, List.mem_append]
      -- a key is collected, still ahead, or that of this node
      rcases hkeys key hstable hlo hhi with hmem | hbefore | ⟨hkey, -⟩
      · exact .inl (.inl hmem)
      · exact .inr hbefore
      · exact .inl (.inr (List.mem_singleton.mpr hkey.symm))

/-- What is known when a block is left is what is known behind it. -/
theorem Next.Asserts.start {next : Next K V} (hnext : next.Asserts ahead states h) :
    next.start.Reads ahead states h := by
  cases next <;> exact hnext

/-- A step of the call establishes the assertion of the point that it leads to. -/
theorem ReadStep.Asserts.step {step : ReadStep} {shared : Shared K V T} {l : Local K V}
    (hsearch : Searchable states s.shared.heap) (hsound : s.shared.heap.Sound) (hs : s ∈ states)
    (hahead : ahead → s.candidateBehind t = none) (hpc : s.thread t = .read reader step)
    (hl : step.Asserts ahead states s.shared.heap reader)
    (hstep : step.step s.shared t reader = some (shared, l)) :
    l.Reads ahead states s.shared.heap := by
  have hwalk : ∀ {p} level, reader.Fresh ∧ Seen states p ∧ s.shared.heap.Before p reader.key →
      (reader.walkFrom p level).Reads ahead states s.shared.heap := by
    intro p level hp
    cases level <;> exact hp
  -- a node that is in the list is neither marked nor only partly linked
  have hmarked : ∀ {n}, (s.shared.heap.node n).marked = true → ¬ s.shared.heap.Alive n :=
    fun hm halive => absurd hm (by simp [halive.unmarked])
  have hpartly : ∀ {n}, ¬ (s.shared.heap.node n).fullyLinked = true → ¬ s.shared.heap.Alive n :=
    fun hfully halive => hfully halive.fullyLinked
  cases step with
  | loadLevel =>
    cases hstep
    exact hwalk _ ⟨hl, ⟨s, hs, hsound.listed_head 0⟩, .inl rfl⟩
  | walk level p =>
    obtain ⟨hfresh, hp, hbefore⟩ := hl
    simp only [ReadStep.step] at hstep
    split at hstep <;> cases hstep
    · rename_i node hpasses
      obtain ⟨hload, hlt⟩ := passes_eq_some.mp hpasses
      exact ⟨hfresh, hsearch.closed p level node hp hload, .inr hlt⟩
    · exact hwalk _ ⟨hfresh, hp, hbefore⟩
  | candidate p =>
    cases hstep
    exact reads_candidate hsearch hsound hahead hpc hl.1 hl.2.1 hl.2.2
  | marked n =>
    simp only [ReadStep.step] at hstep
    split at hstep <;> cases hstep
    · rename_i hm
      exact (Reader.Visits.skip hl (hmarked hm)).start
    · exact hl
  | fullyLinked n =>
    simp only [ReadStep.step] at hstep
    split at hstep <;> cases hstep
    · exact hl
    · rename_i hfully
      exact (Reader.Visits.skip hl (hpartly hfully)).start
  | lock n =>
    simp only [ReadStep.step, Option.bind_eq_bind, Option.bind_eq_some_iff] at hstep
    obtain ⟨s₁, -, heq⟩ := hstep
    cases heq
    exact hl
  | markedLocked n =>
    simp only [ReadStep.step] at hstep
    split at hstep <;> cases hstep
    · rename_i hm
      exact Reader.Visits.skip hl (hmarked hm)
    · rename_i hm
      exact ⟨hl, by simpa using hm⟩
  | fullyLinkedLocked n =>
    simp only [ReadStep.step] at hstep
    split at hstep <;> cases hstep
    · rename_i hfully
      exact ⟨hl.1, hl.2, hfully⟩
    · rename_i hfully
      exact Reader.Visits.skip hl.1 (hpartly hfully)
  | value n =>
    cases hstep
    obtain ⟨hn, hm, hfully⟩ := hl
    -- it is locked, unmarked and fully linked: its pair is in the list now
    have hlisted := ((hsearch.published n hn.seen).2).listed hm
    have hne : n ≠ head := by
      cases reader <;> exact hn.2.1
    exact hn.accept hs ⟨hlisted, hne, hfully, hm⟩
  | next n =>
    cases hstep
    exact reads_next hsearch hsound hl

/-- A call of `Get` or `Scan` does not change the memory of the nodes. -/
theorem Local.Reads.step_heap {l l' : Local K V} {shared shared' : Shared K V T}
    {choice : Choice K V} (hl : l.Reads ahead states h)
    (hstep : l.step shared t choice = some (shared', l')) : shared'.heap = shared.heap := by
  cases l with
  | read reader step => exact ReadStep.step_heap hstep
  | unlock held next =>
    simp only [Local.step] at hstep
    split at hstep <;> cases hstep <;> rfl
  | returning call answer =>
    cases hstep
    rfl
  | _ => exact hl.elim

end

/-! ## Calls -/

namespace State

variable [DecidableEq T] {s₀ s₁ s s' : State K V T} {t : T} {label : T × Choice K V}
  {states : List (State K V T)} {call : Call K V} {answer : Answer K V} {maxLevel : Nat}
  {address : NodeId ↪ Nat}
  {ok : State K V T → T × Choice K V → Prop} {ahead : Prop}

/-- A call of the thread `t` from its first step in `s₀` up to the state in which it is about
    to return, with the states that it passes through. Other threads make any steps, and all
    steps meet the condition `ok`. -/
structure Performs (ok : State K V T → T × Choice K V → Prop) (s₀ : State K V T) (t : T)
    (call : Call K V) (states : List (State K V T)) (answer : Answer K V) : Prop where
  idle : s₀.thread t = .idle
  passes : ∃ s₁ s, Step s₀ (t, .call call) s₁ ∧ Passes Step ok s₁ states s ∧
    s.thread t = .returning call answer
  busy : ∀ s ∈ states, s.thread t ≠ .idle

/-- What is known all along a call. -/
structure Reading (ahead : Prop) (t : T) (states : List (State K V T)) (s : State K V T) :
    Prop where
  outline : outline.Holds s.shared s.thread
  covered : s.Covered
  mem : s ∈ states
  searchable : Searchable states s.shared.heap
  reads : (s.thread t).Reads ahead states s.shared.heap

/-- A step of any thread while the call goes on. -/
theorem Reading.step (hs : s.Reading ahead t states)
    (hahead : ahead → s.LoadsAhead t label) (hstep : Step s label s')
    (hbusy : s'.thread t ≠ .idle) : s'.Reading ahead t (states ++ [s']) := by
  have hsound : s.shared.heap.Sound := hs.outline.inv
  have houtline' := outline_step hs.outline hstep
  have hcovered' := hs.covered.step hs.outline hstep
  have hmem' : s' ∈ states ++ [s'] := List.mem_append_right _ (List.mem_singleton_self s')
  have hsound' : s'.shared.heap.Sound := houtline'.inv
  obtain ⟨shared, pc, hlocal, heq⟩ := step_iff.mp hstep
  obtain rfl : s'.shared = shared := by rw [heq]
  have hthread : s'.thread = Function.update s.thread label.1 pc := by rw [heq]
  obtain ⟨⟨-, hmoves, -⟩, -⟩ := (hs.outline.asserts label.1).outcome hsound hlocal
  refine ⟨houtline', hcovered', hmem',
    hs.searchable.step hmoves hsound houtline' hcovered', ?_⟩
  have hreads := hs.reads
  -- its own step, or that of another thread
  by_cases ht : label.1 = t
  · subst ht
    rw [hthread, Function.update_self] at hbusy ⊢
    -- the memory stays as it is, and no assertion is lost
    have hkept : s'.shared.heap = s.shared.heap → pc.Reads ahead states s.shared.heap →
        pc.Reads ahead (states ++ [s']) s'.shared.heap := by
      intro hheap hpc
      have hsame : Effect (fun _ => False) none [] [] s.shared.heap s'.shared.heap :=
        by rw [hheap]; exact hsound.effect_refl
      exact hpc.move hsame.moves hsound hsound' hs.searchable fun _ _ => id
    cases hpc : s.thread label.1 with
    | read reader step =>
      rw [hpc] at hreads hlocal
      refine hkept (ReadStep.step_heap hlocal) ?_
      exact ReadStep.Asserts.step hs.searchable hsound hs.mem (fun h => hahead h rfl) hpc hreads
        hlocal
    | unlock held next =>
      rw [hpc] at hreads hlocal
      simp only [Local.step] at hlocal
      split at hlocal
      · obtain ⟨hshared, rfl⟩ := Prod.mk.inj (Option.some.inj hlocal)
        exact hkept (by rw [← hshared]; rfl) hreads
      · obtain ⟨hshared, rfl⟩ := Prod.mk.inj (Option.some.inj hlocal)
        exact hkept (by rw [hshared]) (Next.Asserts.start hreads)
    | returning call answer =>
      rw [hpc] at hlocal
      obtain ⟨-, rfl⟩ := Prod.mk.inj (Option.some.inj hlocal)
      exact absurd rfl hbusy
    | _ =>
      rw [hpc] at hreads
      exact hreads.elim
  · rw [hthread, Function.update_of_ne (Ne.symm ht)]
    refine hreads.move hmoves hsound hsound' hs.searchable fun n hn hmine => ?_
    exact ht (Option.some.inj (hmine.symm.trans ((hs.outline.asserts t).holds n hn)))

/-- What is known of a call holds in every state that it passes through. -/
theorem reading_of_passes (hpasses : Passes Step ok s₁ states s)
    (hs₁ : s₁.Reading ahead t [s₁])
    (hahead : ahead → ∀ s label, ok s label → s.LoadsAhead t label)
    (hbusy : ∀ s ∈ states, s.thread t ≠ .idle) : s.Reading ahead t states := by
  induction hpasses with
  | refl => exact hs₁
  | tail label _ hok hstep ih =>
    have hs := ih fun s hs => hbusy s (List.mem_append_left _ hs)
    exact hs.step (fun h => hahead h _ label hok) hstep
      (hbusy _ (List.mem_append_right _ (List.mem_singleton_self _)))

/-- What is known when a call has begun. -/
theorem reading_start [Inhabited K] [Inhabited V]
    (hrun : Run Step (fun _ _ => True) (new maxLevel address) s₀) (hidle : s₀.thread t = .idle)
    (hfirst : Step s₀ (t, .call call) s₁)
    (hstart : ∀ s : State K V T, call.start.Reads ahead [s] s.shared.heap) :
    s₁.Reading ahead t [s₁] := by
  have hrun₁ : Run Step (fun _ _ => True) (new maxLevel address) s₁ := .tail _ hrun trivial hfirst
  exact
    { outline := outline_of_run hrun₁
      covered := covered_of_run hrun₁
      mem := List.mem_singleton_self s₁
      searchable := searchable_start (outline_of_run hrun₁) (covered_of_run hrun₁)
      reads := by
        obtain ⟨shared, pc, hlocal, rfl⟩ := step_iff.mp hfirst
        dsimp only at hlocal ⊢
        rw [hidle] at hlocal
        cases hlocal
        rw [Function.update_self]
        exact hstart _ }

/-- What is known of the answer of a call. -/
theorem Performs.answered [Inhabited K] [Inhabited V]
    (hrun : Run Step (fun _ _ => True) (new maxLevel address) s₀)
    (hcall : s₀.Performs ok t call states answer)
    (hahead : ahead → ∀ s label, ok s label → s.LoadsAhead t label)
    (hstart : ∀ s : State K V T, call.start.Reads ahead [s] s.shared.heap) :
    Answered ahead states call answer := by
  obtain ⟨s₁, s, hfirst, hpasses, hreturn⟩ := hcall.passes
  have hs₁ := reading_start hrun hcall.idle hfirst hstart
  -- the invariant holds in the last state of the call, where it speaks of the answer
  have hreads := (reading_of_passes hpasses hs₁ hahead hcall.busy).reads
  rw [hreturn] at hreads
  exact hreads

/-- The memory of the nodes stays as it is during a call of `Get` or `Scan` in which no other
    thread makes a step. -/
theorem Performs.heap_eq [Inhabited K] [Inhabited V]
    (hrun : Run Step (fun _ _ => True) (new maxLevel address) s₀)
    (hcall : s₀.Performs (fun _ label => label.1 = t) t call states answer)
    (hstart : ∀ s : State K V T, call.start.Reads False [s] s.shared.heap) :
    ∀ s ∈ states, s.shared.heap = s₀.shared.heap := by
  obtain ⟨s₁, s, hfirst, hpasses, -⟩ := hcall.passes
  have hs₁ := reading_start hrun hcall.idle hfirst hstart
  have hheap₁ : s₁.shared.heap = s₀.shared.heap := by
    obtain ⟨shared, pc, hlocal, rfl⟩ := step_iff.mp hfirst
    dsimp only at hlocal ⊢
    rw [hcall.idle] at hlocal
    cases hlocal
    rfl
  have hbusy := hcall.busy
  clear hcall
  -- by induction on the steps, all of which belong to the reader
  induction hpasses with
  | refl => simpa using hheap₁
  | @tail states s s' label hpasses hok hstep ih =>
    have hbusy' : ∀ s ∈ states, s.thread t ≠ .idle :=
      fun s hs => hbusy s (List.mem_append_left _ hs)
    have hs := reading_of_passes hpasses hs₁ False.elim hbusy'
    intro u hu
    rcases List.mem_append.mp hu with hu | hu
    · exact ih hbusy' u hu
    · rw [List.mem_singleton.mp hu, ← ih hbusy' s hs.mem]
      obtain ⟨shared, pc, hlocal, rfl⟩ := step_iff.mp hstep
      rw [hok] at hlocal
      exact hs.reads.step_heap hlocal

/-- Whatever other threads do, a `Get` returns only what the list has held under the key in one
    of the states of the call. -/
theorem get_returns_present [Inhabited K] [Inhabited V] {key : K} {found : V}
    (hrun : Run Step (fun _ _ => True) (new maxLevel address) s₀)
    (hget : s₀.Performs ok t (.get key) states (.get (some found))) :
    ∃ s ∈ states, s.shared.heap.Present key found := by
  have hanswer : Answered False states (.get key) (.get (some found)) :=
    hget.answered hrun False.elim fun _ => trivial
  exact hanswer

/-- A `Get` that loads its candidate when no smaller key has come before it in the meantime:
    if the key is in the list all the time, it is found, with a value that it had in one of
    the states, and if the key is in the list in none of the states, it is not found. -/
theorem get_linearizable [Inhabited K] [Inhabited V] {key : K} {value : Option V}
    (hrun : Run Step (fun _ _ => True) (new maxLevel address) s₀)
    (hget : s₀.Performs (LoadsAhead t) t (.get key) states
      (.get value)) :
    ((∀ s ∈ states, ∃ held, s.shared.heap.Present key held) →
      ∃ found, value = some found ∧ ∃ s ∈ states, s.shared.heap.Present key found) ∧
    ((∀ s ∈ states, ∀ held, ¬ s.shared.heap.Present key held) → value = none) := by
  cases value with
  | none =>
    have hanswer : Answered True states (.get key) (.get none) :=
      hget.answered hrun (fun _ _ _ hok => hok) fun _ => trivial
    exact ⟨fun hstable => absurd hstable (hanswer trivial), fun _ => rfl⟩
  | some found =>
    obtain ⟨s, hs, hpresent⟩ := get_returns_present hrun hget
    exact ⟨fun _ => ⟨found, rfl, s, hs, hpresent⟩, fun habsent =>
      absurd hpresent (habsent s hs found)⟩

/-- Whether a call of the thread `t` can go on with the steps `labels`, all of which meet the
    condition, returns `answer`, and has `p` in all its states. -/
def performs [DecidableEq V] (ok : State K V T → T × Choice K V → Prop)
    [∀ s label, Decidable (ok s label)] (s₀ : State K V T) (t : T) (labels : List (T × Choice K V))
    (call : Call K V) (answer : Answer K V) (p : State K V T → Bool) : Bool :=
  (s₀.thread t).isIdle &&
    Option.any (fun s₁ => Option.any
        (fun x => x.1.all (fun s => !(s.thread t).isIdle && p s) &&
          decide ((x.2.thread t).returns = [(call, answer)]))
        (labels.foldlM (fun x label =>
          if ok x.2 label then (x.2.step label.1 label.2).map fun u => (x.1 ++ [u], u)
          else none) ([s₁], s₁)))
      (s₀.step t (.call call))

/-- The states of a call that has been computed. -/
theorem exists_performs [DecidableEq V] [∀ s label, Decidable (ok s label)]
    {labels : List (T × Choice K V)} {p : State K V T → Bool}
    (h : performs ok s₀ t labels call answer p = true) :
    ∃ states, s₀.Performs ok t call states answer ∧ ∀ s ∈ states, p s = true := by
  obtain ⟨hidle, hs₀⟩ := Bool.and_eq_true_iff.mp h
  obtain ⟨s₁, hs₁, hlabels⟩ := (Option.any_eq_true _ _).mp hs₀
  obtain ⟨states, s, hpasses, hs⟩ := @Passes.exists_of_any _ _ ok
    (fun (s : State K V T) (label : T × Choice K V) => s.step label.1 label.2) _ _ _ _ hlabels
  obtain ⟨hall, hreturns⟩ := Bool.and_eq_true_iff.mp hs
  have hall := List.all_eq_true.mp hall
  refine ⟨states, ⟨?_, ⟨s₁, s, hs₁, hpasses, ?_⟩, fun u hu hu' => ?_⟩,
    fun u hu => (Bool.and_eq_true_iff.mp (hall u hu)).2⟩
  · revert hidle
    cases s₀.thread t <;> simp [Local.isIdle]
  · have hreturns := of_decide_eq_true hreturns
    revert hreturns
    cases s.thread t <;> simp [Local.returns]
  · have hbusy := (Bool.and_eq_true_iff.mp (hall u hu)).1
    rw [hu'] at hbusy
    cases hbusy

/-- The states of a call of the second thread that begins when the first one has made its
    steps. -/
private theorem exists_performs_behind {ok : State Nat Nat Bool → Bool × Choice Nat Nat → Prop}
    [∀ s label, Decidable (ok s label)] {before labels : List (Bool × Choice Nat Nat)}
    {call : Call Nat Nat} {answer : Answer Nat Nat} {p : State Nat Nat Bool → Bool}
    (h : Option.any (fun s₀ => performs ok s₀ false labels call answer p)
      (List.foldlM (fun s label => if True then s.step label.1 label.2 else none)
        (new 4 (.refl _)) before) = true) :
    ∃ s₀ states, Run Step (fun _ _ => True) (new 4 (.refl _)) s₀ ∧
      s₀.Performs ok false call states answer ∧ ∀ s ∈ states, p s = true := by
  obtain ⟨s₀, hrun, hs₀⟩ := Run.exists_of_any h
  obtain ⟨states, hcall, hstates⟩ := exists_performs hs₀
  exact ⟨s₀, states, hrun, hcall, hstates⟩

/-- The list holds 10 in the node 7, and perhaps another key in front of it. -/
private def holdsTen (h : Heap Nat Nat) : Bool :=
  decide ((h.Lists 0 [7] ∨ h.Lists 0 [8, 7]) ∧ (h.node 7).key = 10 ∧
    (h.node 7).fullyLinked = true ∧ (h.node 7).marked = false)

/-- The check that a computed state holds the key. -/
private theorem present_of_holdsTen {h : Heap Nat Nat} (hten : holdsTen h = true) :
    ∃ held, h.Present 10 held := by
  obtain ⟨hlists, hkey, hfully, hmarked⟩ := of_decide_eq_true hten
  have hlisted : h.Listed 0 7 :=
    hlists.elim (fun hlists => ⟨_, hlists, by simp⟩) fun hlists => ⟨_, hlists, by simp⟩
  exact ⟨(h.node 7).value, 7, ⟨hlisted, by decide, hfully, hmarked⟩, hkey, rfl⟩

/-- While a `Get` of 10 goes on, which has loaded its candidate, 5 is put in front of 10. -/
theorem get_linearizable_one :
    ∃ (s₀ : State Nat Nat Bool) (states : List (State Nat Nat Bool)),
      s₀.Performs (LoadsAhead false) false (.get 10) states (.get (some 1)) ∧
      ∃ found, some 1 = some found ∧ ∃ s ∈ states, s.shared.heap.Present 10 found := by
  have hcomputed : ∃ (s₀ : State Nat Nat Bool) (states : List (State Nat Nat Bool)),
      Run Step (fun _ _ => True) (new 4 (.refl _)) s₀ ∧
        s₀.Performs (LoadsAhead false) false (.get 10) states (.get (some 1)) ∧
        ∀ s ∈ states, holdsTen s.shared.heap = true :=
    @exists_performs_behind (LoadsAhead false) _ (putSteps true 10 1 7)
      (List.replicate 3 (false, .go) ++ putSteps true 5 2 8 ++ List.replicate 8 (false, .go)) _ _ _
      (by decide +kernel)
  obtain ⟨s₀, states, hrun, hget, hten⟩ := hcomputed
  exact ⟨s₀, states, hget,
    (get_linearizable hrun hget).1 fun s hs => present_of_holdsTen (hten s hs)⟩

/-- While a `Get` of 10 goes on, a smaller key is put in front of 10, which is in the list all
    the time, and the `Get` does not find it. -/
theorem get_misses_stable_key :
    ∃ (s₀ : State Nat Nat Bool) (states : List (State Nat Nat Bool)),
      Run Step (fun _ _ => True) (new 4 (.refl _)) s₀ ∧
      s₀.Performs (fun _ _ => True) false (.get 10) states (.get none) ∧
      ∀ s ∈ states, ∃ held, s.shared.heap.Present 10 held := by
  have hcomputed : ∃ (s₀ : State Nat Nat Bool) (states : List (State Nat Nat Bool)),
      Run Step (fun _ _ => True) (new 4 (.refl _)) s₀ ∧
        s₀.Performs (fun _ _ => True) false (.get 10) states (.get none) ∧
        ∀ s ∈ states, holdsTen s.shared.heap = true :=
    @exists_performs_behind (fun _ _ => True) _ (putSteps true 10 1 7)
      ([(false, .go), (false, .go)] ++ putSteps true 5 2 8 ++ [(false, .go)]) _ _ _
      (by decide +kernel)
  obtain ⟨s₀, states, hrun, hget, hten⟩ := hcomputed
  exact ⟨s₀, states, hrun, hget, fun s hs => present_of_holdsTen (hten s hs)⟩

omit [DecidableEq T] in
/-- The first point of `Scan`. -/
theorem reads_scan (start stop : K) (s : State K V T) :
    (Call.scan start stop).start.Reads ahead [s] s.shared.heap := by
  unfold Call.start
  dsimp only
  split
  · rename_i hlt
    refine ⟨⟨List.Pairwise.nil, by simp, by simp, by simp⟩, fun key _ hlo hhi => ?_⟩
    exact absurd hlt (not_lt.mpr (hlo.trans hhi))
  · exact (rfl : ([] : List (K × V)) = [])

/-- A `Scan` returns its keys in ascending order, with all keys of its range that are in the
    list all the time, and nothing that was in the list in none of the states. -/
theorem scan_linearizable [Inhabited K] [Inhabited V] {start stop : K} {result : List (K × V)}
    (hrun : Run Step (fun _ _ => True) (new maxLevel address) s₀)
    (hscan : s₀.Performs (fun _ _ => True) t (.scan start stop) states (.scan result)) :
    (result.map Prod.fst).Pairwise (· < ·) ∧
    (∀ key, start ≤ key → key ≤ stop →
      (∀ s ∈ states, ∃ held, s.shared.heap.Present key held) → key ∈ result.map Prod.fst) ∧
    ∀ pair ∈ result, ∃ s ∈ states, s.shared.heap.Present pair.1 pair.2 := by
  have hanswer : Answered False states (.scan start stop) (.scan result) :=
    hscan.answered hrun False.elim (reads_scan start stop)
  obtain ⟨hresult, hkeys⟩ := hanswer
  exact ⟨hresult.sorted, fun key hlo hhi hstable => hkeys key hstable hlo hhi, hresult.present⟩

/-- While a `Scan` from 3 to 20 looks at 10, 5 is put in front of 10, and is not returned. -/
theorem scan_linearizable_one :
    ∃ (s₀ : State Nat Nat Bool) (states : List (State Nat Nat Bool)),
      s₀.Performs (fun _ _ => True) false (.scan 3 20) states (.scan [(10, 1)]) ∧
      10 ∈ ([(10, 1)] : List (Nat × Nat)).map Prod.fst ∧
      ∀ pair ∈ [(10, 1)], ∃ s ∈ states, s.shared.heap.Present pair.1 pair.2 := by
  have hcomputed : ∃ (s₀ : State Nat Nat Bool) (states : List (State Nat Nat Bool)),
      Run Step (fun _ _ => True) (new 4 (.refl _)) s₀ ∧
        s₀.Performs (fun _ _ => True) false (.scan 3 20) states (.scan [(10, 1)]) ∧
        ∀ s ∈ states, holdsTen s.shared.heap = true :=
    @exists_performs_behind (fun _ _ => True) _ (putSteps true 10 1 7)
      (List.replicate 3 (false, .go) ++ putSteps true 5 2 8 ++ List.replicate 9 (false, .go)) _ _ _
      (by decide +kernel)
  obtain ⟨s₀, states, hrun, hscan, hten⟩ := hcomputed
  obtain ⟨-, hkeys, hpresent⟩ := scan_linearizable hrun hscan
  exact ⟨s₀, states, hscan,
    hkeys 10 (by decide) (by decide) fun s hs => present_of_holdsTen (hten s hs), hpresent⟩

/-- A `Scan` that loads its first node when no key below its range has come before that node
    in the meantime stays in its range. -/
theorem scan_in_range [Inhabited K] [Inhabited V] {start stop : K} {result : List (K × V)}
    (hrun : Run Step (fun _ _ => True) (new maxLevel address) s₀)
    (hscan : s₀.Performs (LoadsAhead t) t
      (.scan start stop) states (.scan result)) :
    ∀ pair ∈ result, start ≤ pair.1 ∧ pair.1 ≤ stop := by
  have hanswer : Answered True states (.scan start stop) (.scan result) :=
    hscan.answered hrun (fun _ _ _ hok => hok) (reads_scan start stop)
  obtain ⟨hresult, -⟩ := hanswer
  exact fun pair hpair => ⟨hresult.start_le trivial pair hpair, hresult.le_stop pair hpair⟩

/-- While a `Scan` from 7 to 20 looks at 10, 5 is put in front of 10. -/
theorem scan_in_range_one :
    ∃ (s₀ : State Nat Nat Bool) (states : List (State Nat Nat Bool)),
      s₀.Performs (LoadsAhead false) false (.scan 7 20) states (.scan [(10, 1)]) ∧
      ∀ pair ∈ [(10, 1)], 7 ≤ pair.1 ∧ pair.1 ≤ 20 := by
  have hcomputed : ∃ (s₀ : State Nat Nat Bool) (states : List (State Nat Nat Bool)),
      Run Step (fun _ _ => True) (new 4 (.refl _)) s₀ ∧
        s₀.Performs (LoadsAhead false) false (.scan 7 20) states (.scan [(10, 1)]) ∧
        ∀ s ∈ states, true = true :=
    @exists_performs_behind (LoadsAhead false) _ (putSteps true 10 1 7)
      (List.replicate 3 (false, .go) ++ putSteps true 5 2 8 ++ List.replicate 9 (false, .go)) _ _ _
      (by decide +kernel)
  obtain ⟨s₀, states, hrun, hscan, -⟩ := hcomputed
  exact ⟨s₀, states, hscan, scan_in_range hrun hscan⟩

/-- While a `Scan` from 7 to 20 goes on, the key 5 is put in front of 10, and the `Scan`
    returns it. -/
theorem scan_leaves_range :
    ∃ (s₀ : State Nat Nat Bool) (states : List (State Nat Nat Bool)),
      Run Step (fun _ _ => True) (new 4 (.refl _)) s₀ ∧
      s₀.Performs (fun _ _ => True) false (.scan 7 20) states (.scan [(5, 2), (10, 1)]) := by
  have hcomputed : ∃ (s₀ : State Nat Nat Bool) (states : List (State Nat Nat Bool)),
      Run Step (fun _ _ => True) (new 4 (.refl _)) s₀ ∧
        s₀.Performs (fun _ _ => True) false (.scan 7 20) states (.scan [(5, 2), (10, 1)]) ∧
        ∀ s ∈ states, true = true :=
    @exists_performs_behind (fun _ _ => True) _ (putSteps true 10 1 7)
      ([(false, .go), (false, .go)] ++ putSteps true 5 2 8 ++ List.replicate 19 (false, .go)) _ _ _
      (by decide +kernel)
  obtain ⟨s₀, states, hrun, hscan, -⟩ := hcomputed
  exact ⟨s₀, states, hrun, hscan⟩

end State

end ConcurrentSkipList

end KvStore
