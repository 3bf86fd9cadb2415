import Mathlib.Data.List.Basic
import Mathlib.Logic.Function.Basic

/-!
# Trees of files and directories

A tree without links, in which a node is known by the names that lead to it from the root.
`walk` follows a path as the kernel does, `mkdir` makes one directory, and `mkdirAll` makes
those of a path one after another. `mkdirAll_spec` says when that succeeds, and what is new in
the tree then: nothing but directories on the way.
-/

/-- What a name stands for. -/
inductive FileKind where
  | file
  | directory
deriving DecidableEq, Repr

/-- A part of a path: the parent directory, or a name. -/
inductive PathPart (ν : Type*) where
  | up
  | name (n : ν)
deriving DecidableEq, Repr

/-- Why a path cannot be used. -/
inductive PathError where
  /-- `ENOENT`. -/
  | missing
  /-- `ENOTDIR`. -/
  | notDirectory
  /-- `EEXIST`. -/
  | taken
  /-- `EISDIR`. -/
  | isDirectory
  /-- Any other error. -/
  | refused
deriving DecidableEq, Repr

/-- A tree: the root is a directory, and everything else is in a directory. -/
@[ext]
structure FileTree (ν : Type*) where
  node : List ν → Option FileKind
  root : node [] = some .directory
  parent : ∀ {location : List ν}, location ≠ [] → node location ≠ none →
    node location.dropLast = some .directory

namespace FileTree

variable {ν : Type*}

/-- A tree that has nothing but its root. -/
def empty : FileTree ν where
  node
    | [] => some .directory
    | _ :: _ => none
  root := rfl
  parent := fun {location} hne hnode => by
    cases location with
    | nil => exact absurd rfl hne
    | cons => exact absurd rfl hnode

/-! ## Locations -/

/-- Where a part leads from a directory. -/
def follow (location : List ν) : PathPart ν → List ν
  | .up => location.dropLast
  | .name n => location ++ [n]

/-- Where a path leads. -/
def locate (base : List ν) (parts : List (PathPart ν)) : List ν :=
  parts.foldl follow base

/-- The locations behind each part of a path. -/
def trail : List ν → List (PathPart ν) → List (List ν)
  | _, [] => []
  | location, part :: parts => follow location part :: trail (follow location part) parts

@[simp] theorem locate_nil (base : List ν) : locate base [] = base :=
  rfl

@[simp] theorem locate_cons (base : List ν) (part : PathPart ν) (parts : List (PathPart ν)) :
    locate base (part :: parts) = locate (follow base part) parts :=
  rfl

/-- Following a path in two parts. -/
theorem locate_append (base : List ν) (parts parts' : List (PathPart ν)) :
    locate base (parts ++ parts') = locate (locate base parts) parts' :=
  List.foldl_append

/-- The directories on the way of a path in two parts. -/
theorem trail_append (base : List ν) (parts parts' : List (PathPart ν)) :
    trail base (parts ++ parts') = trail base parts ++ trail (locate base parts) parts' := by
  induction parts generalizing base with
  | nil => rfl
  | cons part parts ih =>
    show follow base part :: trail (follow base part) (parts ++ parts') = _
    rw [ih]
    rfl

/-- A path that has parts leads to the end of its trail. -/
theorem locate_mem_trail {base : List ν} {parts : List (PathPart ν)} (h : parts ≠ []) :
    locate base parts ∈ trail base parts := by
  induction parts generalizing base with
  | nil => exact absurd rfl h
  | cons part parts ih =>
    cases parts with
    | nil => exact List.mem_cons_self
    | cons => exact List.mem_cons_of_mem _ (ih (List.cons_ne_nil _ _))

/-! ## Walking -/

/-- Follows a path from directory to directory. What it leads to in the end need not exist. -/
def walk (t : FileTree ν) : List ν → List (PathPart ν) → Except PathError (List ν)
  | location, [] => .ok location
  | location, part :: parts =>
    match t.node location with
    | some .directory => t.walk (follow location part) parts
    | some .file => .error .notDirectory
    | none => .error .missing

variable {t t' u : FileTree ν} {base location : List ν} {part : PathPart ν}
  {parts done : List (PathPart ν)}

/-- A walk that succeeds ends where the path leads. -/
theorem walk_eq_ok (h : t.walk base parts = .ok location) : location = locate base parts := by
  induction parts generalizing base with
  | nil => exact (Except.ok.inj h).symm
  | cons part parts ih =>
    unfold walk at h
    split at h
    · exact ih h
    · cases h
    · cases h

/-- One part more. -/
theorem walk_concat (h : t.walk base done = .ok location) :
    t.walk base (done ++ [part]) =
      match t.node location with
      | some .directory => .ok (follow location part)
      | some .file => .error .notDirectory
      | none => .error .missing := by
  induction done generalizing base with
  | nil =>
    obtain rfl := Except.ok.inj h
    rfl
  | cons first done ih =>
    unfold walk at h
    rw [List.cons_append, walk]
    split at h
    · exact ih h
    · cases h
    · cases h

/-- A path through directories can be walked. -/
theorem walk_of_directories (hlocation : t.node location = some .directory)
    (h : ∀ x ∈ trail location parts, t.node x = some .directory) (part : PathPart ν) :
    t.walk location (parts ++ [part]) = .ok (locate location (parts ++ [part])) := by
  induction parts generalizing location with
  | nil => simp only [List.nil_append, walk, hlocation, locate_cons, locate_nil]
  | cons first parts ih =>
    have hrest := ih (h _ List.mem_cons_self) fun x hx => h x (List.mem_cons_of_mem _ hx)
    simp only [List.cons_append, walk, hlocation, hrest, locate_cons]

/-! ## Growing -/

/-- A place for a new file or directory. -/
def Vacant (t : FileTree ν) (location : List ν) : Prop :=
  location ≠ [] ∧ t.node location.dropLast = some .directory ∧ t.node location = none

variable [DecidableEq ν]

instance (t : FileTree ν) (location : List ν) : Decidable (t.Vacant location) :=
  inferInstanceAs (Decidable (_ ∧ _ ∧ _))

/-- A new file or directory, where there is a place for it. -/
def create (t : FileTree ν) (kind : FileKind) (location : List ν) : FileTree ν :=
  if h : t.Vacant location then
    { node := Function.update t.node location (some kind)
      root := by rw [Function.update_of_ne h.1.symm, t.root]
      parent := fun {other} hne hother => by
        have hdirectory : t.node other.dropLast = some .directory := by
          by_cases heq : other = location
          · rw [heq]
            exact h.2.1
          · rw [Function.update_of_ne heq] at hother
            exact t.parent hne hother
        rw [Function.update_of_ne, hdirectory]
        rintro heq
        rw [heq, h.2.2] at hdirectory
        cases hdirectory }
  else t

/-- Only the new node is changed. -/
theorem node_create (h : t.Vacant location) (kind : FileKind) (other : List ν) :
    (t.create kind location).node other =
      if other = location then some kind else t.node other := by
  rw [create, dif_pos h]
  exact Function.update_apply _ _ _ _

/-- What is there stays there. -/
theorem node_create_of_there {kind : FileKind} {other : List ν} (hother : t.node other ≠ none) :
    (t.create kind location).node other = t.node other := by
  unfold create
  split
  · rename_i hvacant
    refine Function.update_of_ne ?_ _ _
    rintro rfl
    exact hother hvacant.2.2
  · rfl

/-- Nothing else is new. -/
theorem node_create_of_ne {kind : FileKind} {other : List ν} (hne : other ≠ location) :
    (t.create kind location).node other = t.node other := by
  unfold create
  split
  · exact Function.update_of_ne hne _ _
  · rfl

/-- `t'` has directories at the locations `made`, where `t` had nothing, and else what `t`
    has. -/
def Grown (t t' : FileTree ν) (made : List (List ν)) : Prop :=
  ∀ x, t'.node x = if t.node x = none ∧ x ∈ made then some .directory else t.node x

theorem Grown.refl (t : FileTree ν) : t.Grown t [] := by
  intro x
  simp

theorem Grown.create (h : t.Vacant location) :
    t.Grown (t.create .directory location) [location] := by
  intro x
  simp only [node_create h, List.mem_singleton]
  by_cases hx : x = location
  · rw [if_pos hx, if_pos ⟨hx ▸ h.2.2, hx⟩]
  · rw [if_neg hx, if_neg fun hand => hx hand.2]

/-- What is made in two steps. -/
theorem Grown.trans {made made' : List (List ν)} (h : t.Grown t' made) (h' : t'.Grown u made') :
    t.Grown u (made ++ made') := by
  intro x
  simp only [h' x, h x, List.mem_append]
  by_cases hnone : t.node x = none
  · by_cases hmade : x ∈ made <;> simp [hnone, hmade]
  · simp [hnone]

/-- What is there already may be counted among the new locations. -/
theorem Grown.cons {made : List (List ν)} (h : t.Grown t' made) (hthere : t.node location ≠ none) :
    t.Grown t' (location :: made) := by
  intro x
  simp only [h x, List.mem_cons]
  by_cases hx : x = location
  · rw [hx, if_neg fun hand => hthere hand.1, if_neg fun hand => hthere hand.1]
  · simp only [hx, false_or]

/-- What has been there is not changed. -/
theorem Grown.node_of_some {made : List (List ν)} (h : t.Grown t' made) {x : List ν}
    {kind : FileKind} (hx : t.node x = some kind) : t'.node x = some kind := by
  rw [h x, hx, if_neg fun hand => Option.some_ne_none _ hand.1]

/-- No file is made. -/
theorem Grown.file_iff {made : List (List ν)} (h : t.Grown t' made) {x : List ν} :
    t'.node x = some .file ↔ t.node x = some .file := by
  rw [h x]
  split
  · rename_i hand
    rw [hand.1]
    exact iff_of_false (fun heq => by cases heq) fun heq => by cases heq
  · exact Iff.rfl

/-- Nothing else is made. -/
theorem Grown.none_iff {made : List (List ν)} (h : t.Grown t' made) {x : List ν} :
    t'.node x = none ↔ t.node x = none ∧ x ∉ made := by
  rw [h x]
  split
  · rename_i hand
    exact iff_of_false (Option.some_ne_none _) fun hnot => hnot.2 hand.2
  · rename_i hnot
    exact ⟨fun hnone => ⟨hnone, fun hmem => hnot ⟨hnone, hmem⟩⟩, And.left⟩

/-- The new locations are directories, apart from the files that were there. -/
theorem Grown.node_of_mem {made : List (List ν)} (h : t.Grown t' made) {x : List ν}
    (hx : x ∈ made) (hfile : t.node x ≠ some .file) : t'.node x = some .directory := by
  rw [h x]
  cases hnode : t.node x with
  | none => rw [if_pos ⟨rfl, hx⟩]
  | some kind =>
    cases kind with
    | file => exact absurd hnode hfile
    | directory => rw [if_neg fun hand => Option.some_ne_none _ hand.1]

/-- What could be walked to still can. -/
theorem Grown.walk {made : List (List ν)} (h : t.Grown t' made)
    (hwalk : t.walk base parts = .ok location) : t'.walk base parts = .ok location := by
  induction parts generalizing base with
  | nil => exact hwalk
  | cons part parts ih =>
    unfold FileTree.walk at hwalk ⊢
    split at hwalk
    · rename_i hdirectory
      rw [h.node_of_some hdirectory]
      exact ih hwalk
    · cases hwalk
    · cases hwalk

/-! ## Making directories -/

/-- `mkdir`. The system refuses to make something at some locations. -/
def mkdir (t : FileTree ν) (refuses : List ν → Bool) (base : List ν)
    (parts : List (PathPart ν)) : FileTree ν × Except PathError Unit :=
  match t.walk base parts with
  | .error error => (t, .error error)
  | .ok location =>
    match t.node location with
    | some _ => (t, .error .taken)
    | none =>
      if refuses location then (t, .error .refused)
      else (t.create .directory location, .ok ())

/-- Makes the directories of a path one after another, where they are missing. -/
def mkdirAll (refuses : List ν → Bool) (base : List ν) (t : FileTree ν)
    (done : List (PathPart ν)) : List (PathPart ν) → FileTree ν × Except PathError Unit
  | [] => (t, .ok ())
  | part :: parts =>
    match t.mkdir refuses base (done ++ [part]) with
    | (t, .ok ()) => mkdirAll refuses base t (done ++ [part]) parts
    | (t, .error .taken) => mkdirAll refuses base t (done ++ [part]) parts
    | (t, .error error) => (t, .error error)

/-- No file stands in the way of a path, and what is missing may be made. -/
def Passable (t : FileTree ν) (refuses : List ν → Bool) : List ν → List (PathPart ν) → Prop
  | _, [] => True
  | location, part :: parts =>
    t.node location ≠ some .file ∧
      (t.node (follow location part) = none → refuses (follow location part) = false) ∧
      t.Passable refuses (follow location part) parts

variable {refuses : List ν → Bool}

omit [DecidableEq ν] in
/-- Where something is missing behind a directory, there is a place for it. -/
theorem vacant_follow (hdirectory : t.node location = some .directory)
    (hnone : t.node (follow location part) = none) : t.Vacant (follow location part) := by
  cases part with
  | up =>
    -- the parent of a directory is there
    have hnone' : t.node location.dropLast = none := hnone
    by_cases hroot : location = []
    · rw [hroot, List.dropLast_nil, t.root] at hnone'
      cases hnone'
    · rw [t.parent hroot (by rw [hdirectory]; exact Option.some_ne_none _)] at hnone'
      cases hnone'
  | name n =>
    refine ⟨List.append_ne_nil_of_right_ne_nil _ (List.cons_ne_nil _ _), ?_, hnone⟩
    show t.node (location ++ [n]).dropLast = _
    rw [List.dropLast_concat, hdirectory]

/-- What `mkdir` does one part behind a location that is there. -/
theorem mkdir_cases (refuses : List ν → Bool) (hwalk : t.walk base done = .ok location)
    (hthere : t.node location ≠ none) (part : PathPart ν) :
    (t.node location = some .file ∧
        t.mkdir refuses base (done ++ [part]) = (t, .error .notDirectory)) ∨
      t.node location = some .directory ∧
        t.walk base (done ++ [part]) = .ok (follow location part) ∧
        ((t.node (follow location part) ≠ none ∧
            t.mkdir refuses base (done ++ [part]) = (t, .error .taken)) ∨
          (t.Vacant (follow location part) ∧ refuses (follow location part) = true ∧
            t.mkdir refuses base (done ++ [part]) = (t, .error .refused)) ∨
          t.Vacant (follow location part) ∧ refuses (follow location part) = false ∧
            t.mkdir refuses base (done ++ [part]) =
              (t.create .directory (follow location part), .ok ())) := by
  -- the walk to the new name goes through what is there
  have hconcat := @walk_concat _ t _ _ part _ hwalk
  cases hnode : t.node location with
  | none => exact absurd hnode hthere
  | some kind =>
    cases kind with
    | file =>
      simp only [hnode] at hconcat
      exact .inl ⟨rfl, by simp only [mkdir, hconcat]⟩
    | directory =>
      simp only [hnode] at hconcat
      refine .inr ⟨rfl, hconcat, ?_⟩
      cases hnext : t.node (follow location part) with
      | some kind => exact .inl ⟨Option.some_ne_none _, by simp only [mkdir, hconcat, hnext]⟩
      | none =>
        have hvacant := vacant_follow hnode hnext
        cases hrefuses : refuses (follow location part) with
        | true =>
          exact .inr (.inl ⟨hvacant, rfl, by
            simp only [mkdir, hconcat, hnext, hrefuses, if_true]⟩)
        | false =>
          exact .inr (.inr ⟨hvacant, rfl, by
            simp only [mkdir, hconcat, hnext, hrefuses, Bool.false_eq_true, if_false]⟩)

/-- Directories that may be made do not change what can be passed. -/
theorem Grown.passable {made : List (List ν)} (h : t.Grown t' made)
    (hmade : ∀ x ∈ made, refuses x = false) :
    t'.Passable refuses location parts ↔ t.Passable refuses location parts := by
  induction parts generalizing location with
  | nil => exact Iff.rfl
  | cons part parts ih =>
    refine and_congr (not_congr h.file_iff) (and_congr ?_ ih)
    constructor
    · intro hrefuses hnone
      -- what has been made was not refused
      by_cases hmem : follow location part ∈ made
      · exact hmade _ hmem
      · exact hrefuses (h.none_iff.mpr ⟨hnone, hmem⟩)
    · intro hrefuses hnone
      exact hrefuses (h.none_iff.mp hnone).1

/-- `mkdirAll` succeeds if the path can be passed. In any case nothing but directories on the
    way is new. -/
theorem mkdirAll_spec (hwalk : t.walk base done = .ok location) (hthere : t.node location ≠ none)
    {result : Except PathError Unit} (h : mkdirAll refuses base t done parts = (t', result)) :
    ∃ made, made <+: trail location parts ∧ t.Grown t' made ∧
      (result = .ok () ↔ t.Passable refuses location parts) ∧
      (result = .ok () → made = trail location parts ∧
        t'.walk base (done ++ parts) = .ok (locate location parts) ∧
        t'.node (locate location parts) ≠ none) := by
  induction parts generalizing t done location with
  | nil =>
    cases h
    exact ⟨[], List.nil_prefix, .refl _, iff_of_true rfl trivial, fun _ =>
      ⟨rfl, by rw [List.append_nil, hwalk, locate_nil], hthere⟩⟩
  | cons part parts ih =>
    unfold mkdirAll at h
    have htrail : trail location (part :: parts) =
        follow location part :: trail (follow location part) parts := rfl
    have happend : done ++ part :: parts = done ++ [part] ++ parts := by simp
    rw [htrail, happend]
    rcases mkdir_cases refuses hwalk hthere part with ⟨hfile, heq⟩ |
      ⟨hdirectory, hconcat, ⟨hnext, heq⟩ | ⟨hvacant, hrefuses, heq⟩ | ⟨hvacant, hrefuses, heq⟩⟩
    · -- a file is where a directory is needed
      rw [heq] at h
      cases h
      exact ⟨[], List.nil_prefix, .refl _,
        iff_of_false (fun hok => by cases hok) fun hpass => hpass.1 hfile, fun hok => by cases hok⟩
    · -- something is there: if it is a file, this shows at the next part only
      rw [heq] at h
      obtain ⟨made, hfront, hgrown, hresult, hok⟩ := ih hconcat hnext h
      refine ⟨follow location part :: made, (List.prefix_cons_inj _).mpr hfront,
        hgrown.cons hnext, ?_, fun hok' => ⟨by rw [(hok hok').1], (hok hok').2⟩⟩
      rw [hresult]
      refine ⟨fun hpass => ⟨?_, fun hnone => absurd hnone hnext, hpass⟩, fun hpass => hpass.2.2⟩
      rw [hdirectory]
      exact fun heq => by cases heq
    · -- the directory is missing, and may not be made
      rw [heq] at h
      cases h
      refine ⟨[], List.nil_prefix, .refl _, iff_of_false (fun hok => by cases hok) fun hpass => ?_,
        fun hok => by cases hok⟩
      rw [hpass.2.1 hvacant.2.2] at hrefuses
      cases hrefuses
    · -- the directory is made, which allows whatever was allowed before
      rw [heq] at h
      have hcreate : t.Grown (t.create .directory (follow location part)) [follow location part] :=
        .create hvacant
      have hnext : (t.create .directory (follow location part)).node (follow location part) ≠
          none := by
        rw [node_create hvacant, if_pos rfl]
        exact Option.some_ne_none _
      obtain ⟨made, hfront, hgrown, hresult, hok⟩ := ih (hcreate.walk hconcat) hnext h
      refine ⟨follow location part :: made, (List.prefix_cons_inj _).mpr hfront,
        hcreate.trans hgrown, ?_, fun hok' => ⟨by rw [(hok hok').1], (hok hok').2⟩⟩
      rw [hresult, hcreate.passable fun x hx => List.mem_singleton.mp hx ▸ hrefuses]
      refine ⟨fun hpass => ⟨?_, fun _ => hrefuses, hpass⟩, fun hpass => hpass.2.2⟩
      rw [hdirectory]
      exact fun heq => by cases heq

omit [DecidableEq ν] in
/-- A path in two parts can be passed if both parts can. -/
theorem passable_append {parts' : List (PathPart ν)} :
    t.Passable refuses location (parts ++ parts') ↔ t.Passable refuses location parts ∧
      t.Passable refuses (locate location parts) parts' := by
  induction parts generalizing location with
  | nil => exact iff_of_eq (true_and _).symm
  | cons part parts ih =>
    show _ ∧ _ ∧ t.Passable refuses (follow location part) (parts ++ parts') ↔ (_ ∧ _ ∧ _) ∧ _
    rw [ih]
    simp only [and_assoc, locate_cons]

omit [DecidableEq ν] in
/-- No file is on the way of a path that can be passed. -/
theorem Passable.node_ne_file (h : t.Passable refuses location (parts ++ [part])) {x : List ν}
    (hx : x ∈ trail location parts) : t.node x ≠ some .file := by
  induction parts generalizing location with
  | nil => exact absurd hx List.not_mem_nil
  | cons first parts ih =>
    have hrest : t.Passable refuses (follow location first) (parts ++ [part]) := h.2.2
    rcases List.mem_cons.mp hx with hfirst | hmem
    · -- the next part needs a directory here, and there is always a next part
      rw [hfirst]
      cases parts with
      | nil | cons => exact hrest.1
    · exact ih hrest hmem

omit [DecidableEq ν] in
/-- A path through directories can be passed. -/
theorem passable_of_directories (refuses : List ν → Bool)
    (hlocation : t.node location = some .directory)
    (h : ∀ x ∈ trail location parts, t.node x = some .directory) :
    t.Passable refuses location parts := by
  induction parts generalizing location with
  | nil => trivial
  | cons part parts ih =>
    have hfollow := h _ List.mem_cons_self
    refine ⟨?_, fun hnone => ?_, ih hfollow fun x hx => h x (List.mem_cons_of_mem _ hx)⟩
    · rw [hlocation]
      exact fun heq => by cases heq
    · rw [hfollow] at hnone
      cases hnone

/-- Where everything is there, nothing is made. -/
theorem Grown.eq_of_there {made : List (List ν)} (h : t.Grown t' made)
    (hthere : ∀ x ∈ made, t.node x ≠ none) : t' = t := by
  ext1
  funext x
  rw [h x, if_neg fun hand => hthere x hand.2 hand.1]

end FileTree
