import KvStore.Native.Directories

/-!
# Opening the log makes what is missing

`EnsureDirectory` makes the directories of a path one after another (`ensureDirectory_eq`), and
the path of the log is that of its directory with the name of the file behind it. So the log
can be opened unless something stands in the way (`Openable`), and then it is found again.
-/

namespace KvStore

open FileTree

/-! ## Paths -/

@[simp] theorem pathParts_nil : pathParts [] = [] := by
  rw [pathParts, List.splitOn_nil]
  rfl

/-- The parts of two paths with a slash between them. -/
theorem pathParts_append (path path' : Bytes) :
    pathParts (path ++ slash :: path') = pathParts path ++ pathParts path' := by
  rw [pathParts, List.splitOn_append_cons_self, List.filterMap_append]
  rfl

/-- A text without a slash is one part, or none. -/
theorem pathParts_of_not_mem {text : Bytes} (h : slash ∉ text) :
    pathParts text = (part? text).toList := by
  rw [pathParts, List.splitOn_eq_singleton h]
  cases hpart : part? text <;> simp [hpart]

theorem slash_not_mem_takeWhile (path : Bytes) : slash ∉ path.takeWhile (· ≠ slash) :=
  fun hmem => by simpa using List.mem_takeWhile_imp hmem

/-- The first part of a path. -/
theorem pathParts_takeWhile (path : Bytes) :
    pathParts path = (part? (path.takeWhile (· ≠ slash))).toList ++
      pathParts ((path.dropWhile (· ≠ slash)).drop 1) := by
  have hsplit := List.takeWhile_append_dropWhile (p := (· ≠ slash)) (l := path)
  cases hbehind : path.dropWhile (· ≠ slash) with
  | nil =>
    rw [hbehind, List.append_nil] at hsplit
    rw [List.drop_nil, pathParts_nil, List.append_nil, hsplit]
    exact pathParts_of_not_mem (hsplit ▸ slash_not_mem_takeWhile path)
  | cons byte behind =>
    have hbyte : byte = slash := by
      have hhead := List.head?_dropWhile_not (· ≠ slash) path
      rw [hbehind] at hhead
      simpa using hhead
    subst hbyte
    rw [hbehind] at hsplit
    conv_lhs => rw [← hsplit]
    rw [pathParts_append, pathParts_of_not_mem (slash_not_mem_takeWhile path)]
    rfl

/-- A part is put behind a path. -/
theorem pathParts_appendPart (current : Bytes) {part : Bytes} (h : slash ∉ part) :
    pathParts (appendPart current part) = pathParts current ++ (part? part).toList := by
  unfold appendPart
  split
  · rw [List.append_assoc, List.singleton_append, pathParts_append, pathParts_of_not_mem h]
  · rename_i hnot
    by_cases hempty : current = []
    · rw [hempty, List.nil_append, pathParts_nil, List.nil_append, pathParts_of_not_mem h]
    · have hlast : current.getLast? = some slash := by
        by_contra hlast
        exact hnot ⟨hempty, hlast⟩
      -- a slash is there already
      obtain ⟨front, rfl⟩ := List.getLast?_eq_some_iff.mp hlast
      rw [List.append_assoc, List.singleton_append, pathParts_append, pathParts_append,
        pathParts_nil, List.append_nil, pathParts_of_not_mem h]

variable {cwd : List Bytes}

/-- Appending a part does not change where the path starts. -/
theorem base_appendPart {current part : Bytes} (h : slash ∉ part) :
    base cwd (appendPart current part) = base cwd current := by
  unfold appendPart
  cases current with
  | nil =>
    -- the first part of a relative path
    rw [if_neg fun hand => hand.1 rfl, List.nil_append]
    cases part with
    | nil => rfl
    | cons byte part =>
      have hne : byte ≠ slash := fun heq => h (heq ▸ List.mem_cons_self)
      simp [base, hne]
  | cons byte current => split <;> rfl

/-- What is not found does not occur. -/
theorem findLastOf_eq_none {ch : UInt8} {text : Bytes} (h : findLastOf ch text = none) :
    ch ∉ text := by
  induction text with
  | nil => exact List.not_mem_nil
  | cons byte text ih =>
    unfold findLastOf at h
    split at h
    · cases h
    · rename_i hnone
      split at h
      · cases h
      · rename_i hne
        exact List.not_mem_cons_of_ne_of_not_mem (fun heq => hne heq.symm) (ih hnone)

/-- What is found occurs there, and not behind. -/
theorem findLastOf_eq_some {ch : UInt8} {text : Bytes} {pos : Nat}
    (h : findLastOf ch text = some pos) :
    text = text.take pos ++ ch :: text.drop (pos + 1) ∧ ch ∉ text.drop (pos + 1) := by
  induction text generalizing pos with
  | nil => cases h
  | cons byte text ih =>
    unfold findLastOf at h
    split at h
    · rename_i pos' hsome
      obtain rfl := Option.some.inj h
      obtain ⟨hsplit, hnot⟩ := ih hsome
      exact ⟨congrArg (byte :: ·) hsplit, hnot⟩
    · rename_i hnone
      split at h
      · rename_i heq
        obtain rfl := Option.some.inj h
        subst heq
        exact ⟨rfl, findLastOf_eq_none hnone⟩
      · cases h

/-- A path is the path of its directory with its last part behind it. -/
theorem pathParts_parentDirectory (path : Bytes) :
    pathParts path = pathParts (parentDirectory path) ++ (lastPart path).toList := by
  unfold lastPart parentDirectory
  cases hfind : findLastOf slash path with
  | none => exact pathParts_of_not_mem (findLastOf_eq_none hfind)
  | some pos =>
    obtain ⟨hsplit, hnot⟩ := findLastOf_eq_some hfind
    have hparts : pathParts path =
        pathParts (path.take pos) ++ (part? (path.drop (pos + 1))).toList := by
      conv_lhs => rw [hsplit]
      rw [pathParts_append, pathParts_of_not_mem hnot]
    cases pos with
    | zero | succ pos => exact hparts

section

variable {path : Bytes} {part : PathPart Bytes} (h : lastPart path = some part)

include h

/-- The last part of a path is what its directory lacks. -/
theorem pathParts_of_lastPart :
    pathParts path = pathParts (parentDirectory path) ++ [part] := by
  rw [pathParts_parentDirectory, h]
  rfl

/-- The parts of the directory. -/
theorem dropLast_pathParts : (pathParts path).dropLast = pathParts (parentDirectory path) := by
  rw [pathParts_of_lastPart h, List.dropLast_concat]

/-- The path leads one part on from its directory. -/
theorem locate_pathParts (start : List Bytes) :
    locate start (pathParts path) =
      follow (locate start (pathParts (parentDirectory path))) part := by
  rw [pathParts_of_lastPart h, locate_append]
  rfl

end

/-- It begins where the path of its directory begins. -/
theorem base_parentDirectory (path : Bytes) :
    base cwd (parentDirectory path) = base cwd path := by
  unfold parentDirectory
  cases hfind : findLastOf slash path with
  | none =>
    have hhead : path.head? ≠ some slash := fun hhead =>
      findLastOf_eq_none hfind (List.mem_of_mem_head? hhead)
    rw [base, base, if_neg hhead]
    rfl
  | some pos =>
    cases pos with
    | zero =>
      rw [(findLastOf_eq_some hfind).1]
      rfl
    | succ pos =>
      cases path with
      | nil => cases hfind
      | cons byte path => rfl

/-! ## Directories -/

variable {refuses : List Bytes → Bool} {t t' : FileTree Bytes}

/-- The loop makes the directories that are behind `current`. -/
theorem ensureLoop_eq (t : FileTree Bytes) (current rest : Bytes) :
    (ensureLoop refuses cwd t current rest).1 =
        (mkdirAll refuses (base cwd current) t (pathParts current) (pathParts rest)).1 ∧
      ((ensureLoop refuses cwd t current rest).2 = .ok () ↔
        (mkdirAll refuses (base cwd current) t (pathParts current) (pathParts rest)).2 =
          .ok ()) := by
  -- what a part that is not skipped does to both paths
  have hnext (current : Bytes) {rest : Bytes}
      (hpart : ¬ (rest.takeWhile (· ≠ slash) = [] ∨ rest.takeWhile (· ≠ slash) = ascii ".")) :
      ∃ part, pathParts (appendPart current (rest.takeWhile (· ≠ slash))) =
          pathParts current ++ [part] ∧
        base cwd (appendPart current (rest.takeWhile (· ≠ slash))) = base cwd current ∧
        pathParts rest = part :: pathParts ((rest.dropWhile (· ≠ slash)).drop 1) := by
    have hnot := slash_not_mem_takeWhile rest
    obtain ⟨part, hsome⟩ : ∃ part, part? (rest.takeWhile (· ≠ slash)) = some part := by
      unfold part?
      rw [if_neg hpart]
      split <;> exact ⟨_, rfl⟩
    refine ⟨part, ?_, base_appendPart hnot, ?_⟩
    · rw [pathParts_appendPart current hnot, hsome]
      rfl
    · rw [pathParts_takeWhile, hsome]
      rfl
  fun_induction ensureLoop refuses cwd t current rest with
  | case1 t current =>
    rw [pathParts_nil]
    exact ⟨rfl, iff_of_true rfl rfl⟩
  | case2 t current byte rest part behind hskip ih =>
    -- an empty part and `.` are no parts of a path
    have hparts : pathParts (byte :: rest) = pathParts behind := by
      rw [pathParts_takeWhile, part?, if_pos hskip]
      rfl
    rw [hparts]
    exact ih
  | case3 t current byte rest part behind hpart current' t' hmkdir ih
  | case4 t current byte rest part behind hpart current' t' hmkdir ih =>
    obtain ⟨next, hcurrent, hbase, hrest⟩ := hnext current hpart
    rw [hcurrent, hbase] at hmkdir ih
    rw [hrest, mkdirAll, hmkdir]
    exact ih
  | case5 t current byte rest part hpart current' t' error hnot hmkdir =>
    -- `mkdir` fails, and not because something is there
    obtain ⟨next, hcurrent, hbase, hrest⟩ := hnext current hpart
    rw [hcurrent, hbase] at hmkdir
    rw [hrest, mkdirAll, hmkdir]
    cases error with
    | taken => exact absurd rfl hnot
    | missing | notDirectory | isDirectory | refused =>
      exact ⟨rfl, iff_of_false (fun hok => by cases hok) fun hok => by cases hok⟩

/-- `EnsureDirectory` makes one directory after another. -/
theorem ensureDirectory_eq (t : FileTree Bytes) (directory : Bytes) :
    (ensureDirectory refuses cwd t directory).1 =
        (mkdirAll refuses (base cwd directory) t [] (pathParts directory)).1 ∧
      ((ensureDirectory refuses cwd t directory).2 = .ok () ↔
        (mkdirAll refuses (base cwd directory) t [] (pathParts directory)).2 = .ok ()) := by
  unfold ensureDirectory
  split
  · rename_i hskip
    have hparts : pathParts directory = [] := by
      rcases hskip with rfl | rfl
      · exact pathParts_nil
      · exact pathParts_of_not_mem (by decide)
    rw [hparts]
    exact ⟨rfl, iff_of_true rfl rfl⟩
  · split
    · -- an absolute path: the walk starts at the root
      rename_i hslash
      have hloop := @ensureLoop_eq cwd refuses t [slash] directory
      have hparts : pathParts [slash] = [] := pathParts_append [] []
      rw [hparts] at hloop
      rw [base, if_pos hslash]
      exact hloop
    · rename_i hslash
      have hloop := @ensureLoop_eq cwd refuses t [] directory
      rw [pathParts_nil] at hloop
      rw [base, if_neg hslash]
      exact hloop

/-- Paths begin in a directory. -/
theorem node_base (hcwd : t.node cwd = some .directory) (path : Bytes) :
    t.node (base cwd path) = some .directory := by
  unfold base
  split
  · exact t.root
  · exact hcwd

/-- `EnsureDirectory` succeeds if the path can be passed. In any case nothing but directories on
    the way is new. -/
theorem ensureDirectory_spec (hcwd : t.node cwd = some .directory) {directory : Bytes}
    {result : Except OpenError Unit}
    (h : ensureDirectory refuses cwd t directory = (t', result)) :
    ∃ made, made <+: trail (base cwd directory) (pathParts directory) ∧ t.Grown t' made ∧
      (result = .ok () ↔ t.Passable refuses (base cwd directory) (pathParts directory)) ∧
      (result = .ok () → made = trail (base cwd directory) (pathParts directory) ∧
        t'.walk (base cwd directory) (pathParts directory) =
          .ok (locate (base cwd directory) (pathParts directory)) ∧
        t'.node (locate (base cwd directory) (pathParts directory)) ≠ none) := by
  obtain ⟨htree, hresult⟩ := @ensureDirectory_eq cwd refuses t directory
  rw [h] at htree hresult
  have hthere : t.node (base cwd directory) ≠ none := by
    rw [node_base hcwd]
    exact Option.some_ne_none _
  -- the loop makes the same directories as making them all from the base
  rcases hall : mkdirAll refuses (base cwd directory) t [] (pathParts directory) with ⟨u, result'⟩
  rw [hall] at htree hresult
  obtain rfl : t' = u := htree
  obtain ⟨made, hfront, hgrown, hpass, hok⟩ := mkdirAll_spec rfl hthere hall
  exact ⟨made, hfront, hgrown, hresult.trans hpass, fun hok' => hok (hresult.mp hok')⟩

/-! ## Files -/

/-- The log can be opened: its path ends with a name, nothing stands in the way or is refused,
    and the name is not that of a directory. -/
structure Openable (refuses : List Bytes → Bool) (cwd : List Bytes) (t : FileTree Bytes)
    (path : Bytes) : Prop where
  name : ∃ n, lastPart path = some (.name n)
  passable : t.Passable refuses (base cwd path) (pathParts path)
  notDirectory : t.node (locate (base cwd path) (pathParts path)) ≠ some .directory
  /-- Nor does it become one, as in `a/../a`. -/
  notMade : t.node (locate (base cwd path) (pathParts path)) = none →
    locate (base cwd path) (pathParts path) ∉ trail (base cwd path) (pathParts path).dropLast

/-- The file of a path is there, and the directories on its way. -/
structure Opened (cwd : List Bytes) (t : FileTree Bytes) (path : Bytes) : Prop where
  name : ∃ n, lastPart path = some (.name n)
  directories : ∀ x ∈ trail (base cwd path) (pathParts path).dropLast,
    t.node x = some .directory
  file : t.node (locate (base cwd path) (pathParts path)) = some .file

/-- An empty path has no last part. -/
theorem ne_nil_of_lastPart {path n : Bytes} (h : lastPart path = some (.name n)) : path ≠ [] := by
  rintro rfl
  cases h

/-- What `open` with `O_CREAT` does where the directory is there. -/
theorem openCreate_cases {path n : Bytes} {location : List Bytes} (refuses : List Bytes → Bool)
    (hname : lastPart path = some (.name n))
    (hwalk : t.walk (base cwd path) (pathParts path) = .ok location) :
    (t.node location = some .file ∧ openCreate refuses cwd t path = (t, .ok location)) ∨
      (t.node location = some .directory ∧
        openCreate refuses cwd t path = (t, .error .isDirectory)) ∨
      (t.node location = none ∧ refuses location = true ∧
        openCreate refuses cwd t path = (t, .error .refused)) ∨
      t.node location = none ∧ refuses location = false ∧
        openCreate refuses cwd t path = (t.create .file location, .ok location) := by
  unfold openCreate
  rw [if_neg (ne_nil_of_lastPart hname)]
  simp only [hwalk, hname]
  -- something is there, or it is missing and made unless that is refused
  cases hnode : t.node location with
  | some kind =>
    cases kind with
    | file => exact .inl ⟨rfl, rfl⟩
    | directory => exact .inr (.inl ⟨rfl, rfl⟩)
  | none =>
    cases hrefuses : refuses location with
    | true => exact .inr (.inr (.inl ⟨rfl, rfl, rfl⟩))
    | false => exact .inr (.inr (.inr ⟨rfl, rfl, rfl⟩))

/-- `open` with `O_CREAT` succeeds only where there is a name at the end of the path. -/
theorem openCreate_eq_ok {path : Bytes} {file : List Bytes}
    (h : openCreate refuses cwd t path = (t', .ok file)) :
    (∃ n, lastPart path = some (.name n)) ∧
      t.walk (base cwd path) (pathParts path) = .ok file := by
  unfold openCreate at h
  split at h
  · cases h
  · split at h
    · cases h
    · rename_i location n hwalk hname
      refine ⟨⟨n, hname⟩, hwalk.trans ?_⟩
      split at h
      · cases h
        rfl
      · cases h
      · split at h
        · cases h
        · cases h
          rfl
    · cases h

/-- `open` for reading finds a file that is there. -/
theorem openRead_eq {path n : Bytes} {location : List Bytes}
    (hname : lastPart path = some (.name n))
    (hwalk : t.walk (base cwd path) (pathParts path) = .ok location)
    (hfile : t.node location = some .file) : openRead cwd t path = .ok location := by
  simp only [openRead, if_neg (ne_nil_of_lastPart hname), hwalk, hfile, hname]

/-- The way to a file that is there. -/
theorem Opened.walk (hcwd : t.node cwd = some .directory) {path : Bytes}
    (h : Opened cwd t path) :
    t.walk (base cwd path) (pathParts path) = .ok (locate (base cwd path) (pathParts path)) := by
  obtain ⟨n, hname⟩ := h.name
  have hdirectories := h.directories
  rw [dropLast_pathParts hname] at hdirectories
  rw [pathParts_of_lastPart hname]
  exact walk_of_directories (node_base hcwd path) hdirectories _

/-- A file that is there is opened without any change. -/
theorem Opened.openFd (hcwd : t.node cwd = some .directory) {path : Bytes}
    (h : Opened cwd t path) (refuses : List Bytes → Bool) (message : String) :
    KvStore.openFd refuses cwd message t path =
      (t, .ok (locate (base cwd path) (pathParts path))) := by
  obtain ⟨n, hname⟩ := h.name
  have hdirectories := h.directories
  rw [dropLast_pathParts hname] at hdirectories
  rcases hensure : ensureDirectory refuses cwd t (parentDirectory path) with ⟨u, result⟩
  obtain ⟨made, -, hgrown, hpass, hok⟩ := ensureDirectory_spec hcwd hensure
  rw [base_parentDirectory] at hpass hok
  obtain rfl := hpass.mpr
    (passable_of_directories refuses (node_base hcwd path) hdirectories)
  obtain ⟨rfl, -, -⟩ := hok rfl
  -- every directory is there, so none is made
  obtain rfl := hgrown.eq_of_there fun x hx => by
    rw [hdirectories x hx]
    exact Option.some_ne_none _
  have hfile := h.file
  rcases openCreate_cases refuses hname (h.walk hcwd) with ⟨-, heq⟩ | ⟨hnode, -⟩ | ⟨hnode, -⟩ |
    ⟨hnode, -⟩
  · simp only [KvStore.openFd, hensure, heq]
  all_goals
    rw [hnode] at hfile
    cases hfile

/-- A file that is there is found. -/
theorem Opened.openReadFd (hcwd : t.node cwd = some .directory) {path : Bytes}
    (h : Opened cwd t path) :
    KvStore.openReadFd cwd t path =
      .ok (some (locate (base cwd path) (pathParts path))) := by
  obtain ⟨n, hname⟩ := h.name
  simp only [KvStore.openReadFd, openRead_eq hname (h.walk hcwd) h.file]

/-- A file that `open` with `O_CREAT` returns was there, or has been made. -/
theorem node_openCreate {path n : Bytes} {location file : List Bytes}
    (hname : lastPart path = some (.name n))
    (hwalk : t.walk (base cwd path) (pathParts path) = .ok location)
    (hvacant : t.node location = none → t.Vacant location)
    (h : openCreate refuses cwd t path = (t', .ok file)) :
    t.node location ≠ some .directory ∧
      (t.node location = none → refuses location = false) ∧
      t'.node location = some .file ∧
      ∀ x, t.node x = some .directory → t'.node x = some .directory := by
  rcases openCreate_cases refuses hname hwalk with ⟨hnode, heq⟩ | ⟨-, heq⟩ | ⟨-, -, heq⟩ |
    ⟨hnode, hrefuses, heq⟩ <;> rw [heq] at h <;> cases h
  · rw [hnode]
    exact ⟨fun heq => (by cases heq), fun heq => (by cases heq), rfl, fun _ hx => hx⟩
  · rw [hnode]
    refine ⟨(Option.some_ne_none _).symm, fun _ => hrefuses, ?_, fun x hx => ?_⟩
    · rw [node_create (hvacant hnode), if_pos rfl]
    · rw [node_create_of_there (by rw [hx]; exact Option.some_ne_none _), hx]

/-- A file is opened behind its directory. -/
theorem openFd_eq_ok {path : Bytes} {message : String} {file : List Bytes}
    (h : openFd refuses cwd message t path = (t', .ok file)) :
    ∃ u, ensureDirectory refuses cwd t (parentDirectory path) = (u, .ok ()) ∧
      openCreate refuses cwd u path = (t', .ok file) := by
  rcases hensure : ensureDirectory refuses cwd t (parentDirectory path) with ⟨u, result⟩
  simp only [openFd, hensure] at h
  cases result with
  | error error => cases h
  | ok _ =>
    refine ⟨u, rfl, ?_⟩
    rcases hcreate : openCreate refuses cwd u path with ⟨v, created⟩
    simp only [hcreate] at h
    cases created with
    | error error => cases h
    | ok location =>
      cases h
      rfl

/-- A file that has been opened is there, with the directories on its way. It could be opened
    because nothing stood in the way. -/
theorem opened_of_openFd (hcwd : t.node cwd = some .directory) {path : Bytes} {message : String}
    {file : List Bytes} (h : openFd refuses cwd message t path = (t', .ok file)) :
    Openable refuses cwd t path ∧ file = locate (base cwd path) (pathParts path) ∧
      Opened cwd t' path := by
  obtain ⟨u, hensure, hcreate⟩ := openFd_eq_ok h
  obtain ⟨made, -, hgrown, hpass, hok⟩ := ensureDirectory_spec hcwd hensure
  rw [base_parentDirectory] at hpass hok
  obtain ⟨rfl, hwalk', -⟩ := hok rfl
  obtain ⟨⟨n, hname⟩, hwalk⟩ := openCreate_eq_ok hcreate
  obtain rfl := walk_eq_ok hwalk
  have hlast := locate_pathParts hname (base cwd path)
  -- the walk to the file has gone through the directory
  have hdirectory : u.node (locate (base cwd path) (pathParts (parentDirectory path))) =
      some .directory := by
    have hconcat := @walk_concat _ u _ _ (.name n) _ hwalk'
    rw [← pathParts_of_lastPart hname, hwalk] at hconcat
    split at hconcat
    · assumption
    · cases hconcat
    · cases hconcat
  obtain ⟨hnot, hrefuses, hfile, hkept⟩ := node_openCreate hname hwalk
    (fun hnone => hlast ▸ vacant_follow hdirectory (hlast ▸ hnone)) hcreate
  -- what was missing and is the file now is not one of the directories that were made
  have hmade : t.node (locate (base cwd path) (pathParts path)) = none →
      locate (base cwd path) (pathParts path) ∉
        trail (base cwd path) (pathParts (parentDirectory path)) := fun hnone hmem => by
    rw [hgrown, if_pos ⟨hnone, hmem⟩] at hnot
    exact hnot rfl
  have hpassable : t.Passable refuses (base cwd path)
      (pathParts (parentDirectory path) ++ [.name n]) := by
    rw [passable_append]
    refine ⟨hpass.mp rfl, fun hnever => ?_, ?_, trivial⟩
    · rw [hgrown.file_iff.mpr hnever] at hdirectory
      cases hdirectory
    · rw [← hlast]
      exact fun hnone => hrefuses (hgrown.none_iff.mpr ⟨hnone, hmade hnone⟩)
  refine ⟨⟨⟨n, hname⟩, pathParts_of_lastPart hname ▸ hpassable,
    fun hbefore => hnot (hgrown.node_of_some hbefore), ?_⟩, rfl, ⟨n, hname⟩, ?_, hfile⟩
  · rw [dropLast_pathParts hname]
    exact hmade
  · rw [dropLast_pathParts hname]
    intro x hx
    exact hkept x (hgrown.node_of_mem hx (hpassable.node_ne_file hx))

/-- Where nothing stands in the way, the file is opened. -/
theorem Openable.openFd (hcwd : t.node cwd = some .directory) {path : Bytes}
    (h : Openable refuses cwd t path) (message : String) :
    (KvStore.openFd refuses cwd message t path).2 =
      .ok (locate (base cwd path) (pathParts path)) := by
  obtain ⟨n, hname⟩ := h.name
  have hmade := h.notMade
  rw [dropLast_pathParts hname] at hmade
  obtain ⟨hfront, hnever, hallowed, -⟩ :=
    passable_append.mp (pathParts_of_lastPart hname ▸ h.passable)
  rw [← locate_pathParts hname] at hallowed
  rcases hensure : ensureDirectory refuses cwd t (parentDirectory path) with ⟨u, result⟩
  obtain ⟨made, -, hgrown, hpass, hok⟩ := ensureDirectory_spec hcwd hensure
  rw [base_parentDirectory] at hpass hok
  obtain rfl := hpass.mpr hfront
  obtain ⟨rfl, hwalk, hthere⟩ := hok rfl
  have hdirectory : u.node (locate (base cwd path) (pathParts (parentDirectory path))) =
      some .directory := by
    -- it is there, and no file
    cases hnode : u.node (locate (base cwd path) (pathParts (parentDirectory path))) with
    | none => exact absurd hnode hthere
    | some kind =>
      cases kind with
      | file => exact absurd (hgrown.file_iff.mp hnode) hnever
      | directory => rfl
  have hwalk' : u.walk (base cwd path) (pathParts path) =
      .ok (locate (base cwd path) (pathParts path)) := by
    rw [locate_pathParts hname, pathParts_of_lastPart hname,
      @walk_concat _ u _ _ (.name n) _ hwalk, hdirectory]
  rcases openCreate_cases refuses hname hwalk' with ⟨-, heq⟩ | ⟨hnode, -⟩ | ⟨hnode, hrefuses, -⟩ |
    ⟨-, -, heq⟩
  · simp only [KvStore.openFd, hensure, heq]
  · -- the name is not that of a directory
    rw [hgrown] at hnode
    split at hnode
    · rename_i hand
      exact absurd hand.2 (hmade hand.1)
    · exact absurd hnode h.notDirectory
  · -- what is missing may be made
    rw [hallowed (hgrown.none_iff.mp hnode).1] at hrefuses
    cases hrefuses
  · simp only [KvStore.openFd, hensure, heq]

/-- `open` with `O_CREAT` makes nothing but the file. -/
theorem openCreate_tree {path : Bytes} {result : Except PathError (List Bytes)}
    (h : openCreate refuses cwd t path = (t', result)) :
    t' = t ∨ t' = t.create .file (locate (base cwd path) (pathParts path)) := by
  unfold openCreate at h
  split at h
  · cases h
    exact .inl rfl
  · split at h
    · cases h
      exact .inl rfl
    · rename_i hwalk _
      split at h
      · cases h
        exact .inl rfl
      · cases h
        exact .inl rfl
      · split at h
        · cases h
          exact .inl rfl
        · cases h
          exact .inr (by rw [walk_eq_ok hwalk])
    · cases h
      exact .inl rfl

/-- What is there stays as it is, and what is new is on the way: a directory, or the file. -/
theorem openFd_tree (hcwd : t.node cwd = some .directory) {path : Bytes} {message : String}
    {result : Except OpenError (List Bytes)}
    (h : openFd refuses cwd message t path = (t', result)) (x : List Bytes) :
    (t.node x ≠ none → t'.node x = t.node x) ∧
      (t.node x = none → t'.node x ≠ none →
        x ∈ trail (base cwd path) (pathParts path) ∧
          (t'.node x = some .directory ∨ x = locate (base cwd path) (pathParts path))) := by
  rcases hensure : ensureDirectory refuses cwd t (parentDirectory path) with ⟨u, ensured⟩
  obtain ⟨made, hfront, hgrown, -, -⟩ := ensureDirectory_spec hcwd hensure
  rw [base_parentDirectory] at hfront
  have htree : t' = u ∨ t' = u.create .file (locate (base cwd path) (pathParts path)) := by
    simp only [openFd, hensure] at h
    cases ensured with
    | error error =>
      cases h
      exact .inl rfl
    | ok _ =>
      rcases hcreate : openCreate refuses cwd u path with ⟨v, created⟩
      simp only [hcreate] at h
      cases created with
      | error | ok =>
        cases h
        exact openCreate_tree hcreate
  have hmade : ∀ x ∈ made, x ∈ trail (base cwd path) (pathParts path) := fun x hx => by
    rw [pathParts_parentDirectory, trail_append]
    exact List.mem_append_left _ (hfront.subset hx)
  constructor
  · intro hthere
    have hu : u.node x = t.node x := by
      rw [hgrown, if_neg fun hand => hthere hand.1]
    rcases htree with rfl | rfl
    · exact hu
    · rw [node_create_of_there (by rwa [hu]), hu]
  · intro hnone hnew
    by_cases hx : x ∈ made
    · have hu : u.node x = some .directory := by
        rw [hgrown, if_pos ⟨hnone, hx⟩]
      refine ⟨hmade x hx, .inl ?_⟩
      rcases htree with rfl | rfl
      · exact hu
      · rw [node_create_of_there (by rw [hu]; exact Option.some_ne_none _), hu]
    · -- only the file is left
      have hu : u.node x = none := hgrown.none_iff.mpr ⟨hnone, hx⟩
      rcases htree with rfl | rfl
      · exact absurd hu hnew
      · have hlast : x = locate (base cwd path) (pathParts path) := by
          by_contra hne
          exact hnew ((node_create_of_ne hne).trans hu)
        have hparts : pathParts path ≠ [] := fun hparts => by
          rw [hlast, hparts, locate_nil, node_base hcwd] at hnone
          cases hnone
        exact ⟨hlast ▸ locate_mem_trail hparts, .inr hlast⟩

/-- Opening the log for appending. It succeeds exactly if nothing stands in the way, and then
    the log is found again, whatever is refused later, without any change of the tree. In any
    case what is there stays, and nothing is new but directories on the way and the file. -/
theorem openAppendFd_correct (hcwd : t.node cwd = some .directory) {path : Bytes}
    {result : Except OpenError (List Bytes)}
    (h : openAppendFd refuses cwd t path = (t', result)) :
    (∀ x, t.node x ≠ none → t'.node x = t.node x) ∧
      (∀ x, t.node x = none → t'.node x ≠ none →
        x ∈ trail (base cwd path) (pathParts path) ∧
          (t'.node x = some .directory ∨ x = locate (base cwd path) (pathParts path))) ∧
      ((∃ file, result = .ok file) ↔ Openable refuses cwd t path) ∧
      ∀ file, result = .ok file →
        file = locate (base cwd path) (pathParts path) ∧ t'.node file = some .file ∧
          ∀ refuses', openAppendFd refuses' cwd t' path = (t', .ok file) ∧
            openTruncateFd refuses' cwd t' path = (t', .ok file) ∧
            openReadFd cwd t' path = .ok (some file) := by
  refine ⟨fun x => (openFd_tree hcwd h x).1, fun x => (openFd_tree hcwd h x).2,
    ⟨?_, fun hopenable => ?_⟩, fun file hfile => ?_⟩
  · rintro ⟨file, rfl⟩
    exact (opened_of_openFd hcwd h).1
  · have hresult := hopenable.openFd hcwd "open WAL for append failed"
    rw [openAppendFd] at h
    rw [h] at hresult
    exact ⟨_, hresult⟩
  · subst hfile
    obtain ⟨-, rfl, hopened⟩ := opened_of_openFd hcwd h
    -- nothing that exists has changed, so the working directory is still there
    have hcwd' : t'.node cwd = some .directory := by
      rw [(openFd_tree hcwd h cwd).1 (by rw [hcwd]; exact Option.some_ne_none _), hcwd]
    exact ⟨rfl, hopened.file, fun refuses' =>
      ⟨hopened.openFd hcwd' refuses' _, hopened.openFd hcwd' refuses' _,
        hopened.openReadFd hcwd'⟩⟩

/-- The default path of the log, in a tree that is empty. -/
theorem openAppendFd_correct_default :
    ∃ t : FileTree Bytes, t.node [ascii "data"] = some .directory ∧
      t.node [ascii "data", ascii "wal.log"] = some .file ∧
      openReadFd [] t (ascii "data/wal.log") = .ok (some [ascii "data", ascii "wal.log"]) := by
  have hparts : pathParts (ascii "data/wal.log") =
      [.name (ascii "data"), .name (ascii "wal.log")] := by
    decide
  have hbase : base [] (ascii "data/wal.log") = [] := by
    decide
  have hopenable : Openable (fun _ => false) [] .empty (ascii "data/wal.log") := by
    refine ⟨⟨ascii "wal.log", by decide⟩, ?_, ?_, ?_⟩ <;> rw [hparts, hbase]
    · exact ⟨by decide, fun _ => rfl, by decide, fun _ => rfl, trivial⟩
    · decide
    · decide
  have hroot : (empty : FileTree Bytes).node [] = some .directory := rfl
  rcases hopen : openAppendFd (fun _ => false) [] .empty (ascii "data/wal.log") with ⟨t, result⟩
  obtain ⟨-, -, hresult, hopened⟩ := openAppendFd_correct hroot hopen
  obtain ⟨file, hfile⟩ := hresult.mpr hopenable
  obtain ⟨rfl, hnode, hagain⟩ := hopened file hfile
  rw [hparts, hbase] at hnode hagain
  have hthere : t.node [ascii "data", ascii "wal.log"] = some .file := hnode
  have hdirectory : t.node [ascii "data"] = some .directory :=
    @FileTree.parent _ t [ascii "data", ascii "wal.log"] (List.cons_ne_nil _ _)
      (by rw [hthere]; exact Option.some_ne_none _)
  exact ⟨t, hdirectory, hthere, (hagain fun _ => true).2.2⟩

end KvStore
