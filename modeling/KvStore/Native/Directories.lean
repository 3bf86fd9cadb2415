import KvStore.ForStd.FileTree
import KvStore.Native.CommandProcessor

/-!
# Opening the log

Model of `ParentDirectory`, `EnsureDirectory`, `OpenAppendFd`, `OpenTruncateFd` and
`OpenReadFd` on a tree of files and directories without links. A path has no zero byte. What
the kernel refuses to make, for lack of permission or of space, is given; what exists it lets
the process search and open.
-/

namespace KvStore

open FileTree

/-! ## Paths -/

def slash : UInt8 := '/'.toUInt8

/-- What stands between two slashes. -/
def part? (text : Bytes) : Option (PathPart Bytes) :=
  if text = [] ∨ text = ascii "." then none
  else if text = ascii ".." then some .up
  else some (.name text)

/-- The parts of a path. -/
def pathParts (path : Bytes) : List (PathPart Bytes) := (path.splitOn slash).filterMap part?

/-- Where a path begins. -/
def base (cwd : List Bytes) (path : Bytes) : List Bytes :=
  if path.head? = some slash then [] else cwd

/-- `text.find_last_of(ch)`. -/
def findLastOf (ch : UInt8) : Bytes → Option Nat
  | [] => none
  | byte :: text =>
    match findLastOf ch text with
    | some pos => some (pos + 1)
    | none => if byte = ch then some 0 else none

/-- What stands behind the last slash. -/
def lastPart (path : Bytes) : Option (PathPart Bytes) :=
  match findLastOf slash path with
  | none => part? path
  | some pos => part? (path.drop (pos + 1))

/-- What stands in front of the slashes at the end of a path, behind the slash before it. -/
def lastText (path : Bytes) : Bytes :=
  ((path.reverse.dropWhile (· = slash)).takeWhile (· ≠ slash)).reverse

/-- `ParentDirectory`. -/
def parentDirectory (path : Bytes) : Bytes :=
  match findLastOf slash path with
  | none => ascii "."
  | some 0 => [slash]
  | some pos => path.take pos

/-- `part` is put behind `current`. -/
def appendPart (current part : Bytes) : Bytes :=
  (if current ≠ [] ∧ current.getLast? ≠ some slash then current ++ [slash] else current) ++ part

/-! ## Directories -/

/-- What is thrown while a file is opened. -/
inductive OpenError where
  /-- `"mkdir failed for "` and the path. -/
  | mkdirFailed (path : Bytes) (error : PathError)
  /-- The message, for what `open` returns. -/
  | openFailed (message : String) (error : PathError)
deriving DecidableEq, Repr

section

variable (refuses : List Bytes → Bool) (cwd : List Bytes)

/-- The loop of `EnsureDirectory`, for what is behind `pos`. -/
def ensureLoop (t : FileTree Bytes) (current : Bytes) :
    Bytes → FileTree Bytes × Except OpenError Unit
  | [] => (t, .ok ())
  | byte :: rest =>
    let part := (byte :: rest).takeWhile (· ≠ slash)
    let behind := ((byte :: rest).dropWhile (· ≠ slash)).drop 1
    if part = [] ∨ part = ascii "." then ensureLoop t current behind
    else
      let current := appendPart current part
      match t.mkdir refuses (base cwd current) (pathParts current) with
      | (t, .ok ()) => ensureLoop t current behind
      | (t, .error .taken) => ensureLoop t current behind
      | (t, .error error) => (t, .error (.mkdirFailed current error))
termination_by rest => rest.length
decreasing_by
  all_goals
    have hle := (List.dropWhile_suffix (l := byte :: rest) (· ≠ slash)).length_le
    simp only [List.length_drop, List.length_cons] at hle ⊢
    omega

/-- `EnsureDirectory`. -/
def ensureDirectory (t : FileTree Bytes) (directory : Bytes) :
    FileTree Bytes × Except OpenError Unit :=
  if directory = [] ∨ directory = ascii "." then (t, .ok ())
  else ensureLoop refuses cwd t (if directory.head? = some slash then [slash] else []) directory

/-! ## Files -/

/-- What `open` with `O_CREAT` fails with when a path ends with a slash, `.` or `..`. -/
def endError (t : FileTree Bytes) (path : Bytes) (location : List Bytes) : PathError :=
  match part? (lastText path) with
  -- a slash behind a name is refused before the name is looked up
  | some (.name _) => .isDirectory
  | _ =>
    match t.node location with
    | none => .missing
    | some .file => .notDirectory
    | some .directory => .isDirectory

/-- `open` with `O_CREAT | O_WRONLY`. Returns the file. -/
def openCreate (t : FileTree Bytes) (path : Bytes) :
    FileTree Bytes × Except PathError (List Bytes) :=
  if path = [] then (t, .error .missing)
  else
    match t.walk (base cwd path) (pathParts path), lastPart path with
    | .error error, _ => (t, .error error)
    | .ok location, some (.name _) =>
      match t.node location with
      | some .file => (t, .ok location)
      | some .directory => (t, .error .isDirectory)
      | none =>
        if refuses location then (t, .error .refused)
        else (t.create .file location, .ok location)
    | .ok location, _ => (t, .error (endError t path location))

/-- `open` with `O_RDONLY`. Returns the file or the directory. -/
def openRead (t : FileTree Bytes) (path : Bytes) : Except PathError (List Bytes) :=
  if path = [] then .error .missing
  else
    match t.walk (base cwd path) (pathParts path) with
    | .error error => .error error
    | .ok location =>
      match t.node location, lastPart path with
      | none, _ => .error .missing
      | some .directory, _ => .ok location
      | some .file, some (.name _) => .ok location
      | some .file, _ => .error .notDirectory

/-- A file is opened for writing in a directory that is made first. -/
def openFd (message : String) (t : FileTree Bytes) (filePath : Bytes) :
    FileTree Bytes × Except OpenError (List Bytes) :=
  match ensureDirectory refuses cwd t (parentDirectory filePath) with
  | (t, .error error) => (t, .error error)
  | (t, .ok ()) =>
    match openCreate refuses cwd t filePath with
    | (t, .error error) => (t, .error (.openFailed message error))
    | (t, .ok file) => (t, .ok file)

/-- `OpenAppendFd`. -/
def openAppendFd : FileTree Bytes → Bytes → FileTree Bytes × Except OpenError (List Bytes) :=
  openFd refuses cwd "open WAL for append failed"

/-- `OpenTruncateFd`. -/
def openTruncateFd : FileTree Bytes → Bytes → FileTree Bytes × Except OpenError (List Bytes) :=
  openFd refuses cwd "truncate WAL failed"

/-- `OpenReadFd`. Without the file, `/dev/null` is opened. -/
def openReadFd (t : FileTree Bytes) (filePath : Bytes) : Except OpenError (Option (List Bytes)) :=
  match openRead cwd t filePath with
  | .error .missing => .ok none
  | .error error => .error (.openFailed "open WAL for replay failed" error)
  | .ok file => .ok (some file)

end

end KvStore
