import KvStore.Native.CommandProcessor
import KvStore.Native.Checkpoint

/-!
# A store on files whose calls may fail

The calls of `KVStore` that commands make, for any outcomes of the calls that they make on
files: the writes and the `fsync` of `AppendPut` and `AppendDelete`, and those of
`Checkpoint`.
-/

namespace KvStore

/-- What the calls on files do during one call of the store. -/
structure Faults where
  writes : List WAL.WriteOutcome := []
  fsync : Option String := none
  files : FileCalls := {}
  deriving DecidableEq, Repr

/-- A store, with what the calls on files do during each of its next calls. Those behind
    the end of the list do not fail. -/
structure FaultyStore where
  store : KVStore
  faults : List Faults := []

namespace FaultyStore

/-- A call of the store that writes to files. -/
def call (s : FaultyStore) (write : KVStore → Faults → KVStore × Except String Bool) :
    FaultyStore × Except String Bool :=
  let (store, result) := write s.store (s.faults.headD {})
  ({ store, faults := s.faults.tail }, result)

/-- The calls of a `KVStore` on these files. -/
def calls (padding : Padding) : StoreCalls FaultyStore where
  put s key value := s.call fun store faults =>
    store.put padding key value faults.writes faults.fsync
  get s := s.store.get
  delete s key := s.call fun store faults =>
    store.delete padding key faults.writes faults.fsync
  scan s := s.store.scan
  checkpoint s := s.call fun store faults => store.checkpointWith faults.files

end FaultyStore

end KvStore
