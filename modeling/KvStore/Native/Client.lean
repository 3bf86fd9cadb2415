import KvStore.Native.Server

/-!
# The client

Model of `src/client_main.cpp`: how the client reads the lines of the server, and how it takes
a line that is typed in apart. `EncodeResp` is `encodeResp`.
-/

namespace KvStore.Client

/-! ## Reading responses -/

/-- `LineReader::ReadLine`, for the bytes in `buffer_` and for what the calls of `read` return:
    the line or what is thrown, the bytes that are left in `buffer_`, and the calls that are
    left. Behind the last call the server has closed the connection. -/
def readLine (buffer : Bytes) (outcomes : List ReadOutcome) :
    Except String Bytes × Bytes × List ReadOutcome :=
  match find buffer 0 with
  | some pos => (.ok (substr buffer 0 (pos + 2)), buffer.drop (pos + 2), outcomes)
  | none =>
    match outcomes with
    | [] => (.error "server closed connection", buffer, [])
    | .bytes chunk :: outcomes => readLine (buffer ++ chunk) outcomes
    | .interrupted :: outcomes => readLine buffer outcomes
    | .closed :: outcomes => (.error "server closed connection", buffer, outcomes)
    | .again :: outcomes | .failed :: outcomes => (.error "read failed", buffer, outcomes)

/-- So many calls of `ReadLine`, one after another. -/
def readLines : Nat → Bytes → List ReadOutcome → Except String (List Bytes)
  | 0, _, _ => .ok []
  | count + 1, buffer, outcomes =>
    match readLine buffer outcomes with
    | (.error error, _, _) => .error error
    | (.ok line, buffer, outcomes) => (readLines count buffer outcomes).map (line :: ·)

/-! ## Lines that are typed in -/

/-- The characters `" \t\r\n"`. -/
def isBlank (ch : UInt8) : Bool := ch = 32 || ch = 9 || ch = 13 || ch = 10

/-- `Trim`. -/
def trim (text : Bytes) : Bytes :=
  ((text.dropWhile isBlank).reverse.dropWhile isBlank).reverse

/-- `stream >> token` on the characters that are left in the stream: the token, which is empty
    if the end is reached first, and the characters behind it. -/
def extract (stream : Bytes) : Bytes × Bytes :=
  ((stream.dropWhile isspace).takeWhile (!isspace ·),
    (stream.dropWhile isspace).dropWhile (!isspace ·))

/-- `std::getline` on the characters that are left in the stream. -/
def getline (stream : Bytes) : Bytes := stream.takeWhile (· ≠ 10)

/-- The loop at the end of `ParseInteractiveCommand`. Every round takes a character, so there
    are no more rounds than characters. -/
def extractAll : Nat → Bytes → List Bytes
  | 0, _ => []
  | fuel + 1, stream =>
    match extract stream with
    | ([], _) => []
    | (token, stream) => token :: extractAll fuel stream

/-- The spellings of the command word that `ParseInteractiveCommand` tests for. -/
def putSpellings : List Bytes :=
  ["PUT", "put", "Put"].map fun word => word.toList.map Char.toUInt8

/-- `ParseInteractiveCommand`. -/
def parseInteractiveCommand (line : Bytes) : Except String (List Bytes) :=
  let trimmed := trim line
  if trimmed = [] then .ok []
  else
    let (command, stream) := extract trimmed
    if command ∈ putSpellings then
      let (key, stream) := extract stream
      -- `getline` goes on behind the key, where the stream stands
      let value := trim (getline stream)
      if key = [] ∨ value = [] then .error "PUT requires key and value"
      else .ok [command, key, value]
    else .ok (command :: extractAll stream.length stream)

end KvStore.Client
