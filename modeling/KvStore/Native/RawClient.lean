import KvStore.Native.Client
import KvStore.Native.CommandProcessor

/-!
# The client with `--raw-resp`

Model of the loop of the client that forwards frames from its input: it collects lines until
one that is a dot, and writes what it has collected. The bytes are written and the answers read
as by the client that takes commands; here both succeed.
-/

namespace KvStore

namespace RawClient

def newline : UInt8 := 10

/-- What `std::getline` returns until it fails. -/
def getlines (text : Bytes) : List Bytes :=
  let lines := text.splitOn newline
  -- nothing is read behind the last line end
  if lines.getLast? = some [] then lines.dropLast else lines

/-- The body of the loop: `raw_buffer` afterwards, and what is written. -/
def forwardLine (rawBuffer line : Bytes) : Bytes × Option Bytes :=
  if line = [] then (rawBuffer, none)
  else
    let rawBuffer := rawBuffer ++ line ++ [newline]
    if line = ascii "." then ([], some (rawBuffer.take (rawBuffer.length - 2)))
    else (rawBuffer, none)

/-- The loop. Returns what is written, one string for each dot. -/
def forwardLines (rawBuffer : Bytes) : List Bytes → List Bytes
  | [] => []
  | line :: lines =>
    match forwardLine rawBuffer line with
    | (rawBuffer, none) => forwardLines rawBuffer lines
    | (rawBuffer, some payload) => payload :: forwardLines rawBuffer lines

/-- What is written for an input. -/
def forward (input : Bytes) : List Bytes := forwardLines [] (getlines input)

end RawClient

end KvStore
