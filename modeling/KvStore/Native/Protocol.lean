import KvStore.ForStd.Decimal

/-!
# The request codec

A request is an array of bulk strings, each behind its length: `EncodeResp` of the client
writes it, and `RequestCodec` collects the bytes of a connection and takes the requests
that are complete out of them. Lengths are read with `std::strtoul` and added up in
`std::size_t`, which has 64 bits.
-/

namespace KvStore

/-- The line end. -/
def crlf : Bytes := [13, 10]

/-- The number of values of `std::size_t`, and of `unsigned long`. -/
def sizeMod : Nat := 2 ^ 64

/-- One more than `std::string::max_size`. -/
def maxSize : Nat := 2 ^ 63

/-- `std::string::substr`. -/
def substr (text : Bytes) (pos count : Nat) : Bytes := (text.drop pos).take count

/-- The position of the first line end of a text. -/
def findCrlf : Bytes → Option Nat
  | [] => none
  | byte :: text => if crlf <+: byte :: text then some 0 else (findCrlf text).map (· + 1)

/-- `text.find("\r\n", pos)`. -/
def find (text : Bytes) (pos : Nat) : Option Nat := (findCrlf (text.drop pos)).map (pos + ·)

/-! ## Numbers -/

/-- `std::isspace` in the `C` locale. -/
def isspace (ch : UInt8) : Bool := ch = 32 || (9 ≤ ch && ch ≤ 13)

/-- The characters of `text.c_str()` before its first `NUL`. -/
def cStr (text : Bytes) : Bytes := text.takeWhile (· ≠ 0)

/-- What `std::strtoul` returns, the offset of `end`, and whether it sets `errno`. -/
structure Strtoul where
  parsed : Nat
  offset : Nat
  outOfRange : Bool

/-- The sign that a number may start with: whether it is a minus, and its length. -/
def signOf : Bytes → Bool × Nat
  | [] => (false, 0)
  | ch :: _ =>
    if ch = '-'.toUInt8 then (true, 1) else if ch = '+'.toUInt8 then (false, 1) else (false, 0)

/-- `std::strtoul` with base ten: blanks, a sign and digits. -/
def strtoul (str : Bytes) : Strtoul :=
  let blanks := str.takeWhile isspace
  let text := str.dropWhile isspace
  let (negative, sign) := signOf text
  let digits := (text.drop sign).takeWhile isDecimalDigit
  let offset := blanks.length + sign + digits.length
  -- without digits `end` is `text.c_str()`, where the text begins
  if digits = [] then { parsed := 0, offset := 0, outOfRange := false }
  -- `ULONG_MAX`, and `errno` is `ERANGE`
  else if sizeMod ≤ ofDecimal digits then { parsed := sizeMod - 1, offset, outOfRange := true }
  -- the number behind a minus is negated in `unsigned long`
  else if negative then
    { parsed := (sizeMod - ofDecimal digits) % sizeMod, offset, outOfRange := false }
  else { parsed := ofDecimal digits, offset, outOfRange := false }

/-- `TryParseSize`. -/
def tryParseSize (text : Bytes) : Option Nat :=
  if text = [] then none
  else
    let result := strtoul (cStr text)
    -- `*end` must be the `NUL` that ends the text
    if result.outOfRange ∨ result.offset = 0 ∨ (cStr text).getD result.offset 0 ≠ 0 then none
    else some result.parsed

/-! ## Decoding -/

structure DecodedRequest where
  tokens : List Bytes
deriving DecidableEq, Repr

/-- The second half of a round of the loop of `TryExtractResp`: the token and the cursor
    behind it, or nothing if the bytes are not all there. -/
def readData (buffer : Bytes) (dataBegin tokenSize : Nat) :
    Except String (Option (Bytes × Nat)) :=
  -- both sums are sums of `std::size_t`
  let dataEnd := (dataBegin + tokenSize) % sizeMod
  let cursor := (dataEnd + 2) % sizeMod
  if buffer.length < cursor then .ok none
  -- `compare` throws if the position is past the end
  else if buffer.length < dataEnd then .error "basic_string::compare"
  else if substr buffer dataEnd 2 ≠ crlf then .error "invalid RESP bulk string terminator"
  else .ok (some (substr buffer dataBegin tokenSize, cursor))

/-- One round of the loop of `TryExtractResp`. -/
def readToken (buffer : Bytes) (cursor : Nat) : Except String (Option (Bytes × Nat)) :=
  if buffer.length ≤ cursor then .ok none
  else if buffer.getD cursor 0 ≠ '$'.toUInt8 then .error "invalid RESP bulk string prefix"
  else
    match find buffer cursor with
    | none => .ok none
    | some sizeLineEnd =>
      match tryParseSize (substr buffer (cursor + 1) (sizeLineEnd - cursor - 1)) with
      | none => .error "invalid RESP bulk string length"
      | some tokenSize => readData buffer (sizeLineEnd + 2) tokenSize

/-- The loop of `TryExtractResp`, with the number of tokens that are left to read. -/
def readTokens (buffer : Bytes) :
    Nat → Nat → List Bytes → Except String (Option (List Bytes × Nat))
  | 0, cursor, tokens => .ok (some (tokens, cursor))
  | count + 1, cursor, tokens =>
    match readToken buffer cursor with
    | .error error => .error error
    | .ok none => .ok none
    | .ok (some (token, cursor)) => readTokens buffer count cursor (tokens ++ [token])

/-- `TryExtractResp` up to the call of `erase`: the tokens, and the cursor behind them.
    `reserve` is what `tokens.reserve` throws for a count, if anything. -/
def readRequest (reserve : Nat → Option String) (buffer : Bytes) :
    Except String (Option (List Bytes × Nat)) :=
  match buffer with
  | [] => .ok none
  | front :: _ =>
    if front ≠ '*'.toUInt8 then .error "RESP request must start with '*'"
    else
      match find buffer 0 with
      | none => .ok none
      | some arrayLineEnd =>
        match tryParseSize (substr buffer 1 (arrayLineEnd - 1)) with
        | none => .error "invalid RESP array length"
        | some tokenCount =>
          -- room is asked for before a single token is looked at
          match reserve tokenCount with
          | some error => .error error
          | none => readTokens buffer tokenCount (arrayLineEnd + 2) []

/-- `TryExtractResp`, which erases the bytes before the cursor: the request at the beginning of
    the buffer and the bytes behind it, or nothing if the function returns `false`. -/
def tryExtractRespWith (reserve : Nat → Option String) (buffer : Bytes) :
    Except String (Option (DecodedRequest × Bytes)) :=
  match readRequest reserve buffer with
  | .error error => .error error
  | .ok none => .ok none
  | .ok (some (tokens, cursor)) => .ok (some ({ tokens }, buffer.drop cursor))

/-- `TryExtractResp` when there is room for any number of tokens. -/
def tryExtractResp : Bytes → Except String (Option (DecodedRequest × Bytes)) :=
  tryExtractRespWith fun _ => none

/-- `RequestCodec`. -/
structure RequestCodec where
  buffer : Bytes := []

namespace RequestCodec

/-- `Append`. -/
def append (codec : RequestCodec) (data : Bytes) : RequestCodec :=
  { codec with buffer := codec.buffer ++ data }

/-- The loop of `ExtractRequests`. Every round but the last takes a request off the front,
    so there are no more rounds than bytes. -/
def extractLoop (reserve : Nat → Option String) : Nat → Bytes → List DecodedRequest →
    Except String (List DecodedRequest) × RequestCodec
  | 0, buffer, requests => (.ok requests, { buffer })
  | fuel + 1, buffer, requests =>
    if buffer = [] then (.ok requests, { buffer })
    else
      match tryExtractRespWith reserve buffer with
      | .error error => (.error error, { buffer })
      | .ok none => (.ok requests, { buffer })
      | .ok (some (request, rest)) => extractLoop reserve fuel rest (requests ++ [request])

/-- `ExtractRequests`. -/
def extractRequestsWith (reserve : Nat → Option String) (codec : RequestCodec) :
    Except String (List DecodedRequest) × RequestCodec :=
  extractLoop reserve codec.buffer.length codec.buffer []

/-- `ExtractRequests` when there is room for any number of tokens. -/
def extractRequests : RequestCodec → Except String (List DecodedRequest) × RequestCodec :=
  extractRequestsWith fun _ => none

end RequestCodec

/-- The loop of `ExtractRequests` as one that may go on for ever, with what `reserve` throws in
    its rounds from the `i`-th on. The value `none` stands for a loop that is still running when
    its fuel is used up. -/
def extractRounds (reserve : Nat → Nat → Option String) :
    Nat → Nat → Bytes → List DecodedRequest →
      Option (Except String (List DecodedRequest) × RequestCodec)
  | 0, _, _, _ => none
  | fuel + 1, i, buffer, requests =>
    if buffer = [] then some (.ok requests, { buffer })
    else
      match tryExtractRespWith (reserve i) buffer with
      | .error error => some (.error error, { buffer })
      | .ok none => some (.ok requests, { buffer })
      | .ok (some (request, rest)) =>
        extractRounds reserve fuel (i + 1) rest (requests ++ [request])

/-! ## Encoding -/

/-- One round of the loop of `EncodeResp`. -/
def encodeToken (token : Bytes) : Bytes :=
  '$'.toUInt8 :: toDecimal token.length ++ crlf ++ token ++ crlf

/-- `EncodeResp`. -/
def encodeResp (tokens : List Bytes) : Bytes :=
  '*'.toUInt8 :: toDecimal tokens.length ++ crlf ++ tokens.flatMap encodeToken

end KvStore
