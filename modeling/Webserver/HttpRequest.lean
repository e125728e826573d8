/-
The request parser (`http_request.cpp`), function by function.
-/
import Webserver.Strings

namespace Webserver

open Cxx

inductive HttpMethod
  | get | post | put | delete | head | options | unknown
  deriving DecidableEq, Repr

/-- `std::unordered_map<std::string, std::string>` -/
abbrev StringMap := AList fun _ : Bytes => Bytes

structure HttpRequest where
  method : HttpMethod := .unknown
  path : Bytes := []
  queryString : Bytes := []
  version : Bytes := []
  body : Bytes := []
  headers : StringMap := ∅
  queryParams : StringMap := ∅
  valid : Bool := false

namespace HttpRequest

def methodToString : HttpMethod → Bytes
  | .get => bytes "GET"
  | .post => bytes "POST"
  | .put => bytes "PUT"
  | .delete => bytes "DELETE"
  | .head => bytes "HEAD"
  | .options => bytes "OPTIONS"
  | .unknown => bytes "UNKNOWN"

def stringToMethod (s : Bytes) : HttpMethod :=
  if s = bytes "GET" then .get
  else if s = bytes "POST" then .post
  else if s = bytes "PUT" then .put
  else if s = bytes "DELETE" then .delete
  else if s = bytes "HEAD" then .head
  else if s = bytes "OPTIONS" then .options
  else .unknown

/-- `url_decode`: after a `%` with two more bytes, whatever `sscanf("%x")`
makes of the two is cast to a `char`, and both are skipped. -/
def urlDecode : Bytes → Bytes
  | [] => []
  | [a] => [if a = 43 then 32 else a]
  | [a, b] => (if a = 43 then 32 else a) :: urlDecode [b]
  | a :: b :: c :: s =>
    if a = 37 then
      match scanHex [b, c] with
      | some v => UInt8.ofNat v :: urlDecode s
      | none => a :: urlDecode (b :: c :: s)
    else (if a = 43 then 32 else a) :: urlDecode (b :: c :: s)

/-- `stream >> method_str >> path_with_query >> version` -/
def requestWords (line : Bytes) : Option (Bytes × Bytes × Bytes) := do
  let (methodStr, s) ← word line
  let (pathWithQuery, s) ← word s
  let (version, _) ← word s
  return (methodStr, pathWithQuery, version)

def parseRequestLine (r : HttpRequest) (line : Bytes) : HttpRequest :=
  match requestWords line with
  | none => r
  | some (methodStr, pathWithQuery, version) =>
    let (path, query) := (cut 63 pathWithQuery).getD (pathWithQuery, r.queryString)
    { r with method := stringToMethod methodStr, version := version, path := urlDecode path,
             queryString := query }

/-- The name and value of a header line: trimmed, the name in lower case. -/
def splitHeader (line : Bytes) : Option (Bytes × Bytes) :=
  (cut 58 line).map fun (name, value) => (lower (trimRight name), trimRight (trimLeft value))

def parseHeaderLine (r : HttpRequest) (line : Bytes) : HttpRequest :=
  match splitHeader line with
  | none => r
  | some (name, value) => { r with headers := r.headers.insert name value }

/-- One `pair` of the query string. -/
def parsePair (m : StringMap) (pair : Bytes) : StringMap :=
  match cut 61 pair with
  | some (key, value) => m.insert (urlDecode key) (urlDecode value)
  | none => m.insert (urlDecode pair) []

def parseQueryString (r : HttpRequest) : HttpRequest :=
  { r with queryParams := (getlines 38 r.queryString).foldl parsePair r.queryParams }

def getHeader (r : HttpRequest) (name : Bytes) : Bytes :=
  (r.headers.lookup (lower name)).getD []

def isKeepAlive (r : HttpRequest) : Bool :=
  let connection := lower (r.getHeader (bytes "connection"))
  if r.version = bytes "HTTP/1.1" then connection ≠ bytes "close"
  else connection = bytes "keep-alive"

/-- `c < 0x20 || c == 0x7F` for a signed `char`: the bytes from `0x80` on
are negative and so below `0x20`. -/
def isControl (c : UInt8) : Bool := c.toInt8 < 0x20 || c == 0x7F

/-- The last check of `is_request_valid`, on the body of a POST or PUT. -/
def bodyLengthOk (r : HttpRequest) : Bool :=
  let header := r.getHeader (bytes "content-length")
  if header = [] then true
  else match stoull header with
    | none => false
    | some contentLength =>
      if r.body.length ≠ contentLength then contentLength ≤ r.body.length else true

def isRequestValid (r : HttpRequest) : Bool :=
  if r.method = .unknown then false
  else if r.path.head? ≠ some 47 then false
  else if r.version ≠ bytes "HTTP/1.0" ∧ r.version ≠ bytes "HTTP/1.1" then false
  else if r.path.any isControl then false
  else if r.method = .post ∨ r.method = .put then r.bodyLengthOk
  else true

/-- A trailing `\r` of a line is dropped. -/
def stripCr (line : Bytes) : Bytes := if line.getLast? = some cr then line.dropLast else line

/-- The state of `parse`'s loop over the lines. -/
structure ParseState where
  request : HttpRequest := {}
  firstLine : Bool := true
  headersDone : Bool := false
  body : Bytes := []

/-- One turn of `parse`'s loop. -/
def parseLine (p : ParseState) (line : Bytes) : ParseState :=
  let line := stripCr line
  if p.firstLine then { p with request := p.request.parseRequestLine line, firstLine := false }
  else if !p.headersDone then
    if line = [] then { p with headersDone := true }
    else { p with request := p.request.parseHeaderLine line }
  else { p with body := (if p.body ≠ [] then p.body ++ [lf] else p.body) ++ line }

def parse (raw : Bytes) : HttpRequest :=
  if raw = [] then {}
  else
    let p := (getlines lf raw).foldl parseLine {}
    let request := parseQueryString { p.request with body := p.body }
    { request with valid := request.isRequestValid }

end HttpRequest

end Webserver
