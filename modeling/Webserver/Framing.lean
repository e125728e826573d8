/-
`Server::is_http_request_complete`, the test that decides when a
connection's buffer holds a whole request.
-/
import Webserver.HttpRequest

namespace Webserver

open Cxx

/-- The loop over the header lines: the `std::stoull` of the first
`Content-Length`'s value, `none` when the loop meets none or `stoull` throws.
An empty line ends the loop, a line of one `\r` does not. -/
def scanContentLength : List Bytes → Option Nat
  | [] => none
  | line :: rest =>
    if line = [] then none
    else match HttpRequest.splitHeader (HttpRequest.stripCr line) with
      | none => scanContentLength rest
      | some (name, value) =>
        if name = bytes "content-length" then stoull value else scanContentLength rest

/-- The `Content-Length` the framing scan finds in the bytes before the first
blank line; the request line is skipped. -/
def framedLength (headers : Bytes) : Option Nat :=
  scanContentLength ((getlines lf headers).drop 1)

def isHttpRequestComplete (buffer : Bytes) : Bool :=
  match find (bytes "\r\n\r\n") buffer with
  | none => false
  | some headerEnd =>
    let expectedSize := addSize headerEnd 4
    let expectedSize := match framedLength (buffer.take headerEnd) with
      | some contentLength => addSize expectedSize contentLength
      | none => expectedSize
    expectedSize ≤ buffer.length

end Webserver
