/-
The response builder (`http_response.cpp`).
-/
import Webserver.HttpRequest

namespace Webserver

open Cxx

inductive HttpStatus
  | ok | created | noContent | movedPermanently | found | notModified | badRequest | unauthorized
  | forbidden | notFound | methodNotAllowed | internalServerError | notImplemented | badGateway
  | serviceUnavailable
  deriving DecidableEq, Repr

namespace HttpStatus

/-- `static_cast<int>(status)` -/
def code : HttpStatus → Nat
  | ok => 200
  | created => 201
  | noContent => 204
  | movedPermanently => 301
  | found => 302
  | notModified => 304
  | badRequest => 400
  | unauthorized => 401
  | forbidden => 403
  | notFound => 404
  | methodNotAllowed => 405
  | internalServerError => 500
  | notImplemented => 501
  | badGateway => 502
  | serviceUnavailable => 503

/-- `HttpResponse::get_status_text` -/
def text : HttpStatus → Bytes
  | ok => bytes "OK"
  | created => bytes "Created"
  | noContent => bytes "No Content"
  | movedPermanently => bytes "Moved Permanently"
  | found => bytes "Found"
  | notModified => bytes "Not Modified"
  | badRequest => bytes "Bad Request"
  | unauthorized => bytes "Unauthorized"
  | forbidden => bytes "Forbidden"
  | notFound => bytes "Not Found"
  | methodNotAllowed => bytes "Method Not Allowed"
  | internalServerError => bytes "Internal Server Error"
  | notImplemented => bytes "Not Implemented"
  | badGateway => bytes "Bad Gateway"
  | serviceUnavailable => bytes "Service Unavailable"

end HttpStatus

/-- The order a `std::unordered_map` yields its entries in, which the standard
leaves open: some permutation of them. -/
structure MapOrder where
  arrange : List (Bytes × Bytes) → List (Bytes × Bytes)
  perm : ∀ l, (arrange l).Perm l

/-- The order of insertion, latest first. -/
def MapOrder.newestFirst : MapOrder := ⟨id, fun _ => .refl _⟩

/-- `std::tm`, as `gmtime` fills it; the year counts from 1900. -/
structure Tm where
  sec : Nat
  min : Nat
  hour : Nat
  mday : Nat
  mon : Fin 12
  year : Nat
  wday : Fin 7

structure HttpResponse where
  status : HttpStatus
  headers : StringMap := ∅
  body : Bytes := []

namespace HttpResponse

def version : Bytes := bytes "HTTP/1.1"

def setStatus (r : HttpResponse) (status : HttpStatus) : HttpResponse := { r with status }

def setHeader (r : HttpResponse) (name value : Bytes) : HttpResponse :=
  { r with headers := r.headers.insert name value }

def setContentLength (r : HttpResponse) (length : Nat) : HttpResponse :=
  r.setHeader (bytes "Content-Length") (decimal length)

def setBody (r : HttpResponse) (body : Bytes) : HttpResponse :=
  { r with body }.setContentLength body.length

def appendBody (r : HttpResponse) (data : Bytes) : HttpResponse := r.setBody (r.body ++ data)

def setContentType (r : HttpResponse) (contentType : Bytes) : HttpResponse :=
  r.setHeader (bytes "Content-Type") contentType

def setKeepAlive (r : HttpResponse) (keepAlive : Bool) : HttpResponse :=
  if keepAlive then
    (r.setHeader (bytes "Connection") (bytes "keep-alive")).setHeader (bytes "Keep-Alive")
      (bytes "timeout=30, max=100")
  else r.setHeader (bytes "Connection") (bytes "close")

def setServerHeader (r : HttpResponse) (serverName : Bytes) : HttpResponse :=
  r.setHeader (bytes "Server") serverName

/-- `%a` of `std::put_time`, in the C locale. -/
def weekday : Fin 7 → Bytes :=
  ![bytes "Sun", bytes "Mon", bytes "Tue", bytes "Wed", bytes "Thu", bytes "Fri", bytes "Sat"]

/-- `%b` of `std::put_time`, in the C locale. -/
def monthName : Fin 12 → Bytes :=
  ![bytes "Jan", bytes "Feb", bytes "Mar", bytes "Apr", bytes "May", bytes "Jun", bytes "Jul",
    bytes "Aug", bytes "Sep", bytes "Oct", bytes "Nov", bytes "Dec"]

/-- A number with two digits at least. -/
def twoDigits (n : Nat) : Bytes := if n < 10 then bytes "0" ++ decimal n else decimal n

/-- `format_date`, for the time `gmtime` answers. -/
def formatDate (time : Tm) : Bytes :=
  weekday time.wday ++ bytes ", " ++ twoDigits time.mday ++ bytes " " ++ monthName time.mon ++
    bytes " " ++ decimal (1900 + time.year) ++ bytes " " ++ twoDigits time.hour ++ bytes ":" ++
    twoDigits time.min ++ bytes ":" ++ twoDigits time.sec ++ bytes " GMT"

/-- `HttpResponse(status)`, constructed when `format_date()` reads `date`. -/
def new (status : HttpStatus) (date : Bytes) : HttpResponse :=
  (({ status : HttpResponse }.setHeader (bytes "Date") date).setServerHeader
    (bytes "MultithreadedWebServer/1.0")).setHeader (bytes "Connection") (bytes "close")

/-- One header as `to_string` prints it. -/
def headerLine (h : Bytes × Bytes) : Bytes := h.1 ++ bytes ": " ++ h.2 ++ bytes "\r\n"

def toString (order : MapOrder) (r : HttpResponse) : Bytes :=
  version ++ bytes " " ++ decimal r.status.code ++ bytes " " ++ r.status.text ++ bytes "\r\n" ++
    (order.arrange (r.headers.entries.map fun e => (e.1, e.2))).flatMap headerLine ++
    bytes "\r\n" ++ r.body

def mimeTypes : List (Bytes × Bytes) :=
  [(bytes ".html", bytes "text/html; charset=utf-8"),
   (bytes ".htm", bytes "text/html; charset=utf-8"),
   (bytes ".css", bytes "text/css"),
   (bytes ".js", bytes "application/javascript"),
   (bytes ".json", bytes "application/json"),
   (bytes ".xml", bytes "application/xml"),
   (bytes ".txt", bytes "text/plain; charset=utf-8"),
   (bytes ".jpg", bytes "image/jpeg"),
   (bytes ".jpeg", bytes "image/jpeg"),
   (bytes ".png", bytes "image/png"),
   (bytes ".gif", bytes "image/gif"),
   (bytes ".svg", bytes "image/svg+xml"),
   (bytes ".ico", bytes "image/x-icon"),
   (bytes ".pdf", bytes "application/pdf"),
   (bytes ".zip", bytes "application/zip"),
   (bytes ".tar", bytes "application/x-tar"),
   (bytes ".gz", bytes "application/gzip"),
   (bytes ".mp3", bytes "audio/mpeg"),
   (bytes ".mp4", bytes "video/mp4"),
   (bytes ".avi", bytes "video/x-msvideo"),
   (bytes ".mov", bytes "video/quicktime"),
   (bytes ".wav", bytes "audio/wav"),
   (bytes ".woff", bytes "font/woff"),
   (bytes ".woff2", bytes "font/woff2"),
   (bytes ".ttf", bytes "font/ttf"),
   (bytes ".otf", bytes "font/otf")]

def getMimeType (fileExtension : Bytes) : Bytes :=
  (mimeTypes.lookup (lower fileExtension)).getD (bytes "application/octet-stream")

/-- The page `create_error_response` renders. -/
def errorPage (status : HttpStatus) (message : Bytes) : Bytes :=
  let message := if message = [] then status.text else message
  let title := decimal status.code ++ bytes " " ++ status.text
  bytes "<!DOCTYPE html>\n" ++ bytes "<html><head><title>" ++ title ++
    bytes "</title></head>\n" ++ bytes "<body>\n" ++ bytes "<h1>" ++ title ++ bytes "</h1>\n" ++
    bytes "<p>" ++ message ++ bytes "</p>\n" ++ bytes "<hr>\n" ++
    bytes "<p><em>MultithreadedWebServer/1.0</em></p>\n" ++ bytes "</body></html>\n"

def createErrorResponse (status : HttpStatus) (message date : Bytes) : HttpResponse :=
  ((new status date).setBody (errorPage status message)).setContentType
    (bytes "text/html; charset=utf-8")

/-- `create_file_response`, for a file whose path has this `extension()`. -/
def createFileResponse (extension fileContent date : Bytes) : HttpResponse :=
  ((new .ok date).setBody fileContent).setContentType (getMimeType extension)

end HttpResponse

end Webserver
