/-
The server (`server.cpp`): the shared state, the code of the event thread,
of the workers and of `stop()`, and the steps they take in any order.

A thread is at a point of its code (`EventPc`, `WorkerPc`, `StopPc`; the two
functions both kinds of thread call are `SubPc`). One step performs one lock
operation or one system call, together with the code up to it: a section is
entered by a step that only locks the mutex, and its body runs in the steps
that follow, the last of which unlocks it. What a system call answers, what
`epoll_wait` reports and what the file handler serves is the step's `Input`.

`Shared.log` is not in the source: it records what the steps did, in order,
and no step reads it.
-/
import Webserver.Framing
import Webserver.HttpResponse
import Webserver.Locks
import Webserver.Systems

namespace Webserver

open Cxx Locks Systems

/-- A descriptor number. -/
abbrev Fd := Nat

/-- A socket the kernel accepted: the how-manieth. -/
abbrev Sock := Nat

/-- A `Connection` object: the how-manieth constructed. -/
abbrev ConnId := Nat

def bufferSize : Nat := 4096
def connectionTimeoutSeconds : Int := 30
def maxRequestSize : Nat := 64 * 1024

/-- `struct Connection`, less its mutex. Times are in nanoseconds. -/
structure Connection where
  fd : Fd
  buffer : Bytes := []
  keepAlive : Bool := false
  lastActivity : Int
  pendingResponse : Bytes := []
  responseOffset : Nat := 0
  hasPendingWrite : Bool := false
  processingRequest : Bool := false
  /-- Not in the source: the socket `fd` stood for at construction. -/
  sock : Option Sock := none

/-- Why `recv` returned no bytes: the peer closed the connection, `EAGAIN`,
`EWOULDBLOCK` or `EINTR`, or another error. -/
inductive RecvFailure
  | closed | again | error
  deriving DecidableEq

/-- What `send` answers: how many bytes it took, `EAGAIN` or `EWOULDBLOCK`,
`EINTR`, or another error. -/
inductive SendResult
  | accepts (n : Nat)
  | again | interrupted | error
  deriving DecidableEq

/-- What a step did. -/
inductive Event
  | accepted (fd : Fd) (k : Sock)
  | closed (fd : Fd) (k : Sock)
  | registered (c : ConnId)
  | unregistered (c : ConnId)
  | recvFailed (c : ConnId) (why : RecvFailure)
  | tooLarge (c : ConnId)
  | received (c : ConnId) (chunk : Bytes)
  | dispatched (c : ConnId)
  | parsed (c : ConnId) (input : Bytes)
  | stored (c : ConnId) (response : Bytes)
  | sent (c : ConnId) (k : Sock) (part : Bytes)
  | sendFailed (c : ConnId) (r : SendResult)
  | finished (c : ConnId)
  | cleared (c : ConnId)
  | swept (c : ConnId)
  | stopping
  deriving DecidableEq

structure Shared where
  serverFd : Fd
  maxConnections : Nat
  order : MapOrder
  /-- `connections_` -/
  connections : AList fun _ : Fd => ConnId
  /-- The `Connection` objects constructed so far are those below `created`. -/
  heap : ConnId → Connection
  created : Nat
  /-- The kernel's descriptors: which socket a number denotes. -/
  fds : Fd → Option Sock
  accepted : Nat
  /-- The epoll set: whether a registered descriptor waits for `EPOLLOUT` too. -/
  interest : Fd → Option Bool
  /-- The thread pool's queue. -/
  tasks : List ConnId
  poolShutdown : Bool
  running : Bool
  clock : Int
  log : List Event

namespace Shared

def emit (s : Shared) (e : Event) : Shared := { s with log := s.log ++ [e] }

def setConn (s : Shared) (c : ConnId) (conn : Connection) : Shared :=
  { s with heap := Function.update s.heap c conn }

/-- `epoll_->add_fd(fd, EPOLLIN | EPOLLHUP | EPOLLERR)` -/
def addFd (s : Shared) (fd : Fd) : Shared :=
  { s with interest := Function.update s.interest fd (some false) }

/-- `epoll_->modify_fd`, with `EPOLLOUT` or without; `ok` is its answer. -/
def modifyFd (s : Shared) (fd : Fd) (out ok : Bool) : Shared :=
  if ok then { s with interest := Function.update s.interest fd ((s.interest fd).map fun _ => out) }
  else s

/-- `epoll_->remove_fd(fd)` -/
def removeFd (s : Shared) (fd : Fd) : Shared :=
  { s with interest := Function.update s.interest fd none }

/-- `close(fd)`: the number is free again, and epoll forgets it. -/
def closeFd (s : Shared) (fd : Fd) : Shared :=
  match s.fds fd with
  | none => s
  | some k => { s.removeFd fd with fds := Function.update s.fds fd none }.emit (.closed fd k)

/-- `connections_.erase(fd)` -/
def unregister (s : Shared) (fd : Fd) : Shared :=
  match s.connections.lookup fd with
  | none => s
  | some c => { s with connections := s.connections.erase fd }.emit (.unregistered c)

end Shared

/-- What the environment answers to a step. -/
inductive Input
  | go
  /-- `epoll_wait` reports these descriptors: `inn` stands for `EPOLLIN`,
  `EPOLLHUP` or `EPOLLERR`, `out` for `EPOLLOUT`. -/
  | polled (events : List (Fd × Bool × Bool))
  | pollFails
  | accepts (fd : Fd)
  | acceptFails (again : Bool)
  | ok (success : Bool)
  | receives (chunk : Bytes)
  | recvFails (why : RecvFailure)
  | sends (r : SendResult) (ctl : Bool)
  /-- The file handler or the API handler answers `served`; the clock reads
  `date`. -/
  | serves (served : HttpResponse) (date : Bytes)
  | leaves

inductive Mutex
  | connections
  | conn (c : ConnId)
  deriving DecidableEq

/-! ## `close_connection` and `send_response_async` -/

inductive SubPc
  | closeLock (fd : Fd)
  | closeFind (fd : Fd)
  | closeMiss
  | closeLockConn (fd : Fd) (c : ConnId)
  | closeReadPending (fd : Fd) (c : ConnId)
  | closeErase (fd : Fd)
  | closeRemoveFd (fd : Fd)
  | closeFd (fd : Fd)
  | sendLock (c : ConnId)
  | send (c : ConnId)
  deriving DecidableEq

namespace SubPc

def lockOp : SubPc → LockOp Mutex
  | closeLock _ => .lock .connections
  | closeMiss => .unlock .connections
  | closeLockConn _ c => .lock (.conn c)
  | closeReadPending _ c => .unlock (.conn c)
  | closeErase _ => .unlock .connections
  | sendLock c => .lock (.conn c)
  | send c => .unlock (.conn c)
  | closeFind _ | closeRemoveFd _ | closeFd _ => .skip

/-- The mutexes held at a point, the one taken last first. -/
def holds : SubPc → List Mutex
  | closeFind _ | closeMiss | closeLockConn _ _ | closeErase _ => [.connections]
  | closeReadPending _ c => [.conn c, .connections]
  | send c => [.conn c]
  | closeLock _ | closeRemoveFd _ | closeFd _ | sendLock _ => []

/-- After the last byte of a response: the slot is emptied, and the
connection closed if it is not kept alive. -/
def sendDone (s : Shared) (c : ConnId) (ctl : Bool) : Shared × Option SubPc :=
  let conn := s.heap c
  let s := (s.setConn c { conn with hasPendingWrite := false, pendingResponse := [],
                                    responseOffset := 0 }).modifyFd conn.fd false ctl
  if conn.keepAlive then (s, none) else (s.emit (.finished c), some (.closeLock conn.fd))

/-- After a failed `send`: the connection is closed. -/
def sendFailed (s : Shared) (c : ConnId) (r : SendResult) : Shared × Option SubPc :=
  let conn := s.heap c
  ((s.setConn c { conn with keepAlive := false, hasPendingWrite := false }).emit (.sendFailed c r),
    some (.closeLock conn.fd))

/-- The section of `send_response_async`. The kernel takes bytes only on a
number that denotes a socket, and no more than it was given. -/
def sendStep (s : Shared) (c : ConnId) (r : SendResult) (ctl : Bool) :
    Option (Shared × Option SubPc) :=
  let conn := s.heap c
  if !conn.hasPendingWrite then some (s, none)
  else
    let rest := conn.pendingResponse.drop conn.responseOffset
    if rest = [] then some (sendDone s c ctl)
    else match r with
      | .again => some (s.modifyFd conn.fd true ctl, none)
      | .interrupted | .error | .accepts 0 => some (sendFailed s c r)
      | .accepts n =>
        match s.fds conn.fd with
        | none => none
        | some k =>
          if rest.length < n then none
          else
            let s := (s.setConn c { conn with responseOffset := conn.responseOffset + n }).emit
              (.sent c k (rest.take n))
            if rest.length = n then some (sendDone s c ctl)
            else some (s.modifyFd conn.fd true ctl, none)

/-- A step at a point of the two functions; `none` as the next point returns
to the caller. -/
def exec (s : Shared) : SubPc → Input → Option (Shared × Option SubPc)
  | closeLock fd, .go => some (s, some (closeFind fd))
  | closeFind fd, .go =>
    match s.connections.lookup fd with
    | none => some (s, some closeMiss)
    | some c => some (s, some (closeLockConn fd c))
  | closeMiss, .go => some (s, none)
  | closeLockConn fd c, .go => some (s, some (closeReadPending fd c))
  | closeReadPending fd _, .go => some (s, some (closeErase fd))
  | closeErase fd, .go => some (s.unregister fd, some (closeRemoveFd fd))
  | closeRemoveFd fd, .go => some (s.removeFd fd, some (closeFd fd))
  | closeFd fd, .go => some (s.closeFd fd, none)
  | sendLock c, .go => some (s, some (send c))
  | send c, .sends r ctl => sendStep s c r ctl
  | _, _ => none

end SubPc

/-! ## The event thread -/

/-- A handler call the loop over a batch of events makes. -/
inductive Call
  | accept
  | data (fd : Fd)
  | write (fd : Fd)
  deriving DecidableEq

/-- The calls the loop body makes for one event. -/
def calls (serverFd : Fd) : Fd × Bool × Bool → List Call
  | (fd, inn, out) =>
    if fd = serverFd then if inn then [.accept] else []
    else (if inn then [.data fd] else []) ++ if out then [.write fd] else []

/-- Where the event thread goes on after `close_connection` or
`send_response_async`. -/
inductive EventRet
  | calls (k : List Call)
  | cleanup (fds : List Fd)
  deriving DecidableEq

/-- The event thread's code; `k` are the calls left in the current batch. -/
inductive EventPc
  | loop
  | wait
  | batch (k : List Call)
  -- `handle_accept`
  | accept (k : List Call)
  | acceptLock (fd : Fd) (k : List Call)
  | acceptCheck (fd : Fd) (k : List Call)
  | acceptNonBlocking (fd : Fd) (k : List Call)
  | acceptAddFd (fd : Fd) (k : List Call)
  | acceptConnection (fd : Fd) (k : List Call)
  | acceptInsertLock (fd : Fd) (c : ConnId) (k : List Call)
  | acceptInsert (fd : Fd) (c : ConnId) (k : List Call)
  | acceptReject (fd : Fd) (k : List Call)
  -- `handle_client_data`
  | dataLock (fd : Fd) (k : List Call)
  | dataFind (fd : Fd) (k : List Call)
  | dataRecv (fd : Fd) (c : ConnId) (k : List Call)
  | dataLockConn (fd : Fd) (c : ConnId) (chunk : Bytes) (k : List Call)
  | dataLockMap (fd : Fd) (c : ConnId) (chunk : Bytes) (k : List Call)
  | dataCheck (fd : Fd) (c : ConnId) (chunk : Bytes) (k : List Call)
  | dataAppend (fd : Fd) (c : ConnId) (chunk : Bytes) (k : List Call)
  | dataEraseLock (fd : Fd) (c : ConnId) (k : List Call)
  | dataErase (fd : Fd) (c : ConnId) (k : List Call)
  | dataRemoveFd (fd : Fd) (c : ConnId) (k : List Call)
  | dataCloseFd (fd : Fd) (c : ConnId) (k : List Call)
  | dataUnlock (c : ConnId) (shouldProcess : Bool) (k : List Call)
  | enqueue (c : ConnId) (k : List Call)
  | push (c : ConnId) (k : List Call)
  -- `handle_client_write`
  | writeLock (fd : Fd) (k : List Call)
  | writeFind (fd : Fd) (k : List Call)
  -- `cleanup_inactive_connections`
  | cleanupLock (now : Int)
  | cleanupScan (now : Int) (rest : List (Fd × ConnId)) (inactive : List Fd)
  | cleanupLockConn (now : Int) (fd : Fd) (c : ConnId) (idle : Bool) (rest : List (Fd × ConnId))
      (inactive : List Fd)
  | cleanupRead (now : Int) (fd : Fd) (c : ConnId) (idle : Bool) (rest : List (Fd × ConnId))
      (inactive : List Fd)
  | cleanupUnlock (inactive : List Fd)
  | cleanupClose (fds : List Fd)
  | sub (p : SubPc) (ret : EventRet)
  /-- An exception has left `event_loop`. -/
  | thrown
  | exited
  deriving DecidableEq

namespace EventPc

def lockOp : EventPc → LockOp Mutex
  | acceptLock _ _ | acceptInsertLock _ _ _ | dataLock _ _ | dataLockMap _ _ _ _
  | dataEraseLock _ _ _ | writeLock _ _ | cleanupLock _ => .lock .connections
  | acceptCheck _ _ | acceptInsert _ _ _ | dataFind _ _ | dataCheck _ _ _ _ | dataErase _ _ _
  | writeFind _ _ | cleanupUnlock _ => .unlock .connections
  | dataLockConn _ c _ _ => .lock (.conn c)
  | dataUnlock c _ _ => .unlock (.conn c)
  | cleanupLockConn _ _ c _ _ _ => .lock (.conn c)
  | cleanupRead _ _ c _ _ _ => .unlock (.conn c)
  | sub p _ => p.lockOp
  | _ => .skip

/-- The mutexes held at a point, the one taken last first. -/
def holds : EventPc → List Mutex
  | acceptCheck _ _ | acceptInsert _ _ _ | dataFind _ _ | writeFind _ _ | cleanupScan _ _ _
  | cleanupLockConn _ _ _ _ _ _ | cleanupUnlock _ => [.connections]
  | dataLockMap _ c _ _ | dataAppend _ c _ _ | dataEraseLock _ c _ | dataRemoveFd _ c _
  | dataCloseFd _ c _ | dataUnlock c _ _ => [.conn c]
  | dataCheck _ c _ _ | dataErase _ c _ => [.connections, .conn c]
  | cleanupRead _ _ c _ _ _ => [.conn c, .connections]
  | sub p _ => p.holds
  | _ => []

/-- On with `close_connection` or `send_response_async`, or back from it. -/
def resume : EventRet → Option SubPc → EventPc
  | ret, some p => sub p ret
  | .calls k, none => batch k
  | .cleanup fds, none => cleanupClose fds

/-- The loop over a batch: the next call. -/
def nextCall (clock : Int) : List Call → EventPc
  | [] => cleanupLock clock
  | .accept :: k => accept k
  | .data fd :: k => dataLock fd k
  | .write fd :: k => writeLock fd k

/-- The chunk does not fit: `buffer.size() + bytes_received > MAX_REQUEST_SIZE`. -/
def overflows (s : Shared) (c : ConnId) (chunk : Bytes) : Bool :=
  maxRequestSize < (s.heap c).buffer.length + chunk.length

/-- The body of the section that appends a received chunk. -/
def appendStep (s : Shared) (fd : Fd) (c : ConnId) (chunk : Bytes) (k : List Call) :
    Shared × EventPc :=
  if overflows s c chunk then (s.emit (.tooLarge c), dataEraseLock fd c k)
  else
    let conn := s.heap c
    let conn := { conn with buffer := conn.buffer ++ chunk, lastActivity := s.clock }
    let s := s.emit (.received c chunk)
    if !conn.processingRequest && isHttpRequestComplete conn.buffer then
      ((s.setConn c { conn with processingRequest := true }).emit (.dispatched c),
        dataUnlock c true k)
    else (s.setConn c conn, dataUnlock c false k)

/-- What `epoll_wait` may report: registered descriptors, and `EPOLLOUT` only
where it is waited for. -/
def reportable (s : Shared) : Fd × Bool × Bool → Bool
  | (fd, _, out) => fd = s.serverFd ||
    match s.interest fd with
    | none => false
    | some waitsOut => !out || waitsOut

def exec (s : Shared) : EventPc → Input → Option (Shared × EventPc)
  | loop, .go => some (s, if s.running then wait else exited)
  | wait, .polled events =>
    if events.all (reportable s) then some (s, batch (events.flatMap (calls s.serverFd))) else none
  | wait, .pollFails => some (s, loop)
  | batch k, .go => some (s, nextCall s.clock k)
  | accept k, .accepts fd =>
    if s.fds fd = none ∧ fd ≠ s.serverFd then
      some ({ s with fds := Function.update s.fds fd (some s.accepted),
                     accepted := s.accepted + 1 }.emit (.accepted fd s.accepted), acceptLock fd k)
    else none
  | accept k, .acceptFails again => some (s, if again then batch k else accept k)
  | acceptLock fd k, .go => some (s, acceptCheck fd k)
  | acceptCheck fd k, .go =>
    if s.maxConnections ≤ s.connections.entries.length then some (s.closeFd fd, accept k)
    else some (s, acceptNonBlocking fd k)
  | acceptNonBlocking fd k, .ok success =>
    some (s, if success then acceptAddFd fd k else acceptReject fd k)
  | acceptAddFd fd k, .ok success =>
    if success then some (s.addFd fd, acceptConnection fd k) else some (s, acceptReject fd k)
  | acceptReject fd k, .go => some (s.closeFd fd, accept k)
  | acceptConnection fd k, .go =>
    some ({ s with created := s.created + 1 }.setConn s.created
      { fd := fd, lastActivity := s.clock, sock := s.fds fd }, acceptInsertLock fd s.created k)
  | acceptInsertLock fd c k, .go => some (s, acceptInsert fd c k)
  | acceptInsert fd c k, .go =>
    some ({ s with connections := s.connections.insert fd c }.emit (.registered c), accept k)
  | dataLock fd k, .go => some (s, dataFind fd k)
  | dataFind fd k, .go =>
    match s.connections.lookup fd with
    | none => some (s, batch k)
    | some c => some (s, dataRecv fd c k)
  | dataRecv fd c k, .receives chunk =>
    if (s.fds fd).isSome ∧ chunk ≠ [] ∧ chunk.length < bufferSize then
      some (s, dataLockConn fd c chunk k)
    else none
  | dataRecv fd c k, .recvFails why =>
    some (s.emit (.recvFailed c why), sub (.closeLock fd) (.calls k))
  | dataLockConn fd c chunk k, .go => some (s, dataLockMap fd c chunk k)
  | dataLockMap fd c chunk k, .go => some (s, dataCheck fd c chunk k)
  | dataCheck fd c chunk k, .go =>
    some (s, if s.connections.lookup fd = none then dataUnlock c false k
             else dataAppend fd c chunk k)
  | dataAppend fd c chunk k, .go => some (appendStep s fd c chunk k)
  | dataEraseLock fd c k, .go => some (s, dataErase fd c k)
  | dataErase fd c k, .go => some (s.unregister fd, dataRemoveFd fd c k)
  | dataRemoveFd fd c k, .go => some (s.removeFd fd, dataCloseFd fd c k)
  | dataCloseFd fd c k, .go => some (s.closeFd fd, dataUnlock c false k)
  | dataUnlock c shouldProcess k, .go => some (s, if shouldProcess then enqueue c k else batch k)
  | enqueue c k, .go => some (s, if s.poolShutdown then thrown else push c k)
  | push c k, .go => some ({ s with tasks := s.tasks ++ [c] }, batch k)
  | writeLock fd k, .go => some (s, writeFind fd k)
  | writeFind fd k, .go =>
    match s.connections.lookup fd with
    | none => some (s, batch k)
    | some c => some (s, sub (.sendLock c) (.calls k))
  | cleanupLock now, .go =>
    some (s, cleanupScan now (s.connections.entries.map fun e => (e.1, e.2)) [])
  | cleanupScan _ [] inactive, .go => some (s, cleanupUnlock inactive)
  | cleanupScan now ((fd, c) :: rest) inactive, .go =>
    let elapsed := (now - (s.heap c).lastActivity).tdiv 1000000000
    some (s, cleanupLockConn now fd c (connectionTimeoutSeconds < elapsed) rest inactive)
  | cleanupLockConn now fd c idle rest inactive, .go =>
    some (s, cleanupRead now fd c idle rest inactive)
  | cleanupRead now fd c idle rest inactive, .go =>
    if idle && !(s.heap c).hasPendingWrite then
      some (s.emit (.swept c), cleanupScan now rest (inactive ++ [fd]))
    else some (s, cleanupScan now rest inactive)
  | cleanupUnlock inactive, .go => some (s, cleanupClose inactive)
  | cleanupClose [], .go => some (s, loop)
  | cleanupClose (fd :: fds), .go => some (s, sub (.closeLock fd) (.cleanup fds))
  | sub p ret, i => (p.exec s i).map fun (s, next) => (s, resume ret next)
  | _, _ => none

end EventPc

/-! ## The workers -/

inductive WorkerPc
  | idle
  | parseLock (c : ConnId)
  | parse (c : ConnId)
  | keepLock (c : ConnId) (request : HttpRequest)
  | keep (c : ConnId) (request : HttpRequest)
  | respond (c : ConnId) (request : HttpRequest)
  | checkLock (c : ConnId) (response : HttpResponse)
  | check (c : ConnId) (response : HttpResponse)
  | unregLock (c : ConnId)
  | unreg (c : ConnId)
  | unregUnlock
  | checkUnlock (c : ConnId) (response : HttpResponse)
  | storeLock (c : ConnId) (response : HttpResponse)
  | store (c : ConnId) (response : HttpResponse)
  /-- In `send_response_async`, for the task of connection `c`. -/
  | sub (p : SubPc) (c : ConnId)
  | finishLock (c : ConnId)
  | finish (c : ConnId)
  | exited

/-- The response `handle_client_request` computes, where `served` is what the
file handler or the API handler answers to a GET or HEAD. -/
def buildResponse (request : HttpRequest) (served : HttpResponse) (date : Bytes) : HttpResponse :=
  if !request.valid then
    .createErrorResponse .badRequest (bytes "Invalid HTTP request") date
  else if request.method = .get then served
  else if request.method = .head then served.setBody []
  else .createErrorResponse .methodNotAllowed (bytes "Method not supported") date

namespace WorkerPc

def lockOp : WorkerPc → LockOp Mutex
  | parseLock c | keepLock c _ | unregLock c | storeLock c _ | finishLock c => .lock (.conn c)
  | parse c | keep c _ | unreg c | store c _ | finish c => .unlock (.conn c)
  | checkLock _ _ => .lock .connections
  | unregUnlock | checkUnlock _ _ => .unlock .connections
  | sub p _ => p.lockOp
  | idle | respond _ _ | check _ _ | exited => .skip

def holds : WorkerPc → List Mutex
  | parse c | keep c _ | store c _ | finish c => [.conn c]
  | check _ _ | unregLock _ | unregUnlock | checkUnlock _ _ => [.connections]
  | unreg c => [.conn c, .connections]
  | sub p _ => p.holds
  | _ => []

/-- On with `send_response_async`, or back from it. -/
def resume (c : ConnId) : Option SubPc → WorkerPc
  | some p => sub p c
  | none => finishLock c

/-- A worker at its loop takes the front of the queue, or leaves once the
pool is shut down; then `handle_client_request` runs. -/
def exec (s : Shared) : WorkerPc → Input → Option (Shared × WorkerPc)
  | idle, .go =>
    match s.tasks with
    | [] => none
    | c :: rest => some ({ s with tasks := rest }, parseLock c)
  | idle, .leaves => if s.poolShutdown then some (s, exited) else none
  | parseLock c, .go => some (s, parse c)
  | parse c, .go =>
    let input := (s.heap c).buffer
    let request := HttpRequest.parse input
    some (s.emit (.parsed c input), if request.valid then keepLock c request else respond c request)
  | keepLock c request, .go => some (s, keep c request)
  | keep c request, .go =>
    some (s.setConn c { s.heap c with keepAlive := request.isKeepAlive }, respond c request)
  | respond c request, .serves served date =>
    some (s, checkLock c ((buildResponse request served date).setKeepAlive (s.heap c).keepAlive))
  | checkLock c response, .go => some (s, check c response)
  | check c response, .go =>
    some (s, if s.connections.lookup (s.heap c).fd = none then unregLock c
             else checkUnlock c response)
  | unregLock c, .go => some (s, unreg c)
  | unreg c, .go => some (s.setConn c { s.heap c with processingRequest := false }, unregUnlock)
  | unregUnlock, .go => some (s, idle)
  | checkUnlock c response, .go => some (s, storeLock c response)
  | storeLock c response, .go => some (s, store c response)
  | store c response, .go =>
    let out := response.toString s.order
    some ((s.setConn c { s.heap c with pendingResponse := out, responseOffset := 0,
                                       hasPendingWrite := true }).emit (.stored c out),
      sub (.sendLock c) c)
  | sub p c, i => (p.exec s i).map fun (s, next) => (s, resume c next)
  | finishLock c, .go => some (s, finish c)
  | finish c, .go =>
    some ((s.setConn c { s.heap c with buffer := [], processingRequest := false,
                                       lastActivity := s.clock }).emit (.cleared c), idle)
  | _, _ => none

end WorkerPc

/-! ## `stop()` -/

inductive StopPc
  | notCalled
  | shutdownPool
  | joinWorkers
  | joinEvent
  | lock
  | closeAll (rest : List Fd)
  | done
  deriving DecidableEq

namespace StopPc

def lockOp : StopPc → LockOp Mutex
  | lock => .lock .connections
  | closeAll [] => .unlock .connections
  | _ => .skip

def holds : StopPc → List Mutex
  | closeAll _ => [.connections]
  | _ => []

/-- A step of `stop()`; `workersLeft` and `eventLeft` say that the threads it
joins have ended. -/
def exec (s : Shared) (workersLeft eventLeft : Bool) : StopPc → Option (Shared × StopPc)
  | notCalled =>
    if s.running then some ({ s with running := false }.emit .stopping, shutdownPool) else none
  | shutdownPool => some ({ s with poolShutdown := true }, joinWorkers)
  | joinWorkers => if workersLeft then some (s, joinEvent) else none
  | joinEvent => if eventLeft then some (s, lock) else none
  | lock => some (s, closeAll (s.connections.entries.map fun e => e.1))
  | closeAll (fd :: rest) => some ((s.removeFd fd).closeFd fd, closeAll rest)
  | closeAll [] => some ({ s with connections := ∅ }, done)
  | done => none

end StopPc

/-! ## The system -/

/-- The threads of a server with `n` workers. -/
inductive Thread (n : Nat)
  | event
  | worker (w : Fin n)
  | stop
  deriving DecidableEq

structure Server (n : Nat) where
  shared : Shared
  event : EventPc
  worker : Fin n → WorkerPc
  stop : StopPc
  owner : Mutex → Option (Thread n)

/-- Whose step comes next and what the environment answers to it; or the
clock advances. -/
inductive Action (n : Nat)
  | event (i : Input)
  | worker (w : Fin n) (i : Input)
  | stop
  | tick (ns : Nat)

namespace Server

variable {n : Nat}

def holds (s : Server n) : Thread n → List Mutex
  | .event => s.event.holds
  | .worker w => (s.worker w).holds
  | .stop => s.stop.holds

def lockOp (s : Server n) : Thread n → LockOp Mutex
  | .event => s.event.lockOp
  | .worker w => (s.worker w).lockOp
  | .stop => s.stop.lockOp

def step (s : Server n) : Action n → Option (Server n)
  | .event i => do
    let owner ← (s.lockOp .event).apply .event s.owner
    let (shared, event) ← s.event.exec s.shared i
    return { s with shared, event, owner }
  | .worker w i => do
    let owner ← (s.lockOp (.worker w)).apply (.worker w) s.owner
    let (shared, pc) ← (s.worker w).exec s.shared i
    return { s with shared, worker := Function.update s.worker w pc, owner }
  | .stop => do
    let owner ← (s.lockOp .stop).apply .stop s.owner
    let workersLeft := (List.finRange n).all fun w =>
      match s.worker w with | .exited => true | _ => false
    let eventLeft := s.event = .exited
    let (shared, stop) ← s.stop.exec s.shared workersLeft eventLeft
    return { s with shared, stop, owner }
  | .tick ns => some { s with shared := { s.shared with clock := s.shared.clock + ns } }

/-- After `start()`: the event thread is about to enter its loop, the workers
wait for tasks, no descriptor but the listening one is open. -/
def initial (n : Nat) (serverFd : Fd) (maxConnections : Nat) (order : MapOrder) (clock : Int) :
    Server n where
  shared :=
    { serverFd, maxConnections, order, connections := ∅, heap := fun _ => { fd := 0, lastActivity := 0 },
      created := 0, fds := fun _ => none, accepted := 0, interest := fun _ => none, tasks := [],
      poolShutdown := false, running := true, clock, log := [] }
  event := .loop
  worker := fun _ => .idle
  stop := .notCalled
  owner := fun _ => none

/-- The server with `n` workers as a system. -/
def system (n : Nat) : System (Server n) (Action n) where
  init s := ∃ serverFd maxConnections order clock,
    s = initial n serverFd maxConnections order clock
  step := step

end Server

end Webserver
