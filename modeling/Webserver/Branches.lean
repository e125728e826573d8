/-
The branches of the server's code: where a step goes from each point, and
under which condition. What a step keeps is proved from these, one case for
each branch.
-/
import Webserver.Server

namespace Webserver

open Cxx Locks Systems

namespace SubPc

/-- What a step of `close_connection` and `send_response_async` does. -/
inductive Steps (s : Shared) : SubPc → Input → Shared → Option SubPc → Prop
  | closeLock (fd) : Steps s (closeLock fd) .go s (some (closeFind fd))
  | closeMissing (fd) (h : s.connections.lookup fd = none) :
      Steps s (closeFind fd) .go s (some closeMiss)
  | closeFound (fd c) (h : s.connections.lookup fd = some c) :
      Steps s (closeFind fd) .go s (some (closeLockConn fd c))
  | closeMiss : Steps s closeMiss .go s none
  | closeLockConn (fd c) : Steps s (closeLockConn fd c) .go s (some (closeReadPending fd c))
  | closeReadPending (fd c) : Steps s (closeReadPending fd c) .go s (some (closeErase fd))
  | closeErase (fd) : Steps s (closeErase fd) .go (s.unregister fd) (some (closeRemoveFd fd))
  | closeRemoveFd (fd) : Steps s (closeRemoveFd fd) .go (s.removeFd fd) (some (closeFd fd))
  | closeFd (fd) : Steps s (closeFd fd) .go (s.closeFd fd) none
  | sendLock (c) : Steps s (sendLock c) .go s (some (send c))
  | send (c r ctl) {s' next} (h : sendStep s c r ctl = some (s', next)) :
      Steps s (send c) (.sends r ctl) s' next

theorem exec_steps {s : Shared} {p : SubPc} {i s' next} (h : p.exec s i = some (s', next)) :
    Steps s p i s' next := by
  unfold exec at h
  split at h
  case h_10 c r ctl => exact .send c r ctl h
  all_goals repeat' split at h
  all_goals simp only [Option.some.injEq, Prod.mk.injEq, reduceCtorEq] at h
  all_goals obtain ⟨rfl, rfl⟩ := h
  all_goals constructor
  all_goals assumption

end SubPc

namespace EventPc

/-- What a step of the event thread does. -/
inductive Steps (s : Shared) : EventPc → Input → Shared → EventPc → Prop
  | loop (h : s.running = true) : Steps s loop .go s wait
  | leave (h : ¬ s.running = true) : Steps s loop .go s exited
  | polled (events) (h : events.all (reportable s) = true) :
      Steps s wait (.polled events) s (batch (events.flatMap (calls s.serverFd)))
  | pollFails : Steps s wait .pollFails s loop
  | batchDone : Steps s (batch []) .go s (cleanupLock s.clock)
  | callAccept (k) : Steps s (batch (.accept :: k)) .go s (accept k)
  | callData (fd k) : Steps s (batch (.data fd :: k)) .go s (dataLock fd k)
  | callWrite (fd k) : Steps s (batch (.write fd :: k)) .go s (writeLock fd k)
  -- `handle_accept`
  | accept (fd k) (free : s.fds fd = none) (hne : fd ≠ s.serverFd) :
      Steps s (accept k) (.accepts fd)
        ({ s with fds := Function.update s.fds fd (some s.accepted),
                  accepted := s.accepted + 1 }.emit (.accepted fd s.accepted)) (acceptLock fd k)
  | acceptDone (k) : Steps s (accept k) (.acceptFails true) s (.batch k)
  | acceptAgain (k) : Steps s (accept k) (.acceptFails false) s (.accept k)
  | acceptLock (fd k) : Steps s (acceptLock fd k) .go s (acceptCheck fd k)
  | acceptFull (fd k) (h : s.maxConnections ≤ s.connections.entries.length) :
      Steps s (acceptCheck fd k) .go (s.closeFd fd) (.accept k)
  | acceptCheck (fd k) (h : ¬ s.maxConnections ≤ s.connections.entries.length) :
      Steps s (acceptCheck fd k) .go s (acceptNonBlocking fd k)
  | acceptNonBlocking (fd k) : Steps s (acceptNonBlocking fd k) (.ok true) s (acceptAddFd fd k)
  | blocking (fd k) : Steps s (acceptNonBlocking fd k) (.ok false) s (acceptReject fd k)
  | acceptAddFd (fd k) : Steps s (acceptAddFd fd k) (.ok true) (s.addFd fd) (acceptConnection fd k)
  | notAdded (fd k) : Steps s (acceptAddFd fd k) (.ok false) s (acceptReject fd k)
  | acceptReject (fd k) : Steps s (acceptReject fd k) .go (s.closeFd fd) (.accept k)
  | acceptConnection (fd k) :
      Steps s (acceptConnection fd k) .go
        ({ s with created := s.created + 1 }.setConn s.created
          { fd := fd, lastActivity := s.clock, sock := s.fds fd }) (acceptInsertLock fd s.created k)
  | acceptInsertLock (fd c k) : Steps s (acceptInsertLock fd c k) .go s (acceptInsert fd c k)
  | acceptInsert (fd c k) :
      Steps s (acceptInsert fd c k) .go
        ({ s with connections := s.connections.insert fd c }.emit (.registered c)) (.accept k)
  -- `handle_client_data`
  | dataLock (fd k) : Steps s (dataLock fd k) .go s (dataFind fd k)
  | dataMissing (fd k) (h : s.connections.lookup fd = none) : Steps s (dataFind fd k) .go s (.batch k)
  | dataFound (fd c k) (h : s.connections.lookup fd = some c) :
      Steps s (dataFind fd k) .go s (dataRecv fd c k)
  | dataRecv (fd c chunk k) (opened : (s.fds fd).isSome) (hchunk : chunk ≠ [])
      (hsize : chunk.length < bufferSize) :
      Steps s (dataRecv fd c k) (.receives chunk) s (dataLockConn fd c chunk k)
  | recvFails (fd c k why) :
      Steps s (dataRecv fd c k) (.recvFails why) (s.emit (.recvFailed c why))
        (sub (.closeLock fd) (.calls k))
  | dataLockConn (fd c chunk k) : Steps s (dataLockConn fd c chunk k) .go s (dataLockMap fd c chunk k)
  | dataLockMap (fd c chunk k) : Steps s (dataLockMap fd c chunk k) .go s (dataCheck fd c chunk k)
  | dataGone (fd c chunk k) (h : s.connections.lookup fd = none) :
      Steps s (dataCheck fd c chunk k) .go s (dataUnlock c false k)
  | dataCheck (fd c chunk k) (h : ¬ s.connections.lookup fd = none) :
      Steps s (dataCheck fd c chunk k) .go s (dataAppend fd c chunk k)
  | tooLarge (fd c chunk k) (h : overflows s c chunk = true) :
      Steps s (dataAppend fd c chunk k) .go (s.emit (.tooLarge c)) (dataEraseLock fd c k)
  | completes (fd c chunk k) (fits : ¬ overflows s c chunk = true)
      (idle : (s.heap c).processingRequest = false)
      (complete : isHttpRequestComplete ((s.heap c).buffer ++ chunk) = true) :
      Steps s (dataAppend fd c chunk k) .go
        (((s.emit (.received c chunk)).setConn c
          { s.heap c with buffer := (s.heap c).buffer ++ chunk, lastActivity := s.clock,
                          processingRequest := true }).emit (.dispatched c)) (dataUnlock c true k)
  | appends (fd c chunk k) (fits : ¬ overflows s c chunk = true)
      (incomplete : (s.heap c).processingRequest = false →
        isHttpRequestComplete ((s.heap c).buffer ++ chunk) = false) :
      Steps s (dataAppend fd c chunk k) .go
        ((s.emit (.received c chunk)).setConn c
          { s.heap c with buffer := (s.heap c).buffer ++ chunk, lastActivity := s.clock })
        (dataUnlock c false k)
  | dataEraseLock (fd c k) : Steps s (dataEraseLock fd c k) .go s (dataErase fd c k)
  | dataErase (fd c k) : Steps s (dataErase fd c k) .go (s.unregister fd) (dataRemoveFd fd c k)
  | dataRemoveFd (fd c k) : Steps s (dataRemoveFd fd c k) .go (s.removeFd fd) (dataCloseFd fd c k)
  | dataCloseFd (fd c k) : Steps s (dataCloseFd fd c k) .go (s.closeFd fd) (dataUnlock c false k)
  | dataUnlock (c k) : Steps s (dataUnlock c false k) .go s (.batch k)
  | process (c k) : Steps s (dataUnlock c true k) .go s (enqueue c k)
  | throws (c k) (h : s.poolShutdown = true) : Steps s (enqueue c k) .go s thrown
  | enqueue (c k) (h : ¬ s.poolShutdown = true) : Steps s (enqueue c k) .go s (push c k)
  | push (c k) : Steps s (push c k) .go { s with tasks := s.tasks ++ [c] } (.batch k)
  -- `handle_client_write`
  | writeLock (fd k) : Steps s (writeLock fd k) .go s (writeFind fd k)
  | writeMissing (fd k) (h : s.connections.lookup fd = none) :
      Steps s (writeFind fd k) .go s (.batch k)
  | writeFound (fd c k) (h : s.connections.lookup fd = some c) :
      Steps s (writeFind fd k) .go s (sub (.sendLock c) (.calls k))
  -- `cleanup_inactive_connections`
  | cleanupLock (now) :
      Steps s (cleanupLock now) .go s (cleanupScan now (s.connections.entries.map fun e => (e.1, e.2)) [])
  | scanned (now inactive) : Steps s (cleanupScan now [] inactive) .go s (cleanupUnlock inactive)
  | cleanupScan (now fd c rest inactive) :
      Steps s (cleanupScan now ((fd, c) :: rest) inactive) .go s
        (cleanupLockConn now fd c
          (connectionTimeoutSeconds < (now - (s.heap c).lastActivity).tdiv 1000000000) rest inactive)
  | cleanupLockConn (now fd c idle rest inactive) :
      Steps s (cleanupLockConn now fd c idle rest inactive) .go s
        (cleanupRead now fd c idle rest inactive)
  | sweeps (now fd c rest inactive) (h : (s.heap c).hasPendingWrite = false) :
      Steps s (cleanupRead now fd c true rest inactive) .go (s.emit (.swept c))
        (.cleanupScan now rest (inactive ++ [fd]))
  | spares (now fd c idle rest inactive) (h : idle = true → (s.heap c).hasPendingWrite = true) :
      Steps s (cleanupRead now fd c idle rest inactive) .go s (.cleanupScan now rest inactive)
  | cleanupUnlock (inactive) : Steps s (cleanupUnlock inactive) .go s (cleanupClose inactive)
  | cleanupDone : Steps s (cleanupClose []) .go s .loop
  | cleanupClose (fd fds) :
      Steps s (cleanupClose (fd :: fds)) .go s (sub (.closeLock fd) (.cleanup fds))
  | sub (p ret next) {i s'} (h : p.exec s i = some (s', next)) :
      Steps s (sub p ret) i s' (resume ret next)

theorem exec_steps {s : Shared} {pc : EventPc} {i s' pc'} (h : pc.exec s i = some (s', pc')) :
    Steps s pc i s' pc' := by
  unfold exec at h
  split at h
  case h_22 fd c chunk k =>
    simp only [appendStep, Option.some.injEq] at h
    repeat' split at h
    all_goals obtain ⟨rfl, rfl⟩ := Prod.mk.inj h
    · next hover => exact .tooLarge fd c chunk k hover
    · next fits hnew =>
      simp only [Bool.and_eq_true, Bool.not_eq_true'] at hnew
      exact .completes fd c chunk k fits hnew.1 hnew.2
    · next fits hnot => exact .appends fd c chunk k fits (by simpa using hnot)
  case h_40 p ret =>
    simp only [Option.map_eq_some_iff, Prod.mk.injEq, Prod.exists] at h
    obtain ⟨s₁, next, h₁, rfl, rfl⟩ := h
    exact .sub p ret next h₁
  all_goals repeat' split at h
  all_goals simp only [Option.some.injEq, Prod.mk.injEq, reduceCtorEq] at h
  all_goals obtain ⟨rfl, rfl⟩ := h
  case h_4 k => rcases k with _ | ⟨_ | _ | _, _⟩ <;> constructor
  case h_5.isTrue hfd => exact .accept _ _ hfd.1 hfd.2
  case h_6.isTrue hb | h_9.isTrue hb | h_10.isTrue hb | h_27.isTrue hb => subst hb; constructor
  case h_6.isFalse hb | h_9.isFalse hb | h_10.isFalse hb | h_27.isFalse hb =>
    obtain rfl := Bool.eq_false_of_not_eq_true hb
    constructor
  case h_17.isTrue hok => exact .dataRecv _ _ _ _ hok.1 hok.2.1 hok.2.2
  case h_36.isTrue hmark =>
    simp only [Bool.and_eq_true, Bool.not_eq_true'] at hmark
    obtain ⟨rfl, hp⟩ := hmark
    exact .sweeps _ _ _ _ _ hp
  case h_36.isFalse hmark => exact .spares _ _ _ _ _ _ (by simpa using hmark)
  all_goals constructor
  all_goals assumption

end EventPc

namespace WorkerPc

/-- What a step of a worker does. -/
inductive Steps (s : Shared) : WorkerPc → Input → Shared → WorkerPc → Prop
  | take (c rest) (h : s.tasks = c :: rest) : Steps s idle .go { s with tasks := rest } (parseLock c)
  | leave (h : s.poolShutdown = true) : Steps s idle .leaves s exited
  | parseLock (c) : Steps s (parseLock c) .go s (parse c)
  | parse (c) (h : (HttpRequest.parse (s.heap c).buffer).valid = true) :
      Steps s (parse c) .go (s.emit (.parsed c (s.heap c).buffer))
        (keepLock c (HttpRequest.parse (s.heap c).buffer))
  | parseInvalid (c) (h : ¬ (HttpRequest.parse (s.heap c).buffer).valid = true) :
      Steps s (parse c) .go (s.emit (.parsed c (s.heap c).buffer))
        (respond c (HttpRequest.parse (s.heap c).buffer))
  | keepLock (c request) : Steps s (keepLock c request) .go s (keep c request)
  | keep (c request) :
      Steps s (keep c request) .go
        (s.setConn c { s.heap c with keepAlive := request.isKeepAlive }) (respond c request)
  | respond (c request served date) :
      Steps s (respond c request) (.serves served date) s
        (checkLock c ((buildResponse request served date).setKeepAlive (s.heap c).keepAlive))
  | checkLock (c response) : Steps s (checkLock c response) .go s (check c response)
  | missing (c response) (h : s.connections.lookup (s.heap c).fd = none) :
      Steps s (check c response) .go s (unregLock c)
  | check (c response) (h : ¬ s.connections.lookup (s.heap c).fd = none) :
      Steps s (check c response) .go s (checkUnlock c response)
  | unregLock (c) : Steps s (unregLock c) .go s (unreg c)
  | unreg (c) :
      Steps s (unreg c) .go (s.setConn c { s.heap c with processingRequest := false }) unregUnlock
  | unregUnlock : Steps s unregUnlock .go s idle
  | checkUnlock (c response) : Steps s (checkUnlock c response) .go s (storeLock c response)
  | storeLock (c response) : Steps s (storeLock c response) .go s (store c response)
  | store (c response) :
      Steps s (store c response) .go
        ((s.setConn c { s.heap c with pendingResponse := response.toString s.order,
                                      responseOffset := 0, hasPendingWrite := true }).emit
          (.stored c (response.toString s.order)))
        (sub (.sendLock c) c)
  | sub (p c next) {i s'} (h : p.exec s i = some (s', next)) : Steps s (sub p c) i s' (resume c next)
  | finishLock (c) : Steps s (finishLock c) .go s (finish c)
  | finish (c) :
      Steps s (finish c) .go
        ((s.setConn c { s.heap c with buffer := [], processingRequest := false,
                                      lastActivity := s.clock }).emit (.cleared c)) idle

theorem exec_steps {s : Shared} {pc : WorkerPc} {i s' pc'} (h : pc.exec s i = some (s', pc')) :
    Steps s pc i s' pc' := by
  unfold exec at h
  split at h
  case h_16 p c =>
    simp only [Option.map_eq_some_iff, Prod.mk.injEq, Prod.exists] at h
    obtain ⟨s₁, next, h₁, rfl, rfl⟩ := h
    exact .sub p c next h₁
  all_goals repeat' split at h
  all_goals simp only [Option.some.injEq, Prod.mk.injEq, reduceCtorEq] at h
  all_goals obtain ⟨rfl, rfl⟩ := h
  case h_4 c =>
    split
    · next hv => exact .parse c hv
    · next hv => exact .parseInvalid c hv
  all_goals constructor
  all_goals assumption

end WorkerPc

namespace StopPc

/-- What a step of `stop()` does. -/
inductive Steps (s : Shared) (workersLeft eventLeft : Bool) : StopPc → Shared → StopPc → Prop
  | notCalled (h : s.running = true) :
      Steps s workersLeft eventLeft notCalled ({ s with running := false }.emit .stopping) shutdownPool
  | shutdownPool :
      Steps s workersLeft eventLeft shutdownPool { s with poolShutdown := true } joinWorkers
  | joinWorkers (h : workersLeft = true) : Steps s workersLeft eventLeft joinWorkers s joinEvent
  | joinEvent (h : eventLeft = true) : Steps s workersLeft eventLeft joinEvent s lock
  | lock : Steps s workersLeft eventLeft lock s (closeAll (s.connections.entries.map fun e => e.1))
  | close (fd rest) :
      Steps s workersLeft eventLeft (closeAll (fd :: rest)) ((s.removeFd fd).closeFd fd) (closeAll rest)
  | clear : Steps s workersLeft eventLeft (closeAll []) { s with connections := ∅ } done

theorem exec_steps {s : Shared} {pc : StopPc} {a b s' pc'} (h : pc.exec s a b = some (s', pc')) :
    Steps s a b pc s' pc' := by
  unfold exec at h
  split at h
  all_goals repeat' split at h
  all_goals simp only [Option.some.injEq, Prod.mk.injEq, reduceCtorEq] at h
  all_goals obtain ⟨rfl, rfl⟩ := h
  all_goals constructor
  all_goals assumption

end StopPc

end Webserver
