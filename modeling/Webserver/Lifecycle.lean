/-
Starting and stopping (`Server::start`, `Server::stop`, `~Server`): what they
do to the descriptors of the process, whatever the system calls answer.
`start()` makes a socket and an epoll instance each time.
-/
import Webserver.Accounting

namespace Webserver

open Cxx Locks Systems

/-- What a descriptor of the process stands for. -/
inductive Descriptor
  | listening
  | epoll
  | client
  /-- Opened elsewhere in the process. -/
  | foreign
  deriving DecidableEq

/-- What the system calls of `start()` answer; `none` is a descriptor of -1. -/
structure StartAnswers where
  socket : Option Fd
  nonBlocking : Bool
  reuseAddr : Bool
  bind : Bool
  listen : Bool
  epollCreate : Option Fd
  addFd : Bool

structure Lifecycle where
  fds : Fd → Option Descriptor := fun _ => none
  /-- `server_fd_`, where it is not -1. -/
  serverFd : Option Fd := none
  /-- `epoll_fd_`, where it is not -1. -/
  epollFd : Option Fd := none
  running : Bool := false
  /-- `event_thread_` is joinable. -/
  joinable : Bool := false
  poolShutdown : Bool := false
  /-- The keys of `connections_`. -/
  connections : List Fd := []
  /-- Not in the source: the epoll instances made so far, the last first. -/
  epolls : List Fd := []
  /-- A joinable thread has been destroyed: `std::terminate`. -/
  terminated : Bool := false

inductive LifecycleAction
  | start (a : StartAnswers)
  | stop
  /-- The threads of the running server register a client, or drop one. -/
  | accepts (fd : Fd)
  | drops (fd : Fd)
  /-- A descriptor is opened or closed elsewhere in the process. -/
  | opens (fd : Fd)
  | closes (fd : Fd)

namespace Lifecycle

def open_ (s : Lifecycle) (fd : Fd) (d : Descriptor) : Lifecycle :=
  { s with fds := Function.update s.fds fd (some d) }

/-- `close(fd)` -/
def close (s : Lifecycle) (fd : Fd) : Lifecycle := { s with fds := Function.update s.fds fd none }

@[simp] theorem open_fds (s : Lifecycle) (fd : Fd) (d : Descriptor) :
    (s.open_ fd d).fds = Function.update s.fds fd (some d) := rfl

@[simp] theorem close_fds (s : Lifecycle) (fd : Fd) : (s.close fd).fds = Function.update s.fds fd none := rfl

/-- `Server::start`, and whether it returns true. The kernel answers with
numbers that are free. -/
def start (s : Lifecycle) (a : StartAnswers) : Option (Lifecycle × Bool) :=
  match a.socket with
  | none => some ({ s with serverFd := none }, false)
  | some fd =>
    if s.fds fd ≠ none then none
    else
      let s := { s with serverFd := some fd }.open_ fd .listening
      if !a.nonBlocking || !a.reuseAddr || !a.bind || !a.listen then some (s.close fd, false)
      else match a.epollCreate with
        | none => some ({ s with epollFd := none }.close fd, false)
        | some e =>
          if s.fds e ≠ none then none
          else
            -- the descriptor of an earlier instance is forgotten
            let s := { s with epollFd := some e, epolls := e :: s.epolls }.open_ e .epoll
            if !a.addFd then some (s.close fd, false)
            else some ({ s with running := true, joinable := true, terminated := s.joinable }, true)

/-- `close(fd)` for each of some descriptors. -/
def closeAll (s : Lifecycle) : List Fd → Lifecycle
  | [] => s
  | fd :: fds => (s.close fd).closeAll fds

/-- `Server::stop`; the threads end where it joins them, so that no client is
registered or dropped in its last two sections. -/
def stop (s : Lifecycle) : Lifecycle :=
  if s.running then
    let s := { s with running := false, poolShutdown := true, joinable := false }
    let s := { s.closeAll s.connections with connections := [] }
    match s.serverFd with
    | none => s
    | some fd => { s.close fd with serverFd := none }
  else s

/-- `Server::~Server`, with `~EpollWrapper`. -/
def destroy (s : Lifecycle) : Lifecycle :=
  let s := s.stop
  match s.epollFd with
  | none => s
  | some e => s.close e

def step (s : Lifecycle) : LifecycleAction → Option Lifecycle
  | .start a => if s.terminated then none else (s.start a).map (·.1)
  | .stop => if s.terminated then none else some s.stop
  | .accepts fd =>
    if s.running = true ∧ s.fds fd = none then
      some { s.open_ fd .client with connections := fd :: s.connections }
    else none
  | .drops fd =>
    if s.running = true ∧ fd ∈ s.connections then
      some { s.close fd with connections := s.connections.erase fd }
    else none
  | .opens fd => if s.fds fd = none then some (s.open_ fd .foreign) else none
  | .closes fd => if s.fds fd = some .foreign then some (s.close fd) else none

/-- A server that has been constructed, in a process with any descriptors. -/
def system : System Lifecycle LifecycleAction where
  init s := ∃ fds : Fd → Option Descriptor, (∀ fd, fds fd = none ∨ fds fd = some .foreign) ∧ s = { fds }
  step := step

/-- `start()` is called only while the server is not running. -/
def startsStopped (s : Lifecycle) : LifecycleAction → Bool
  | .start _ => !s.running
  | _ => true

/-- What a `start()` comes to: no socket, a socket closed again before or
after an epoll instance is made, or a running server. -/
inductive Starts (s : Lifecycle) : Lifecycle → Bool → Prop
  | noSocket : Starts s { s with serverFd := none } false
  | closed (fd) (hfd : s.fds fd = none) : Starts s { s with serverFd := some fd } false
  | noEpoll (fd) (hfd : s.fds fd = none) : Starts s { s with serverFd := some fd, epollFd := none } false
  | notAdded (fd e) (hfd : s.fds fd = none) (he : s.fds e = none) :
      Starts s { s with serverFd := some fd, epollFd := some e, epolls := e :: s.epolls
                        fds := Function.update s.fds e (some .epoll) } false
  | runs (fd e) (hfd : s.fds fd = none) (he : s.fds e = none) (hne : e ≠ fd) :
      Starts s { s with serverFd := some fd, epollFd := some e, epolls := e :: s.epolls
                        fds := Function.update (Function.update s.fds fd (some .listening)) e (some .epoll)
                        running := true, joinable := true, terminated := s.joinable } true

theorem start_cases {s s' : Lifecycle} {a : StartAnswers} {ok : Bool} (h : s.start a = some (s', ok)) :
    s.Starts s' ok := by
  -- a socket that is closed again leaves the descriptors as they were
  have again : ∀ {fd : Fd} {d : Descriptor}, s.fds fd = none →
      Function.update (Function.update s.fds fd (some d)) fd none = s.fds := by
    intro fd d hfd
    rw [Function.update_idem, ← hfd, Function.update_eq_self]
  unfold start at h
  split at h
  · obtain ⟨rfl, rfl⟩ := Prod.mk.inj (Option.some.inj h)
    exact .noSocket
  · next fd hfd =>
    split at h
    · cases h
    next hfree =>
    have hfree : s.fds fd = none := not_not.mp hfree
    simp only at h
    split at h
    · obtain ⟨rfl, rfl⟩ := Prod.mk.inj (Option.some.inj h)
      simpa only [close, open_, again hfree] using Starts.closed (s := s) fd hfree
    split at h
    · obtain ⟨rfl, rfl⟩ := Prod.mk.inj (Option.some.inj h)
      simpa only [close, open_, again hfree] using Starts.noEpoll (s := s) fd hfree
    next e he =>
    split at h
    · cases h
    next hfree' =>
    have hne : e ≠ fd := by
      rintro rfl
      simp [open_] at hfree'
    have hfree' : s.fds e = none := by simpa [open_, hne] using hfree'
    split at h
    · obtain ⟨rfl, rfl⟩ := Prod.mk.inj (Option.some.inj h)
      have hcomm : Function.update (Function.update (Function.update s.fds fd (some .listening)) e (some .epoll)) fd
          none = Function.update s.fds e (some .epoll) := by
        funext x
        by_cases hx : x = fd
        · subst hx
          simp [Function.update_of_ne hne.symm, hfree]
        · simp [Function.update_apply, hx]
      simpa only [close, open_, hcomm] using Starts.notAdded (s := s) fd e hfree hfree'
    · obtain ⟨rfl, rfl⟩ := Prod.mk.inj (Option.some.inj h)
      exact .runs fd e hfree hfree' hne

/-- The server has the descriptors it knows of, and the epoll instances it has
made and forgotten. -/
structure Holds (s : Lifecycle) : Prop where
  listening : ∀ fd, s.fds fd = some .listening ↔ s.running = true ∧ s.serverFd = some fd
  client : ∀ fd, s.fds fd = some .client ↔ fd ∈ s.connections
  keys : s.connections.Nodup
  served : s.running = false → s.connections = []
  epoll : ∀ fd, s.fds fd = some .epoll ↔ fd ∈ s.epolls
  nodup : s.epolls.Nodup
  current : ∀ e, s.epollFd = some e → e ∈ s.epolls
  joinable : s.joinable = s.running
  stopped : s.running = true → s.epollFd ≠ none ∧ s.serverFd ≠ none
  alive : s.terminated = false

/-- One epoll instance more. -/
theorem Holds.mem_epolls {s : Lifecycle} (h : s.Holds) {e : Fd}
    {fds : Fd → Option Descriptor} (hfds : ∀ fd, fd ≠ e → (fds fd = some .epoll ↔ s.fds fd = some .epoll))
    (fd : Fd) : Function.update fds e (some .epoll) fd = some .epoll ↔ fd ∈ e :: s.epolls := by
  by_cases hne : fd = e
  · simp [hne]
  · rw [Function.update_of_ne hne, hfds fd hne, h.epoll fd, List.mem_cons, or_iff_right hne]

theorem Holds.start {s s' : Lifecycle} {a : StartAnswers} {ok : Bool} (h : s.Holds) (hr : s.running = false)
    (hs : s.start a = some (s', ok)) : s'.Holds := by
  have nothing : ∀ fd, s.fds fd ≠ some .listening := fun fd hfd => by
    have := ((h.listening fd).mp hfd).1
    rw [hr] at this
    cases this
  have hjoin : s.joinable = false := h.joinable.trans hr
  have idle : ∀ {fds : Fd → Option Descriptor} {server : Option Fd}, (∀ fd, fds fd ≠ some .listening) →
      ∀ fd, fds fd = some .listening ↔ s.running = true ∧ server = some fd := fun hnot fd =>
    ⟨fun hl => absurd hl (hnot fd), fun hl => by simp [hr] at hl⟩
  have fresh : ∀ {e}, s.fds e = none → (e :: s.epolls).Nodup := fun {e} he =>
    List.nodup_cons.mpr ⟨fun hmem => by simp [(h.epoll e).mpr hmem] at he, h.nodup⟩
  have served : ∀ {fds : Fd → Option Descriptor}, (∀ fd, fds fd = some .client ↔ s.fds fd = some .client) →
      ∀ fd, fds fd = some .client ↔ fd ∈ s.connections := fun hfds fd => (hfds fd).trans (h.client fd)
  cases start_cases hs with
  | noSocket =>
    exact ⟨idle nothing, h.client, h.keys, h.served, h.epoll, h.nodup, h.current, h.joinable,
      fun hrun => by simp [hr] at hrun, h.alive⟩
  | closed fd hfd =>
    exact ⟨idle nothing, h.client, h.keys, h.served, h.epoll, h.nodup, h.current, h.joinable,
      fun hrun => by simp [hr] at hrun, h.alive⟩
  | noEpoll fd hfd =>
    exact ⟨idle nothing, h.client, h.keys, h.served, h.epoll, h.nodup, nofun, h.joinable,
      fun hrun => by simp [hr] at hrun, h.alive⟩
  | notAdded fd e hfd he =>
    have hnot : ∀ fd, Function.update s.fds e (some .epoll) fd ≠ some .listening := fun fd => by
      by_cases hne : fd = e
      · simp [hne]
      · simpa [hne] using nothing fd
    refine ⟨idle hnot, served fun x => ?_, h.keys, h.served, h.mem_epolls fun _ _ => Iff.rfl, fresh he, by simp,
      h.joinable, fun hrun => by simp [hr] at hrun, h.alive⟩
    by_cases hx : x = e <;> simp [hx, he]
  | runs fd e hfd he hne =>
    refine ⟨fun x => ?_, served fun x => ?_, h.keys, nofun, h.mem_epolls fun x hx => ?_, fresh he, by simp, rfl,
      fun _ => by simp, hjoin⟩
    · by_cases hxe : x = e
      · simp [hxe, hne.symm]
      · by_cases hxf : x = fd
        · simp [hxf, hne.symm]
        · simp [hxe, hxf, nothing x, Ne.symm hxf]
    · by_cases hxe : x = e
      · simp [hxe, he]
      · by_cases hxf : x = fd <;> simp [hxe, hxf, hne.symm, hfd]
    · by_cases hxf : x = fd
      · simp [hxf, hfd]
      · simp [hxf]

theorem closeAll_eq (s : Lifecycle) (fds : List Fd) :
    s.closeAll fds = { s with fds := fun fd => if fd ∈ fds then none else s.fds fd } := by
  induction fds generalizing s with
  | nil => simp [closeAll]
  | cons fd fds ih =>
    rw [closeAll, ih]
    simp only [close, List.mem_cons, Function.update_apply]
    congr 1
    funext x
    by_cases hx : x = fd <;> simp [hx]

theorem stop_of_not_running {s : Lifecycle} (hr : s.running = false) : s.stop = s := by simp [stop, hr]

/-- What `stop()` does to a running server. -/
theorem stop_of_running {s : Lifecycle} {fd : Fd} (hr : s.running = true) (hfd : s.serverFd = some fd) :
    s.stop = { s with
      running := false, poolShutdown := true, joinable := false, connections := [], serverFd := none
      fds := fun x => if x = fd ∨ x ∈ s.connections then none else s.fds x } := by
  unfold stop
  rw [if_pos hr]
  simp only [closeAll_eq, hfd, close]
  congr 1
  funext x
  by_cases hx : x = fd <;> simp [hx]

/-- `stop()` closes what the server serves with, and nothing else. -/
theorem Holds.stop_fds {s : Lifecycle} (h : s.Holds) (fd : Fd) :
    s.stop.fds fd = if s.fds fd = some .listening ∨ s.fds fd = some .client then none else s.fds fd := by
  cases hr : s.running with
  | true =>
    obtain ⟨server, hserver⟩ := Option.ne_none_iff_exists'.mp (h.stopped hr).2
    rw [stop_of_running hr hserver]
    simp only [h.listening, h.client, hr, hserver, true_and, Option.some.injEq, eq_comm]
  | false =>
    rw [stop_of_not_running hr]
    simp [h.listening, h.client, hr, h.served hr]

theorem Holds.stop_eq {s : Lifecycle} (h : s.Holds) :
    s.stop.running = false ∧ s.stop.connections = [] ∧ s.stop.epolls = s.epolls ∧ s.stop.epollFd = s.epollFd ∧
      s.stop.joinable = false ∧ s.stop.terminated = false := by
  cases hr : s.running with
  | true =>
    obtain ⟨server, hserver⟩ := Option.ne_none_iff_exists'.mp (h.stopped hr).2
    rw [stop_of_running hr hserver]
    exact ⟨rfl, rfl, rfl, rfl, rfl, h.alive⟩
  | false =>
    rw [stop_of_not_running hr]
    exact ⟨hr, h.served hr, rfl, rfl, h.joinable.trans hr, h.alive⟩

theorem Holds.stop {s : Lifecycle} (h : s.Holds) : s.stop.Holds := by
  obtain ⟨hrun, hconn, hepolls, hepoll, hjoin, halive⟩ := h.stop_eq
  have hnone : ∀ fd, s.stop.fds fd ≠ some .listening ∧ s.stop.fds fd ≠ some .client := fun fd => by
    rw [h.stop_fds]
    split
    · exact ⟨nofun, nofun⟩
    · next hother => exact not_or.mp hother
  refine ⟨fun fd => ?_, fun fd => ?_, by simp [hconn], fun _ => hconn, fun fd => ?_, by simpa [hepolls] using h.nodup,
    by simpa only [hepoll, hepolls] using h.current, hjoin.trans hrun.symm, fun hr => ?_, halive⟩
  · exact ⟨fun hl => absurd hl (hnone fd).1, fun hl => by simp [hrun] at hl⟩
  · exact ⟨fun hc => absurd hc (hnone fd).2, fun hc => by simp [hconn] at hc⟩
  · rw [h.stop_fds, hepolls, ← h.epoll fd]
    split
    · next hserves => rcases hserves with hserves | hserves <;> simp [hserves]
    · rfl
  · rw [hrun] at hr
    cases hr

/-- The descriptors and the keys change, and those of the server's own stay. -/
theorem Holds.others {s : Lifecycle} (h : s.Holds) {fds : Fd → Option Descriptor} {connections : List Fd}
    (hfds : ∀ fd d, d = .listening ∨ d = .epoll → (fds fd = some d ↔ s.fds fd = some d))
    (hclient : ∀ fd, fds fd = some .client ↔ fd ∈ connections) (hkeys : connections.Nodup)
    (hserved : s.running = false → connections = []) : Holds { s with fds, connections } :=
  ⟨fun fd => (hfds fd .listening (.inl rfl)).trans (h.listening fd), hclient, hkeys, hserved,
    fun fd => (hfds fd .epoll (.inr rfl)).trans (h.epoll fd), h.nodup, h.current, h.joinable, h.stopped, h.alive⟩

/-- An update of a descriptor that is none of the server's own leaves those. -/
theorem own_update {s : Lifecycle} {fd : Fd} {old new : Option Descriptor} (hold : s.fds fd = old)
    (hnot : ∀ d, d = .listening ∨ d = .epoll → old ≠ some d ∧ new ≠ some d) (x : Fd) (d : Descriptor)
    (hd : d = .listening ∨ d = .epoll) : Function.update s.fds fd new x = some d ↔ s.fds x = some d := by
  by_cases hx : x = fd
  · subst hx
    simp [hold, hnot d hd]
  · simp [hx]

theorem holds_init {s : Lifecycle} (h : system.init s) : s.Holds := by
  obtain ⟨fds, hfds, rfl⟩ := h
  refine ⟨fun fd => ?_, fun fd => ?_, .nil, fun _ => rfl, fun fd => ?_, .nil, nofun, rfl, nofun, rfl⟩ <;>
    rcases hfds fd with hf | hf <;> simp [hf]

theorem Holds.step {s s' : Lifecycle} {a : LifecycleAction} (hi : s.Holds) (hok : startsStopped s a = true)
    (hs : s.step a = some s') : s'.Holds := by
  cases a with
  | start a =>
    simp only [Lifecycle.step] at hs
    split at hs
    · cases hs
    obtain ⟨⟨s₁, ok⟩, hstart, rfl⟩ := Option.map_eq_some_iff.mp hs
    exact hi.start (by simpa [startsStopped] using hok) hstart
  | stop =>
    simp only [Lifecycle.step] at hs
    split at hs
    · cases hs
    exact Option.some.inj hs ▸ hi.stop
  | accepts fd =>
    simp only [Lifecycle.step] at hs
    split at hs
    · next hfree =>
      obtain rfl := Option.some.inj hs
      have hnew : fd ∉ s.connections := fun hm => by simp [(hi.client fd).mpr hm] at hfree
      refine hi.others (own_update hfree.2 (by rintro d (rfl | rfl) <;> exact ⟨nofun, by decide⟩)) (fun x => ?_)
        (List.nodup_cons.mpr ⟨hnew, hi.keys⟩) fun hr => by simp [hr] at hfree
      by_cases hx : x = fd <;> simp [hx, hi.client]
    · cases hs
  | drops fd =>
    simp only [Lifecycle.step] at hs
    split at hs
    · next hmem =>
      obtain rfl := Option.some.inj hs
      have hclient := (hi.client fd).mpr hmem.2
      refine hi.others (own_update hclient (by rintro d (rfl | rfl) <;> exact ⟨by decide, nofun⟩)) (fun x => ?_)
        (hi.keys.erase fd) fun hr => by simp [hr] at hmem
      by_cases hx : x = fd <;> simp [hx, hi.client, hi.keys.mem_erase_iff]
    · cases hs
  | opens fd =>
    simp only [Lifecycle.step] at hs
    split at hs
    · next hfree =>
      obtain rfl := Option.some.inj hs
      refine hi.others (own_update hfree (by rintro d (rfl | rfl) <;> exact ⟨nofun, by decide⟩)) (fun x => ?_) hi.keys hi.served
      rw [← hi.client]
      by_cases hx : x = fd <;> simp [hx, hfree]
    · cases hs
  | closes fd =>
    simp only [Lifecycle.step] at hs
    split at hs
    · next hforeign =>
      obtain rfl := Option.some.inj hs
      refine hi.others (own_update hforeign (by rintro d (rfl | rfl) <;> exact ⟨by decide, nofun⟩)) (fun x => ?_) hi.keys
        hi.served
      rw [← hi.client]
      by_cases hx : x = fd <;> simp [hx, hforeign]
    · cases hs

theorem holds {s : Lifecycle} (h : system.ReachableBy (fun s a => startsStopped s a = true) s) : s.Holds :=
  h.invariant (fun _ => holds_init) fun _ _ _ _ hi hok hs => hi.step hok hs

/-- The calls leave what others opened. -/
theorem foreign_stop {s : Lifecycle} (h : s.Holds) (fd : Fd) :
    s.stop.fds fd = some .foreign ↔ s.fds fd = some .foreign := by
  rw [h.stop_fds]
  split
  · next hserves => rcases hserves with hserves | hserves <;> simp [hserves]
  · rfl

theorem foreign_start {s s' : Lifecycle} {a : StartAnswers} {ok : Bool} (hs : s.start a = some (s', ok)) (fd : Fd) :
    s'.fds fd = some .foreign ↔ s.fds fd = some .foreign := by
  cases start_cases hs with
  | noSocket | closed | noEpoll => rfl
  | notAdded fd' e hfd he =>
    by_cases hne : fd = e <;> simp [hne, he]
  | runs fd' e hfd he hne =>
    by_cases hfe : fd = e
    · simp [hfe, he]
    · by_cases hff : fd = fd'
      · simp [hff, hne.symm, hfd]
      · simp [hfe, hff]

theorem destroy_fds {s : Lifecycle} (h : s.Holds) (fd : Fd) :
    s.destroy.fds fd = if s.epollFd = some fd then none else s.stop.fds fd := by
  obtain ⟨-, -, -, hepoll, -⟩ := h.stop_eq
  unfold destroy
  simp only [hepoll]
  cases he : s.epollFd with
  | none => simp
  | some e =>
    by_cases hne : fd = e
    · simp [Lifecycle.close, hne]
    · simp [Lifecycle.close, hne, Ne.symm hne]

/-- The clients' sockets and the keys are those of the threads' model. -/
structure Serves {n : Nat} (s : Lifecycle) (t : Server n) : Prop where
  client : ∀ fd, s.fds fd = some .client ↔ t.shared.fds fd ≠ none
  keys : ∀ fd, fd ∈ s.connections ↔ t.shared.connections.lookup fd ≠ none

/-- A running server may come to have any clients more. -/
theorem run_accepts {s : Lifecycle} (hr : s.running = true) {fds : List Fd} (hnodup : fds.Nodup)
    (hfree : ∀ fd ∈ fds, s.fds fd = none) :
    ∃ s', system.run s (fds.map .accepts) = some s' ∧ (∀ fd, fd ∈ s'.connections ↔ fd ∈ fds ∨ fd ∈ s.connections) ∧
      ∀ fd, s'.fds fd = if fd ∈ fds then some .client else s.fds fd := by
  induction fds generalizing s with
  | nil => exact ⟨s, rfl, by simp, by simp⟩
  | cons fd fds ih =>
    obtain ⟨hnew, hnodup⟩ := List.nodup_cons.mp hnodup
    obtain ⟨hfd, hfree⟩ := List.forall_mem_cons.mp hfree
    have hfree' : ∀ x ∈ fds, (Function.update s.fds fd (some .client)) x = none := fun x hx => by
      rw [Function.update_of_ne (ne_of_mem_of_not_mem hx hnew), hfree x hx]
    have hstep : system.step s (.accepts fd) =
        some { s.open_ fd .client with connections := fd :: s.connections } := if_pos ⟨hr, hfd⟩
    obtain ⟨s', hrun, hconn, hfds⟩ :=
      ih (s := { s.open_ fd .client with connections := fd :: s.connections }) hr hnodup hfree'
    refine ⟨s', ?_, fun x => ?_, fun x => ?_⟩
    · simp only [List.map_cons, System.run, hstep, Option.bind_some]
      exact hrun
    · simp only [hconn, List.mem_cons]
      tauto
    · rw [hfds]
      by_cases hx : x = fd
      · simp [hx]
      · simp [hx]

/-- Once `stop()` has joined the threads, all they have done to the descriptors is
to register clients. -/
theorem joined_serves {n : Nat} {t : Server n} (h : (Server.system n).Reachable t) (hlock : t.stop = .lock)
    {s : Lifecycle} (hs : s.Holds) (hr : s.running = true) (hconn : s.connections = [])
    (hfree : ∀ fd, t.shared.fds fd ≠ none → s.fds fd = none) :
    ∃ s', system.run s (t.shared.connections.keys.map .accepts) = some s' ∧ s'.Serves t := by
  have hclosing := Server.closing h
  simp only [Server.Closing, hlock] at hclosing
  have hkeys : ∀ fd, fd ∈ t.shared.connections.keys ↔ t.shared.connections.lookup fd ≠ none := fun fd => by
    rw [Option.ne_none_iff_isSome, AList.lookup_isSome]
    rfl
  have hnodup : t.shared.connections.keys.Nodup := t.shared.connections.nodupKeys
  obtain ⟨s', hrun, hconn', hfds⟩ := run_accepts hr hnodup fun fd hfd =>
    hfree fd ((hclosing fd).mpr ((hkeys fd).mp hfd))
  refine ⟨s', hrun, fun fd => ?_, fun fd => by simp [hconn', hconn, hkeys]⟩
  rw [hclosing, ← hkeys, hfds]
  split
  · next hfd => simp [hfd]
  · next hfd => simp [hfd, hs.client, hconn]

/-- And what it leaves is what the threads' model leaves: no client. -/
theorem stopped_serves {n : Nat} {t : Server n} (h : (Server.system n).Reachable t) (hdone : t.stop = .done)
    {s : Lifecycle} (hs : s.Holds) : s.stop.Serves t := by
  have hclosing := Server.closing h
  simp only [Server.Closing, hdone] at hclosing
  have hconn : s.stop.connections = [] := hs.stop_eq.2.1
  refine ⟨fun fd => ?_, fun fd => by simp [hconn, hclosing.2]⟩
  rw [hs.stop.client, hconn, hclosing.1 fd]
  simp

/-- **Starting and stopping** in any order, whatever the system calls answer, as
long as `start()` is not called while the server runs. No thread is lost, a
socket listens exactly while the server runs and is the one in `server_fd_`,
the clients' sockets are those registered, and no descriptor opened elsewhere is
closed. `stop()` and `~Server` leave no socket open, but `~Server` each epoll
instance that a later `start()` has replaced. -/
theorem restarts {s : Lifecycle} (h : system.ReachableBy (fun s a => startsStopped s a = true) s) :
    (s.terminated = false ∧ (∀ fd, s.fds fd = some .listening ↔ s.running = true ∧ s.serverFd = some fd) ∧
      ∀ fd, s.fds fd = some .client ↔ fd ∈ s.connections) ∧
    (∀ a s' ok, s.running = false → s.start a = some (s', ok) →
      s'.running = ok ∧ ∀ fd, s'.fds fd = some .foreign ↔ s.fds fd = some .foreign) ∧
    (∀ fd, s.stop.fds fd ≠ some .listening ∧ s.stop.fds fd ≠ some .client ∧
      (s.stop.fds fd = some .foreign ↔ s.fds fd = some .foreign)) ∧
    (∀ fd, s.destroy.fds fd ≠ some .listening ∧ s.destroy.fds fd ≠ some .client ∧
      (s.destroy.fds fd = some .foreign ↔ s.fds fd = some .foreign)) ∧
    s.epolls.Nodup ∧ ∀ fd, s.destroy.fds fd = some .epoll ↔ fd ∈ s.epolls ∧ s.epollFd ≠ some fd := by
  have hs := holds h
  have hstop := hs.stop
  obtain ⟨hstopped, hconn, hepolls, -⟩ := hs.stop_eq
  have current : ∀ fd, s.epollFd = some fd → s.fds fd = some .epoll := fun fd hfd =>
    (hs.epoll fd).mpr (hs.current fd hfd)
  have left : ∀ fd, s.stop.fds fd ≠ some .listening ∧ s.stop.fds fd ≠ some .client ∧
      (s.stop.fds fd = some .foreign ↔ s.fds fd = some .foreign) := by
    refine fun fd => ⟨fun hl => ?_, fun hc => ?_, foreign_stop hs fd⟩
    · have hrun := ((hstop.listening fd).mp hl).1
      rw [hstopped] at hrun
      cases hrun
    · have hmem := (hstop.client fd).mp hc
      rw [hconn] at hmem
      cases hmem
  refine ⟨⟨hs.alive, hs.listening, hs.client⟩, fun a s' ok hr hstart => ⟨?_, foreign_start hstart⟩, left,
    fun fd => ?_, hs.nodup, fun fd => ?_⟩
  · cases start_cases hstart <;> first | exact hr | rfl
  · rw [destroy_fds hs]
    split
    · next hfd => simp [current fd hfd]
    · exact left fd
  · rw [destroy_fds hs]
    split
    · next hfd => simp [hfd]
    · next hfd => rw [hstop.epoll, hepolls, and_iff_left hfd]

/-- The server is started twice, with clients each time: the first epoll
instance is left open, and so is a descriptor that was opened elsewhere. -/
theorem restarts_twice : ∃ s : Lifecycle, s.running = true ∧ s.connections = [6, 8] ∧
    s.destroy.fds 4 = some .epoll ∧ s.destroy.fds 6 ≠ some .client ∧ s.destroy.fds 9 = some .foreign := by
  let a : StartAnswers := ⟨some 3, true, true, true, true, some 4, true⟩
  let b : StartAnswers := ⟨some 3, true, true, true, true, some 5, true⟩
  obtain ⟨s, hr, hs⟩ := System.exists_reachableBy (S := system) (s := {}) ⟨fun _ => none, fun _ => .inl rfl, rfl⟩
    startsStopped [.start a, .accepts 7, .opens 9, .accepts 8, .drops 7, .stop, .start b, .accepts 8, .accepts 6]
    (fun s => decide (s.running = true ∧ s.connections = [6, 8] ∧ 4 ∈ s.epolls ∧ s.epollFd ≠ some 4 ∧
      s.fds 9 = some .foreign)) (by decide)
  obtain ⟨hrun, hconn, hmem, hne, hforeign⟩ := of_decide_eq_true hs
  obtain ⟨-, -, -, hsockets, -, hepoll⟩ := restarts hr
  exact ⟨s, hrun, hconn, (hepoll 4).mpr ⟨hmem, hne⟩, (hsockets 6).2.1, (hsockets 9).2.2.mpr hforeign⟩

end Lifecycle

end Webserver
