/-
The logger (`logger.h`, `logger.cpp`), as one thread calls it. Its two mutexes
are not recursive, and `init` logs a line while it holds both: that call comes
to its end only where the line is below the level `init` is given, or where an
exception leaves the call before the line is written.
-/
import Webserver.Guards
import Webserver.Strings

namespace Webserver

open Cxx Guards

inductive LogLevel
  | debug | info | warn | error
  deriving DecidableEq

namespace LogLevel

/-- The value of the enumerator. -/
def value : LogLevel → Nat
  | debug => 0
  | info => 1
  | warn => 2
  | error => 3

instance : LT LogLevel := ⟨fun a b => a.value < b.value⟩

instance : DecidableRel (α := LogLevel) (· < ·) := fun a b => Nat.decLt a.value b.value

/-- `get_log_level_string` -/
def text : LogLevel → Bytes
  | debug => bytes "DEBUG"
  | info => bytes "INFO"
  | warn => bytes "WARN"
  | error => bytes "ERROR"

end LogLevel

/-- A `std::ofstream`, with the bytes that went through it. -/
structure LogFile where
  path : Bytes
  isOpen : Bool
  written : Bytes := []

/-- The members of the logger, as static storage starts them, and what the
console has been given. -/
structure Logger where
  accessLog : Option LogFile := none
  errorLog : Option LogFile := none
  logLevel : LogLevel := .debug
  consoleOutput : Bool := false
  initialized : Bool := false
  out : Bytes := []
  err : Bytes := []

inductive LoggerMutex
  | access | error
  deriving DecidableEq

/-- Where the logger allocates memory. -/
inductive Allocation
  | accessStream | errorStream | greeting | timestamp | entry | consoleEntry
  deriving DecidableEq

/-- What a call meets outside the logger. -/
structure LogWorld where
  /-- What `get_timestamp` prints. -/
  timestamp : Bytes
  /-- Whether a file of this name can be opened to append to it. -/
  opens : Bytes → Bool
  /-- What `create_directories("logs")` throws. -/
  directoryError : Option Bytes
  /-- Whether an allocation throws `std::bad_alloc`. -/
  outOfMemory : Allocation → Bool

abbrev LogCode := Code LoggerMutex Logger

namespace Logger

/-- `std::cout << text << std::endl` -/
def printOut (text : Bytes) : LogCode Unit := update fun l => { l with out := l.out ++ text ++ bytes "\n" }

/-- `std::cerr << text << std::endl` -/
def printErr (text : Bytes) : LogCode Unit := update fun l => { l with err := l.err ++ text ++ bytes "\n" }

def allocate (w : LogWorld) (a : Allocation) : LogCode Unit :=
  if w.outOfMemory a then throws else pure ()

def getTimestamp (w : LogWorld) : LogCode Bytes := do
  allocate w .timestamp
  return w.timestamp

def ensureLogDirectories (w : LogWorld) : LogCode Unit :=
  match w.directoryError with
  | none => pure ()
  | some what => printErr (bytes "Could not create logs directory: " ++ what)

/-- A stream that is there and open takes the line. -/
def writeLine (log : Option LogFile) (line : Bytes) : Option LogFile :=
  log.map fun f => if f.isOpen then { f with written := f.written ++ line ++ bytes "\n" } else f

/-- `log && log->is_open()` -/
def isWritable (log : Option LogFile) : Bool := log.any (·.isOpen)

/-- `log_error`, which the other levels call. -/
def logError (w : LogWorld) (message : Bytes) (level : LogLevel) : LogCode Unit := do
  let l ← data
  if !l.initialized || level < l.logLevel then
    pure ()
  else do
    let timestamp ← getTimestamp w
    let entry := bytes "[" ++ timestamp ++ bytes "] [" ++ level.text ++ bytes "] " ++ message
    guarded .error do
      let l ← data
      onlyIf (isWritable l.errorLog) do
        allocate w .entry
        update fun l => { l with errorLog := writeLine l.errorLog entry }
      onlyIf (l.consoleOutput || ¬level < LogLevel.error) do
        allocate w .consoleEntry
        printErr entry

def logInfo (w : LogWorld) (message : Bytes) : LogCode Unit := logError w message .info

def logWarn (w : LogWorld) (message : Bytes) : LogCode Unit := logError w message .warn

def logDebug (w : LogWorld) (message : Bytes) : LogCode Unit := logError w message .debug

/-- A field of an access line that may be missing. -/
def quoted (field : Bytes) : Bytes :=
  if field.isEmpty then bytes " \"-\"" else bytes " \"" ++ field ++ bytes "\""

def logAccess (w : LogWorld) (clientIp method path : Bytes) (statusCode : Int) (responseSize : Nat)
    (userAgent referer : Bytes) : LogCode Unit := do
  let l ← data
  if !l.initialized then
    pure ()
  else do
    let timestamp ← getTimestamp w
    let status := if statusCode < 0 then bytes "-" ++ decimal statusCode.natAbs else decimal statusCode.natAbs
    let entry := clientIp ++ bytes " - - [" ++ timestamp ++ bytes "] \"" ++ method ++ bytes " " ++ path ++
      bytes " HTTP/1.1\" " ++ status ++ bytes " " ++ decimal responseSize ++ quoted referer ++ quoted userAgent
    guarded .access do
      let l ← data
      onlyIf (isWritable l.accessLog) do
        allocate w .entry
        update fun l => { l with accessLog := writeLine l.accessLog entry }
      onlyIf l.consoleOutput do
        allocate w .consoleEntry
        printOut (bytes "[ACCESS] " ++ entry)

/-- `std::make_unique<std::ofstream>(path, std::ios::app)`, which allocates at `a`. -/
def openLog (w : LogWorld) (a : Allocation) (path : Bytes) : LogCode LogFile := do
  allocate w a
  return { path, isOpen := w.opens path }

/-- What `init` says where a file is not open: `kind` is in the text. -/
def warnUnlessOpen (log : LogFile) (kind : Bytes) : LogCode Unit :=
  onlyIf (!log.isOpen) do
    printErr (bytes "Warning: Could not open " ++ kind ++ bytes " log file: " ++ log.path)
    update fun l => { l with consoleOutput := true }

/-- What `init` does in its `try` block before it logs. -/
def openLogs (w : LogWorld) (accessLogPath errorLogPath : Bytes) : LogCode Unit := do
  ensureLogDirectories w
  let accessLog ← openLog w .accessStream accessLogPath
  update fun l => { l with accessLog := some accessLog }
  let errorLog ← openLog w .errorStream errorLogPath
  update fun l => { l with errorLog := some errorLog }
  warnUnlessOpen accessLog (bytes "access")
  warnUnlessOpen errorLog (bytes "error")
  allocate w .greeting

def init (w : LogWorld) (accessLogPath errorLogPath : Bytes) (level : LogLevel) : LogCode Unit :=
  guarded .access <| guarded .error do
    update fun l => { l with logLevel := level, consoleOutput := false, initialized := true }
    attempt
      (do openLogs w accessLogPath errorLogPath
          logInfo w (bytes "Logger initialized - Access: " ++ accessLogPath ++ bytes ", Error: " ++ errorLogPath))
      (do printErr (bytes "Logger initialization error: std::bad_alloc")
          update fun l => { l with consoleOutput := true })

def setLogLevel (level : LogLevel) : LogCode Unit := update fun l => { l with logLevel := level }

def enableConsoleOutput (enable : Bool) : LogCode Unit := update fun l => { l with consoleOutput := enable }

/-- Every line has been flushed where it was written. -/
def flushLogs : LogCode Unit := guarded .access <| guarded .error (pure ())

end Logger

/-- A call of the public interface. -/
inductive LoggerCall
  | init (accessLogPath errorLogPath : Bytes) (level : LogLevel)
  | logAccess (clientIp method path : Bytes) (statusCode : Int) (responseSize : Nat) (userAgent referer : Bytes)
  | logError (message : Bytes) (level : LogLevel)
  | logInfo (message : Bytes)
  | logWarn (message : Bytes)
  | logDebug (message : Bytes)
  | setLogLevel (level : LogLevel)
  | enableConsoleOutput (enable : Bool)
  | flushLogs

namespace LoggerCall

/-- The code of a call, with what it meets. -/
def code (k : LoggerCall × LogWorld) : LogCode Unit :=
  match k.1 with
  | init accessLogPath errorLogPath level => Logger.init k.2 accessLogPath errorLogPath level
  | logAccess clientIp method path statusCode responseSize userAgent referer =>
    Logger.logAccess k.2 clientIp method path statusCode responseSize userAgent referer
  | logError message level => Logger.logError k.2 message level
  | logInfo message => Logger.logInfo k.2 message
  | logWarn message => Logger.logWarn k.2 message
  | logDebug message => Logger.logDebug k.2 message
  | setLogLevel level => Logger.setLogLevel level
  | enableConsoleOutput enable => Logger.enableConsoleOutput enable
  | flushLogs => Logger.flushLogs

/-- Where `init` allocates before its first line is written. -/
def beforeGreeting : List Allocation := [.accessStream, .errorStream, .greeting, .timestamp]

/-- The first line of an `init` is not written: its level is below the one the
logger is given, or memory runs out before the line is complete. -/
def SkipsGreeting (k : LoggerCall × LogWorld) : Prop :=
  match k.1 with
  | init _ _ level => LogLevel.info < level ∨ ∃ a ∈ beforeGreeting, k.2.outOfMemory a = true
  | _ => True

end LoggerCall

namespace Logger

variable {held : List LoggerMutex} {w : LogWorld}

/-! ## Calls that take each mutex once -/

theorem quiet_allocate {a : Allocation} : Quiet held (allocate w a) := Quiet.ite Quiet.throws Quiet.pure

theorem quiet_getTimestamp : Quiet held (getTimestamp w) := quiet_allocate.bind fun _ => Quiet.pure

/-- A line goes out, if it does. -/
theorem quiet_write {p : Bool} {a : Allocation} {f : Logger → Logger} :
    Quiet held (onlyIf p (do allocate w a; update f)) :=
  Quiet.onlyIf (quiet_allocate.bind fun _ => Quiet.update)

theorem quiet_logError {message level} (h : LoggerMutex.error ∉ held) : Quiet held (logError w message level) := by
  unfold logError
  refine Quiet.data.bind fun l => Quiet.ite Quiet.pure (quiet_getTimestamp.bind fun timestamp => ?_)
  exact Quiet.guarded h (Quiet.data.bind fun l => quiet_write.bind fun _ => quiet_write)

theorem quiet_logAccess {clientIp method path statusCode responseSize userAgent referer}
    (h : LoggerMutex.access ∉ held) :
    Quiet held (logAccess w clientIp method path statusCode responseSize userAgent referer) := by
  unfold logAccess
  refine Quiet.data.bind fun l => Quiet.ite Quiet.pure (quiet_getTimestamp.bind fun timestamp => ?_)
  exact Quiet.guarded h (Quiet.data.bind fun l => quiet_write.bind fun _ => quiet_write)

theorem quiet_setLogLevel {level : LogLevel} : Quiet held (setLogLevel level) := Quiet.update

theorem quiet_enableConsoleOutput {enable : Bool} : Quiet held (enableConsoleOutput enable) := Quiet.update

theorem quiet_flushLogs : Quiet [] flushLogs :=
  Quiet.guarded List.not_mem_nil (Quiet.guarded (by decide) Quiet.pure)

/-! ## The first line of `init` -/

/-- What is so from the first assignments of `init` to its line: the level and
the flag are set, and the allocations made so far have succeeded. -/
def Opening (w : LogWorld) (level : LogLevel) (made : List Allocation) (l : Logger) : Prop :=
  l.logLevel = level ∧ l.initialized = true ∧ ∀ a ∈ made, w.outOfMemory a = false

/-- An allocation of `init` up to its line fails. -/
def Fails (w : LogWorld) : Prop := ∃ a ∈ LoggerCall.beforeGreeting, w.outOfMemory a = true

variable {level : LogLevel} {made : List Allocation}

theorem runs_allocate {a : Allocation} (ha : a ∈ LoggerCall.beforeGreeting) :
    Runs held (Opening w level made) (allocate w a) (fun _ => Opening w level (a :: made)) fun _ => Fails w := by
  refine Runs.ite (fun h => Runs.throws fun _ _ => ⟨a, ha, h⟩) fun h => Runs.pure fun l hl => ?_
  exact ⟨hl.1, hl.2.1, List.forall_mem_cons.mpr ⟨Bool.eq_false_of_not_eq_true h, hl.2.2⟩⟩

theorem runs_openLog {a : Allocation} (ha : a ∈ LoggerCall.beforeGreeting) {path : Bytes} :
    Runs held (Opening w level made) (openLog w a path) (fun _ => Opening w level (a :: made)) fun _ => Fails w :=
  (runs_allocate ha).bind fun _ => Runs.pure fun _ h => h

theorem runs_ensureLogDirectories {E : Logger → Prop} :
    Runs held (Opening w level made) (ensureLogDirectories w) (fun _ => Opening w level made) E := by
  unfold ensureLogDirectories
  split
  · exact Runs.pure fun _ h => h
  · exact Runs.update fun _ h => h

theorem runs_warnUnlessOpen {log : LogFile} {kind : Bytes} {E : Logger → Prop} :
    Runs held (Opening w level made) (warnUnlessOpen log kind) (fun _ => Opening w level made) E :=
  Runs.onlyIf (fun _ => Runs.bind (Runs.update fun _ h => h) fun _ => Runs.update fun _ h => h) fun _ h => h

theorem runs_openLogs {accessLogPath errorLogPath : Bytes} :
    Runs held (Opening w level []) (openLogs w accessLogPath errorLogPath)
      (fun _ => Opening w level [.greeting, .errorStream, .accessStream]) fun _ => Fails w := by
  refine runs_ensureLogDirectories.bind fun _ => ?_
  refine (runs_openLog (by decide)).bind fun accessLog => ?_
  refine Runs.bind (Q := fun _ => Opening w level [.accessStream]) (Runs.update fun _ h => h) fun _ => ?_
  refine (runs_openLog (by decide)).bind fun errorLog => ?_
  refine Runs.bind (Q := fun _ => Opening w level [.errorStream, .accessStream]) (Runs.update fun _ h => h)
    fun _ => ?_
  refine runs_warnUnlessOpen.bind fun _ => runs_warnUnlessOpen.bind fun _ => ?_
  exact runs_allocate (by decide)

theorem runs_getTimestamp :
    Runs held (Opening w level made) (getTimestamp w) (fun _ => Opening w level (.timestamp :: made))
      fun _ => Fails w :=
  (runs_allocate (by decide)).bind fun _ => Runs.pure fun _ h => h

theorem Opening.not_fails {l : Logger}
    (h : Opening w level [.timestamp, .greeting, .errorStream, .accessStream] l) : ¬Fails w := by
  have hmade : ∀ a ∈ LoggerCall.beforeGreeting,
      a ∈ [Allocation.timestamp, .greeting, .errorStream, .accessStream] := by decide
  rintro ⟨a, ha, hfail⟩
  exact Bool.false_ne_true ((h.2.2 a (hmade a ha)).symm.trans hfail)

/-- The line of `init`, where nothing of it is written. -/
theorem runs_greeting {message : Bytes} (h : LogLevel.info < level ∨ Fails w) :
    Runs held (Opening w level [.greeting, .errorStream, .accessStream]) (logInfo w message)
      (fun _ _ => True) fun _ => True := by
  refine Runs.data.bind fun l => Runs.ite (fun _ => Runs.pure fun _ _ => trivial) fun hl => ?_
  rintro _ ⟨rfl, hs⟩
  have hfails : Fails w := h.resolve_left fun hlt => hl (by simp [hs.1, hlt])
  refine Runs.bind (runs_getTimestamp.mono (fun _ h => h) (fun _ _ h => h) fun _ _ => trivial) (fun _ => ?_) l hs
  exact fun s hs => absurd hfails hs.not_fails

/-- The line of `init`, where it is written: the mutex of the error log is held. -/
theorem blocks_greeting {message : Bytes} (h : ¬(LogLevel.info < level ∨ Fails w)) (he : .error ∈ held) :
    Blocks held (Opening w level [.greeting, .errorStream, .accessStream]) (logInfo w message) .error := by
  obtain ⟨hlevel, hfails⟩ := not_or.mp h
  refine Blocks.bind Runs.data fun l => ?_
  rintro _ ⟨rfl, hs⟩
  rw [if_neg (by simp [hs.1, hs.2.1, hlevel])]
  refine Blocks.bind (runs_getTimestamp.mono (fun _ h => h) (fun _ _ h => h) fun _ => hfails) (fun _ => ?_) l hs
  exact Blocks.guarded he

theorem quiet_init {accessLogPath errorLogPath : Bytes} (h : LogLevel.info < level ∨ Fails w) :
    Quiet [] (init w accessLogPath errorLogPath level) := by
  refine Quiet.guarded List.not_mem_nil (Quiet.guarded (by decide) ?_)
  refine Runs.bind (Q := fun _ => Opening w level []) (Runs.update fun _ _ => ⟨rfl, rfl, by simp⟩) fun _ => ?_
  refine Runs.attempt (F := fun _ => True) ?_ (Quiet.update.bind fun _ => Quiet.update)
  exact Runs.bind (runs_openLogs.mono (fun _ h => h) (fun _ _ h => h) fun _ _ => trivial) fun _ => runs_greeting h

theorem blocks_init {accessLogPath errorLogPath : Bytes} (h : ¬(LogLevel.info < level ∨ Fails w)) :
    Blocks [] (fun _ => True) (init w accessLogPath errorLogPath level) .error := by
  refine Blocks.inside List.not_mem_nil (Blocks.inside (by decide) ?_)
  refine Blocks.bind (Q := fun _ => Opening w level []) (Runs.update fun _ _ => ⟨rfl, rfl, by simp⟩) fun _ => ?_
  refine Blocks.attempt ?_
  refine Blocks.bind (runs_openLogs.mono (fun _ h => h) (fun _ _ h => h) fun _ => (not_or.mp h).2) fun _ => ?_
  exact blocks_greeting h (by decide)

end Logger

namespace LoggerCall

theorem quiet_code : ∀ k, SkipsGreeting k → Quiet [] (code k)
  | (init .., _), h => Logger.quiet_init h
  | (logAccess .., _), _ => Logger.quiet_logAccess List.not_mem_nil
  | (logError .., _), _ | (logInfo _, _), _ | (logWarn _, _), _ | (logDebug _, _), _ =>
    Logger.quiet_logError List.not_mem_nil
  | (setLogLevel _, _), _ => Logger.quiet_setLogLevel
  | (enableConsoleOutput _, _), _ => Logger.quiet_enableConsoleOutput
  | (flushLogs, _), _ => Logger.quiet_flushLogs

theorem blocks_code : ∀ k, ¬SkipsGreeting k → ∃ m, Blocks [] (fun _ => True) (code k) m
  | (init .., _), h => ⟨.error, Logger.blocks_init h⟩
  | (logAccess .., _), h | (logError .., _), h | (logInfo _, _), h | (logWarn _, _), h | (logDebug _, _), h
  | (setLogLevel _, _), h | (enableConsoleOutput _, _), h | (flushLogs, _), h => absurd trivial h

/-- Whatever calls a thread makes of the logger, none asks for a mutex that the
thread holds and each leaves both free, exactly if no `init` writes its line. -/
theorem free_iff_skipsGreeting (l : Logger) (calls : List (LoggerCall × LogWorld)) :
    (∀ r ∈ session code calls ⟨[], l⟩, Free r) ↔ ∀ k ∈ calls, SkipsGreeting k :=
  session_free_iff quiet_code blocks_code calls l

/-- The default call of `init` on the logger as the program starts with it. -/
theorem not_free_init_default :
    ¬∀ r ∈ session code
      [(init (bytes "./logs/access.log") (bytes "./logs/error.log") .info,
        { timestamp := bytes "01/Jan/2025:00:00:00 +0000", opens := fun _ => true, directoryError := none,
          outOfMemory := fun _ => false })]
      ⟨[], {}⟩, Free r := by
  intro h
  exact (h _ (List.mem_singleton_self _)).1 .error rfl

end LoggerCall

end Webserver
