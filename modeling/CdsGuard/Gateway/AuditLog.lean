import CdsGuard.DoubleArray.Search
import CdsGuard.Lib.Bytes
import CdsGuard.Lib.Transition

/-
  The log file of `LoggingPage`: the text of each task that is censored, with the ranges that
  matched. The file has one name for as long as the program runs; `std::ofstream::open` empties it,
  and fails for a stream that is open, which leaves the stream unusable. The stream has a buffer
  that the page never flushes: what has been written is in the file for certain only when the
  stream is closed.

  `append_log` tests the flag of the page first and takes its lock only for the writing; between
  the two others may come. Each of its halves, an opening and a closing are one step each here,
  although the page takes no lock for the latter two. The disk takes what is written.

  Proved: in which runs the file and the buffer together hold, at every moment, all entries of the
  finished calls that found the page logging, and the file alone does while the stream is closed
  (`complete_iff`). An entry is lost in three ways only: logging is started again after it was
  stopped, or started when it is already on, or stopped between the two halves of `append_log`.
-/

namespace CdsGuard.Gateway

open CdsGuard.Lib CdsGuard.DoubleArray

/-! ## The page -/

def ascii (s : String) : Bytes := utf8 s.toList

/-- `'[' + to_string(index) + ", " + to_string(size) + "] "`. -/
def matchedLocation (m : MatchedInfo) : Bytes :=
  ascii "[" ++ ascii (toString m.index) ++ ascii ", " ++ ascii (toString m.size) ++ ascii "] "

def logEntry (censorText : Bytes) (matchedInfoVec : List MatchedInfo) : Bytes :=
  ascii "[CENSORED TEXT] " ++ censorText ++ ascii "\n" ++ ascii "[MATCHED LOCATIONS] " ++
    matchedInfoVec.flatMap matchedLocation ++ ascii "\n"

/-- `log_file_ofstream_` and the file behind it. -/
structure LogStream where
  isOpen : Bool
  /-- `failbit`: nothing more is written. -/
  fail : Bool
  /-- Written, and not yet in the file. -/
  buffer : Bytes
  file : Bytes
  deriving DecidableEq

namespace LogStream

/-- `permitted` is whether the file system lets the file be opened. -/
def openFile (s : LogStream) (permitted : Bool) : LogStream :=
  if s.isOpen then { s with fail := true }
  else if permitted then ⟨true, false, [], []⟩
  else { s with fail := true }

/-- The buffer goes into the file. -/
def close (s : LogStream) : LogStream :=
  if s.isOpen then { s with isOpen := false, buffer := [], file := s.file ++ s.buffer }
  else { s with fail := true }

/-- `log_file_ofstream_ << log_entry`. The library moves some of its bytes, `flushed` of them, into
    the file on this occasion. -/
def write (s : LogStream) (entry : Bytes) (flushed : Nat) : LogStream :=
  if s.fail then s
  else { s with
    buffer := (s.buffer ++ entry).drop flushed
    file := s.file ++ (s.buffer ++ entry).take flushed }

/-- What has been written since the stream was opened. -/
def written (s : LogStream) : Bytes := s.file ++ s.buffer

theorem written_close (s : LogStream) : s.close.written = s.written := by
  rw [close]
  split
  · exact List.append_nil _
  · rfl

theorem written_write {s : LogStream} (h : s.fail = false) (entry : Bytes) (flushed : Nat) :
    (s.write entry flushed).written = s.written ++ entry := by
  rw [write, if_neg (by rw [h]; exact Bool.noConfusion)]
  show (s.file ++ (s.buffer ++ entry).take flushed) ++ (s.buffer ++ entry).drop flushed = _
  rw [List.append_assoc, List.take_append_drop, written, List.append_assoc]

end LogStream

structure LoggingPage where
  logFileOfstream : LogStream
  loggingStateFlag : Bool
  deriving DecidableEq

namespace LoggingPage

def loggingStartButtonClicked (p : LoggingPage) (permitted : Bool) : LoggingPage :=
  let stream := p.logFileOfstream.openFile permitted
  if stream.isOpen then ⟨stream, true⟩ else { p with logFileOfstream := stream }

def loggingStopButtonClicked (p : LoggingPage) : LoggingPage :=
  let stream := p.logFileOfstream.close
  if stream.isOpen = false then ⟨stream, false⟩ else { p with logFileOfstream := stream }

/-- `append_log` up to its lock: the entry, if there is one to be written. The text widget beside
    the file shows the last lines and is left out. -/
def appendLog (p : LoggingPage) (censorText : Bytes) (matchedInfoVec : List MatchedInfo) :
    Option Bytes :=
  if p.loggingStateFlag then some (logEntry censorText matchedInfoVec) else none

/-- The rest of it, with the lock. -/
def appendLogLocked (p : LoggingPage) (entry : Bytes) (flushed : Nat) : LoggingPage :=
  if p.logFileOfstream.isOpen then
    { p with logFileOfstream := p.logFileOfstream.write entry flushed }
  else p

/-- The constructor ends with `logging_stop_button_clicked`. -/
def initial : LoggingPage := loggingStopButtonClicked ⟨⟨false, false, [], []⟩, false⟩

end LoggingPage

/-! ## What is to be logged -/

inductive LogEvent where
  | start (permitted : Bool)
  | stop
  /-- A worker calls `append_log` and comes to its lock. -/
  | append (censorText : Bytes) (matchedInfoVec : List MatchedInfo)
  /-- The `k`-th of the workers that came there has the lock and finishes the call. -/
  | write (k : Nat) (flushed : Nat)
  deriving DecidableEq

/-- The page, the entries of the workers between the two halves of `append_log`, and the entries of
    the calls that are finished. -/
structure AuditLog where
  page : LoggingPage
  pending : List Bytes
  due : List Bytes
  deriving DecidableEq

namespace AuditLog

def start : AuditLog := ⟨.initial, [], []⟩

def step (s : AuditLog) : LogEvent → Option AuditLog
  | .start permitted => some { s with page := s.page.loggingStartButtonClicked permitted }
  | .stop => some { s with page := s.page.loggingStopButtonClicked }
  | .append censorText matchedInfoVec =>
    match s.page.appendLog censorText matchedInfoVec with
    | some entry => some { s with pending := s.pending ++ [entry] }
    | none => some s
  | .write k flushed =>
    s.pending[k]?.map fun entry =>
      ⟨s.page.appendLogLocked entry flushed, s.pending.eraseIdx k, s.due ++ [entry]⟩

/-- File and buffer hold all of them, in order, and nothing else; the file does so alone when the
    stream is closed. -/
structure Complete (s : AuditLog) : Prop where
  written : s.page.logFileOfstream.written = s.due.flatten
  closed : s.page.logFileOfstream.isOpen = false →
    s.page.logFileOfstream.file = s.due.flatten

/-- Logging is started again with entries in the file; or an entry is written after logging was
    stopped, or after it was started when it was already on. -/
def Loses (s : AuditLog) : LogEvent → Prop
  | .start permitted => s.page.logFileOfstream.isOpen = false ∧ permitted = true ∧ s.due ≠ []
  | .stop => False
  | .append _ _ => False
  | .write k _ => s.pending[k]?.isSome = true ∧
      (s.page.logFileOfstream.isOpen = false ∨ s.page.logFileOfstream.fail = true)

/-! ## Complete logs -/

structure Inv (s : AuditLog) : Prop where
  /-- The page says that it logs while the stream is open. -/
  flag : s.page.loggingStateFlag = s.page.logFileOfstream.isOpen
  flushed : s.page.logFileOfstream.isOpen = false → s.page.logFileOfstream.buffer = []
  pendingNonempty : ∀ entry ∈ s.pending, entry ≠ []
  dueNonempty : ∀ entry ∈ s.due, entry ≠ []
  written : s.page.logFileOfstream.written = s.due.flatten

variable {s : AuditLog}

theorem Inv.complete (h : Inv s) : s.Complete where
  written := h.written
  closed hclosed := by
    rw [← h.written, LogStream.written, h.flushed hclosed, List.append_nil]

theorem logEntry_ne_nil (censorText : Bytes) (matchedInfoVec : List MatchedInfo) :
    logEntry censorText matchedInfoVec ≠ [] :=
  List.append_ne_nil_of_right_ne_nil _ (by decide)

theorem inv_start : Inv start where
  flag := rfl
  flushed _ := rfl
  pendingNonempty := by simp [start]
  dueNonempty := by simp [start]
  written := rfl

theorem flatten_ne_nil {es : List Bytes} (hne : ∀ e ∈ es, e ≠ []) (h : es ≠ []) :
    es.flatten ≠ [] := by
  obtain ⟨e, es, rfl⟩ := List.exists_cons_of_ne_nil h
  exact List.append_ne_nil_of_left_ne_nil (hne e List.mem_cons_self) _

theorem Inv.start (h : Inv s) {permitted : Bool} (hok : ¬s.Loses (.start permitted)) :
    Inv { s with page := s.page.loggingStartButtonClicked permitted } := by
  obtain ⟨⟨⟨isOpen, fail, buffer, file⟩, flag⟩, pending, due⟩ := s
  have hflag : flag = isOpen := h.flag
  cases isOpen with
  | true => exact ⟨rfl, Bool.noConfusion, h.pendingNonempty, h.dueNonempty, h.written⟩
  | false =>
    cases permitted with
    | true =>
      have hdue : due = [] := by
        by_contra hne
        exact hok ⟨rfl, rfl, hne⟩
      subst hdue
      exact ⟨rfl, fun _ => rfl, h.pendingNonempty, h.dueNonempty, rfl⟩
    | false => exact ⟨hflag, h.flushed, h.pendingNonempty, h.dueNonempty, h.written⟩

theorem Inv.stop (h : Inv s) : Inv { s with page := s.page.loggingStopButtonClicked } := by
  have hwritten := (LogStream.written_close s.page.logFileOfstream).trans h.written
  obtain ⟨⟨⟨isOpen, fail, buffer, file⟩, flag⟩, pending, due⟩ := s
  cases isOpen with
  | true => exact ⟨rfl, fun _ => rfl, h.pendingNonempty, h.dueNonempty, hwritten⟩
  | false => exact ⟨rfl, h.flushed, h.pendingNonempty, h.dueNonempty, hwritten⟩

theorem Inv.append (h : Inv s) {s' : AuditLog} {censorText : Bytes}
    {matchedInfoVec : List MatchedInfo}
    (hstep : step s (.append censorText matchedInfoVec) = some s') : Inv s' := by
  rw [step, LoggingPage.appendLog] at hstep
  split at hstep
  · rename_i entry hentry
    obtain ⟨-, hentry⟩ := Option.ite_none_right_eq_some.mp hentry
    cases hentry
    cases hstep
    refine ⟨h.flag, h.flushed, fun entry hmem => ?_, h.dueNonempty, h.written⟩
    rcases List.mem_append.mp hmem with hmem | hmem
    · exact h.pendingNonempty entry hmem
    · exact List.mem_singleton.mp hmem ▸ logEntry_ne_nil censorText matchedInfoVec
  · cases hstep
    exact h

theorem Inv.write (h : Inv s) {s' : AuditLog} {k flushed : Nat}
    (hok : ¬s.Loses (.write k flushed)) (hstep : step s (.write k flushed) = some s') : Inv s' := by
  obtain ⟨entry, hentry, rfl⟩ := Option.map_eq_some_iff.mp hstep
  have hgood : ¬(s.page.logFileOfstream.isOpen = false ∨ s.page.logFileOfstream.fail = true) :=
    fun hbad => hok ⟨by rw [hentry]; rfl, hbad⟩
  rw [not_or, Bool.not_eq_false, Bool.not_eq_true] at hgood
  have hmem : entry ∈ s.pending := List.mem_of_getElem? hentry
  rw [LoggingPage.appendLogLocked, if_pos hgood.1]
  have hwritten := LogStream.written_write hgood.2 entry flushed
  have hopen : (s.page.logFileOfstream.write entry flushed).isOpen = true := by
    rw [LogStream.write, if_neg (by rw [hgood.2]; exact Bool.noConfusion)]
    exact hgood.1
  refine ⟨?_, fun hclosed => ?_, fun e he => ?_, fun e he => ?_, ?_⟩
  · exact (h.flag.trans hgood.1).trans hopen.symm
  · cases hopen.symm.trans hclosed
  · exact h.pendingNonempty e (List.mem_of_mem_eraseIdx he)
  · rcases List.mem_append.mp he with he | he
    · exact h.dueNonempty e he
    · exact List.mem_singleton.mp he ▸ h.pendingNonempty entry hmem
  · show (s.page.logFileOfstream.write entry flushed).written = _
    rw [hwritten, h.written, List.flatten_append, List.flatten_singleton]

theorem Inv.step {s' : AuditLog} {e : LogEvent} (h : Inv s) (hok : ¬s.Loses e)
    (hstep : step s e = some s') : Inv s' := by
  cases e with
  | start permitted =>
    cases hstep
    exact h.start hok
  | stop =>
    cases hstep
    exact h.stop
  | append censorText matchedInfoVec => exact h.append hstep
  | write k flushed => exact h.write hok hstep

/-- To a stream that is closed or failed nothing is written. -/
theorem written_appendLogLocked {p : LoggingPage} (entry : Bytes) (flushed : Nat)
    (h : p.logFileOfstream.isOpen = false ∨ p.logFileOfstream.fail = true) :
    (p.appendLogLocked entry flushed).logFileOfstream.written = p.logFileOfstream.written := by
  rw [LoggingPage.appendLogLocked]
  split
  · rename_i hopen
    have hfail := h.resolve_left (by rw [hopen]; exact Bool.noConfusion)
    show (p.logFileOfstream.write entry flushed).written = _
    rw [LogStream.write, if_pos hfail]
  · rfl

/-- A step that loses entries leaves a file that is not complete. -/
theorem Inv.loses (h : Inv s) {e : LogEvent} (hbad : s.Loses e) :
    ∃ s', AuditLog.step s e = some s' ∧ ¬s'.Complete := by
  cases e with
  | start permitted =>
    obtain ⟨⟨⟨isOpen, fail, buffer, file⟩, flag⟩, pending, due⟩ := s
    obtain ⟨rfl, rfl, hdue⟩ := hbad
    refine ⟨_, rfl, fun hcomplete => ?_⟩
    exact flatten_ne_nil h.dueNonempty hdue hcomplete.written.symm
  | stop | append => exact hbad.elim
  | write k flushed =>
    obtain ⟨hsome, hlost⟩ := hbad
    obtain ⟨entry, hentry⟩ := Option.isSome_iff_exists.mp hsome
    refine ⟨_, by rw [AuditLog.step, hentry, Option.map_some], fun hcomplete => ?_⟩
    have hwritten := hcomplete.written
    dsimp only at hwritten
    rw [written_appendLogLocked entry flushed hlost, h.written, List.flatten_append,
      List.flatten_singleton] at hwritten
    exact h.pendingNonempty entry (List.mem_of_getElem? hentry)
      (List.append_right_eq_self.mp hwritten.symm)

/-- In every run, the log is complete at every moment if and only if no step loses entries. -/
theorem complete_iff (es : List LogEvent) :
    (∀ pre t, pre <+: es → run step start pre = some t → t.Complete) ↔
      Along step (fun s e => ¬s.Loses e) start es :=
  along_iff_reached (fun _ _ _ h hok hstep => h.step hok hstep) (fun _ h => h.complete)
    (fun _ _ h hbad => h.loses hbad) inv_start

/-- Stopped between the two halves of `append_log`, the page loses the entry. -/
example : (run step start [.start true, .append [0x61] [⟨0, 1⟩], .stop, .write 0 0]).map
    (fun s => (s.page.logFileOfstream.file, s.due.length)) = some ([], 1) := by decide

end AuditLog

end CdsGuard.Gateway
