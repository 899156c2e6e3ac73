/-
# The log of a build, from the child to the runner's file

`run_command` of `crates/agent/src/build.rs` supervises a build: two reader
tasks send the lines of the child's output through one channel, and the loop
takes them off it in batches and forwards every batch to the runner as one
chunk. `LogSinkImpl::write` of `crates/queue-runner/src/rpc/log_sink.rs`
appends the chunks to the log file.

The agent's runtime has one thread, so a batch takes what the channel holds
when the loop gets to it (`fill`); in between, at the awaits, anything may
happen. Deadlines and failures are actions that may come at any such point.
The wait for the exit status after the loop, and what becomes of the result,
are left out: the log is complete by then.
-/
import Circus.Lts

namespace Circus.Agent.LogStream

def newline : UInt8 := 10

def Line : Type := { bytes : List UInt8 // newline ∉ bytes }

instance : DecidableEq Line := inferInstanceAs (DecidableEq { bytes : List UInt8 // newline ∉ bytes })

def Line.bytes (l : Line) : List UInt8 := l.1

def maxLogBatchBytes : ℕ := 256 * 1024

def maxLogBatchLines : ℕ := 4096

def logChannelCapacity : ℕ := 1024

def maxLogChunkBytes : ℕ := 1024 * 1024

def saturatingAdd (a b : ℕ) : ℕ := min (a + b) (2 ^ 64 - 1)

/-! ### The runner's sink -/

structure Sink where
  file : List UInt8 := []
  bytesWritten : ℕ := 0
  closed : Bool := false
  deriving DecidableEq

/-- Where the file system fails. -/
inductive IoFailure
  | opening (e : String)
  | chunk (written : ℕ) (e : String)
  | newline (e : String)
  deriving DecidableEq

def Sink.write (path : String) (maxBytes : ℕ) (io : Option IoFailure) (chunk : List UInt8) (s : Sink) :
    Except String Unit × Sink :=
  let accounted := chunk.length + 1
  if maxLogChunkBytes < chunk.length then
    (.error ("log chunk too large: " ++ toString chunk.length ++ " > " ++ toString maxLogChunkBytes), s)
  else if s.closed then (.error "log sink is closed", s)
  else if maxBytes < saturatingAdd s.bytesWritten accounted then
    (.error ("log size limit exceeded: " ++ toString (saturatingAdd s.bytesWritten accounted) ++ " > " ++
      toString maxBytes), s)
  else
    match io with
    | some (.opening e) => (.error ("open log " ++ path ++ ": " ++ e), s)
    | some (.chunk written e) => (.error ("write log: " ++ e), { s with file := s.file ++ chunk.take written })
    | some (.newline e) => (.error ("write log: " ++ e), { s with file := s.file ++ chunk })
    | none => (.ok (), { s with
        file := s.file ++ chunk ++ [LogStream.newline]
        bytesWritten := saturatingAdd s.bytesWritten accounted })

/-- The sink refuses the chunk, whatever the file system does. -/
def Sink.refuses (maxBytes : ℕ) (chunk : List UInt8) (s : Sink) : Bool :=
  decide (maxLogChunkBytes < chunk.length) || s.closed ||
    decide (maxBytes < saturatingAdd s.bytesWritten (chunk.length + 1))

/-! ### Batches -/

structure Batch where
  bytes : List UInt8 := []
  /-- The lines in it, `batch_lines` many. -/
  lines : List Line := []
  deriving DecidableEq

namespace Batch

def push (b : Batch) (line : Line) : Batch where
  bytes := (if b.bytes.isEmpty then [] else b.bytes ++ [newline]) ++ line.bytes
  lines := b.lines ++ [line]

/-- The batch is sent now. -/
def full (b : Batch) : Bool := decide (maxLogBatchBytes ≤ b.bytes.length) || decide (maxLogBatchLines ≤ b.lines.length)

end Batch

/-- The variables of the supervision loop. -/
structure Loop where
  /-- `child_status` is known. -/
  exitSeen : Bool := false
  bytesSent : ℕ := 0
  logSizeExceeded : Bool := false
  logTruncated : Bool := false
  sinkFailed : Bool := false
  killed : Bool := false
  timedOut : Bool := false
  aborted : Bool := false
  errorMessage : String := ""
  deriving DecidableEq

/-- A line goes into the batch, unless the log has ended. -/
def Loop.take (maxLogSize : ℕ) (s : Loop) (b : Batch) (line : Line) : Loop × Batch :=
  if s.logSizeExceeded || s.logTruncated || s.sinkFailed then (s, b)
  else if maxLogSize < saturatingAdd s.bytesSent (line.bytes.length + 1) then
    if s.exitSeen then ({ s with logTruncated := true }, b)
    else ({ s with logSizeExceeded := true, errorMessage := "max-log-size exceeded", killed := true }, b)
  else ({ s with bytesSent := saturatingAdd s.bytesSent (line.bytes.length + 1) }, b.push line)

/-- The inner loop: it ends at a full batch, at a read error and when the channel is empty. -/
def fill (maxLogSize : ℕ) : Loop → Batch → Line → List (Except String Line) →
    Loop × Batch × Option String × List (Except String Line)
  | s, b, line, [] => ((s.take maxLogSize b line).1, (s.take maxLogSize b line).2, none, [])
  | s, b, line, next :: queue =>
    let (s', b') := s.take maxLogSize b line
    if b'.full then (s', b', none, next :: queue)
    else
      match next with
      | .ok line' => fill maxLogSize s' b' line' queue
      | .error e => (s', b', some e, queue)

/-! ### The system -/

inductive Phase
  /-- In the `select!`. -/
  | waiting
  /-- A chunk is on its way. -/
  | writing (batch : Batch) (pendingReadErr : Option String)
  /-- After the loop. -/
  | left
  /-- Before `close_log`. -/
  | closing
  | done
  deriving DecidableEq

structure State where
  loop : Loop := {}
  /-- The channel. -/
  queue : List (Except String Line) := []
  /-- Both readers have ended. -/
  closed : Bool := false
  /-- The child has exited. -/
  exited : Bool := false
  phase : Phase := .waiting
  sink : Sink := {}
  /-- The lines the readers have sent. -/
  sent : List Line := []
  /-- The batches the loop has formed. -/
  batches : List (List Line) := []
  /-- The loop has ended because the channel has. -/
  drained : Bool := false
  /-- The sink has refused a batch. -/
  refused : Bool := false

/-- The check of the deadline after a batch. -/
inductive Deadline
  | ahead
  /-- It has passed; an exit seen only now is still within the grace. -/
  | passed (inGrace : Bool)
  deriving DecidableEq

inductive Action
  /-- A reader sends a line. -/
  | output (line : Line)
  | readError (e : String)
  /-- The last reader ends. -/
  | eof
  /-- The child exits. -/
  | exit
  /-- The loop takes from the channel. -/
  | recv (deadline : Deadline)
  | childExited
  /-- `child.wait()` fails. -/
  | waitFails
  | silentTimeout
  | deadlineTimeout
  | cancelled
  /-- The sink handles the chunk and its answer arrives. -/
  | reply (io : Option IoFailure) (deadline : Deadline)
  /-- The write times out; the sink may have handled it. -/
  | writeTimeout (handled : Option (Option IoFailure)) (deadline : Deadline)
  /-- The build is cancelled during a write; the sink may have handled it. -/
  | cancelledWrite (handled : Option (Option IoFailure))
  /-- The note on a truncated log. -/
  | note (handled : Option (Option IoFailure))
  | close (handled : Bool)

namespace State

def observeExit (s : State) : Loop := { s.loop with exitSeen := s.loop.exitSeen || s.exited }

/-- `break`. -/
def leave (s : State) (loop : Loop) : State := { s with loop := loop, phase := .left }

/-- The end of the loop's body. -/
def afterBatch (s : State) (pendingReadErr : Option String) (deadline : Deadline) : State :=
  match pendingReadErr with
  | some e => s.leave { s.loop with errorMessage := e }
  | none =>
    match deadline with
    | .ahead => { s with phase := .waiting }
    | .passed inGrace =>
      let loop := s.observeExit
      if !s.loop.exitSeen && loop.exitSeen && inGrace then { s with loop := loop, phase := .waiting }
      else if loop.exitSeen then s.leave { loop with logTruncated := true }
      else s.leave { loop with timedOut := true, errorMessage := "build-timeout exceeded", killed := true }

def writeFailed (s : State) (pendingReadErr : Option String) (deadline : Deadline) : State :=
  let loop := s.observeExit
  if loop.exitSeen then s.leave { loop with logTruncated := true }
  else ({ s with loop := { loop with sinkFailed := true, killed := true } } : State).afterBatch pendingReadErr deadline

/-- The runner has cancelled the build. -/
def cancel (s : State) : State :=
  let loop := s.observeExit
  if loop.exitSeen then s.leave { loop with logTruncated := true }
  else s.leave { loop with aborted := true, errorMessage := "aborted by runner", killed := true }

/-- An await: the other tasks of the runtime get their turn. -/
def awaits (s : State) : Bool :=
  match s.phase with
  | .waiting | .writing _ _ => true
  | _ => false

end State

def truncatedNote : List UInt8 := "[circus-agent] log truncated".toUTF8.toList

section System

variable (path : String) (maxLogSize : ℕ)

/-- The sink handles a chunk, or does not. -/
def handle (handled : Option (Option IoFailure)) (chunk : List UInt8) (sink : Sink) : Sink :=
  match handled with
  | some io => (sink.write path maxLogSize io chunk).2
  | none => sink

def step (s : State) : Action → Option State
  | .output line =>
    if s.awaits && !s.closed && decide (s.queue.length < logChannelCapacity) then
      some { s with queue := s.queue ++ [.ok line], sent := s.sent ++ [line] }
    else none
  | .readError e =>
    if s.awaits && !s.closed && decide (s.queue.length < logChannelCapacity) then
      some { s with queue := s.queue ++ [.error e] }
    else none
  | .eof => if s.awaits then some { s with closed := true } else none
  | .exit => some { s with exited := true }
  | .recv deadline =>
    match s.phase, s.queue with
    | .waiting, .ok line :: queue =>
      let (loop, batch, pendingReadErr, queue) := fill maxLogSize s.loop {} line queue
      let s' := { s with loop := loop, queue := queue, batches := s.batches ++ [batch.lines] }
      if batch.bytes.isEmpty then some (s'.afterBatch pendingReadErr deadline)
      else some { s' with phase := .writing batch pendingReadErr }
    | .waiting, .error e :: queue => some ({ s with queue := queue }.leave { s.loop with errorMessage := e })
    | .waiting, [] => if s.closed then some { s.leave s.loop with drained := true } else none
    | _, _ => none
  | .childExited =>
    if s.phase = .waiting ∧ s.exited = true ∧ s.loop.exitSeen = false then
      some { s with loop := { s.loop with exitSeen := true } }
    else none
  | .waitFails => if s.phase = .waiting ∧ s.loop.exitSeen = false then some { s with phase := .done } else none
  | .silentTimeout =>
    if s.phase = .waiting ∧ s.loop.exitSeen = false then
      if s.observeExit.exitSeen then some { s with loop := s.observeExit }
      else some (s.leave { s.loop with errorMessage := "max-silent-time exceeded", killed := true })
    else none
  | .deadlineTimeout =>
    if s.phase = .waiting then
      if s.loop.exitSeen then some (s.leave { s.loop with logTruncated := true })
      else if s.observeExit.exitSeen then some { s with loop := s.observeExit }
      else some (s.leave { s.loop with timedOut := true, errorMessage := "build-timeout exceeded", killed := true })
    else none
  | .cancelled => if s.phase = .waiting then some s.cancel else none
  | .reply io deadline =>
    match s.phase with
    | .writing batch pendingReadErr =>
      let s' := { s with
        sink := (s.sink.write path maxLogSize io batch.bytes).2
        refused := s.refused || s.sink.refuses maxLogSize batch.bytes }
      match (s.sink.write path maxLogSize io batch.bytes).1 with
      | .ok _ => some (s'.afterBatch pendingReadErr deadline)
      | .error _ => some (s'.writeFailed pendingReadErr deadline)
    | _ => none
  | .writeTimeout handled deadline =>
    match s.phase with
    | .writing batch pendingReadErr =>
      some ({ s with
        sink := handle path maxLogSize handled batch.bytes s.sink
        refused := s.refused || handled.isSome && s.sink.refuses maxLogSize batch.bytes }.writeFailed
          pendingReadErr deadline)
    | _ => none
  | .cancelledWrite handled =>
    match s.phase with
    | .writing batch _ =>
      if s.loop.exitSeen then none
      else some { s with
        sink := handle path maxLogSize handled batch.bytes s.sink
        refused := s.refused || handled.isSome && s.sink.refuses maxLogSize batch.bytes }.cancel
    | _ => none
  | .note handled =>
    if s.phase = .left ∧ s.loop.logTruncated = true then
      some { s with
        sink := handle path maxLogSize handled truncatedNote s.sink
        loop := { s.loop with errorMessage :=
          (if s.loop.errorMessage.isEmpty then "" else s.loop.errorMessage ++ "\n") ++
            "log drain timed out after child exit; log truncated" }
        phase := .closing }
    else none
  | .close handled =>
    if s.phase = .closing ∨ s.phase = .left ∧ s.loop.logTruncated = false then
      some { s with sink := { s.sink with closed := s.sink.closed || handled }, phase := .done }
    else none

abbrev exec := Lts.exec (step path maxLogSize)

end System

/-! ### What a batch holds -/

def Line.ended (l : Line) : List UInt8 := l.bytes ++ [newline]

/-- The lines of a batch that reach the file: those from the first that is not empty on. -/
def logged (lines : List Line) : List UInt8 := (lines.dropWhile fun l => l.bytes.isEmpty).flatMap Line.ended

/-- The size of a log, with one newline per line. -/
def size (lines : List Line) : ℕ := (lines.map fun l => l.bytes.length + 1).sum

/-- The batch made of these lines. -/
def batchOf (lines : List Line) : Batch := lines.foldl Batch.push {}

@[simp] theorem size_nil : size [] = 0 := rfl

@[simp] theorem size_cons (l : Line) (ls : List Line) : size (l :: ls) = l.bytes.length + 1 + size ls := by
  simp [size]

@[simp] theorem size_append (xs ys : List Line) : size (xs ++ ys) = size xs + size ys := by
  simp [size]

theorem size_le_of_sublist {xs ys : List Line} (h : xs.Sublist ys) : size xs ≤ size ys :=
  (h.map _).sum_le_sum fun _ _ => Nat.zero_le _

theorem batchOf_append (lines : List Line) (line : Line) : batchOf (lines ++ [line]) = (batchOf lines).push line := by
  simp [batchOf]

theorem lines_foldl_push (lines : List Line) (b : Batch) : (lines.foldl Batch.push b).lines = b.lines ++ lines := by
  induction lines generalizing b with
  | nil => simp
  | cons l ls ih => simp [ih, Batch.push]

@[simp] theorem lines_batchOf (lines : List Line) : (batchOf lines).lines = lines := by
  simp [batchOf, lines_foldl_push]

theorem length_push_le (b : Batch) (line : Line) :
    (b.push line).bytes.length ≤ b.bytes.length + 1 + line.bytes.length := by
  unfold Batch.push
  split_ifs
  · simp
  · simp only [List.length_append, List.length_singleton]
    omega

/-- A chunk with its newline is no longer than its lines with theirs. -/
theorem length_batchOf_lt {lines : List Line} (h : lines ≠ []) : (batchOf lines).bytes.length < size lines := by
  induction lines using List.reverseRecOn with
  | nil => exact absurd rfl h
  | append_singleton lines line ih =>
    have hpush := length_push_le (batchOf lines) line
    rw [batchOf_append, size_append, size_cons, size_nil]
    by_cases hnil : lines = []
    · subst hnil
      simp [batchOf, Batch.push]
    · have := ih hnil
      omega

/-- **What a chunk holds**: its lines from the first that is not empty on. If there is none it is not sent. -/
theorem ended_batchOf (lines : List Line) :
    (if (batchOf lines).bytes.isEmpty then [] else (batchOf lines).bytes ++ [newline]) = logged lines := by
  induction lines using List.reverseRecOn with
  | nil => rfl
  | append_singleton lines line ih =>
    rw [logged, List.dropWhile_append, batchOf_append]
    by_cases hb : (batchOf lines).bytes = []
    · -- nothing but empty lines so far
      have hdrop : lines.dropWhile (fun l => l.bytes.isEmpty) = [] := by
        rw [hb] at ih
        have hnil : logged lines = [] := ih.symm
        cases hd : lines.dropWhile fun l => l.bytes.isEmpty with
        | nil => rfl
        | cons => simp [logged, hd, Line.ended] at hnil
      rw [hdrop]
      by_cases hl : line.bytes = []
      · simp [Batch.push, hb, hl]
      · simp [Batch.push, hb, hl, Line.ended]
    · have hdrop : lines.dropWhile (fun l => l.bytes.isEmpty) ≠ [] := by
        intro hd
        simp [logged, hd, hb] at ih
      have hlog : logged lines = (batchOf lines).bytes ++ [newline] := by simpa [hb] using ih.symm
      simp only [logged] at hlog
      simp [Batch.push, hb, hdrop, hlog, Line.ended]

theorem length_flatMap_ended (lines : List Line) : (lines.flatMap Line.ended).length = size lines := by
  induction lines with
  | nil => rfl
  | cons l ls ih =>
    simp only [List.flatMap_cons, List.length_append, ih, Line.ended, List.length_singleton, size_cons]

/-- A batch is complete in the file exactly if it does not begin with an empty line. -/
theorem logged_eq_iff (lines : List Line) :
    logged lines = lines.flatMap Line.ended ↔ ∀ l, lines.head? = some l → l.bytes ≠ [] := by
  cases lines with
  | nil => simp [logged]
  | cons l ls =>
    by_cases hl : l.bytes = []
    · refine iff_of_false (fun h => ?_) (by simp [hl])
      have hlen := congrArg List.length h
      rw [logged, length_flatMap_ended, length_flatMap_ended, List.dropWhile_cons_of_pos (by simp [hl]),
        size_cons] at hlen
      have := size_le_of_sublist (List.dropWhile_sublist (fun l : Line => l.bytes.isEmpty) (l := ls))
      omega
    · refine iff_of_true ?_ (by simp [hl])
      rw [logged, List.dropWhile_cons_of_neg (by simp [hl])]

theorem length_logged_le (lines : List Line) : (logged lines).length ≤ (lines.flatMap Line.ended).length := by
  rw [logged, length_flatMap_ended, length_flatMap_ended]
  exact size_le_of_sublist (List.dropWhile_sublist _)

/-- Nothing that is missing in one batch is made up for by another. -/
theorem flatMap_logged_eq_iff (batches : List (List Line)) :
    batches.flatMap logged = batches.flatten.flatMap Line.ended ↔
      ∀ lines ∈ batches, logged lines = lines.flatMap Line.ended := by
  have hle : ∀ bs : List (List Line), (bs.flatMap logged).length ≤ (bs.flatten.flatMap Line.ended).length := by
    intro bs
    induction bs with
    | nil => exact le_rfl
    | cons b =>
      have hb := length_logged_le b
      simp only [List.flatMap_cons, List.flatten_cons, List.flatMap_append, List.length_append]
      omega
  induction batches with
  | nil => simp
  | cons b bs ih =>
    rw [List.flatMap_cons, List.flatten_cons, List.flatMap_append, List.forall_mem_cons]
    constructor
    · intro h
      have hlen := congrArg List.length h
      have hb := length_logged_le b
      have hbs := hle bs
      simp only [List.length_append] at hlen
      obtain ⟨hfirst, hrest⟩ := List.append_inj h (by omega)
      exact ⟨hfirst, ih.mp hrest⟩
    · rintro ⟨hb, hbs⟩
      rw [hb, ih.mpr hbs]

/-! ### Filling a batch -/

def linesOf (queue : List (Except String Line)) : List Line := queue.filterMap Except.toOption

@[simp] theorem linesOf_nil : linesOf [] = [] := rfl

@[simp] theorem linesOf_ok (line : Line) (queue : List (Except String Line)) :
    linesOf (.ok line :: queue) = line :: linesOf queue := rfl

@[simp] theorem linesOf_error (e : String) (queue : List (Except String Line)) :
    linesOf (.error e :: queue) = linesOf queue := rfl

@[simp] theorem linesOf_append (queue queue' : List (Except String Line)) :
    linesOf (queue ++ queue') = linesOf queue ++ linesOf queue' := List.filterMap_append

/-- No more lines are sent. -/
def Loop.ended (s : Loop) : Bool := s.logSizeExceeded || s.logTruncated || s.sinkFailed

/-- No limit has been exceeded, no write has failed, the log is whole and the child has not been killed. -/
structure Loop.Clean (s : Loop) : Prop where
  ended : s.ended = false
  killed : s.killed = false

instance (s : Loop) : Decidable s.Clean := decidable_of_iff (s.ended = false ∧ s.killed = false)
  ⟨fun h => ⟨h.1, h.2⟩, fun h => ⟨h.ended, h.killed⟩⟩

section Fill

variable {maxLogSize : ℕ} {s : Loop} {b : Batch} {line : Line} {queue : List (Except String Line)}

theorem Loop.take_of_ended (h : s.ended = true) : s.take maxLogSize b line = (s, b) := if_pos h

theorem Loop.take_of_lt (h : s.ended = false) (hmax : maxLogSize < saturatingAdd s.bytesSent (line.bytes.length + 1)) :
    (s.take maxLogSize b line).2 = b ∧ (s.take maxLogSize b line).1.ended = true ∧
      (s.take maxLogSize b line).1.exitSeen = s.exitSeen := by
  have hend : ¬ (s.logSizeExceeded || s.logTruncated || s.sinkFailed) = true := by
    rw [Bool.not_eq_true]
    exact h
  unfold Loop.take
  rw [if_neg hend, if_pos hmax]
  split_ifs <;> exact ⟨rfl, by simp [Loop.ended], rfl⟩

theorem Loop.take_of_le (h : s.ended = false) (hmax : saturatingAdd s.bytesSent (line.bytes.length + 1) ≤ maxLogSize) :
    s.take maxLogSize b line =
      ({ s with bytesSent := saturatingAdd s.bytesSent (line.bytes.length + 1) }, b.push line) := by
  have hend : ¬ (s.logSizeExceeded || s.logTruncated || s.sinkFailed) = true := by
    rw [Bool.not_eq_true]
    exact h
  unfold Loop.take
  rw [if_neg hend, if_neg (Nat.not_lt.mpr hmax)]

/-- What the inner loop returns, for the lines `lines` it has before it. -/
structure Filled (maxLogSize : ℕ) (s : Loop) (b : Batch) (lines : List Line) (queue : List (Except String Line))
    (r : Loop × Batch × Option String × List (Except String Line)) (pushed : List Line) : Prop where
  batch : r.2.1 = pushed.foldl Batch.push b
  taken : pushed <+: lines
  room : ∀ p, p <+: pushed → p ≠ pushed → p ≠ [] → (p.foldl Batch.push b).full = false
  rest : r.2.2.2 <:+ queue
  fewer : size pushed + size (linesOf r.2.2.2) ≤ size lines
  exit : r.1.exitSeen = s.exitSeen
  clean : r.1.Clean → s.Clean ∧ pushed ++ linesOf r.2.2.2 = lines
  within : s.bytesSent + size lines ≤ maxLogSize → maxLogSize < 2 ^ 64 →
    r.1.bytesSent = s.bytesSent + size pushed ∧ r.1.logSizeExceeded = s.logSizeExceeded

/-- The line that ends the log is left out, as are those after it: they are only taken off the channel. -/
theorem fill_of_skip (hb : (s.take maxLogSize b line).2 = b) (h : (s.take maxLogSize b line).1.ended = true) :
    ∃ pending queue', fill maxLogSize s b line queue = ((s.take maxLogSize b line).1, b, pending, queue') ∧
      queue' <:+ queue := by
  induction queue generalizing s line with
  | nil => exact ⟨none, [], by rw [fill, hb], List.suffix_rfl⟩
  | cons next queue ih =>
    rw [fill]
    dsimp only
    rw [hb]
    by_cases hf : b.full = true
    · exact ⟨none, next :: queue, if_pos hf, List.suffix_rfl⟩
    · cases next with
      | ok line' =>
        have ht := @Loop.take_of_ended maxLogSize _ b line' h
        obtain ⟨pending, queue', hfill, hsuf⟩ := ih (congrArg Prod.snd ht) (ht ▸ h)
        rw [ht] at hfill
        exact ⟨pending, queue', (if_neg hf).trans hfill, hsuf.trans (List.suffix_cons _ _)⟩
      | error e => exact ⟨some e, queue, if_neg hf, List.suffix_cons _ _⟩

theorem Filled.skip (hb : (s.take maxLogSize b line).2 = b) (h : (s.take maxLogSize b line).1.ended = true)
    (hexit : (s.take maxLogSize b line).1.exitSeen = s.exitSeen)
    (hsame : s.bytesSent + size (line :: linesOf queue) ≤ maxLogSize → maxLogSize < 2 ^ 64 →
      (s.take maxLogSize b line).1 = s) :
    Filled maxLogSize s b (line :: linesOf queue) queue (fill maxLogSize s b line queue) [] := by
  obtain ⟨pending, queue', hfill, hsuf⟩ := @fill_of_skip maxLogSize s b line queue hb h
  rw [hfill]
  refine ⟨rfl, List.nil_prefix, fun p hp hne => absurd (List.prefix_nil.mp hp) hne, hsuf, ?_, hexit, ?_, ?_⟩
  · have : size (linesOf queue') ≤ size (linesOf queue) := size_le_of_sublist (hsuf.sublist.filterMap _)
    simp only [size_nil, size_cons]
    omega
  · intro hc
    exact absurd (h.symm.trans hc.ended) Bool.true_eq_false.mp
  · intro hsize hmax
    rw [hsame hsize hmax]
    exact ⟨rfl, rfl⟩

theorem eq_nil_of_isPrefix_singleton {p : List Line} (hp : p <+: [line]) (hne : p ≠ [line]) : p = [] := by
  rcases List.prefix_cons_iff.mp hp with rfl | ⟨t, rfl, ht⟩
  · rfl
  · exact absurd (by rw [List.prefix_nil.mp ht]) hne

/-- One line is pushed, and the batch is done. -/
theorem Filled.single {r : Loop × Batch × Option String × List (Except String Line)} {lines : List Line}
    (hend : s.ended = false)
    (hr : r.1 = { s with bytesSent := saturatingAdd s.bytesSent (line.bytes.length + 1) }) (hb : r.2.1 = b.push line)
    (hrest : r.2.2.2 <:+ queue) (hlines : lines = linesOf r.2.2.2) :
    Filled maxLogSize s b (line :: lines) queue r [line] where
  batch := hb
  taken := ⟨lines, rfl⟩
  room _ hp hne hnil := absurd (eq_nil_of_isPrefix_singleton hp hne) hnil
  rest := hrest
  fewer := by simp [hlines]
  exit := by rw [hr]
  clean h := by
    refine ⟨⟨hend, ?_⟩, by simp [hlines]⟩
    have := h.killed
    rwa [hr] at this
  within hsize hmax := by
    rw [hr]
    refine ⟨?_, rfl⟩
    simp only [saturatingAdd, size_cons, size_nil] at hsize ⊢
    omega

/-- A line is pushed, and the batch goes on. -/
theorem Filled.cons {s' : Loop} {r : Loop × Batch × Option String × List (Except String Line)}
    {lines pushed : List Line} {next : Except String Line} (hend : s.ended = false)
    (hs' : s' = { s with bytesSent := saturatingAdd s.bytesSent (line.bytes.length + 1) })
    (hroom : (b.push line).full = false) (h : Filled maxLogSize s' (b.push line) lines queue r pushed) :
    Filled maxLogSize s b (line :: lines) (next :: queue) r (line :: pushed) where
  batch := h.batch
  taken := List.prefix_cons_inj line |>.mpr h.taken
  room p hp hne hnil := by
    rcases List.prefix_cons_iff.mp hp with rfl | ⟨t, rfl, ht⟩
    · exact absurd rfl hnil
    · by_cases htnil : t = []
      · subst htnil
        exact hroom
      · exact h.room t ht (fun he => hne (by rw [he])) htnil
  rest := h.rest.trans (List.suffix_cons _ _)
  fewer := by
    have := h.fewer
    simp only [size_cons]
    omega
  exit := h.exit.trans (by rw [hs'])
  clean hc := by
    obtain ⟨hclean, hlines⟩ := h.clean hc
    refine ⟨⟨hend, ?_⟩, by simp [hlines]⟩
    have := hclean.killed
    rwa [hs'] at this
  within hsize hmax := by
    have hsent : s'.bytesSent = s.bytesSent + (line.bytes.length + 1) := by
      rw [hs']
      simp only [saturatingAdd, size_cons] at hsize ⊢
      omega
    simp only [size_cons] at hsize ⊢
    obtain ⟨hbytes, hexceeded⟩ := h.within (by omega) hmax
    refine ⟨by omega, hexceeded.trans (by rw [hs'])⟩

/-- The next line is left out with the rest, or pushed. -/
theorem Filled.skip_or_push (maxLogSize : ℕ) (s : Loop) (b : Batch) (line : Line) (queue : List (Except String Line)) :
    Filled maxLogSize s b (line :: linesOf queue) queue (fill maxLogSize s b line queue) [] ∨
      s.ended = false ∧ s.take maxLogSize b line =
        ({ s with bytesSent := saturatingAdd s.bytesSent (line.bytes.length + 1) }, b.push line) := by
  cases hend : s.ended with
  | true =>
    have htake := @Loop.take_of_ended maxLogSize s b line hend
    exact .inl (.skip (by rw [htake]) (by rw [htake]; exact hend) (by rw [htake]) fun _ _ => by rw [htake])
  | false =>
    by_cases hmax : maxLogSize < saturatingAdd s.bytesSent (line.bytes.length + 1)
    · obtain ⟨hb, hended, hexit⟩ := @Loop.take_of_lt maxLogSize s b line hend hmax
      refine .inl (.skip hb hended hexit fun hsize hlt => ?_)
      simp only [saturatingAdd, size_cons] at hmax hsize
      omega
    · exact .inr ⟨rfl, Loop.take_of_le hend (Nat.not_lt.mp hmax)⟩

/-- **The inner loop** takes a first part of the lines before it. -/
theorem filled :
    ∃ pushed, Filled maxLogSize s b (line :: linesOf queue) queue (fill maxLogSize s b line queue) pushed := by
  induction queue generalizing s b line with
  | nil =>
    rcases Filled.skip_or_push maxLogSize s b line [] with h | ⟨hend, htake⟩
    · exact ⟨[], h⟩
    · rw [fill, htake]
      exact ⟨[line], .single hend rfl rfl List.suffix_rfl rfl⟩
  | cons next queue ih =>
    rcases Filled.skip_or_push maxLogSize s b line (next :: queue) with h | ⟨hend, htake⟩
    · exact ⟨[], h⟩
    · rw [fill, htake]
      dsimp only
      by_cases hf : (b.push line).full = true
      · rw [if_pos hf]
        exact ⟨[line], .single hend rfl rfl List.suffix_rfl rfl⟩
      · rw [if_neg hf]
        cases next with
        | ok line' =>
          obtain ⟨pushed, hpushed⟩ := @ih _ (b.push line) line'
          exact ⟨line :: pushed, .cons hend rfl (by simpa using hf) hpushed⟩
        | error => exact ⟨[line], .single hend rfl rfl (List.suffix_cons _ _) rfl⟩

end Fill

/-! ### What a step does -/

/-- The loop has gone on without a line. -/
structure Loop.Later (l l' : Loop) : Prop where
  clean : l'.Clean → l.Clean
  bytesSent : l'.bytesSent = l.bytesSent
  exceeded : l'.logSizeExceeded = l.logSizeExceeded

theorem Loop.Later.refl (l : Loop) : l.Later l := ⟨id, rfl, rfl⟩

theorem Loop.Later.of_not_clean {l l' : Loop} (hnot : ¬ l'.Clean) (hb : l'.bytesSent = l.bytesSent)
    (he : l'.logSizeExceeded = l.logSizeExceeded) : l.Later l' := ⟨fun h => absurd h hnot, hb, he⟩

theorem Loop.not_clean_of_killed {l : Loop} (h : l.killed = true) : ¬ l.Clean := fun hc => by
  rw [hc.killed] at h
  cases h

theorem Loop.not_clean_of_truncated {l : Loop} (h : l.logTruncated = true) : ¬ l.Clean := fun hc => by
  have := hc.ended
  simp [Loop.ended, h] at this

/-- What happens to the log in a step. -/
inductive Effect (path : String) (maxLogSize : ℕ) (s : State) : State → Prop
  | output (line : Line) (ha : s.awaits = true) (hc : s.queue.length < logChannelCapacity) :
      Effect path maxLogSize s { s with queue := s.queue ++ [.ok line], sent := s.sent ++ [line] }
  | readError (e : String) (ha : s.awaits = true) (hc : s.queue.length < logChannelCapacity) :
      Effect path maxLogSize s { s with queue := s.queue ++ [.error e] }
  /-- Nothing; the loop may end, and what it may take off the channel is an error. -/
  | quiet (loop : Loop) (queue : List (Except String Line)) (closed exited drained : Bool) (phase : Phase)
      (hl : s.loop.Later loop) (hq : queue = s.queue ∨ ∃ e, s.queue = .error e :: queue)
      (hp : phase = s.phase ∨ s.phase = .waiting ∧ (phase = .left ∨ phase = .done))
      (hd : drained = s.drained ∨ queue = [] ∧ phase = .left) :
      Effect path maxLogSize s { s with
        loop := loop, queue := queue, closed := closed, exited := exited, drained := drained, phase := phase }
  /-- A batch is formed; one without bytes is not sent. -/
  | batch {line : Line} {queue : List (Except String Line)}
      {r : Loop × Batch × Option String × List (Except String Line)} (loop : Loop) (phase : Phase)
      (hp : s.phase = .waiting) (hq : s.queue = .ok line :: queue) (hr : r = fill maxLogSize s.loop {} line queue)
      (hl : r.1.Later loop) (hphase : r.2.1.bytes = [] ∧ (phase = .waiting ∨ phase = .left) ∨
        r.2.1.bytes ≠ [] ∧ phase = .writing r.2.1 r.2.2.1) :
      Effect path maxLogSize s { s with
        loop := loop, queue := r.2.2.2, batches := s.batches ++ [r.2.1.lines], phase := phase }
  /-- The chunk is handled or lost; only an answer leaves the run clean. -/
  | written {b : Batch} {pending : Option String} (handled : Option (Option IoFailure)) (loop : Loop) (phase : Phase)
      (hp : s.phase = .writing b pending) (hl : s.loop.Later loop) (hphase : phase = .waiting ∨ phase = .left)
      (hok : loop.Clean → handled = some none ∧ s.sink.refuses maxLogSize b.bytes = false) :
      Effect path maxLogSize s { s with
        sink := handle path maxLogSize handled b.bytes s.sink
        refused := s.refused || handled.isSome && s.sink.refuses maxLogSize b.bytes
        loop := loop, phase := phase }
  | note (sink : Sink) (loop : Loop) (hp : s.phase = .left) (ht : ¬ s.loop.Clean) (hl : s.loop.Later loop) :
      Effect path maxLogSize s { s with sink := sink, loop := loop, phase := .closing }
  | close (closed : Bool) (hp : s.awaits = false) :
      Effect path maxLogSize s { s with sink := { s.sink with closed := closed }, phase := .done }

section Step

variable {path : String} {maxLogSize : ℕ} {s s' : State} {a : Action}

theorem State.later_observeExit (s : State) : s.loop.Later s.observeExit := ⟨fun h => ⟨h.ended, h.killed⟩, rfl, rfl⟩

/-- The end of the loop's body changes the loop's variables and its place. -/
theorem State.afterBatch_eq (s : State) (pending : Option String) (deadline : Deadline) :
    ∃ loop phase, s.afterBatch pending deadline = { s with loop := loop, phase := phase } ∧ s.loop.Later loop ∧
      (phase = .waiting ∨ phase = .left) := by
  cases pending with
  | some => exact ⟨_, _, rfl, ⟨fun h => ⟨h.ended, h.killed⟩, rfl, rfl⟩, .inr rfl⟩
  | none =>
    cases deadline with
    | ahead => exact ⟨_, _, rfl, .refl _, .inl rfl⟩
    | passed =>
      simp only [State.afterBatch]
      split_ifs
      · exact ⟨_, _, rfl, s.later_observeExit, .inl rfl⟩
      · exact ⟨_, _, rfl, .of_not_clean (Loop.not_clean_of_truncated rfl) rfl rfl, .inr rfl⟩
      · exact ⟨_, _, rfl, .of_not_clean (Loop.not_clean_of_killed rfl) rfl rfl, .inr rfl⟩

theorem State.writeFailed_eq (s : State) (pending : Option String) (deadline : Deadline) :
    ∃ loop phase, s.writeFailed pending deadline = { s with loop := loop, phase := phase } ∧ s.loop.Later loop ∧
      (phase = .waiting ∨ phase = .left) ∧ ¬ loop.Clean := by
  simp only [State.writeFailed]
  split_ifs
  · have hnot : ¬ Loop.Clean { s.observeExit with logTruncated := true } := Loop.not_clean_of_truncated rfl
    exact ⟨_, _, rfl, .of_not_clean hnot rfl rfl, .inr rfl, hnot⟩
  · obtain ⟨loop, phase, heq, hl, hp⟩ := State.afterBatch_eq
      { s with loop := { s.observeExit with sinkFailed := true, killed := true } } pending deadline
    have hnot : ¬ loop.Clean := fun h => Loop.not_clean_of_killed rfl (hl.clean h)
    exact ⟨loop, phase, heq, .of_not_clean hnot hl.bytesSent hl.exceeded, hp, hnot⟩

theorem State.cancel_eq (s : State) :
    ∃ loop, s.cancel = { s with loop := loop, phase := .left } ∧ s.loop.Later loop ∧ ¬ loop.Clean := by
  simp only [State.cancel]
  split_ifs
  · have hnot : ¬ Loop.Clean { s.observeExit with logTruncated := true } := Loop.not_clean_of_truncated rfl
    exact ⟨_, rfl, .of_not_clean hnot rfl rfl, hnot⟩
  · have hnot : ¬ Loop.Clean
        { s.observeExit with aborted := true, errorMessage := "aborted by runner", killed := true } :=
      Loop.not_clean_of_killed rfl
    exact ⟨_, rfl, .of_not_clean hnot rfl rfl, hnot⟩

/-- A write that succeeds was not refused, and nothing failed. -/
theorem Sink.of_write_ok {io : Option IoFailure} {chunk : List UInt8} {sink : Sink}
    (h : (sink.write path maxLogSize io chunk).1 = .ok ()) : io = none ∧ sink.refuses maxLogSize chunk = false := by
  unfold Sink.write at h
  dsimp only at h
  split_ifs at h with h1 h2 h3
  refine ⟨?_, by simp [Sink.refuses, h1, h2, h3]⟩
  cases io with
  | none => rfl
  | some failure => cases failure <;> cases h

theorem effect_of_step (h : step path maxLogSize s a = some s') : Effect path maxLogSize s s' := by
  cases a with
  | output line =>
    simp only [step] at h
    split_ifs at h with hc
    simp only [Bool.and_eq_true, decide_eq_true_eq] at hc
    exact Option.some.inj h ▸ .output line hc.1.1 hc.2
  | readError e =>
    simp only [step] at h
    split_ifs at h with hc
    simp only [Bool.and_eq_true, decide_eq_true_eq] at hc
    exact Option.some.inj h ▸ .readError e hc.1.1 hc.2
  | eof =>
    simp only [step] at h
    split_ifs at h
    exact Option.some.inj h ▸ .quiet _ _ _ _ _ _ (.refl _) (.inl rfl) (.inl rfl) (.inl rfl)
  | exit => exact Option.some.inj h ▸ .quiet _ _ _ _ _ _ (.refl _) (.inl rfl) (.inl rfl) (.inl rfl)
  | recv deadline =>
    simp only [step] at h
    split at h
    · rename_i line queue hp hq
      split_ifs at h with hb
      · obtain ⟨loop, phase, heq, hl, hphase⟩ := State.afterBatch_eq
          { s with
            loop := (fill maxLogSize s.loop {} line queue).1
            queue := (fill maxLogSize s.loop {} line queue).2.2.2
            batches := s.batches ++ [(fill maxLogSize s.loop {} line queue).2.1.lines] }
          (fill maxLogSize s.loop {} line queue).2.2.1 deadline
        rw [heq] at h
        exact Option.some.inj h ▸ .batch loop phase hp hq rfl hl (.inl ⟨by simpa using hb, hphase⟩)
      · exact Option.some.inj h ▸ .batch _ _ hp hq rfl (.refl _) (.inr ⟨by simpa using hb, rfl⟩)
    · rename_i e queue hp hq
      exact Option.some.inj h ▸ .quiet _ _ _ _ _ _ ⟨fun h => ⟨h.ended, h.killed⟩, rfl, rfl⟩ (.inr ⟨e, hq⟩)
        (.inr ⟨hp, .inl rfl⟩) (.inl rfl)
    · rename_i hp hq
      split_ifs at h
      exact Option.some.inj h ▸ .quiet _ _ _ _ _ _ (.refl _) (.inl rfl) (.inr ⟨hp, .inl rfl⟩) (.inr ⟨hq, rfl⟩)
    · cases h
  | childExited =>
    simp only [step] at h
    split_ifs at h
    exact Option.some.inj h ▸ .quiet _ _ _ _ _ _ ⟨fun h => ⟨h.ended, h.killed⟩, rfl, rfl⟩ (.inl rfl) (.inl rfl)
      (.inl rfl)
  | waitFails =>
    simp only [step] at h
    split_ifs at h with hc
    exact Option.some.inj h ▸ .quiet _ _ _ _ _ _ (.refl _) (.inl rfl) (.inr ⟨hc.1, .inr rfl⟩) (.inl rfl)
  | silentTimeout =>
    simp only [step] at h
    split_ifs at h with hc
    · exact Option.some.inj h ▸ .quiet _ _ _ _ _ _ s.later_observeExit (.inl rfl) (.inl rfl) (.inl rfl)
    · exact Option.some.inj h ▸ .quiet _ _ _ _ _ _ (.of_not_clean (Loop.not_clean_of_killed rfl) rfl rfl) (.inl rfl)
        (.inr ⟨hc.1, .inl rfl⟩) (.inl rfl)
  | deadlineTimeout =>
    simp only [step] at h
    split_ifs at h with hc
    · exact Option.some.inj h ▸ .quiet _ _ _ _ _ _ (.of_not_clean (Loop.not_clean_of_truncated rfl) rfl rfl) (.inl rfl)
        (.inr ⟨hc, .inl rfl⟩) (.inl rfl)
    · exact Option.some.inj h ▸ .quiet _ _ _ _ _ _ s.later_observeExit (.inl rfl) (.inl rfl) (.inl rfl)
    · exact Option.some.inj h ▸ .quiet _ _ _ _ _ _ (.of_not_clean (Loop.not_clean_of_killed rfl) rfl rfl) (.inl rfl)
        (.inr ⟨hc, .inl rfl⟩) (.inl rfl)
  | cancelled =>
    simp only [step] at h
    split_ifs at h with hc
    obtain ⟨loop, heq, hl, -⟩ := s.cancel_eq
    rw [heq] at h
    exact Option.some.inj h ▸ .quiet _ _ _ _ _ _ hl (.inl rfl) (.inr ⟨hc, .inl rfl⟩) (.inl rfl)
  | reply io deadline =>
    simp only [step] at h
    split at h
    · rename_i b pending hp
      split at h
      · rename_i hw
        obtain ⟨loop, phase, heq, hl, hphase⟩ := State.afterBatch_eq
          { s with
            sink := (s.sink.write path maxLogSize io b.bytes).2
            refused := s.refused || s.sink.refuses maxLogSize b.bytes } pending deadline
        rw [heq] at h
        obtain ⟨rfl, href⟩ := Sink.of_write_ok hw
        exact Option.some.inj h ▸ .written (some none) loop phase hp hl hphase fun _ => ⟨rfl, href⟩
      · obtain ⟨loop, phase, heq, hl, hphase, hnot⟩ := State.writeFailed_eq
          { s with
            sink := (s.sink.write path maxLogSize io b.bytes).2
            refused := s.refused || s.sink.refuses maxLogSize b.bytes } pending deadline
        rw [heq] at h
        exact Option.some.inj h ▸ .written (some io) loop phase hp hl hphase fun hc => absurd hc hnot
    · cases h
  | writeTimeout handled deadline =>
    simp only [step] at h
    split at h
    · rename_i b pending hp
      obtain ⟨loop, phase, heq, hl, hphase, hnot⟩ := State.writeFailed_eq
        { s with
          sink := handle path maxLogSize handled b.bytes s.sink
          refused := s.refused || handled.isSome && s.sink.refuses maxLogSize b.bytes } pending deadline
      rw [heq] at h
      exact Option.some.inj h ▸ .written handled loop phase hp hl hphase fun hc => absurd hc hnot
    · cases h
  | cancelledWrite handled =>
    simp only [step] at h
    split at h
    · rename_i b pending hp
      split_ifs at h
      obtain ⟨loop, heq, hl, hnot⟩ := State.cancel_eq
        { s with
          sink := handle path maxLogSize handled b.bytes s.sink
          refused := s.refused || handled.isSome && s.sink.refuses maxLogSize b.bytes }
      rw [heq] at h
      exact Option.some.inj h ▸ .written handled loop .left hp hl (.inr rfl) fun hc => absurd hc hnot
    · cases h
  | note =>
    rw [step] at h
    by_cases hc : s.phase = .left ∧ s.loop.logTruncated = true
    · rw [if_pos hc] at h
      exact Option.some.inj h ▸ .note _ _ hc.1 (Loop.not_clean_of_truncated hc.2)
        ⟨fun h => ⟨h.ended, h.killed⟩, rfl, rfl⟩
    · rw [if_neg hc] at h
      cases h
  | close =>
    simp only [step] at h
    split_ifs at h with hc
    refine Option.some.inj h ▸ .close _ ?_
    rcases hc with hp | ⟨hp, -⟩ <;> simp [State.awaits, hp]

end Step

end Circus.Agent.LogStream
