/-
# The limits of a log

The agent counts every line with its newline against `max_log_size`, the sink
every chunk with one newline: the agent's count is never the smaller one, so
within the limit of the one the other has room. But the sink also bounds a
single chunk, and the agent ends a batch only after a line has made it too
large: a long line makes a chunk of any size. `log_limits_iff` says for which
logs within `max_log_size` no batch that the loop can form is refused.
-/
import Circus.Agent.LogFile

namespace Circus.Agent.LogStream

/-- The loop can take these lines of the log as one batch: they fit into the channel at once, and the batch is not
full before the last of them. -/
structure Producible (lines seg : List Line) : Prop where
  part : seg <:+: lines
  length : seg.length ≤ logChannelCapacity
  room : ∀ p, p <+: seg → p ≠ seg → (batchOf p).full = false

/-- No chunk of the log is larger than the sink takes. -/
def Fits (lines : List Line) : Prop :=
  ∀ seg, Producible lines seg → (batchOf seg).bytes.length ≤ maxLogChunkBytes

theorem Producible.mono {lines lines' seg : List Line} (h : Producible lines seg) (hp : lines <:+: lines') :
    Producible lines' seg := ⟨h.part.trans hp, h.length, h.room⟩

theorem Fits.mono {lines lines' : List Line} (h : Fits lines') (hp : lines <+: lines') : Fits lines :=
  fun seg hseg => h seg (hseg.mono hp.isInfix)

theorem size_le_of_isPrefix {lines lines' : List Line} (h : lines <+: lines') : size lines ≤ size lines' :=
  size_le_of_sublist h.sublist

/-- What both sides have counted, for a log within the limit. -/
structure LimitInv (maxLogSize : ℕ) (s : State) : Prop where
  queue : s.queue.length ≤ logChannelCapacity
  unread : linesOf s.queue <:+ s.sent
  batch : ∀ b e, s.phase = .writing b e → b = batchOf b.lines ∧ Producible s.sent b.lines
  counted : size s.sent ≤ maxLogSize → s.loop.bytesSent + size (linesOf s.queue) ≤ size s.sent
  exceeded : size s.sent ≤ maxLogSize → s.loop.logSizeExceeded = false
  written : size s.sent ≤ maxLogSize → s.awaits = true →
    s.sink.closed = false ∧ s.sink.bytesWritten + s.phase.inFlight.length ≤ s.loop.bytesSent
  refused : size s.sent ≤ maxLogSize → Fits s.sent → s.refused = false

section Step

variable {path : String} {maxLogSize : ℕ} {s s' : State}

/-- The sink counts a chunk at most once, and does not close over it. -/
theorem handle_le (handled : Option (Option IoFailure)) (chunk : List UInt8) (sink : Sink) :
    (handle path maxLogSize handled chunk sink).closed = sink.closed ∧
      (handle path maxLogSize handled chunk sink).bytesWritten ≤ sink.bytesWritten + (chunk.length + 1) := by
  cases handled with
  | none => exact ⟨rfl, Nat.le_add_right _ _⟩
  | some io =>
    simp only [handle, Sink.write]
    split_ifs
    · exact ⟨rfl, Nat.le_add_right _ _⟩
    · exact ⟨rfl, Nat.le_add_right _ _⟩
    · exact ⟨rfl, Nat.le_add_right _ _⟩
    · cases io with
      | none => exact ⟨rfl, Nat.min_le_left _ _⟩
      | some failure => cases failure <;> exact ⟨rfl, Nat.le_add_right _ _⟩

/-- A chunk that is not too large is accepted while there is room for it. -/
theorem refuses_eq_false {chunk : List UInt8} {sink : Sink} (hc : chunk.length ≤ maxLogChunkBytes)
    (hclosed : sink.closed = false) (hroom : sink.bytesWritten + (chunk.length + 1) ≤ maxLogSize) :
    sink.refuses maxLogSize chunk = false := by
  have hsat : saturatingAdd sink.bytesWritten (chunk.length + 1) ≤ maxLogSize :=
    (Nat.min_le_left _ _).trans hroom
  simp [Sink.refuses, hclosed, Nat.not_lt.mpr hc, Nat.not_lt.mpr hsat]

theorem LimitInv.step (hmax : maxLogSize < 2 ^ 64) (hI : LimitInv maxLogSize s) (h : Effect path maxLogSize s s') :
    LimitInv maxLogSize s' := by
  cases h with
  | output line =>
    have hle : size s.sent ≤ size (s.sent ++ [line]) := size_le_of_isPrefix (List.prefix_append _ _)
    refine ⟨by simp only [List.length_append, List.length_singleton]; omega, ?_, fun b e hp => ?_, fun hs => ?_,
      fun hs => hI.exceeded (hle.trans hs), fun hs => hI.written (hle.trans hs),
      fun hs hf => hI.refused (hle.trans hs) (hf.mono (List.prefix_append _ _))⟩
    · obtain ⟨t, ht⟩ := hI.unread
      exact ⟨t, by simp [← ht]⟩
    · obtain ⟨hb, hprod⟩ := hI.batch b e hp
      exact ⟨hb, hprod.mono (List.prefix_append _ _).isInfix⟩
    · have := hI.counted (hle.trans hs)
      simp only [linesOf_append, linesOf_ok, linesOf_nil, size_append]
      omega
  | readError =>
    refine ⟨by simp only [List.length_append, List.length_singleton]; omega, ?_, hI.batch, fun hs => ?_, hI.exceeded,
      hI.written, hI.refused⟩
    · simpa using hI.unread
    · simpa using hI.counted hs
  | quiet loop queue closed exited drained phase hl hq hp =>
    have hlines : linesOf queue = linesOf s.queue := by
      rcases hq with rfl | ⟨e, hq⟩
      · rfl
      · rw [hq, linesOf_error]
    have hqueue : queue.length ≤ s.queue.length := by
      rcases hq with rfl | ⟨e, hq⟩
      · exact le_rfl
      · simp [hq]
    refine ⟨hqueue.trans hI.queue, hlines ▸ hI.unread, fun b e hw => ?_, fun hs => ?_,
      fun hs => hl.exceeded.trans (hI.exceeded hs), fun hs ha => ?_, hI.refused⟩
    · rcases hp with hp | ⟨-, hp | hp⟩
      · exact hI.batch b e (hp ▸ hw)
      · simp [hp] at hw
      · simp [hp] at hw
    · rw [hlines, hl.bytesSent]
      exact hI.counted hs
    · rw [hl.bytesSent]
      rcases hp with hp | ⟨-, hp | hp⟩
      · subst hp
        exact hI.written hs ha
      · simp [State.awaits, hp] at ha
      · simp [State.awaits, hp] at ha
  | @batch line queue r loop phase hp hq hr hl hphase =>
    obtain ⟨pushed, hf⟩ := @filled maxLogSize s.loop {} line queue
    rw [← hr] at hf
    have hbatch : r.2.1 = batchOf pushed := hf.batch
    have hlines : linesOf s.queue = line :: linesOf queue := by rw [hq, linesOf_ok]
    have hqueue : queue.length < s.queue.length := by simp [hq]
    have hwithin : size s.sent ≤ maxLogSize → r.1.bytesSent = s.loop.bytesSent + size pushed ∧
        r.1.logSizeExceeded = s.loop.logSizeExceeded := fun hs => by
      have := hI.counted hs
      exact hf.within (by rw [← hlines]; omega) hmax
    refine ⟨hf.rest.length_le.trans (hqueue.le.trans hI.queue), ?_, fun b e hw => ?_, fun hs => ?_, fun hs => ?_,
      fun hs ha => ?_, hI.refused⟩
    · have hsuf : linesOf r.2.2.2 <:+ linesOf queue := List.IsSuffix.filterMap _ hf.rest
      exact (hsuf.trans (List.suffix_cons line _)).trans (hlines ▸ hI.unread)
    · rcases hphase with ⟨-, hw' | hw'⟩ | ⟨-, hw'⟩
      · simp [hw'] at hw
      · simp [hw'] at hw
      · obtain ⟨rfl, -⟩ : r.2.1 = b ∧ r.2.2.1 = e := by simpa [hw'] using hw
        rw [hbatch, lines_batchOf]
        refine ⟨rfl, (hf.taken.isInfix).trans (hlines ▸ hI.unread).isInfix, ?_, fun p hpre hne => ?_⟩
        · have hlen := hf.taken.length_le
          rw [← hlines] at hlen
          exact hlen.trans ((List.length_filterMap_le _ _).trans hI.queue)
        · by_cases hnil : p = []
          · subst hnil
            rfl
          · exact hf.room p hpre hne hnil
    · have hfewer := hf.fewer
      have hcount := hI.counted hs
      rw [hl.bytesSent, (hwithin hs).1]
      rw [← hlines] at hfewer
      dsimp only
      omega
    · rw [hl.exceeded, (hwithin hs).2]
      exact hI.exceeded hs
    · obtain ⟨hclosed, hbytes⟩ := hI.written hs (by simp [State.awaits, hp])
      refine ⟨hclosed, ?_⟩
      rw [hp] at hbytes
      have hbytes' : s.sink.bytesWritten ≤ s.loop.bytesSent := hbytes
      rw [hl.bytesSent, (hwithin hs).1]
      rcases hphase with ⟨-, rfl | rfl⟩ | ⟨hne, rfl⟩
      · exact hbytes'.trans (Nat.le_add_right _ _)
      · cases ha
      · have hpushed : pushed ≠ [] := by
          rintro rfl
          exact hne (by rw [hbatch]; rfl)
        have hlt := length_batchOf_lt hpushed
        simp only [Phase.inFlight, List.length_append, List.length_singleton, hbatch]
        omega
  | @written b pending handled loop phase hp hl hphase hok =>
    have haw : s.awaits = true := by simp [State.awaits, hp]
    obtain ⟨hhclosed, hhbytes⟩ := @handle_le path maxLogSize handled b.bytes s.sink
    refine ⟨hI.queue, hI.unread, fun b' e' hw => ?_, fun hs => ?_, fun hs => hl.exceeded.trans (hI.exceeded hs),
      fun hs ha => ?_, fun hs hf => ?_⟩
    · rcases hphase with rfl | rfl <;> cases hw
    · rw [hl.bytesSent]
      exact hI.counted hs
    · obtain ⟨hclosed, hbytes⟩ := hI.written hs haw
      rw [hp] at hbytes
      simp only [Phase.inFlight, List.length_append, List.length_singleton] at hbytes
      refine ⟨hhclosed.trans hclosed, ?_⟩
      rw [hl.bytesSent, Phase.inFlight_of_not_writing (hphase.imp_right .inl)]
      exact hhbytes.trans hbytes
    · obtain ⟨hclosed, hbytes⟩ := hI.written hs haw
      obtain ⟨hb, hprod⟩ := hI.batch b pending hp
      have hcount := hI.counted hs
      rw [hp] at hbytes
      simp only [Phase.inFlight, List.length_append, List.length_singleton] at hbytes
      have hsize : size s.sent ≤ maxLogSize := hs
      have hchunk : b.bytes.length ≤ maxLogChunkBytes := hb ▸ hf b.lines hprod
      have haccepts := @refuses_eq_false maxLogSize b.bytes s.sink hchunk hclosed (by omega)
      simp [hI.refused hs hf, haccepts]
  | note sink loop hp ht hl =>
    refine ⟨hI.queue, hI.unread, fun b e hw => (by cases hw), fun hs => ?_,
      fun hs => hl.exceeded.trans (hI.exceeded hs), fun hs ha => (by cases ha), hI.refused⟩
    rw [hl.bytesSent]
    exact hI.counted hs
  | close =>
    exact ⟨hI.queue, hI.unread, fun b e hw => (by cases hw), hI.counted, hI.exceeded,
      fun hs ha => (by cases ha),
      hI.refused⟩

theorem LimitInv.exec {as : List Action} (hmax : maxLogSize < 2 ^ 64) (h : exec path maxLogSize {} as = some s) :
    LimitInv maxLogSize s :=
  Lts.exec_inv (P := fun _ _ => True) (fun _ _ _ hI _ hs => hI.step hmax (effect_of_step hs))
    ⟨Nat.zero_le _, List.suffix_rfl, fun _ _ h => (by cases h), fun _ => le_rfl, fun _ => rfl,
      fun _ _ => ⟨rfl, le_rfl⟩, fun _ _ => rfl⟩ (Lts.Along.of_mem fun _ _ _ => trivial) h

/-! ### Every batch can come about -/

/-- The loop waits for output, and has taken all of it. -/
structure Ready (s : State) (lines : List Line) : Prop where
  phase : s.phase = .waiting
  queue : s.queue = []
  closed : s.closed = false
  ended : s.loop.ended = false
  bytesSent : s.loop.bytesSent = size lines
  sent : s.sent = lines

theorem exec_outputs {seg : List Line} (ha : s.awaits = true) (hc : s.closed = false)
    (hlen : s.queue.length + seg.length ≤ logChannelCapacity) : LogStream.exec path maxLogSize s (seg.map .output) =
      some { s with queue := s.queue ++ seg.map .ok, sent := s.sent ++ seg } := by
  induction seg generalizing s with
  | nil => simp
  | cons l seg ih =>
    rw [List.length_cons] at hlen
    have hlt : s.queue.length < logChannelCapacity := by omega
    have hstep : step path maxLogSize s (.output l) =
        some { s with queue := s.queue ++ [.ok l], sent := s.sent ++ [l] } := by
      simp [step, ha, hc, hlt]
    have hrest := @ih { s with queue := s.queue ++ [.ok l], sent := s.sent ++ [l] } ha hc (by
      simp only [List.length_append, List.length_singleton]
      omega)
    exact (Lts.exec_cons _).mpr ⟨_, hstep, by simpa using hrest⟩

/-- The inner loop takes all lines in the channel that a batch has room for. -/
theorem fill_all {loop : Loop} {b : Batch} {line : Line} {seg : List Line} (hend : loop.ended = false)
    (hsize : loop.bytesSent + size (line :: seg) ≤ maxLogSize) (hmax : maxLogSize < 2 ^ 64)
    (hroom : ∀ p, p <+: line :: seg → p ≠ line :: seg → p ≠ [] → (p.foldl Batch.push b).full = false) :
    fill maxLogSize loop b line (seg.map .ok) =
      ({ loop with bytesSent := loop.bytesSent + size (line :: seg) }, (line :: seg).foldl Batch.push b, none, []) := by
  induction seg generalizing loop b line with
  | nil =>
    have hsat : saturatingAdd loop.bytesSent (line.bytes.length + 1) = loop.bytesSent + size [line] := by
      simp only [saturatingAdd, size_cons, size_nil] at hsize ⊢
      omega
    rw [List.map_nil, fill, Loop.take_of_le hend (hsat.le.trans hsize), hsat]
    rfl
  | cons line' seg ih =>
    rw [size_cons] at hsize
    have hsat : saturatingAdd loop.bytesSent (line.bytes.length + 1) = loop.bytesSent + (line.bytes.length + 1) := by
      rw [saturatingAdd]
      omega
    have hfull : (b.push line).full = false := hroom [line] ⟨line' :: seg, rfl⟩ (by simp) (by simp)
    rw [List.map_cons, fill, Loop.take_of_le hend (by omega), hsat]
    dsimp only
    rw [hfull, if_neg Bool.false_ne_true]
    have hrest := @ih { loop with bytesSent := loop.bytesSent + (line.bytes.length + 1) } (b.push line) line' hend
      (by dsimp only; omega) fun p hp hne hnil => by
        have := hroom (line :: p) ((List.prefix_cons_inj line).mpr hp) (by simpa using hne) (by simp)
        exact this
    rw [hrest, size_cons line]
    simp only [Nat.add_assoc, List.foldl_cons]

/-- The lines come one after the other, and the loop takes them together. -/
theorem exec_batch {lines seg : List Line} (hmax : maxLogSize < 2 ^ 64) (hs : Ready s lines) (hne : seg ≠ [])
    (hlen : seg.length ≤ logChannelCapacity) (hroom : ∀ p, p <+: seg → p ≠ seg → (batchOf p).full = false)
    (hsize : size (lines ++ seg) ≤ maxLogSize) :
    ∃ s', LogStream.exec path maxLogSize s (seg.map .output ++ [.recv .ahead]) = some s' ∧
      Ready { s' with phase := .waiting } (lines ++ seg) ∧ s'.sink = s.sink ∧
      s'.phase = if (batchOf seg).bytes.isEmpty then .waiting else .writing (batchOf seg) none := by
  have haw : s.awaits = true := by simp [State.awaits, hs.phase]
  have hout := @exec_outputs path maxLogSize s seg haw hs.closed (by simpa [hs.queue] using hlen)
  cases seg with
  | nil => exact absurd rfl hne
  | cons line seg =>
    have hfill : fill maxLogSize s.loop {} line (seg.map .ok) =
        ({ s.loop with bytesSent := size (lines ++ line :: seg) }, batchOf (line :: seg), none, []) := by
      rw [size_append, ← hs.bytesSent]
      rw [size_append, ← hs.bytesSent] at hsize
      exact fill_all hs.ended hsize hmax fun p hp hne _ => hroom p hp hne
    refine ⟨{ s with
      loop := { s.loop with bytesSent := size (lines ++ line :: seg) }
      sent := s.sent ++ line :: seg
      batches := s.batches ++ [line :: seg]
      phase := if (batchOf (line :: seg)).bytes.isEmpty then .waiting else .writing (batchOf (line :: seg)) none },
      (Lts.exec_append _).mpr ⟨_, hout, (Lts.exec_cons _).mpr ⟨_, ?_, rfl⟩⟩,
      ⟨rfl, hs.queue, hs.closed, hs.ended, rfl, by rw [hs.sent]⟩, rfl, rfl⟩
    simp only [step, hs.phase, hs.queue, List.nil_append, List.map_cons, hfill, lines_batchOf]
    split_ifs <;> rfl

/-- A refused chunk is noted as such, whatever becomes of the loop. -/
theorem reply_refused {b : Batch} {pending : Option String} (hp : s.phase = .writing b pending)
    (href : s.sink.refuses maxLogSize b.bytes = true) :
    ∃ s', step path maxLogSize s (.reply none .ahead) = some s' ∧ s'.sent = s.sent ∧ s'.refused = true := by
  have hw : ∃ e, (s.sink.write path maxLogSize none b.bytes).1 = .error e := by
    cases hw : (s.sink.write path maxLogSize none b.bytes).1 with
    | ok => exact absurd ((Sink.of_write_ok hw).2.symm.trans href) Bool.false_ne_true
    | error e => exact ⟨e, rfl⟩
  obtain ⟨e, hw⟩ := hw
  obtain ⟨loop, phase, heq, -⟩ := State.writeFailed_eq
    { s with
      sink := (s.sink.write path maxLogSize none b.bytes).2
      refused := s.refused || s.sink.refuses maxLogSize b.bytes } pending .ahead
  have hstep : step path maxLogSize s (.reply none .ahead) = some { s with
      sink := (s.sink.write path maxLogSize none b.bytes).2
      refused := s.refused || s.sink.refuses maxLogSize b.bytes
      loop := loop
      phase := phase } := by
    simp only [step, hp, hw]
    rw [← hp]
    exact congrArg some heq
  exact ⟨_, hstep, rfl, by simp [href]⟩

/-- An accepted chunk leaves the loop waiting for the next. -/
theorem reply_accepted {b : Batch} (hp : s.phase = .writing b none) (href : s.sink.refuses maxLogSize b.bytes = false) :
    step path maxLogSize s (.reply none .ahead) = some { s with
      sink := (s.sink.write path maxLogSize none b.bytes).2
      refused := s.refused || s.sink.refuses maxLogSize b.bytes
      phase := .waiting } := by
  have hw : (s.sink.write path maxLogSize none b.bytes).1 = .ok () := by
    simp only [Sink.refuses, Bool.or_eq_false_iff, decide_eq_false_iff_not] at href
    simp [Sink.write, href]
  simp only [step, hp, hw, State.afterBatch]

/-- The lines of a log can be taken one by one, until one is refused. -/
theorem exists_ready (hmax : maxLogSize < 2 ^ 64) (lines : List Line) (hsize : size lines ≤ maxLogSize) :
    ∃ as s, LogStream.exec path maxLogSize {} as = some s ∧ (s.sent <+: lines ∧ s.refused = true ∨ Ready s lines) := by
  induction lines using List.reverseRecOn with
  | nil => exact ⟨[], {}, rfl, .inr ⟨rfl, rfl, rfl, rfl, rfl, rfl⟩⟩
  | append_singleton lines line ih =>
    have hpre : lines <+: lines ++ [line] := List.prefix_append _ _
    obtain ⟨as, s, hs, ⟨hsent, href⟩ | hready⟩ := ih ((size_le_of_isPrefix hpre).trans hsize)
    · exact ⟨as, s, hs, .inl ⟨hsent.trans hpre, href⟩⟩
    · obtain ⟨s₁, hbatch, hready₁, -, hphase⟩ := @exec_batch path maxLogSize s lines [line] hmax hready (by simp)
        (by rw [List.length_singleton, logChannelCapacity]; omega) (fun p hp hne => by
          rw [eq_nil_of_isPrefix_singleton hp hne]
          rfl) hsize
      have hrun := (Lts.exec_append _).mpr ⟨s, hs, hbatch⟩
      by_cases hb : (batchOf [line]).bytes.isEmpty = true
      · rw [if_pos hb] at hphase
        exact ⟨_, s₁, hrun,
          .inr ⟨hphase, hready₁.queue, hready₁.closed, hready₁.ended, hready₁.bytesSent, hready₁.sent⟩⟩
      · rw [if_neg hb] at hphase
        cases href : s₁.sink.refuses maxLogSize (batchOf [line]).bytes with
        | true =>
          obtain ⟨s', hstep, hsent, hrefused⟩ := @reply_refused path maxLogSize s₁ _ _ hphase href
          exact ⟨_, s', (Lts.exec_append _).mpr ⟨s₁, hrun, (Lts.exec_cons _).mpr ⟨s', hstep, Lts.exec_nil _ _⟩⟩,
            .inl ⟨(hsent.trans hready₁.sent) ▸ List.prefix_rfl, hrefused⟩⟩
        | false =>
          have hstep := @reply_accepted path maxLogSize s₁ _ hphase href
          exact ⟨_, _, (Lts.exec_append _).mpr ⟨s₁, hrun, (Lts.exec_cons _).mpr ⟨_, hstep, Lts.exec_nil _ _⟩⟩,
            .inr ⟨rfl, hready₁.queue, hready₁.closed, hready₁.ended, hready₁.bytesSent, hready₁.sent⟩⟩

/-- A chunk that is too large can come about, and is refused. -/
theorem exists_refused (hmax : maxLogSize < 2 ^ 64) {lines seg : List Line} (hsize : size lines ≤ maxLogSize)
    (hseg : Producible lines seg) (hlarge : maxLogChunkBytes < (batchOf seg).bytes.length) :
    ∃ as s, LogStream.exec path maxLogSize {} as = some s ∧ s.sent <+: lines ∧ s.refused = true := by
  obtain ⟨before, after, rfl⟩ := hseg.part
  have hpre : before ++ seg <+: before ++ seg ++ after := List.prefix_append _ _
  have hbefore : before <+: before ++ seg := List.prefix_append _ _
  obtain ⟨as, s, hs, ⟨hsent, href⟩ | hready⟩ :=
    @exists_ready path maxLogSize hmax before ((size_le_of_isPrefix (hbefore.trans hpre)).trans hsize)
  · exact ⟨as, s, hs, hsent.trans (hbefore.trans hpre), href⟩
  · have hbytes : ¬ (batchOf seg).bytes.isEmpty = true := by
      intro hnil
      rw [List.isEmpty_iff.mp hnil] at hlarge
      exact absurd hlarge (Nat.not_lt_zero _)
    have hne : seg ≠ [] := by
      rintro rfl
      exact hbytes rfl
    obtain ⟨s₁, hbatch, hready₁, -, hphase⟩ := @exec_batch path maxLogSize s before seg hmax hready hne hseg.length
      hseg.room ((size_le_of_isPrefix hpre).trans hsize)
    rw [if_neg hbytes] at hphase
    obtain ⟨s', hstep, hsent, hrefused⟩ :=
      @reply_refused path maxLogSize s₁ _ _ hphase (by simp [Sink.refuses, hlarge])
    refine ⟨_, s', (Lts.exec_append _).mpr ⟨s, hs, (Lts.exec_append _).mpr
      ⟨s₁, hbatch, (Lts.exec_cons _).mpr ⟨s', hstep, Lts.exec_nil _ _⟩⟩⟩, ?_, hrefused⟩
    rw [hsent, hready₁.sent]
    exact hpre

end Step

/-- **The limits agree** exactly on the logs without a chunk that is too large: for a log within `max_log_size`, no
batch of a run over it is refused, and the agent's own limit is not exceeded, if and only if the lines of every batch
the loop can form make at most `MAX_LOG_CHUNK_BYTES`. -/
theorem log_limits_iff {path : String} {maxLogSize : ℕ} (hmax : maxLogSize < 2 ^ 64) {lines : List Line}
    (hsize : size lines ≤ maxLogSize) :
    (∀ as s, exec path maxLogSize {} as = some s → s.sent <+: lines →
      s.refused = false ∧ s.loop.logSizeExceeded = false) ↔ Fits lines := by
  constructor
  · intro hall seg hseg
    by_contra hlarge
    obtain ⟨as, s, hs, hsent, href⟩ := @exists_refused path maxLogSize hmax lines seg hsize hseg (Nat.not_le.mp hlarge)
    exact absurd ((hall as s hs hsent).1.symm.trans href) Bool.false_ne_true
  · intro hfits as s hs hsent
    have hI := LimitInv.exec hmax hs
    have hle : size s.sent ≤ maxLogSize := (size_le_of_isPrefix hsent).trans hsize
    exact ⟨hI.refused hle (hfits.mono hsent), hI.exceeded hle⟩

/-- Lines of at most 768 KiB fit with what a batch may hold before them. -/
theorem fits_of_length_le {lines : List Line}
    (h : ∀ l ∈ lines, l.bytes.length + maxLogBatchBytes ≤ maxLogChunkBytes) : Fits lines := by
  intro seg hseg
  rcases List.eq_nil_or_concat seg with rfl | ⟨before, line, rfl⟩
  · exact Nat.zero_le _
  · rw [List.concat_eq_append] at hseg ⊢
    have hline := h line (hseg.part.subset (by simp))
    have hroom := hseg.room before (List.prefix_append _ _) (by simp)
    have hpush := length_push_le (batchOf before) line
    simp only [Batch.full, Bool.or_eq_false_iff, decide_eq_false_iff_not] at hroom
    rw [batchOf_append]
    omega

theorem log_limits_iff_short : size [line [97], line [], line [98]] ≤ 100 ∧
    ∀ as s, exec "log" 100 {} as = some s → s.sent <+: [line [97], line [], line [98]] →
      s.refused = false ∧ s.loop.logSizeExceeded = false := by
  have hsize : size [line [97], line [], line [98]] ≤ 100 := by decide
  exact ⟨hsize, (@log_limits_iff "log" 100 (by decide) [line [97], line [], line [98]] hsize).mpr
    (fits_of_length_le (by decide))⟩

/-- The child writes one line, and the loop sends it. -/
def oneLine (l : Line) : List Action := [.output l, .recv .ahead, .reply none .ahead]

/-- A line that is too large for a chunk costs the build its life, whatever `max_log_size`. -/
theorem killed_of_long_line {path : String} {maxLogSize : ℕ} {l : Line} (hmax : maxLogSize < 2 ^ 64)
    (hsize : size [l] ≤ maxLogSize) (hlong : maxLogChunkBytes < l.bytes.length) :
    ∃ s ∈ exec path maxLogSize {} (oneLine l), s.sent = [l] ∧ s.refused = true ∧ s.loop.killed = true := by
  have hfill : fill maxLogSize {} {} l [] = ({ bytesSent := 0 + size [l] }, Batch.push {} l, none, []) :=
    @fill_all maxLogSize {} {} l [] rfl (by simpa using hsize) hmax fun p hp hne hnil =>
      absurd (eq_nil_of_isPrefix_singleton hp hne) hnil
  have hbytes : l.bytes.isEmpty = false := by
    rw [List.isEmpty_eq_false_iff]
    intro hnil
    simp [hnil] at hlong
  have hrecv : step path maxLogSize { queue := [.ok l], sent := [l] } (.recv .ahead) = some {
      loop := { bytesSent := 0 + size [l] }
      sent := [l]
      batches := [[l]]
      phase := .writing (Batch.push {} l) none } := by
    simp [step, hfill, Batch.push, hbytes]
  have hwrite : ∃ e, Sink.write path maxLogSize none (Batch.push {} l).bytes {} = (.error e, {}) := ⟨_, if_pos hlong⟩
  obtain ⟨e, hwrite⟩ := hwrite
  have hrefuses : Sink.refuses maxLogSize (Batch.push {} l).bytes {} = true := by
    simp [Sink.refuses, Batch.push, hlong]
  refine ⟨_, (Lts.exec_cons _).mpr ⟨_, rfl, (Lts.exec_cons _).mpr ⟨_, hrecv, (Lts.exec_cons _).mpr ⟨{
    loop := { bytesSent := 0 + size [l], sinkFailed := true, killed := true }
    sent := [l]
    batches := [[l]]
    refused := true }, ?_, Lts.exec_nil _ _⟩⟩⟩, rfl, rfl, rfl⟩
  simp [step, hwrite, hrefuses, State.writeFailed, State.observeExit, State.afterBatch]

theorem length_line_replicate (n : ℕ) : (line (List.replicate n 97)).bytes.length = n := by
  have hmem : ∀ b ∈ List.replicate n (97 : UInt8), decide (b ≠ newline) = true := by
    intro b hb
    rw [List.eq_of_mem_replicate hb]
    decide
  exact (congrArg List.length (List.filter_eq_self.mpr hmem)).trans List.length_replicate

/-- One line of more than 1 MiB in a log of at most 4 GiB. -/
theorem long_line_refused :
    size [line (List.replicate (maxLogChunkBytes + 1) 97)] ≤ 2 ^ 32 ∧
      ∃ s ∈ exec "log" (2 ^ 32) {} (oneLine (line (List.replicate (maxLogChunkBytes + 1) 97))),
        s.sent = [line (List.replicate (maxLogChunkBytes + 1) 97)] ∧ s.refused = true ∧ s.loop.killed = true := by
  have hlen := length_line_replicate (maxLogChunkBytes + 1)
  have hsize : size [line (List.replicate (maxLogChunkBytes + 1) 97)] ≤ 2 ^ 32 := by
    rw [size_cons, size_nil, hlen, maxLogChunkBytes]
    omega
  exact ⟨hsize, killed_of_long_line (by omega) hsize (by rw [hlen]; exact Nat.lt_succ_self _)⟩

end Circus.Agent.LogStream
