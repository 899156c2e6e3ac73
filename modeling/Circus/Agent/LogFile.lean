/-
# What the log file holds

The agent joins the lines of a batch with newlines, and the sink ends every
chunk with one. The agent tells by the bytes whether a batch has a line yet,
so empty lines at its beginning leave nothing behind, and a batch of nothing
else is not sent. `log_lossless_iff` says that this is all that can be missing
in a run that reaches no limit, in which no write fails, and which neither a
kill, a cancellation nor the deadline for draining cuts short.
-/
import Circus.Agent.LogStream

namespace Circus.Agent.LogStream

/-- The bytes on their way to the file. -/
def Phase.inFlight : Phase → List UInt8
  | writing b _ => b.bytes ++ [newline]
  | _ => []

/-- Where the lines are in a clean run. -/
structure FileInv (s : State) : Prop where
  file : s.loop.Clean → s.sink.file ++ s.phase.inFlight = s.batches.flatMap logged
  sent : s.loop.Clean → s.sent = s.batches.flatten ++ linesOf s.queue
  drained : s.drained = true → s.queue = [] ∧ s.awaits = false

theorem Phase.inFlight_of_not_writing {p : Phase} (h : p = .waiting ∨ p = .left ∨ p = .done) : p.inFlight = [] := by
  rcases h with rfl | rfl | rfl <;> rfl

section Step

variable {path : String} {maxLogSize : ℕ} {s s' : State}

/-- An accepted chunk is in the file, with its newline. -/
theorem file_handle {chunk : List UInt8} {sink : Sink} (h : sink.refuses maxLogSize chunk = false) :
    (handle path maxLogSize (some none) chunk sink).file = sink.file ++ chunk ++ [newline] := by
  simp only [Sink.refuses, Bool.or_eq_false_iff, decide_eq_false_iff_not] at h
  simp [handle, Sink.write, h.1.1, h.1.2, h.2]

theorem FileInv.step (hI : FileInv s) (h : Effect path maxLogSize s s') : FileInv s' := by
  cases h with
  | output line ha | readError e ha =>
    refine ⟨hI.file, fun hcl => ?_, fun hd => ?_⟩
    · simp [hI.sent hcl]
    · rw [(hI.drained hd).2] at ha
      cases ha
  | quiet loop queue closed exited drained phase hl hq hp hd =>
    have hlines : linesOf queue = linesOf s.queue := by
      rcases hq with rfl | ⟨e, hq⟩
      · rfl
      · rw [hq, linesOf_error]
    refine ⟨fun hcl => ?_, fun hcl => by rw [hlines]; exact hI.sent (hl.clean hcl), fun hdr => ?_⟩
    · have hfile := hI.file (hl.clean hcl)
      rcases hp with rfl | ⟨hw, hp⟩
      · exact hfile
      · rw [hw] at hfile
        rw [Phase.inFlight_of_not_writing (.inr hp)]
        exact hfile
    · rcases hd with rfl | ⟨hqueue, hphase⟩
      · obtain ⟨hnil, haw⟩ := hI.drained hdr
        have hphase : phase = s.phase := by
          rcases hp with hp | ⟨hw, -⟩
          · exact hp
          · simp [State.awaits, hw] at haw
        refine ⟨?_, by rw [← haw, hphase]; rfl⟩
        rcases hq with rfl | ⟨e, hq⟩
        · exact hnil
        · rw [hnil] at hq
          cases hq
      · exact ⟨hqueue, by rw [hphase]; rfl⟩
  | @batch line queue r loop phase hp hq hr hl hphase =>
    obtain ⟨pushed, hf⟩ := @filled maxLogSize s.loop {} line queue
    rw [← hr] at hf
    have hbatch : r.2.1 = batchOf pushed := hf.batch
    have hpushed : r.2.1.lines = pushed := by rw [hbatch, lines_batchOf]
    refine ⟨fun hcl => ?_, fun hcl => ?_, fun hd => ?_⟩
    · obtain ⟨hclean, -⟩ := hf.clean (hl.clean hcl)
      have hfile := hI.file hclean
      have hended := ended_batchOf pushed
      rw [hp, Phase.inFlight_of_not_writing (.inl rfl), List.append_nil] at hfile
      rw [hpushed, List.flatMap_append, ← hfile, List.flatMap_singleton, ← hended, ← hbatch]
      rcases hphase with ⟨hnil, hw⟩ | ⟨hne, rfl⟩
      · rw [Phase.inFlight_of_not_writing (hw.imp_right .inl), hnil]
        rfl
      · rw [if_neg (by simpa using hne)]
        rfl
    · obtain ⟨hclean, hlines⟩ := hf.clean (hl.clean hcl)
      have hsent := hI.sent hclean
      rw [hq, linesOf_ok, ← hlines] at hsent
      rw [hpushed, List.flatten_append, List.flatten_singleton, List.append_assoc]
      exact hsent
    · have haw := (hI.drained hd).2
      simp [State.awaits, hp] at haw
  | @written b pending handled loop phase hp hl hphase hok =>
    refine ⟨fun hcl => ?_, fun hcl => hI.sent (hl.clean hcl), fun hd => ?_⟩
    · obtain ⟨rfl, href⟩ := hok hcl
      have hfile := hI.file (hl.clean hcl)
      rw [hp] at hfile
      rw [Phase.inFlight_of_not_writing (hphase.imp_right .inl), file_handle href, List.append_nil, List.append_assoc]
      exact hfile
    · have haw := (hI.drained hd).2
      simp [State.awaits, hp] at haw
  | note sink loop hp ht hl =>
    exact ⟨fun hcl => absurd (hl.clean hcl) ht, fun hcl => absurd (hl.clean hcl) ht,
      fun hd => ⟨(hI.drained hd).1, rfl⟩⟩
  | close closed hp =>
    refine ⟨fun hcl => ?_, hI.sent, fun hd => ⟨(hI.drained hd).1, rfl⟩⟩
    have hfile := hI.file hcl
    have hnone : s.phase.inFlight = [] := by
      cases hphase : s.phase with
      | writing => simp [State.awaits, hphase] at hp
      | _ => rfl
    rw [hnone] at hfile
    exact hfile

end Step

theorem FileInv.exec {path : String} {maxLogSize : ℕ} {as : List Action} {s : State}
    (h : exec path maxLogSize {} as = some s) : FileInv s :=
  Lts.exec_inv (P := fun _ _ => True) (fun _ _ _ hI _ hs => hI.step (effect_of_step hs))
    ⟨fun _ => rfl, fun _ => rfl, fun h => by cases h⟩ (Lts.Along.of_mem fun _ _ _ => trivial) h

/-- The line of these bytes, without newlines. -/
def line (bytes : List UInt8) : Line :=
  ⟨bytes.filter fun b => decide (b ≠ newline), fun h => of_decide_eq_true (List.mem_filter.mp h).2 rfl⟩

/-- The child writes the lines and exits, and the loop takes them in one batch. -/
def oneBatch (lines : List Line) : List Action :=
  lines.map .output ++ [.exit, .eof, .recv .ahead, .reply none .ahead, .recv .ahead, .close true]

end Circus.Agent.LogStream
