/-
# The slots of an agent

`AgentMeta::try_acquire_slot` and `SlotGuard` of
`crates/queue-runner/src/rpc/pool.rs`: a counter without a lock, taken up by
compare-and-exchange. Every load, exchange and subtraction is a step of its
own, so between two steps of one call others may do anything; an exchange may
fail though the counter is as it was read.
-/
import Circus.Lts

namespace Circus.Rpc.Pool

/-- A call of `try_acquire_slot`. -/
inductive Call
  | entered
  /-- with `cur` as it was read last -/
  | trying (cur : UInt32)
  | returned (slot : Bool)
  deriving DecidableEq

structure State where
  currentJobs : UInt32 := 0
  calls : ℕ → Option Call := fun _ => none
  /-- The guards that live, by the call that has returned them. -/
  guards : Finset ℕ := ∅

inductive Action
  | enter (k : ℕ)
  | load (k : ℕ)
  /-- `compare_exchange_weak` -/
  | exchange (k : ℕ) (spurious : Bool)
  /-- A guard is dropped: `fetch_sub`. -/
  | drop (k : ℕ)

/-- The head of the loop. -/
def check (maxJobs cur : UInt32) : Call := if maxJobs ≤ cur then .returned false else .trying cur

def State.set (s : State) (k : ℕ) (c : Call) : State := { s with calls := Function.update s.calls k (some c) }

/-- The call is under way. -/
def State.inCall (s : State) (k : ℕ) : Prop := s.calls k = some .entered ∨ ∃ cur, s.calls k = some (.trying cur)

section Step

variable (maxJobs : UInt32)

def step (s : State) : Action → Option State
  | .enter k => if s.calls k = none then some (s.set k .entered) else none
  | .load k => if s.calls k = some .entered then some (s.set k (check maxJobs s.currentJobs)) else none
  | .exchange k spurious =>
    match s.calls k with
    | some (.trying cur) =>
      if s.currentJobs = cur ∧ spurious = false then
        some { s.set k (.returned true) with currentJobs := cur + 1, guards := insert k s.guards }
      else some (s.set k (check maxJobs s.currentJobs))
    | _ => none
  | .drop k =>
    if k ∈ s.guards then some { s with currentJobs := s.currentJobs - 1, guards := s.guards.erase k } else none

abbrev exec := Lts.exec (step maxJobs)

/-- The slots as counted, and what the calls know of them; `h` is the run so far. -/
structure Inv (h : List (State × Action)) (s : State) : Prop where
  count : s.currentJobs.toNat = s.guards.card
  le : s.guards.card ≤ maxJobs.toNat
  guards : ∀ k ∈ s.guards, s.calls k = some (.returned true)
  trying : ∀ k cur, s.calls k = some (.trying cur) → cur < maxJobs
  refused : ∀ k, s.calls k = some (.returned false) → ∃ x ∈ h, x.1.inCall k ∧ x.1.guards.card = maxJobs.toNat

end Step

variable {maxJobs : UInt32} {h : List (State × Action)} {s s' : State} {a : Action}

variable {k : ℕ}

theorem State.calls_set {j : ℕ} {c : Call} : (s.set k c).calls j = if j = k then some c else s.calls j := by
  simp [State.set, Function.update_apply]

/-- A call moves on, and nothing is counted. -/
theorem Inv.set {c : Call} (hI : Inv maxJobs h s) (hk : s.calls k ≠ some (.returned true))
    (htry : ∀ cur, c = .trying cur → cur < maxJobs)
    (href : c = .returned false → s.inCall k ∧ s.guards.card = maxJobs.toNat) :
    Inv maxJobs (h ++ [(s, a)]) (s.set k c) where
  count := hI.count
  le := hI.le
  guards j hj := by
    have hne : j ≠ k := by
      rintro rfl
      exact hk (hI.guards j hj)
    rw [State.calls_set, if_neg hne]
    exact hI.guards j hj
  trying j cur hj := by
    rw [State.calls_set] at hj
    split_ifs at hj
    · exact htry cur (Option.some.inj hj)
    · exact hI.trying j cur hj
  refused j hj := by
    rw [State.calls_set] at hj
    split_ifs at hj with hjk
    · exact ⟨(s, a), by simp, hjk ▸ href (Option.some.inj hj)⟩
    · obtain ⟨x, hx, hin⟩ := hI.refused j hj
      exact ⟨x, List.mem_append_left _ hx, hin⟩

theorem State.inCall.ne_returned (hc : s.inCall k) : s.calls k ≠ some (.returned true) := by
  intro hr
  rcases hc with hc | ⟨cur, hc⟩ <;> cases hr.symm.trans hc

/-- A call has read the counter. -/
theorem Inv.check (hI : Inv maxJobs h s) (hc : s.inCall k) :
    Inv maxJobs (h ++ [(s, a)]) (s.set k (check maxJobs s.currentJobs)) := by
  unfold Pool.check
  split_ifs with hle
  · have hfull : s.guards.card = maxJobs.toNat := by
      have := hI.le
      have := hI.count
      have := UInt32.le_iff_toNat_le.mp hle
      omega
    exact hI.set hc.ne_returned nofun fun _ => ⟨hc, hfull⟩
  · refine hI.set hc.ne_returned (fun cur hcur => ?_) nofun
    cases hcur
    exact UInt32.not_le.mp hle

/-- The exchange takes a slot. -/
theorem Inv.acquire {cur : UInt32} (hI : Inv maxJobs h s) (hc : s.calls k = some (.trying cur))
    (hcur : s.currentJobs = cur) : Inv maxJobs (h ++ [(s, a)])
      { s.set k (.returned true) with currentJobs := cur + 1, guards := insert k s.guards } := by
  have hin : s.inCall k := .inr ⟨cur, hc⟩
  have hset := @Inv.set maxJobs h s a k (.returned true) hI hin.ne_returned nofun nofun
  have hlt := UInt32.lt_iff_toNat_lt.mp (hI.trying k cur hc)
  have hmax := maxJobs.toNat_lt
  have hcount : cur.toNat = s.guards.card := hcur ▸ hI.count
  have hcard : (insert k s.guards).card = s.guards.card + 1 :=
    Finset.card_insert_of_notMem fun hk => hin.ne_returned (hI.guards k hk)
  have hsucc : (cur + 1).toNat = cur.toNat + 1 := by
    rw [UInt32.toNat_add, UInt32.toNat_one]
    exact Nat.mod_eq_of_lt (by omega)
  refine ⟨by simp only [hcard, hsucc, hcount], by simp only [hcard]; omega, fun j hj => ?_, hset.trying, hset.refused⟩
  rcases Finset.mem_insert.mp hj with rfl | hj
  · exact State.calls_set.trans (if_pos rfl)
  · exact hset.guards j hj

/-- A guard that lives is counted, so the subtraction does not wrap. -/
theorem Inv.pos (hI : Inv maxJobs h s) (hk : k ∈ s.guards) : 0 < s.currentJobs := by
  rw [UInt32.lt_iff_toNat_lt, hI.count]
  exact Finset.card_pos.mpr ⟨k, hk⟩

theorem Inv.drop (hI : Inv maxJobs h s) (hk : k ∈ s.guards) :
    Inv maxJobs (h ++ [(s, a)]) { s with currentJobs := s.currentJobs - 1, guards := s.guards.erase k } := by
  have hcard : (s.guards.erase k).card = s.guards.card - 1 := Finset.card_erase_of_mem hk
  have hone : (1 : UInt32) ≤ s.currentJobs := UInt32.lt_iff_toNat_lt.mp (hI.pos hk)
  have hle := hI.le
  refine ⟨?_, by simp only [hcard]; omega, fun j hj => hI.guards j (Finset.mem_of_mem_erase hj), hI.trying,
    fun j hj => ?_⟩
  · simp only [hcard, UInt32.toNat_sub_of_le _ _ hone, hI.count, UInt32.toNat_one]
  · obtain ⟨x, hx, hin⟩ := hI.refused j hj
    exact ⟨x, List.mem_append_left _ hx, hin⟩

theorem Inv.step (hI : Inv maxJobs h s) (hs : step maxJobs s a = some s') : Inv maxJobs (h ++ [(s, a)]) s' := by
  cases a with
  | enter =>
    simp only [Pool.step] at hs
    split_ifs at hs with hk
    cases hs
    exact hI.set (by simp [hk]) nofun nofun
  | load =>
    simp only [Pool.step] at hs
    split_ifs at hs with hk
    cases hs
    exact hI.check (.inl hk)
  | exchange k spurious =>
    simp only [Pool.step] at hs
    split at hs
    · rename_i cur hk
      split_ifs at hs with hc
      · cases hs
        exact hI.acquire hk hc.1
      · cases hs
        exact hI.check (.inr ⟨cur, hk⟩)
    · cases hs
  | drop =>
    simp only [Pool.step] at hs
    split_ifs at hs with hk
    cases hs
    exact hI.drop hk

/-- **Slot accounting.** In every run the counter is the number of guards that
live, at most `max_jobs`, and no drop takes it below zero; a call that returns
without a slot was under way at a moment when all of them were held. -/
theorem slot_accounting {as : List Action} (h : exec maxJobs {} as = some s) :
    s.currentJobs.toNat = s.guards.card ∧ s.guards.card ≤ maxJobs.toNat ∧ (∀ k ∈ s.guards, 0 < s.currentJobs) ∧
      ∀ k, s.calls k = some (.returned false) →
        ∃ x ∈ Lts.trail (step maxJobs) {} as, x.1.inCall k ∧ x.1.guards.card = maxJobs.toNat := by
  have hinit : Inv maxJobs [] {} := by
    refine ⟨rfl, Nat.zero_le _, fun k hk => absurd hk (Finset.notMem_empty k), fun k cur hk => ?_, fun k hk => ?_⟩
    · cases hk
    · cases hk
  have hI : Inv maxJobs ([] ++ Lts.trail (step maxJobs) {} as) s :=
    Lts.exec_trail_inv (P := fun _ _ => True) (fun _ _ _ _ hI _ hs => hI.step hs) hinit
      (Lts.Along.of_mem fun _ _ _ => trivial) h
  exact ⟨hI.count, hI.le, fun k hk => hI.pos hk, hI.refused⟩

/-- One slot and two calls: both read it as free, one exchange fails for no reason, and the second call comes late. -/
def contended : List Action :=
  [.enter 0, .enter 1, .load 0, .load 1, .exchange 0 true, .exchange 0 false, .exchange 1 false]

theorem slot_accounting_contended : ∃ s ∈ exec 1 {} contended, s.currentJobs = 1 ∧ s.guards.card = 1 ∧
    s.calls 1 = some (.returned false) ∧ ∃ x ∈ Lts.trail (step 1) {} contended, x.1.inCall 1 ∧ x.1.guards.card = 1 :=
  have hall := @slot_accounting 1 _ contended rfl
  ⟨_, rfl, by decide, by decide, by decide, hall.2.2.2 1 (by decide)⟩

end Circus.Rpc.Pool
