/-
# The hash of an evaluation's inputs

`compute_inputs_hash` of `crates/evaluator/src/builds.rs`: SHA-256 over the
commit and then, in the order of their names, the name, type, value and
revision of every input of the jobset. Of a row it reads no more than that. The
fields follow each other without a separator or a length, and an absent revision
leaves no trace. So what the hash determines is the text, and the text
determines the fields only together with where they end (`layout`):
`computeInputsHash_iff`.
-/
import Circus.Evaluator.Jobsets
import Mathlib.Data.List.Sort
import Mathlib.Data.String.Basic

namespace Circus.Evaluator

open Webhooks (asBytes asBytes_injective)

def InputType.asStr : InputType → String
  | git => "git"
  | string => "string"
  | boolean => "boolean"
  | build => "build"

theorem InputType.asStr_injective : Function.Injective InputType.asStr := by
  intro a b h
  cases a <;> cases b <;> first | rfl | exact absurd h (by decide)

/-- SHA-256 in hexadecimal, taken as injective. -/
structure Sha256 where
  digest : List UInt8 → String
  injective : Function.Injective digest

def sortedInputs (inputs : List DeclarativeJobsetInput) : List DeclarativeJobsetInput :=
  inputs.insertionSort fun a b => a.name ≤ b.name

/-- What the hasher is updated with for one input. -/
def DeclarativeJobsetInput.hashed (i : DeclarativeJobsetInput) : List UInt8 :=
  asBytes i.name ++ asBytes i.inputType.asStr ++ asBytes i.value ++ i.revision.elim [] asBytes

/-- What the hasher is updated with. -/
def hashedText (commitHash : String) (inputs : List DeclarativeJobsetInput) : List UInt8 :=
  asBytes commitHash ++ (sortedInputs inputs).flatMap DeclarativeJobsetInput.hashed

def computeInputsHash (sha256 : Sha256) (commitHash : String) (inputs : List DeclarativeJobsetInput) : String :=
  sha256.digest (hashedText commitHash inputs)

/-! ### Where the fields end -/

/-- The lengths of the fields, in bytes. -/
def DeclarativeJobsetInput.layout (i : DeclarativeJobsetInput) : ℕ × ℕ × ℕ × Option ℕ :=
  ((asBytes i.name).length, (asBytes i.inputType.asStr).length, (asBytes i.value).length,
    i.revision.map fun r => (asBytes r).length)

/-- Where the commit and the fields of the inputs end in the text. -/
def layout (commitHash : String) (inputs : List DeclarativeJobsetInput) : ℕ × List (ℕ × ℕ × ℕ × Option ℕ) :=
  ((asBytes commitHash).length, (sortedInputs inputs).map DeclarativeJobsetInput.layout)

/-- The two are not confused: they have different texts, or fields that end at the same places. -/
def Unconfused (commit : String) (inputs : List DeclarativeJobsetInput) (commit' : String)
    (inputs' : List DeclarativeJobsetInput) : Prop :=
  hashedText commit inputs = hashedText commit' inputs' → layout commit inputs = layout commit' inputs'

instance (commit : String) (inputs : List DeclarativeJobsetInput) (commit' : String)
    (inputs' : List DeclarativeJobsetInput) :
    Decidable (Unconfused commit inputs commit' inputs') := inferInstanceAs (Decidable (_ → _))

/-- Texts whose first fields end at the same places have the same first input, and the same rest. -/
theorem DeclarativeJobsetInput.eq_of_hashed_append {i j : DeclarativeJobsetInput} {rest rest' : List UInt8}
    (hl : i.layout = j.layout) (h : i.hashed ++ rest = j.hashed ++ rest') : i = j ∧ rest = rest' := by
  obtain ⟨name, type, value, revision⟩ := i
  obtain ⟨name', type', value', revision'⟩ := j
  simp only [layout, Prod.mk.injEq] at hl
  simp only [hashed, List.append_assoc] at h
  obtain ⟨hname, h₁⟩ := List.append_inj h hl.1
  obtain ⟨htype, h₂⟩ := List.append_inj h₁ hl.2.1
  obtain ⟨hvalue, h₃⟩ := List.append_inj h₂ hl.2.2.1
  obtain rfl := asBytes_injective hname
  obtain rfl := InputType.asStr_injective (asBytes_injective htype)
  obtain rfl := asBytes_injective hvalue
  cases revision with
  | none =>
    cases revision' with
    | none => exact ⟨rfl, h₃⟩
    | some => cases hl.2.2.2
  | some =>
    cases revision' with
    | none => cases hl.2.2.2
    | some =>
      obtain ⟨hr, hrest⟩ := List.append_inj h₃ (Option.some.inj hl.2.2.2)
      obtain rfl := asBytes_injective hr
      exact ⟨rfl, hrest⟩

variable {xs ys : List DeclarativeJobsetInput}

theorem eq_of_flatMap_hashed
    (hl : xs.map DeclarativeJobsetInput.layout = ys.map DeclarativeJobsetInput.layout)
    (h : xs.flatMap DeclarativeJobsetInput.hashed = ys.flatMap DeclarativeJobsetInput.hashed) : xs = ys := by
  induction xs generalizing ys with
  | nil => exact (List.map_eq_nil_iff.mp hl.symm).symm
  | cons x xs ih =>
    cases ys with
    | nil => cases hl
    | cons =>
      obtain ⟨hxy, hlayout⟩ := List.cons.inj hl
      obtain ⟨rfl, hrest⟩ := DeclarativeJobsetInput.eq_of_hashed_append hxy h
      rw [ih hlayout hrest]

variable {c c' : String}

/-- The text and the places where its fields end determine the commit and the sorted inputs. -/
theorem eq_of_hashedText (hl : layout c xs = layout c' ys)
    (h : hashedText c xs = hashedText c' ys) : c = c' ∧ sortedInputs xs = sortedInputs ys := by
  obtain ⟨hc, hl⟩ := Prod.mk.inj hl
  obtain ⟨hcommit, h⟩ := List.append_inj h hc
  exact ⟨asBytes_injective hcommit, eq_of_flatMap_hashed hl h⟩

/-! ### Sorting -/

theorem perm_sortedInputs (inputs : List DeclarativeJobsetInput) : (sortedInputs inputs).Perm inputs :=
  List.perm_insertionSort _ inputs

theorem pairwise_sortedInputs (inputs : List DeclarativeJobsetInput) :
    (sortedInputs inputs).Pairwise fun a b => a.name ≤ b.name := by
  have : IsTrans DeclarativeJobsetInput fun a b => a.name ≤ b.name := ⟨fun _ _ _ => le_trans⟩
  have : Std.Total fun a b : DeclarativeJobsetInput => a.name ≤ b.name := ⟨fun _ _ => le_total _ _⟩
  exact List.pairwise_insertionSort _ inputs

/-- With distinct names the sorted list is the inputs in one order. -/
theorem sortedInputs_eq_iff (hx : (xs.map (·.name)).Nodup) :
    sortedInputs xs = sortedInputs ys ↔ xs.Perm ys := by
  constructor
  · intro h
    exact (perm_sortedInputs xs).symm.trans (h ▸ perm_sortedInputs ys)
  · intro h
    refine List.Perm.eq_of_pairwise ?_ (pairwise_sortedInputs xs) (pairwise_sortedInputs ys)
      ((perm_sortedInputs xs).trans (h.trans (perm_sortedInputs ys).symm))
    intro a b ha hb hab hba
    have hmem : a ∈ xs := (perm_sortedInputs xs).mem_iff.mp ha
    have hmem' : b ∈ xs := h.mem_iff.mpr ((perm_sortedInputs ys).mem_iff.mp hb)
    exact List.inj_on_of_nodup_map hx hmem hmem' (le_antisymm hab hba)

theorem perm_of_hashedText (hu : Unconfused c xs c' ys)
    (h : hashedText c xs = hashedText c' ys) : c = c' ∧ xs.Perm ys := by
  obtain ⟨hc, hs⟩ := eq_of_hashedText (hu h) h
  exact ⟨hc, (perm_sortedInputs xs).symm.trans (hs ▸ perm_sortedInputs ys)⟩

/-- **What the hash tells apart**: the hashes of two commits with inputs of distinct names are equal exactly for
the same commit and inputs, if and only if no text is the same with its fields ending elsewhere. -/
theorem computeInputsHash_iff (sha256 : Sha256)
    (hx : (xs.map (·.name)).Nodup) :
    (computeInputsHash sha256 c xs = computeInputsHash sha256 c' ys ↔ c = c' ∧ xs.Perm ys) ↔ Unconfused c xs c' ys := by
  have htext : computeInputsHash sha256 c xs = computeInputsHash sha256 c' ys ↔ hashedText c xs = hashedText c' ys :=
    sha256.injective.eq_iff
  rw [htext]
  constructor
  · intro hiff h
    obtain ⟨rfl, hperm⟩ := hiff.mp h
    rw [layout, layout, (sortedInputs_eq_iff hx).mpr hperm]
  · intro hu
    refine ⟨perm_of_hashedText hu, ?_⟩
    rintro ⟨rfl, hperm⟩
    rw [hashedText, hashedText, (sortedInputs_eq_iff hx).mpr hperm]

/-- A value and its revision run together. -/
example : ¬ Unconfused "c" [{ name := "pin", inputType := .git, value := "url1" }]
    "c" [{ name := "pin", inputType := .git, value := "url", revision := some "1" }] := by decide +kernel

/-- For one list of inputs the commits do not collide. -/
theorem computeInputsHash_injective (sha256 : Sha256) (inputs : List DeclarativeJobsetInput) :
    Function.Injective fun commit => computeInputsHash sha256 commit inputs := by
  intro c c' h
  exact asBytes_injective (List.append_cancel_right (sha256.injective h))

end Circus.Evaluator
