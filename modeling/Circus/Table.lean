/-
# Tables with a primary key

The part of a relational table the queries need: the rows as a list, no two
with one key. `get` is the lookup by key, `select` a `SELECT … WHERE`,
`update` an `UPDATE … SET … WHERE` whose `SET` keeps the key, `delete` a
`DELETE … WHERE`. An update acts on each row by itself (`get_update`), which
is what lets a property of a whole table be followed row by row.
-/
import Mathlib

/-- The rows of a table with primary key `key`. -/
structure Table {ρ κ : Type*} (key : ρ → κ) where
  rows : List ρ
  nodup : (rows.map key).Nodup

namespace Table

variable {ρ κ : Type*} {key : ρ → κ}

/-- `SELECT … WHERE p`, in the order of the rows. -/
def select (t : Table key) (p : ρ → Bool) : List ρ := t.rows.filter p

/-- `UPDATE … SET f WHERE p`. -/
def update (t : Table key) (p : ρ → Bool) (f : ρ → ρ) (hf : ∀ r, key (f r) = key r) : Table key where
  rows := t.rows.map fun r => if p r then f r else r
  nodup := by
    rw [List.map_map]
    have : (key ∘ fun r => if p r then f r else r) = key := by
      funext r
      by_cases h : p r <;> simp [h, hf]
    rw [this]
    exact t.nodup

/-- The table of what `f` reads of each row. -/
def map {σ : Type*} {key' : σ → κ} (t : Table key) (f : ρ → σ) (hf : ∀ r, key' (f r) = key r) : Table key' where
  rows := t.rows.map f
  nodup := by
    rw [List.map_map, funext hf (f := key' ∘ f)]
    exact t.nodup

/-- `DELETE … WHERE p`. -/
def delete (t : Table key) (p : ρ → Bool) : Table key where
  rows := t.rows.filter fun r => !p r
  nodup := t.nodup.sublist (List.filter_sublist.map key)

theorem mem_update {t : Table key} {p : ρ → Bool} {f : ρ → ρ} {hf : ∀ r, key (f r) = key r} {r : ρ} :
    r ∈ (t.update p f hf).rows ↔ ∃ r₀ ∈ t.rows, (if p r₀ then f r₀ else r₀) = r := by
  simp [update]

/-- An update that lets no row into the selection, and takes one out of it,
makes it shorter. -/
theorem length_select_update_lt {t : Table key} {p q : ρ → Bool} {f : ρ → ρ} {hf : ∀ r, key (f r) = key r}
    (h : ∀ r, q (if p r then f r else r) = true → q r = true) {r : ρ} (hr : r ∈ t.rows) (hq : q r = true)
    (hn : q (if p r then f r else r) = false) : ((t.update p f hf).select q).length < (t.select q).length := by
  simp only [select, update, List.filter_map, List.length_map]
  have hsub : (t.rows.filter (q ∘ fun r => if p r then f r else r)).Sublist (t.rows.filter q) :=
    List.monotone_filter_right t.rows h
  refine lt_of_le_of_ne hsub.length_le fun he => ?_
  have hm : r ∈ t.rows.filter q := List.mem_filter.mpr ⟨hr, hq⟩
  rw [← hsub.eq_of_length he, List.mem_filter, Function.comp_apply, hn] at hm
  cases hm.2

/-- `INSERT` of rows with keys of their own. -/
def append (t : Table key) (rs : List ρ) (h : ((t.rows ++ rs).map key).Nodup) : Table key := ⟨t.rows ++ rs, h⟩

section Get

variable [DecidableEq κ]

/-- The row with key `k`. -/
def get (t : Table key) (k : κ) : Option ρ := t.rows.find? fun r => decide (key r = k)

/-- `INSERT … ON CONFLICT (key) DO UPDATE`. -/
def upsert (t : Table key) (r : ρ) : Table key where
  rows := r :: t.rows.filter fun r' => !decide (key r' = key r)
  nodup := by
    rw [List.map_cons, List.nodup_cons]
    refine ⟨fun h => ?_, t.nodup.sublist (List.filter_sublist.map key)⟩
    obtain ⟨r', hr', he⟩ := List.mem_map.mp h
    simp [he] at hr'

variable {t : Table key} {k : κ} {r : ρ}

theorem mem_upsert {r' : ρ} :
    r' ∈ (t.upsert r).rows ↔ r' = r ∨ r' ∈ t.rows ∧ key r' ≠ key r := by
  simp [upsert]

theorem mem_of_get (h : t.get k = some r) : r ∈ t.rows :=
  List.mem_of_find?_eq_some h

theorem key_of_get (h : t.get k = some r) : key r = k := by
  simpa using List.find?_some h

/-- A row is what its key looks up. -/
theorem get_of_mem (h : r ∈ t.rows) : t.get (key r) = some r := by
  cases hg : t.get (key r) with
  | none =>
    have := List.find?_eq_none.mp hg r h
    simp at this
  | some =>
    have := List.inj_on_of_nodup_map t.nodup (mem_of_get hg) h (key_of_get hg)
    rw [this]

theorem isSome_get (h : k ∈ t.rows.map key) : (t.get k).isSome = true := by
  obtain ⟨r, hr, rfl⟩ := List.mem_map.mp h
  rw [get_of_mem hr]
  rfl

/-- An update acts on each row by itself. -/
theorem get_update (t : Table key) (p : ρ → Bool) (f : ρ → ρ) (hf : ∀ r, key (f r) = key r) (k : κ) :
    (t.update p f hf).get k = (t.get k).map fun r => if p r then f r else r := by
  have hkey : ∀ r, key (if p r then f r else r) = key r := fun r => by
    by_cases h : p r <;> simp [h, hf]
  simp only [get, update, List.find?_map, Function.comp_def, hkey]

/-- An update of the row with key `k₀`. -/
theorem get_update_key (t : Table key) (k₀ : κ) (f : ρ → ρ) (hf : ∀ r, key (f r) = key r) (k : κ) :
    (t.update (fun r => decide (key r = k₀)) f hf).get k = if k = k₀ then (t.get k).map f else t.get k := by
  rw [get_update]
  cases hg : t.get k with
  | none => simp
  | some =>
    have hr := key_of_get hg
    by_cases hk : k = k₀ <;> simp [hr, hk]

theorem get_append (t : Table key) (rs : List ρ) (h : ((t.rows ++ rs).map key).Nodup) (k : κ) :
    (t.append rs h).get k = (t.get k).or (rs.find? fun r => decide (key r = k)) :=
  List.find?_append

theorem get_upsert (t : Table key) (r : ρ) (k : κ) :
    (t.upsert r).get k = if k = key r then some r else t.get k := by
  simp only [get, upsert, List.find?_cons]
  by_cases hk : key r = k
  · simp [hk]
  · rw [if_neg (Ne.symm hk)]
    simp only [hk, decide_false]
    rw [List.find?_filter]
    congr 1
    funext r'
    by_cases h' : key r' = k <;> simp [h', Ne.symm hk]

theorem get_map {σ : Type*} {key' : σ → κ} (t : Table key) (f : ρ → σ) (hf : ∀ r, key' (f r) = key r) (k : κ) :
    (t.map f hf).get k = (t.get k).map f := by
  simp only [get, map, List.find?_map, Function.comp_def, hf]

/-- A row that is not selected for deletion stays. -/
theorem get_delete (t : Table key) (p : ρ → Bool) (k : κ) :
    (t.delete p).get k = (t.get k).filter fun r => !p r := by
  cases hg : t.get k with
  | none =>
    refine List.find?_eq_none.mpr fun r hr => ?_
    exact List.find?_eq_none.mp hg r (List.mem_of_mem_filter hr)
  | some r =>
    by_cases hp : p r = true
    · rw [Option.filter_some_neg (by simpa using hp)]
      refine List.find?_eq_none.mpr fun r' hr' hk => ?_
      have hk' : key r' = k := by simpa using hk
      obtain ⟨hm, hn⟩ := List.mem_filter.mp hr'
      rw [← hk', get_of_mem hm] at hg
      obtain rfl := Option.some.inj hg
      simp [hp] at hn
    · have hm : r ∈ (t.delete p).rows := List.mem_filter.mpr ⟨mem_of_get hg, by simpa using hp⟩
      have := get_of_mem hm
      rw [key_of_get hg] at this
      rw [this, Option.filter_some_pos (by simpa using hp)]

end Get

end Table
