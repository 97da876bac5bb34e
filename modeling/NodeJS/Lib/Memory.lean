import Mathlib.Data.List.GetD
import Mathlib.Data.List.Range
import Mathlib.Logic.Function.Basic

/-! Memory made of blocks, each a function of the address, and what stores to one of them leave as
it was. -/
namespace Lib

abbrev Memory (ι β : Type*) := ι → ℕ → β

namespace Memory
variable {ι β : Type*}

def read (m : Memory ι β) (block : ι) (start len : ℕ) : List β :=
  (List.range' start len).map (m block)

@[simp] theorem length_read (m : Memory ι β) (block : ι) (start len : ℕ) :
    (m.read block start len).length = len := by simp [read]

theorem getElem_read (m : Memory ι β) {block : ι} {start len i : ℕ}
    (h : i < (m.read block start len).length) :
    (m.read block start len)[i] = m block (start + i) := by simp [read]

section
variable [DecidableEq ι] (m : Memory ι β) (block : ι) (start : ℕ) (values : List β)

def store : Memory ι β := Function.update m block fun i =>
  if start ≤ i then values.getD (i - start) (m block i) else m block i

theorem store_other {id : ι} (h : id ≠ block) (i : ℕ) :
    m.store block start values id i = m id i := by
  rw [store, Function.update_of_ne h]

theorem store_inside {i : ℕ} (h : i < values.length) :
    m.store block start values block (start + i) = values[i] := by
  rw [store, Function.update_self, if_pos (Nat.le_add_right _ _), Nat.add_sub_cancel_left,
    List.getD_eq_getElem _ _ h]

theorem store_outside {i : ℕ} (h : i < start ∨ start + values.length ≤ i) :
    m.store block start values block i = m block i := by
  rw [store, Function.update_self]
  split_ifs with hi
  · exact List.getD_eq_default _ _ (by omega)
  · rfl

theorem store_nil : m.store block start [] = m := by
  funext id i
  by_cases h : id = block
  · rw [h]
    exact store_outside m block start [] (by simp; omega)
  · exact store_other m block start [] h i

/-- A store leaves alone what it does not reach. -/
theorem read_store_apart {block' : ι} {start' len : ℕ}
    (h : ∀ i, block' = block → start' ≤ i → i < start' + len →
      i < start ∨ start + values.length ≤ i) :
    (m.store block start values).read block' start' len = m.read block' start' len := by
  refine List.map_congr_left fun i hi => ?_
  obtain ⟨hlo, hhi⟩ := List.mem_range'_1.mp hi
  by_cases hblock : block' = block
  · rw [hblock]
    exact store_outside m block start values (h i hblock hlo hhi)
  · exact store_other m block start values hblock i

/-- What was stored is what is read. -/
theorem read_store : (m.store block start values).read block start values.length = values := by
  refine List.ext_getElem (length_read _ _ _ _) fun i hi hi' => ?_
  rw [getElem_read, store_inside m block start values hi']

end

end Memory
end Lib
