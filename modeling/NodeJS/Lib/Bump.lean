import Mathlib.Logic.Function.Basic
import Mathlib.Tactic.Common
import Mathlib.Order.Lattice

/-! Bump allocation in any number of arenas: each has a mark, regions are taken from the mark
on, and the mark never moves back. -/
namespace Lib

structure Region (ι : Type*) where
  arena : ι
  start : ℤ
  size : ℤ
  deriving DecidableEq

variable {ι : Type*}

/-- Byte `i` of arena `a` is in the region. -/
def Region.Has (r : Region ι) (a : ι) (i : ℤ) : Prop :=
  r.arena = a ∧ r.start ≤ i ∧ i < r.start + r.size

def Region.Disjoint (r s : Region ι) : Prop := ∀ a i, ¬ (r.Has a i ∧ s.Has a i)

/-- Every region lies below the mark of its arena, and no byte belongs to two. -/
structure Packed (mark : ι → ℤ) (rs : List (Region ι)) : Prop where
  start_nonneg : ∀ r ∈ rs, 0 ≤ r.start
  below : ∀ r ∈ rs, r.start + r.size ≤ mark r.arena
  disjoint : rs.Pairwise Region.Disjoint

namespace Packed
variable {mark mark' : ι → ℤ} {rs : List (Region ι)}

theorem nil : Packed mark ([] : List (Region ι)) :=
  ⟨by simp, by simp, List.Pairwise.nil⟩

/-- Marks may move forward. -/
theorem advance (h : Packed mark rs) (hm : ∀ a, mark a ≤ mark' a) : Packed mark' rs where
  start_nonneg := h.start_nonneg
  below := fun r hr => (h.below r hr).trans (hm r.arena)
  disjoint := h.disjoint

/-- A region that starts at the mark is apart from all there are. -/
theorem cons (h : Packed mark rs) {r : Region ι} (h0 : 0 ≤ r.start)
    (hstart : mark r.arena ≤ r.start) (hm : ∀ a, mark a ≤ mark' a)
    (hend : r.start + r.size ≤ mark' r.arena) : Packed mark' (r :: rs) where
  start_nonneg := by
    intro s hs
    rcases List.mem_cons.mp hs with rfl | hs
    · exact h0
    · exact h.start_nonneg s hs
  below := by
    intro s hs
    rcases List.mem_cons.mp hs with rfl | hs
    · exact hend
    · exact (h.advance hm).below s hs
  disjoint := by
    refine List.pairwise_cons.mpr ⟨?_, h.disjoint⟩
    rintro s hs a i ⟨⟨rfl, hlo, -⟩, ha, -, hhi⟩
    have hbelow := h.below s hs
    rw [ha] at hbelow
    omega

theorem perm {rs' : List (Region ι)} (h : Packed mark rs) (hp : rs.Perm rs') : Packed mark rs' where
  start_nonneg := fun r hr => h.start_nonneg r (hp.mem_iff.mpr hr)
  below := fun r hr => h.below r (hp.mem_iff.mpr hr)
  disjoint := (hp.pairwise_iff fun hrs a i hi => hrs a i hi.symm).mp h.disjoint

end Packed
end Lib
