import Mathlib.Data.List.Nodup
import Mathlib.Logic.Function.Basic

/-! Circular doubly linked lists in a heap of pointers. `Seg` follows the links from one
node to another and names the nodes between them; a ring is a segment from its anchor back
to itself. -/
namespace Lib
variable {N : Type*}

/-- The two pointer fields of every node; `none` is a null pointer. -/
@[ext] structure Links (N : Type*) where
  next : N → Option N
  prev : N → Option N

namespace Links

section Update
variable [DecidableEq N]

def setNext (k : Links N) (x : N) (v : Option N) : Links N :=
  { k with next := Function.update k.next x v }

def setPrev (k : Links N) (x : N) (v : Option N) : Links N :=
  { k with prev := Function.update k.prev x v }

@[simp] theorem setNext_prev (k : Links N) (x : N) (v : Option N) :
    (k.setNext x v).prev = k.prev := rfl

@[simp] theorem setPrev_next (k : Links N) (x : N) (v : Option N) :
    (k.setPrev x v).next = k.next := rfl

theorem setNext_next (k : Links N) (x y : N) (v : Option N) :
    (k.setNext x v).next y = if y = x then v else k.next y := by
  simp [setNext, Function.update_apply]

theorem setPrev_prev (k : Links N) (x y : N) (v : Option N) :
    (k.setPrev x v).prev y = if y = x then v else k.prev y := by
  simp [setPrev, Function.update_apply]

end Update

/-- Two nodes that point at each other. -/
def Link (k : Links N) (x y : N) : Prop := k.next x = some y ∧ k.prev y = some x

/-- The nodes `xs` lie, in this order, between `a` and `b`. -/
def Seg (k : Links N) : N → List N → N → Prop
  | a, [], b => k.Link a b
  | a, x :: xs, b => k.Link a x ∧ k.Seg x xs b

variable {k k' : Links N}

theorem seg_append_cons (a y b : N) (xs ys : List N) :
    k.Seg a (xs ++ y :: ys) b ↔ k.Seg a xs y ∧ k.Seg y ys b := by
  induction xs generalizing a with
  | nil => rfl
  | cons x xs ih => simp only [List.cons_append, Seg, ih, and_assoc]

/-- A segment reads the forward links of its first nodes and the backward links of its last. -/
theorem Seg.congr {a b : N} {xs : List N} (h : k.Seg a xs b)
    (hn : ∀ x ∈ a :: xs, k'.next x = k.next x) (hp : ∀ x ∈ xs ++ [b], k'.prev x = k.prev x) :
    k'.Seg a xs b := by
  induction xs generalizing a with
  | nil =>
    have h₁ := hn a (by simp)
    have h₂ := hp b (by simp)
    exact ⟨h₁.trans h.1, h₂.trans h.2⟩
  | cons x xs ih =>
    obtain ⟨hl, hs⟩ := h
    have h₁ := hn a (by simp)
    have h₂ := hp x (by simp)
    exact ⟨⟨h₁.trans hl.1, h₂.trans hl.2⟩,
      ih hs (fun z hz => hn z (List.mem_cons_of_mem _ hz)) (fun z hz => hp z (by simp_all))⟩

/-- A ring is not disturbed by changes to other nodes. -/
theorem Seg.congr_ring {l : N} {xs : List N} (h : k.Seg l xs l)
    (hk : ∀ x ∈ l :: xs, k'.next x = k.next x ∧ k'.prev x = k.prev x) : k'.Seg l xs l := by
  refine h.congr (fun x hx => (hk x hx).1) (fun x hx => (hk x ?_).2)
  simpa [or_comm] using hx

theorem Seg.first {a b : N} {xs : List N} (h : k.Seg a xs b) : k.Link a (xs.headD b) := by
  cases xs with
  | nil => exact h
  | cons x xs => exact h.1

theorem Seg.last {a b : N} {xs : List N} (h : k.Seg a xs b) : k.Link (xs.getLastD a) b := by
  rcases List.eq_nil_or_concat' xs with rfl | ⟨init, x, rfl⟩
  · exact h
  · have := ((seg_append_cons a x b init []).mp h).2
    simpa [Seg] using this

/-- Splicing a node out of a ring: its neighbours are joined, nothing else changes. -/
theorem Seg.unlink {l y : N} {xs ys : List N} (h : k.Seg l (xs ++ y :: ys) l)
    (hd : (l :: (xs ++ y :: ys)).Nodup)
    (hj : k'.Link (xs.getLastD l) (ys.headD l))
    (hn : ∀ x, x ≠ xs.getLastD l → x ≠ y → k'.next x = k.next x)
    (hp : ∀ x, x ≠ ys.headD l → x ≠ y → k'.prev x = k.prev x) :
    k'.Seg l (xs ++ ys) l := by
  obtain ⟨hx, hy⟩ := (seg_append_cons l y l xs ys).mp h
  rcases List.eq_nil_or_concat' xs with rfl | ⟨xs, p, rfl⟩
  · cases ys with
    | nil => exact hj
    | cons q ys =>
      refine ⟨hj, hy.2.congr (fun z hz => hn z ?_ ?_) (fun z hz => hp z ?_ ?_)⟩ <;>
        (rintro rfl; simp_all)
  · have hlast : (xs ++ [p]).getLastD l = p := by simp
    rw [hlast] at hj hn
    simp only [List.append_assoc, List.cons_append, List.nil_append, List.nodup_cons,
      List.nodup_append, List.mem_append, List.mem_cons, not_or] at hd
    have hA : k'.Seg l xs p := by
      have hxs := ((seg_append_cons l p y xs []).mp hx).1
      refine hxs.congr (fun z hz => hn z ?_ ?_) (fun z hz => hp z ?_ ?_) <;>
        cases ys <;> grind
    rw [List.append_assoc, List.cons_append, List.nil_append, seg_append_cons]
    cases ys with
    | nil => exact ⟨hA, hj⟩
    | cons q ys =>
      refine ⟨hA, hj, hy.2.congr (fun z hz => hn z ?_ ?_) (fun z hz => hp z ?_ ?_)⟩ <;> grind

/-- Splicing a new node in right after the anchor. -/
theorem Seg.push {l y : N} {xs : List N} (h : k.Seg l xs l) (hd : (l :: xs).Nodup)
    (hy : y ∉ l :: xs) (h₁ : k'.Link l y) (h₂ : k'.Link y (xs.headD l))
    (hn : ∀ x, x ≠ l → x ≠ y → k'.next x = k.next x)
    (hp : ∀ x, x ≠ xs.headD l → x ≠ y → k'.prev x = k.prev x) :
    k'.Seg l (y :: xs) l := by
  cases xs with
  | nil => exact ⟨h₁, h₂⟩
  | cons q xs =>
    refine ⟨h₁, h₂, h.2.congr (fun z hz => hn z ?_ ?_) (fun z hz => hp z ?_ ?_)⟩ <;>
      (rintro rfl; simp_all)

end Links
end Lib
