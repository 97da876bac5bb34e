import NodeJS.Lib.Ring

/-! `_linklist.js`: the list operations, as assignments to the pointer fields `_idleNext` and
`_idlePrev`, and what they do to a ring. -/
namespace NodeJS.LinkList
open Lib
variable {N : Type*} [DecidableEq N]

def init (k : Links N) (list : N) : Links N :=
  (k.setNext list (some list)).setPrev list (some list)

def peek (k : Links N) (list : N) : Option N :=
  if k.prev list = some list then none else k.prev list

def remove (k : Links N) (item : N) : Links N :=
  let k := match k.next item with
    | some n => k.setPrev n (k.prev item)
    | none => k
  let k := match k.prev item with
    | some p => k.setNext p (k.next item)
    | none => k
  (k.setNext item none).setPrev item none

def append (k : Links N) (list item : N) : Links N :=
  let k := remove k item
  let k := k.setNext item (k.next list)
  let k := match k.next list with
    | some n => k.setPrev n (some item)
    | none => k
  let k := k.setPrev item (some list)
  k.setNext list (some item)

def isEmpty (k : Links N) (list : N) : Bool := k.next list = some list

variable {k : Links N}

@[simp] theorem remove_next_self (k : Links N) (x : N) : (remove k x).next x = none := by
  simp [remove, Links.setNext_next]

@[simp] theorem remove_prev_self (k : Links N) (x : N) : (remove k x).prev x = none := by
  simp [remove, Links.setPrev_prev]

/-- A node on its own, null or linked to itself: nothing but its own fields is touched. -/
theorem remove_loose {x : N} (h : (k.next x = none ∧ k.prev x = none) ∨ k.Link x x) :
    remove k x = (k.setNext x none).setPrev x none := by
  rcases h with ⟨hn, hp⟩ | ⟨hn, hp⟩
  · simp [remove, hn, hp]
  · ext y z
    · simp only [remove, hn, hp, Links.setPrev_next, Links.setPrev_prev, if_true,
        Links.setNext_next]
      split_ifs <;> simp_all
    · simp only [remove, hn, hp, Links.setPrev_next, Links.setNext_prev, Links.setPrev_prev,
        if_true]
      split_ifs <;> simp_all

theorem remove_linked {x n p : N} (hn : k.next x = some n) (hp : k.prev x = some p)
    (hxn : x ≠ n) :
    (∀ y, (remove k x).next y = if y = x then none else if y = p then some n else k.next y) ∧
    (∀ y, (remove k x).prev y = if y = x then none else if y = n then some p else k.prev y) := by
  constructor <;> intro y <;>
    simp [remove, hn, hp, hxn, Links.setNext_next, Links.setPrev_prev]

/-- Removing a member of a ring takes it, and only it, out of the ring. -/
theorem remove_ring {l y : N} {xs ys : List N} (h : k.Seg l (xs ++ y :: ys) l)
    (hd : (l :: (xs ++ y :: ys)).Nodup) : (remove k y).Seg l (xs ++ ys) l := by
  obtain ⟨hx, hy⟩ := (Links.seg_append_cons l y l xs ys).mp h
  have hly : y ≠ l := by rintro rfl; simp at hd
  have hn : y ≠ ys.headD l := by
    cases ys with
    | nil => exact hly
    | cons q ys => rintro rfl; simp [List.nodup_append] at hd
  have hp : y ≠ xs.getLastD l := by
    rcases List.eq_nil_or_concat' xs with rfl | ⟨xs, p, rfl⟩
    · exact hly
    · rintro rfl; simp [List.nodup_append] at hd
  obtain ⟨hnext, hprev⟩ := remove_linked hy.first.1 hx.last.2 hn
  refine h.unlink hd ⟨?_, ?_⟩ (fun z hz hzy => ?_) (fun z hz hzy => ?_)
  · rw [hnext, if_neg hp.symm, if_pos rfl]
  · rw [hprev, if_neg hn.symm, if_pos rfl]
  · rw [hnext, if_neg hzy, if_neg hz]
  · rw [hprev, if_neg hzy, if_neg hz]

/-- Outside the ring the node is removed from, no pointer changes. -/
theorem remove_ring_frame {l y z : N} {xs ys : List N} (h : k.Seg l (xs ++ y :: ys) l)
    (hd : (l :: (xs ++ y :: ys)).Nodup) (hz : z ∉ l :: (xs ++ y :: ys)) :
    (remove k y).next z = k.next z ∧ (remove k y).prev z = k.prev z := by
  obtain ⟨hx, hy⟩ := (Links.seg_append_cons l y l xs ys).mp h
  have hly : y ≠ l := by rintro rfl; simp at hd
  have hn : y ≠ ys.headD l ∧ z ≠ ys.headD l := by
    cases ys with
    | nil => exact ⟨hly, by rintro rfl; simp at hz⟩
    | cons q ys =>
      exact ⟨by rintro rfl; simp [List.nodup_append] at hd, by rintro rfl; simp at hz⟩
  have hp : z ≠ xs.getLastD l := by
    rcases List.eq_nil_or_concat' xs with rfl | ⟨xs, p, rfl⟩
    · rintro rfl; simp at hz
    · rintro rfl; simp at hz
  have hzy : z ≠ y := by rintro rfl; simp at hz
  obtain ⟨hnext, hprev⟩ := remove_linked hy.first.1 hx.last.2 hn.1
  rw [hnext, hprev, if_neg hzy, if_neg hzy, if_neg hn.2, if_neg hp]
  exact ⟨rfl, rfl⟩

/-- `append` past its `remove`, on a list whose forward pointer is `n`. -/
theorem append_fields {l x n : N} (hn : (remove k x).next l = some n) (hlx : l ≠ x) :
    (∀ y, (append k l x).next y =
      if y = l then some x else if y = x then some n else (remove k x).next y) ∧
    (∀ y, (append k l x).prev y =
      if y = x then some l else if y = n then some x else (remove k x).prev y) := by
  constructor <;> intro y
  · simp [append, hn, hlx, Links.setNext_next]
  · simp [append, hn, hlx, Links.setNext_next, Links.setPrev_prev]

/-- Appending puts the node right after the anchor of the ring. -/
theorem append_ring {l x : N} {xs : List N} (h : (remove k x).Seg l xs l)
    (hd : (l :: xs).Nodup) (hx : x ∉ l :: xs) :
    (append k l x).Seg l (x :: xs) l := by
  have hlx : l ≠ x := by rintro rfl; simp at hx
  have hnx : xs.headD l ≠ x := by
    cases xs with
    | nil => exact hlx
    | cons q xs => rintro rfl; simp at hx
  obtain ⟨hnext, hprev⟩ := append_fields h.first.1 hlx
  refine h.push hd hx ⟨?_, ?_⟩ ⟨?_, ?_⟩ (fun z hz hzx => ?_) (fun z hz hzx => ?_)
  · rw [hnext, if_pos rfl]
  · rw [hprev, if_pos rfl]
  · rw [hnext, if_neg hlx.symm, if_pos rfl]
  · rw [hprev, if_neg hnx, if_pos rfl]
  · rw [hnext, if_neg hz, if_neg hzx]
  · rw [hprev, if_neg hzx, if_neg hz]

theorem append_ring_frame {l x z : N} {xs : List N} (h : (remove k x).Seg l xs l)
    (hx : x ∉ l :: xs) (hz : z ∉ l :: x :: xs) :
    (append k l x).next z = (remove k x).next z ∧ (append k l x).prev z = (remove k x).prev z := by
  have hlx : l ≠ x := by rintro rfl; simp at hx
  have hzn : z ≠ xs.headD l := by
    cases xs <;> (rintro rfl; simp at hz)
  have hzl : z ≠ l := by rintro rfl; simp at hz
  have hzx : z ≠ x := by rintro rfl; simp at hz
  obtain ⟨hnext, hprev⟩ := append_fields h.first.1 hlx
  rw [hnext, hprev, if_neg hzl, if_neg hzx, if_neg hzx, if_neg hzn]
  exact ⟨rfl, rfl⟩

/-- `peek` shows the node before the anchor, the one appended first. -/
theorem peek_ring {l : N} {xs : List N} (h : k.Seg l xs l) (hl : l ∉ xs) :
    peek k l = xs.getLast? := by
  have hlast := h.last.2
  rcases List.eq_nil_or_concat' xs with rfl | ⟨xs, p, rfl⟩
  · simp [peek, show k.prev l = some l from hlast]
  · have hpl : p ≠ l := by rintro rfl; simp at hl
    rw [List.getLastD_concat] at hlast
    simp [peek, hlast, hpl]

theorem isEmpty_ring {l : N} {xs : List N} (h : k.Seg l xs l) (hl : l ∉ xs) :
    isEmpty k l = true ↔ xs = [] := by
  have hfirst := h.first.1
  cases xs with
  | nil => simp [isEmpty, show k.next l = some l from hfirst]
  | cons q xs =>
    have hql : q ≠ l := by rintro rfl; simp at hl
    simp [isEmpty, show k.next l = some q from hfirst, hql]

end NodeJS.LinkList
