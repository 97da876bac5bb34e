import Mathlib.Data.List.Nodup
import Mathlib.Logic.Function.Basic

/-! Jobs that wait in a line and workers that carry one job each: what a move does to the place
of a job. -/
namespace Lib

structure Desk (J W : Type*) where
  waiting : List J
  workers : List W
  load : W → Option J

namespace Desk
variable {J W : Type*}

/-- A job waits, or a worker carries it. -/
def Holds (d : Desk J W) (j : J) : Prop :=
  j ∈ d.waiting ∨ ∃ w ∈ d.workers, d.load w = some j

/-- No job is in two places. -/
structure Proper (d : Desk J W) : Prop where
  waiting : d.waiting.Nodup
  workers : d.workers.Nodup
  apart : ∀ j ∈ d.waiting, ∀ w, d.load w ≠ some j
  single : ∀ w w' j, d.load w = some j → d.load w' = some j → w = w'

inductive Move (J W : Type*) where
  | stay
  | enter (job : J)
  | drop (job : J)
  | hire (worker : W)
  | take (job : J) (worker : W)
  | free (worker : W)
  | dismiss (worker : W)

variable [DecidableEq J] [DecidableEq W] {d : Desk J W} {m : Move J W} {j : J} {w : W}

def move (d : Desk J W) : Move J W → Desk J W
  | .stay => d
  | .enter j => { d with waiting := d.waiting ++ [j] }
  | .drop j => { d with waiting := d.waiting.erase j }
  | .hire w => { d with workers := d.workers ++ [w] }
  | .take j w =>
    { d with waiting := d.waiting.erase j, load := Function.update d.load w (some j) }
  | .free w => { d with load := Function.update d.load w none }
  | .dismiss w => { d with workers := d.workers.erase w }

/-- What enters is new, and only an idle worker takes a job. -/
def Enabled (d : Desk J W) : Move J W → Prop
  | .enter j => j ∉ d.waiting ∧ ∀ w, d.load w ≠ some j
  | .hire w => w ∉ d.workers
  | .take j w => j ∈ d.waiting ∧ w ∈ d.workers ∧ d.load w = none
  | .stay | .drop _ | .free _ | .dismiss _ => True

/-- The move does not send `j` away. -/
def Spares (d : Desk J W) : Move J W → J → Prop
  | .drop i, j => i ≠ j
  | .free w, j | .dismiss w, j => d.load w ≠ some j
  | .stay, _ | .enter _, _ | .hire _, _ | .take _ _, _ => True

theorem waiting_move (h : j ∈ (d.move m).waiting) : j ∈ d.waiting ∨ m = .enter j := by
  cases m with
  | enter i =>
    rcases List.mem_append.mp h with h | h
    · exact .inl h
    · exact .inr (by rw [List.mem_singleton.mp h])
  | drop i => exact .inl (List.mem_of_mem_erase h)
  | take i w => exact .inl (List.mem_of_mem_erase h)
  | stay | hire | free | dismiss => exact .inl h

theorem workers_move (h : w ∈ (d.move m).workers) : w ∈ d.workers ∨ m = .hire w := by
  cases m with
  | hire v =>
    rcases List.mem_append.mp h with h | h
    · exact .inl h
    · exact .inr (by rw [List.mem_singleton.mp h])
  | dismiss v => exact .inl (List.mem_of_mem_erase h)
  | stay | enter | drop | take | free => exact .inl h

theorem load_move (h : (d.move m).load w = some j) : d.load w = some j ∨ m = .take j w := by
  cases m with
  | take i v =>
    have hload : Function.update d.load v (some i) w = some j := h
    by_cases hw : w = v
    · rw [hw, Function.update_self] at hload
      exact .inr (by rw [hw, Option.some.inj hload])
    · rw [Function.update_of_ne hw] at hload
      exact .inl hload
  | free v =>
    have hload : Function.update d.load v none w = some j := h
    by_cases hw : w = v
    · rw [hw, Function.update_self] at hload
      cases hload
    · rw [Function.update_of_ne hw] at hload
      exact .inl hload
  | stay | enter | drop | hire | dismiss => exact .inl h

theorem Proper.nodup_waiting_move (h : d.Proper) (he : d.Enabled m) :
    (d.move m).waiting.Nodup := by
  cases m with
  | enter j => exact List.nodup_append_comm.mp (List.nodup_cons.mpr ⟨he.1, h.waiting⟩)
  | drop j => exact h.waiting.erase j
  | take j w => exact h.waiting.erase j
  | stay | hire | free | dismiss => exact h.waiting

theorem Proper.nodup_workers_move (h : d.Proper) (he : d.Enabled m) :
    (d.move m).workers.Nodup := by
  cases m with
  | hire w => exact List.nodup_append_comm.mp (List.nodup_cons.mpr ⟨he, h.workers⟩)
  | dismiss w => exact h.workers.erase w
  | stay | enter | drop | take | free => exact h.workers

theorem Proper.move (h : d.Proper) (he : d.Enabled m) : (d.move m).Proper := by
  refine ⟨h.nodup_waiting_move he, h.nodup_workers_move he, ?_, ?_⟩
  · intro j hj w hw
    rcases waiting_move hj with hj' | rfl
    · rcases load_move hw with hw | rfl
      · exact h.apart j hj' w hw
      · exact h.waiting.not_mem_erase hj
    · exact he.2 w hw
  · intro w w' j hw hw'
    rcases load_move hw with hl | rfl
    · rcases load_move hw' with hl' | rfl
      · exact h.single w w' j hl hl'
      · exact absurd hl (h.apart j he.1 w)
    · rcases load_move hw' with hl' | heq
      · exact absurd hl' (h.apart j he.1 w')
      · cases heq
        rfl

/-- What a move spares keeps its place. -/
theorem Holds.move (h : d.Holds j) (he : d.Enabled m) (hm : d.Spares m j) :
    (d.move m).Holds j := by
  rcases h with h | ⟨v, hv, hl⟩
  · cases m with
    | enter i => exact .inl (List.mem_append_left _ h)
    | drop i => exact .inl ((List.mem_erase_of_ne (Ne.symm hm)).mpr h)
    | take i w =>
      by_cases hi : j = i
      · subst hi
        have hload : Function.update d.load w (some j) w = some j := Function.update_self ..
        exact .inr ⟨w, he.2.1, hload⟩
      · exact .inl ((List.mem_erase_of_ne hi).mpr h)
    | stay | hire | free | dismiss => exact .inl h
  · have hother : ∀ (w : W) (o : Option J), d.load w ≠ some j →
        Function.update d.load w o v = some j := by
      intro w o hw
      have hne : v ≠ w := fun heq => hw (heq ▸ hl)
      rw [Function.update_of_ne hne, hl]
    cases m with
    | hire w => exact .inr ⟨v, List.mem_append_left _ hv, hl⟩
    | take i w =>
      have hidle : d.load w ≠ some j := by
        rw [he.2.2]
        exact (Option.some_ne_none j).symm
      exact .inr ⟨v, hv, hother w _ hidle⟩
    | free w => exact .inr ⟨v, hv, hother w _ hm⟩
    | dismiss w =>
      have hne : v ≠ w := fun heq => hm (heq ▸ hl)
      exact .inr ⟨v, (List.mem_erase_of_ne hne).mpr hv, hl⟩
    | stay | enter | drop => exact .inr ⟨v, hv, hl⟩

theorem holds_enter : (d.move (.enter j)).Holds j :=
  .inl (List.mem_append_right _ (List.mem_singleton_self j))

/-- The places of `j`: how often it waits and how many workers carry it. -/
def places (d : Desk J W) (j : J) : ℕ :=
  d.waiting.count j + d.workers.countP fun w => d.load w = some j

/-- A job that has a place has one. -/
theorem Proper.places_eq_one (h : d.Proper) (hj : d.Holds j) : d.places j = 1 := by
  unfold places
  rcases hj with hj | ⟨v, hv, hl⟩
  · have hzero : d.workers.countP (fun w => d.load w = some j) = 0 := by
      rw [List.countP_eq_zero]
      intro w _
      simpa using h.apart j hj w
    rw [List.count_eq_one_of_mem h.waiting hj, hzero]
  · have hzero : d.waiting.count j = 0 :=
      List.count_eq_zero.mpr fun hw => h.apart j hw v hl
    have hsame : ∀ w ∈ d.workers, decide (d.load w = some j) = (w == v) := by
      intro w _
      by_cases hw : w = v
      · subst hw
        simp [hl]
      · have hne : d.load w ≠ some j := fun hlw => hw (h.single w v j hlw hl)
        simp [hw, hne]
    rw [hzero, List.countP_congr fun w hw => by rw [hsame w hw], Nat.zero_add]
    exact List.count_eq_one_of_mem h.workers hv

end Desk
end Lib
