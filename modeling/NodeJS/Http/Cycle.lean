import NodeJS.Http.HangUp

/-! Where `_cycle` puts the requests of an agent: none is lost, and which sockets it takes. -/
namespace NodeJS.Agent
open Lib Desk
variable {s s' : State} {r c : ℕ}

theorem kept_of_reach {n : ℕ} {ok : State → Action → Prop}
    (h : Reach State.step ok (State.new n) s) : Kept s :=
  h.invariant (kept_new n) fun _ _ _ hk _ hs => hk.step hs

theorem maxSockets_of_reach {n : ℕ} {ok : State → Action → Prop}
    (h : Reach State.step ok (State.new n) s) : s.maxSockets = n := by
  have hinv : Kept s ∧ s.maxSockets = n := by
    refine h.invariant (P := fun s => Kept s ∧ s.maxSockets = n) ⟨kept_new n, rfl⟩ ?_
    intro s a s' hk _ hs
    obtain ⟨m, hd, _, _⟩ := step_does hk.1.linked hk.1.told.blamed hs
    exact ⟨hk.1.step hs, hd.maxSockets.trans hk.2⟩
  exact hinv.2

/-! ### No request is lost -/

theorem homed_of_reach {n : ℕ} (h : Reach State.step Safe (State.new n) s) : Homed s := by
  have hinv : Kept s ∧ Drained s ∧ Homed s := by
    refine h.invariant (P := fun s => Kept s ∧ Drained s ∧ Homed s) ?_ ?_
    · exact ⟨kept_new n, nofun, nofun⟩
    · intro s a s' ⟨hkept, hdrained, hhomed⟩ hsafe hs
      obtain ⟨m, hd, hspares, htake⟩ := step_does hkept.linked hkept.told.blamed hs
      exact ⟨hkept.step hs, hdrained.does hd (htake hsafe), hhomed.does hd (hspares hsafe hdrained)⟩
  exact hinv.2.2

/-- How often a request stands in the queue, and how many sockets of the agent carry it. -/
def State.places (s : State) (r : ℕ) : ℕ :=
  s.queue.count r + s.sockets.countP fun c => (s.socket c).httpMessage = some r

/-- The sockets of an agent never exceed `maxSockets`, and in a run whose every step is safe a
request without outcome is in exactly one place. -/
theorem places_of_reach_safe (n : ℕ) :
    (∀ s, Reach State.step (fun _ _ => True) (State.new n) s → s.sockets.length ≤ n) ∧
      ∀ s, Reach State.step Safe (State.new n) s →
        ∀ r < s.requests, ¬ s.Settled r → s.places r = 1 := by
  constructor
  · intro s h
    rw [← maxSockets_of_reach h]
    exact (kept_of_reach h).linked.size
  · intro s h r hr hsettled
    exact (kept_of_reach h).linked.proper.places_eq_one (homed_of_reach h r hr hsettled)

theorem places_of_reach_safe_assigned : ∃ s, Reach State.step Safe (State.new 1) s ∧
    (s.socket 0).httpMessage = some 0 ∧ s.sockets.length ≤ 1 ∧ s.places 0 = 1 := by
  let s₁ := (State.new 1).appendMessage
  let s₂ := { s₁ with stack := [] }.cycle none
  let s₃ := { s₂ with stack := [.established 0] }.cycle none
  have hsafe₁ : Safe s₁ (.cycle none) := fun _ c hc => by cases hc
  have hsafe₂ : Safe s₂ (.cycle none) := by
    intro _ c _ hleaving
    obtain ⟨f, hf, hrem⟩ := hleaving
    have hstack : s₂.stack = [.cycle, .established 0] := rfl
    simp only [hstack, List.mem_cons, List.not_mem_nil, or_false] at hf
    rcases hf with rfl | rfl
    all_goals cases hrem
  have h₁ : Reach State.step Safe (State.new 1) s₁ :=
    .single ⟨.call .appendMessage, trivial, rfl⟩
  have h₂ : Reach State.step Safe (State.new 1) s₂ := h₁.tail ⟨.cycle none, hsafe₁, rfl⟩
  have h₃ : Reach State.step Safe (State.new 1) s₃ := h₂.tail ⟨.cycle none, hsafe₂, rfl⟩
  have hany : Reach State.step (fun _ _ => True) (State.new 1) s₃ :=
    h₃.mono fun _ _ _ => trivial
  have hsettled : ¬ s₃.Settled 0 := by
    have hevents : s₃.events = [] := rfl
    simp [State.Settled, hevents]
  have hplaces := places_of_reach_safe 1
  exact ⟨s₃, h₃, rfl, hplaces.1 s₃ hany, hplaces.2 s₃ h₃ 0 Nat.one_pos hsettled⟩

/-- A second `abort` of a request that waits removes the last request of the queue. -/
theorem abort_loses : ¬ ∀ n s, Reach State.step (fun _ _ => True) (State.new n) s →
    ∀ r < s.requests, ¬ s.Settled r → s.places r = 1 := by
  intro h
  let as : List Action := [.call .appendMessage, .cycle none, .cycle none, .returns, .cycle none,
    .resume, .call .appendMessage, .cycle none, .call .appendMessage, .cycle none,
    .call (.abort 1), .call (.abort 1)]
  have hrun : (run State.step (State.new 1) as).map (fun s => (s.requests, s.events, s.places 2)) =
      some (3, [.abort 1, .abort 1], 0) := by decide +kernel
  obtain ⟨s, hs, hs'⟩ := Option.map_eq_some_iff.mp hrun
  obtain ⟨hrequests, hs'⟩ := Prod.mk.inj hs'
  obtain ⟨hevents, hplaces⟩ := Prod.mk.inj hs'
  have hsettled : ¬ s.Settled 2 := by
    unfold State.Settled
    simp [hevents]
  have hone := h 1 s (reach_of_run hs fun _ _ => trivial) 2 (by omega) hsettled
  omega

end NodeJS.Agent
