import NodeJS.Stream.Pipe

/-! The count that all pipes into one destination share, through every order of events. -/
namespace NodeJS.Piping
open Lib

/-- It counts for the destination, and has not been cleaned up. -/
def Pipe.live (pipe : Pipe) : Bool := pipe.endOption && !pipe.cleanedUp

/-- The number of end-enabled pipes that are live. -/
def State.live (s : State) : ℕ := s.pipes.countP Pipe.live

/-- `dest.end()` or `dest.destroy()` -/
def Call.ends : Call → Bool
  | .end => true
  | .destroy => true
  | _ => false

/-- The destination is ended or destroyed once where the last live pipe goes, and not else. -/
def Called (s s' : State) : Prop :=
  s'.calls.countP Call.ends =
    s.calls.countP Call.ends + if 0 < s.live ∧ s'.live = 0 then 1 else 0

/-- Nothing that `pipe` added remains of a pipe that is cleaned up. -/
def Clean (s : State) : Prop :=
  ∀ p pipe, s.pipes[p]? = some pipe → pipe.cleanedUp = true →
    ∀ key part, Handler.pipe p part ∉ s.listeners key

structure Accounted (s s' : State) : Prop where
  count : s'.pipeCount = s'.live
  called : Called s s'
  clean : Clean s'

/-- The listener called next is not one that cleans up a live pipe without counting it. -/
def Spares (s : State) : Action → Prop
  | .call _ =>
    match s.stack with
    | ⟨key, .pipe p part :: _⟩ :: _ => part = .onerror ∨ part = .cleanup ∧ key.object = .dest →
      ∀ pipe, s.pipes[p]? = some pipe → pipe.live = false
    | _ => True
  | _ => True

def Ends (p : ℕ) (h : Handler) : Prop := h = .pipe p .onend ∨ h = .pipe p .onclose

/-- A function of a call of `pipe` that has been made. -/
def Known (s : State) (p : ℕ) (part : Part) : Prop :=
  ∃ pipe, s.pipes[p]? = some pipe ∧ (part = .onend ∨ part = .onclose → pipe.endOption = true)

/-- What holds as long as every live pipe was spared. On the stack the pipe `skip`, if there is
one, need not meet its ending before its `cleanup`. -/
structure Inv (skip : Option ℕ) (s : State) : Prop where
  known : ∀ key p part, Handler.pipe p part ∈ s.listeners key → Known s p part
  knownStack : ∀ f ∈ s.stack, ∀ p part, Handler.pipe p part ∈ f.rest → Known s p part
  once : ∀ (p : ℕ) (pipe : Pipe), s.pipes[p]? = some pipe → ∀ key part,
    (s.listeners key).count (.pipe p part) ≤ (removed p pipe.source).count (key, .pipe p part)
  clean : Clean s
  did : ∀ (p : ℕ) (pipe : Pipe), s.pipes[p]? = some pipe → pipe.endOption = true →
    pipe.didOnEnd = pipe.cleanedUp
  count : s.pipeCount = s.live
  before : ∀ (p : ℕ) (pipe : Pipe), s.pipes[p]? = some pipe → pipe.live = true → ∀ n event,
    Registry.Before (Ends p) (.pipe p .cleanup) (s.listeners ⟨.source n, event⟩)
  beforeStack : ∀ (p : ℕ) (pipe : Pipe), s.pipes[p]? = some pipe → pipe.live = true → skip ≠ some p →
    ∀ f ∈ s.stack, f.key.object ≠ .dest → Registry.Before (Ends p) (.pipe p .cleanup) f.rest

theorem inv_fresh : Inv none fresh where
  known _ _ _ h := absurd h List.not_mem_nil
  knownStack _ h := absurd h List.not_mem_nil
  once _ _ h := absurd h (by simp [fresh])
  clean _ _ h := absurd h (by simp [fresh])
  did _ _ h := absurd h (by simp [fresh])
  count := rfl
  before _ _ h := absurd h (by simp [fresh])
  beforeStack _ _ h := absurd h (by simp [fresh])

section
variable {s : State} {skip : Option ℕ}

theorem called_of_live {s' : State}
    (hcalls : s'.calls.countP Call.ends = s.calls.countP Call.ends) (hlive : s.live ≤ s'.live) :
    Called s s' := by
  unfold Called
  rw [hcalls, if_neg (by omega)]
  rfl

/-- Frames with nothing new to call. -/
theorem Inv.stack (hinv : Inv skip s) {stack : List Frame} (h : ∀ f ∈ stack, f ∈ s.stack) :
    Inv skip { s with stack := stack } :=
  ⟨hinv.known, fun f hf => hinv.knownStack f (h f hf), hinv.once, hinv.clean, hinv.did,
    hinv.count, hinv.before,
    fun p pipe hpipe hlive hskip f hf => hinv.beforeStack p pipe hpipe hlive hskip f (h f hf)⟩

theorem inv_emit (hinv : Inv none s) (key : Key) :
    Inv none { s with stack := ⟨key, s.listeners key⟩ :: s.stack } := by
  refine ⟨hinv.known, fun f hf => ?_, hinv.once, hinv.clean, hinv.did, hinv.count, hinv.before,
    fun p pipe hpipe hlive hskip f hf hdest => ?_⟩
  · rcases List.mem_cons.mp hf with rfl | hf
    · exact hinv.known key
    · exact hinv.knownStack f hf
  · rcases List.mem_cons.mp hf with rfl | hf
    · obtain ⟨object, event⟩ := key
      cases object with
      | dest => exact absurd rfl hdest
      | source n => exact hinv.before p pipe hpipe hlive n event
    · exact hinv.beforeStack p pipe hpipe hlive hskip f hf hdest

/-- Listeners that change in the program's own ones only. -/
theorem Inv.listeners (hinv : Inv skip s) {listeners : Key → List Handler}
    (hcount : ∀ key p part, (listeners key).count (.pipe p part) =
      (s.listeners key).count (.pipe p part))
    (hbefore : ∀ key p, Registry.Before (Ends p) (.pipe p .cleanup) (s.listeners key) →
      Registry.Before (Ends p) (.pipe p .cleanup) (listeners key)) :
    Inv skip { s with listeners := listeners } := by
  have hmem : ∀ key p part, Handler.pipe p part ∈ listeners key →
      Handler.pipe p part ∈ s.listeners key := fun key p part h => by
    rw [← List.count_pos_iff, ← hcount]
    exact List.count_pos_iff.mpr h
  refine ⟨fun key p part h => hinv.known key p part (hmem key p part h), hinv.knownStack,
    fun p pipe hpipe key part => ?_, fun p pipe hpipe hclean key part h => ?_, hinv.did,
    hinv.count, fun p pipe hpipe hlive n event => ?_, hinv.beforeStack⟩
  · rw [hcount]
    exact hinv.once p pipe hpipe key part
  · exact hinv.clean p pipe hpipe hclean key part (hmem key p part h)
  · exact hbefore _ p (hinv.before p pipe hpipe hlive n event)

theorem not_ends_user (p n : ℕ) : ¬ Ends p (.user n) := by simp [Ends]

theorem inv_on (hinv : Inv none s) (key : Key) (n : ℕ) :
    Inv none { s with listeners := Registry.on s.listeners (key, .user n) } := by
  refine hinv.listeners (fun key' p part => ?_) fun key' p h => ?_
  · rw [Registry.count_on, if_neg (by simp), Nat.add_zero]
  · unfold Registry.on
    by_cases hkey : key' = key
    · rw [hkey, Function.update_self, ← hkey]
      exact h.append (.of_not_mem (by simp))
    · rw [Function.update_of_ne hkey]
      exact h

theorem inv_removeListener (hinv : Inv none s) (key : Key) (n : ℕ) :
    Inv none { s with listeners := Registry.off s.listeners (key, .user n) } := by
  refine hinv.listeners (fun key' p part => ?_) fun key' p h => ?_
  · rw [Registry.count_off, if_neg (by simp), Nat.sub_zero]
  · exact Registry.before_off h (not_ends_user p n)

/-! ### A new pipe -/

theorem Known.lt {p : ℕ} {part : Part} (h : Known s p part) : p < s.pipes.length := by
  obtain ⟨pipe, hpipe, -⟩ := h
  exact (List.getElem?_eq_some_iff.mp hpipe).1

theorem mem_added {p source : ℕ} {endOption : Bool} {key : Key} {h : Handler}
    (hmem : (key, h) ∈ added p source endOption) :
    ∃ part, h = .pipe p part ∧ (part = .onend ∨ part = .onclose → endOption = true) := by
  cases endOption <;> simp [added, endings] at hmem <;> grind

/-- `cleanup` removes all that `pipe` adds. -/
theorem count_added_le (p source : ℕ) (endOption : Bool) (e : Key × Handler) :
    (added p source endOption).count e ≤ (removed p source).count e := by
  cases endOption <;>
    simp only [added, removed, endings, List.count_append, List.count_cons, List.count_nil] <;>
    grind

/-- On a source the endings of a pipe come before its `cleanup`. -/
theorem before_added (p source n : ℕ) (event : Event) :
    Registry.Before (Ends p) (.pipe p .cleanup)
      (((added p source true).filter fun e => e.1 = ⟨.source n, event⟩).map Prod.snd) := by
  by_cases hn : source = n
  · subst hn
    cases event <;> simp [added, endings, Registry.Before, Ends]
  · simp [added, endings, Registry.Before, hn]

theorem count_added_ne {p p' : ℕ} (hp : p' ≠ p) (source : ℕ) (endOption : Bool) (key : Key)
    (part : Part) : (added p source endOption).count (key, .pipe p' part) = 0 := by
  refine List.count_eq_zero_of_not_mem fun hmem => ?_
  obtain ⟨part', heq, -⟩ := mem_added hmem
  injection heq with heq
  exact hp heq

theorem pipes_pipe {source : ℕ} {endOption : Bool} {p : ℕ} {pipe' : Pipe}
    (h : (pipe s source endOption).pipes[p]? = some pipe') :
    s.pipes[p]? = some pipe' ∧ p ≠ s.pipes.length ∨
      p = s.pipes.length ∧ pipe' = ⟨source, endOption, false, false⟩ := by
  unfold pipe at h
  dsimp only at h
  rcases Nat.lt_trichotomy p s.pipes.length with hlt | rfl | hgt
  · rw [List.getElem?_append_left hlt] at h
    exact .inl ⟨h, Nat.ne_of_lt hlt⟩
  · rw [List.getElem?_concat_length] at h
    exact .inr ⟨rfl, (Option.some.inj h).symm⟩
  · have hlength := (List.getElem?_eq_some_iff.mp h).1
    rw [List.length_append, List.length_singleton] at hlength
    omega

theorem Known.pipe {p : ℕ} {part : Part} (h : Known s p part) (source : ℕ) (endOption : Bool) :
    Known (pipe s source endOption) p part := by
  obtain ⟨pipe', hpipe, hend⟩ := h
  have hlt := (List.getElem?_eq_some_iff.mp hpipe).1
  exact ⟨pipe', (List.getElem?_append_left hlt).trans hpipe, hend⟩

theorem live_pipe (source : ℕ) (endOption : Bool) :
    (pipe s source endOption).live = s.live + if endOption = true then 1 else 0 := by
  unfold State.live pipe
  rw [List.countP_append, List.countP_singleton]
  simp [Pipe.live]

theorem inv_pipe (hinv : Inv none s) (source : ℕ) (endOption : Bool) :
    Inv none (pipe s source endOption) := by
  have hfresh : ∀ key part, Handler.pipe s.pipes.length part ∉ s.listeners key :=
    fun key part h => Nat.lt_irrefl _ (hinv.known key _ part h).lt
  have hlisteners : ∀ key, (pipe s source endOption).listeners key = s.listeners key ++
      ((added s.pipes.length source endOption).filter fun e => e.1 = key).map Prod.snd :=
    fun key => Registry.onAll_apply _ _ key
  have hmem : ∀ key p part, Handler.pipe p part ∈ (pipe s source endOption).listeners key →
      Handler.pipe p part ∈ s.listeners key ∨
        p = s.pipes.length ∧ (part = .onend ∨ part = .onclose → endOption = true) := by
    intro key p part h
    rw [hlisteners] at h
    refine (List.mem_append.mp h).imp id fun h => ?_
    obtain ⟨⟨key', h'⟩, hfilter, heq⟩ := List.mem_map.mp h
    obtain ⟨part', hpart, hend⟩ := mem_added (List.mem_filter.mp hfilter).1
    obtain ⟨rfl, rfl⟩ := Handler.pipe.inj (heq.symm.trans hpart)
    exact ⟨rfl, hend⟩
  constructor
  · intro key p part h
    rcases hmem key p part h with h | ⟨rfl, hend⟩
    · exact (hinv.known key p part h).pipe source endOption
    · exact ⟨_, List.getElem?_concat_length, hend⟩
  · exact fun f hf p part h => (hinv.knownStack f hf p part h).pipe source endOption
  · intro p pipe' hpipe key part
    have hcount := Registry.count_onAll s.listeners (added s.pipes.length source endOption) key
      (.pipe p part)
    rcases pipes_pipe hpipe with ⟨hpipe, hne⟩ | ⟨rfl, rfl⟩
    · rw [count_added_ne hne, Nat.add_zero] at hcount
      exact Nat.le_trans (Nat.le_of_eq hcount) (hinv.once p pipe' hpipe key part)
    · rw [List.count_eq_zero_of_not_mem (hfresh key part), Nat.zero_add] at hcount
      exact Nat.le_trans (Nat.le_of_eq hcount) (count_added_le _ _ _ _)
  · intro p pipe' hpipe hclean key part h
    rcases pipes_pipe hpipe with ⟨hpipe, hne⟩ | ⟨rfl, rfl⟩
    · rcases hmem key p part h with h | ⟨heq, -⟩
      · exact hinv.clean p pipe' hpipe hclean key part h
      · exact hne heq
    · exact Bool.false_ne_true hclean
  · intro p pipe' hpipe hend
    rcases pipes_pipe hpipe with ⟨hpipe, -⟩ | ⟨rfl, rfl⟩
    · exact hinv.did p pipe' hpipe hend
    · rfl
  · rw [live_pipe]
    unfold pipe
    dsimp only
    rw [hinv.count]
    split_ifs <;> push_cast <;> omega
  · intro p pipe' hpipe hlive n event
    rw [hlisteners]
    rcases pipes_pipe hpipe with ⟨hpipe, hne⟩ | ⟨rfl, rfl⟩
    · refine (hinv.before p pipe' hpipe hlive n event).append (.of_not_mem fun h => ?_)
      obtain ⟨⟨key', h'⟩, hfilter, heq⟩ := List.mem_map.mp h
      obtain ⟨part', hpart, -⟩ := mem_added (List.mem_filter.mp hfilter).1
      exact hne (Handler.pipe.inj (heq.symm.trans hpart)).1
    · refine Registry.Before.append (.of_not_mem (hfresh _ _)) ?_
      obtain rfl : endOption = true := (Bool.and_eq_true_iff.mp hlive).1
      exact before_added _ source n event
  · intro p pipe' hpipe hlive hskip f hf hdest
    rcases pipes_pipe hpipe with ⟨hpipe, -⟩ | ⟨rfl, rfl⟩
    · exact hinv.beforeStack p pipe' hpipe hlive hskip f hf hdest
    · exact .of_not_mem fun h => Nat.lt_irrefl _ (hinv.knownStack f hf _ _ h).lt

/-! ### A listener -/

/-- The pipe that the call of `h` ends. -/
def Handler.ending : Handler → Option ℕ
  | .pipe p .onend => some p
  | .pipe p .onclose => some p
  | _ => none

theorem not_ends {h : Handler} {p : ℕ} (hp : h.ending ≠ some p) : ¬ Ends p h := by
  rintro (rfl | rfl)
  · exact hp rfl
  · exact hp rfl

theorem inv_pop (hinv : Inv none s) {key : Key} {h : Handler} {rest : List Handler}
    {stack : List Frame} (hstack : s.stack = ⟨key, h :: rest⟩ :: stack) :
    Inv h.ending { s with stack := ⟨key, rest⟩ :: stack } := by
  have htop : (⟨key, h :: rest⟩ : Frame) ∈ s.stack := by
    rw [hstack]
    exact List.mem_cons_self
  have htail : ∀ f ∈ stack, f ∈ s.stack := fun f hf => by
    rw [hstack]
    exact List.mem_cons_of_mem _ hf
  refine ⟨hinv.known, fun f hf p part hmem => ?_, hinv.once, hinv.clean, hinv.did, hinv.count,
    hinv.before, fun p pipe hpipe hlive hskip f hf hdest => ?_⟩
  · rcases List.mem_cons.mp hf with rfl | hf
    · exact hinv.knownStack _ htop p part (List.mem_cons_of_mem _ hmem)
    · exact hinv.knownStack f (htail f hf) p part hmem
  · rcases List.mem_cons.mp hf with rfl | hf
    · exact (hinv.beforeStack p pipe hpipe hlive nofun _ htop hdest).tail (not_ends hskip)
    · exact hinv.beforeStack p pipe hpipe hlive nofun f (htail f hf) hdest

theorem pipes_cleanup {p q : ℕ} {pipe x : Pipe} (h : (cleanup s p pipe).pipes[q]? = some x) :
    q = p ∧ x = { pipe with cleanedUp := true } ∨ q ≠ p ∧ s.pipes[q]? = some x := by
  unfold cleanup at h
  dsimp only at h
  rw [List.getElem?_set] at h
  split_ifs at h with hq
  · exact .inl ⟨hq.symm, (Option.some.inj h).symm⟩
  · exact .inr ⟨Ne.symm hq, h⟩

/-- A pipe that is cleaned up keeps what does not change. -/
theorem Known.cleanup {p q : ℕ} {part : Part} (h : Known s q part) {pipe pipe' : Pipe}
    (hpipe : s.pipes[p]? = some pipe) (hend : pipe'.endOption = pipe.endOption) :
    Known (cleanup s p pipe') q part := by
  obtain ⟨x, hx, hpart⟩ := h
  have hlt := (List.getElem?_eq_some_iff.mp hpipe).1
  by_cases hq : p = q
  · subst hq
    obtain rfl := Option.some.inj (hpipe.symm.trans hx)
    refine ⟨_, List.getElem?_set_self hlt, fun h => ?_⟩
    exact hend.trans (hpart h)
  · exact ⟨x, (List.getElem?_set_ne hq).trans hx, hpart⟩

theorem live_cleanup {p : ℕ} {pipe : Pipe} (hpipe : s.pipes[p]? = some pipe) (pipe' : Pipe) :
    s.live = (cleanup s p pipe').live + if pipe.live = true then 1 else 0 := by
  obtain ⟨hlt, hget⟩ := List.getElem?_eq_some_iff.mp hpipe
  have hle := List.boole_getElem_le_countP (p := Pipe.live) hlt
  unfold State.live cleanup
  rw [List.countP_set hlt]
  rw [hget] at hle ⊢
  have hdead : Pipe.live { pipe' with cleanedUp := true } = false := by simp [Pipe.live]
  rw [hdead, if_neg Bool.false_ne_true]
  omega

theorem not_ends_removed {p q source : ℕ} (hq : q ≠ p) {e : Key × Handler}
    (he : e ∈ removed p source) : ¬ Ends q e.2 := by
  have hremoved : ∀ e ∈ removed p source, ∃ part, e.2 = .pipe p part := by simp [removed]
  obtain ⟨part, hpart⟩ := hremoved e he
  rw [hpart]
  rintro (heq | heq)
  · exact hq (Handler.pipe.inj heq).1.symm
  · exact hq (Handler.pipe.inj heq).1.symm

/-- `cleanup` leaves nothing of the pipe, and nothing more need be known of it. -/
theorem inv_cleanup (hinv : Inv skip s) {p : ℕ} {pipe pipe' : Pipe}
    (hpipe : s.pipes[p]? = some pipe) (hsource : pipe'.source = pipe.source)
    (hend : pipe'.endOption = pipe.endOption)
    (hdid : pipe'.endOption = true → pipe'.didOnEnd = true) (hskip : skip = none ∨ skip = some p)
    {c : ℤ} (hc : c = (cleanup s p pipe').live) :
    Inv none (cleanup { s with pipeCount := c } p pipe') := by
  have hcount : ∀ key q part, ((cleanup s p pipe').listeners key).count (.pipe q part) =
      (s.listeners key).count (.pipe q part) -
        (removed p pipe'.source).count (key, .pipe q part) :=
    fun key q part => Registry.count_offAll _ _ _ _
  have hmem : ∀ key q part, Handler.pipe q part ∈ (cleanup s p pipe').listeners key →
      Handler.pipe q part ∈ s.listeners key := by
    intro key q part h
    have hpos := List.count_pos_iff.mpr h
    rw [hcount] at hpos
    exact List.count_pos_iff.mp (by omega)
  have hgone : ∀ key part, Handler.pipe p part ∉ (cleanup s p pipe').listeners key := by
    intro key part h
    have hpos := List.count_pos_iff.mpr h
    have honce := hinv.once p pipe hpipe key part
    rw [hcount, hsource] at hpos
    omega
  constructor
  · exact fun key q part h => (hinv.known key q part (hmem key q part h)).cleanup hpipe hend
  · exact fun f hf q part h => (hinv.knownStack f hf q part h).cleanup hpipe hend
  · intro q x hx key part
    refine Nat.le_trans (Nat.le_of_eq (hcount key q part)) (Nat.le_trans (Nat.sub_le _ _) ?_)
    rcases pipes_cleanup hx with ⟨rfl, rfl⟩ | ⟨-, hx⟩
    · have honce := hinv.once q pipe hpipe key part
      rw [← hsource] at honce
      exact honce
    · exact hinv.once q x hx key part
  · intro q x hx hclean key part h
    rcases pipes_cleanup hx with ⟨rfl, -⟩ | ⟨-, hx⟩
    · exact hgone key part h
    · exact hinv.clean q x hx hclean key part (hmem key q part h)
  · intro q x hx hq
    rcases pipes_cleanup hx with ⟨rfl, rfl⟩ | ⟨-, hx⟩
    · exact hdid hq
    · exact hinv.did q x hx hq
  · exact hc
  · intro q x hx hlive n event
    rcases pipes_cleanup hx with ⟨rfl, rfl⟩ | ⟨hq, hx⟩
    · exact .of_not_mem (hgone _ _)
    · refine Registry.before_offAll (hinv.before q x hx hlive n event) fun e he => ?_
      exact not_ends_removed hq he
  · intro q x hx hlive _ f hf hdest
    rcases pipes_cleanup hx with ⟨rfl, rfl⟩ | ⟨hq, hx⟩
    · exact absurd hlive (by simp [Pipe.live])
    · refine hinv.beforeStack q x hx hlive ?_ f hf hdest
      rcases hskip with rfl | rfl
      · nofun
      · exact fun h => hq (Option.some.inj h).symm

theorem Inv.call (hinv : Inv skip s) (c : Call) : Inv skip (s.call c) :=
  ⟨hinv.known, hinv.knownStack, hinv.once, hinv.clean, hinv.did, hinv.count, hinv.before,
    hinv.beforeStack⟩

/-- A method of a stream is called, but not one that ends the destination. -/
theorem Inv.flow (hinv : Inv none s) {c : Call} (hc : c.ends = false) :
    Inv none (s.call c) ∧ Called s (s.call c) := by
  refine ⟨hinv.call c, called_of_live ?_ (Nat.le_refl s.live)⟩
  unfold State.call
  rw [List.countP_append, List.countP_singleton, hc]
  rfl

/-- The source of a live pipe ends or closes. -/
theorem finish_spec {p : ℕ} (hinv : Inv (some p) s) {pipe : Pipe}
    (hpipe : s.pipes[p]? = some pipe) (hend : pipe.endOption = true) {last : Call}
    (hlast : last.ends = true) :
    Inv none (finish s p pipe last) ∧ Called s (finish s p pipe last) := by
  have hsame := hinv.did p pipe hpipe hend
  unfold finish
  split_ifs with hdid
  · have hdead : pipe.live = false := by
      unfold Pipe.live
      rw [← hsame, hdid, Bool.not_true, Bool.and_false]
    refine ⟨⟨hinv.known, hinv.knownStack, hinv.once, hinv.clean, hinv.did, hinv.count, hinv.before,
      fun q x hx hlive _ => hinv.beforeStack q x hx hlive fun h => ?_⟩,
      called_of_live rfl (Nat.le_refl s.live)⟩
    obtain rfl := Option.some.inj h
    obtain rfl := Option.some.inj (hpipe.symm.trans hx)
    exact Bool.false_ne_true (hdead.symm.trans hlive)
  · have hlive : pipe.live = true := by
      unfold Pipe.live
      rw [hend, ← hsame, Bool.eq_false_iff.mpr hdid]
      rfl
    have hless := live_cleanup hpipe { pipe with didOnEnd := true }
    rw [hlive, if_pos rfl] at hless
    have hcount : s.pipeCount - 1 = (cleanup s p { pipe with didOnEnd := true }).live := by
      rw [hinv.count, hless]
      push_cast
      omega
    have hinv' : Inv none (cleanup { s with pipeCount := s.pipeCount - 1 } p
        { pipe with didOnEnd := true }) := by
      refine inv_cleanup hinv hpipe ?_ ?_ (fun _ => ?_) (.inr rfl) hcount
      · rfl
      · rfl
      · rfl
    dsimp only
    generalize hs' : cleanup { s with pipeCount := s.pipeCount - 1 } p
      { pipe with didOnEnd := true } = s' at hinv' ⊢
    have hcalls : s'.calls = s.calls := by rw [← hs']; rfl
    have hlive' : s.live = s'.live + 1 := by rw [← hs']; exact hless
    have hmore := hinv'.count
    split_ifs with hpos
    · exact ⟨hinv', by
        unfold Called
        rw [hcalls, if_neg (by omega), Nat.add_zero]⟩
    · refine ⟨hinv'.call last, ?_⟩
      have hzero : (s'.call last).live = 0 := by
        have hzero' : s'.live = 0 := by omega
        exact hzero'
      unfold Called
      rw [if_pos ⟨by omega, hzero⟩]
      unfold State.call
      rw [List.countP_append, List.countP_singleton, hlast, hcalls]
      rfl

/-- A pipe is cleaned up that does not count. -/
theorem cleanup_spec (hinv : Inv none s) {p : ℕ} {pipe : Pipe} (hpipe : s.pipes[p]? = some pipe)
    (hdead : pipe.live = false) : Inv none (cleanup s p pipe) ∧ Called s (cleanup s p pipe) := by
  have hlive := live_cleanup hpipe pipe
  rw [hdead, if_neg Bool.false_ne_true, Nat.add_zero] at hlive
  refine ⟨inv_cleanup hinv hpipe rfl rfl (fun hend => ?_) (.inl rfl) (hinv.count.trans ?_),
    called_of_live rfl (Nat.le_of_eq hlive)⟩
  · rw [hinv.did p pipe hpipe hend]
    unfold Pipe.live at hdead
    rw [hend, Bool.true_and, Bool.not_eq_false'] at hdead
    exact hdead
  · rw [hlive]

/-- `ondata` is to go on where `dest.write` returns. -/
theorem inv_wrote (hinv : Inv none s) {p : ℕ} (hknown : Known s p .wrote) {f : Frame}
    {stack : List Frame} (hstack : s.stack = f :: stack) :
    Inv none { s with stack := { f with rest := .pipe p .wrote :: f.rest } :: stack } := by
  have htop : f ∈ s.stack := by
    rw [hstack]
    exact List.mem_cons_self
  have htail : ∀ f' ∈ stack, f' ∈ s.stack := fun f' hf => by
    rw [hstack]
    exact List.mem_cons_of_mem _ hf
  refine ⟨hinv.known, fun f' hf q part hmem => ?_, hinv.once, hinv.clean, hinv.did, hinv.count,
    hinv.before, fun q pipe hpipe hlive hskip f' hf hdest => ?_⟩
  · rcases List.mem_cons.mp hf with rfl | hf
    · rcases List.mem_cons.mp hmem with heq | hmem
      · obtain ⟨rfl, rfl⟩ := Handler.pipe.inj heq
        exact hknown
      · exact hinv.knownStack f htop q part hmem
    · exact hinv.knownStack f' (htail f' hf) q part hmem
  · rcases List.mem_cons.mp hf with rfl | hf
    · exact .inr ⟨by simp, hinv.beforeStack q pipe hpipe hlive hskip f htop hdest⟩
    · exact hinv.beforeStack q pipe hpipe hlive hskip f' (htail f' hf) hdest

theorem runPart_spec {p : ℕ} {part : Part} (hinv : Inv (Handler.pipe p part).ending s)
    {pipe : Pipe} (hpipe : s.pipes[p]? = some pipe) (hknown : Known s p part)
    (hdead : part = .onerror ∨ part = .cleanup → pipe.live = false) (this : Object)
    (flag : Bool) :
    Inv none (runPart s this p pipe flag part) ∧ Called s (runPart s this p pipe flag part) := by
  have hend : part = .onend ∨ part = .onclose → pipe.endOption = true := by
    obtain ⟨pipe', hpipe', hend⟩ := hknown
    obtain rfl := Option.some.inj (hpipe.symm.trans hpipe')
    exact hend
  have hsame : Inv none s → Inv none s ∧ Called s s :=
    fun h => ⟨h, called_of_live rfl (Nat.le_refl s.live)⟩
  have hflag : ∀ c : Call, c.ends = false → Inv none s →
      Inv none (if flag then s.call c else s) ∧ Called s (if flag then s.call c else s) := by
    intro c hc h
    cases flag
    · exact hsame h
    · exact h.flow hc
  cases part with
  | ondata =>
    cases flag with
    | false => exact hsame hinv
    | true =>
      have hflow := hinv.flow (c := .write) rfl
      unfold runPart
      dsimp only
      rw [if_pos rfl]
      cases hstack : (s.call .write).stack with
      | nil => exact hflow
      | cons f stack =>
        obtain ⟨pipe', hpipe', -⟩ := hknown
        exact ⟨inv_wrote hflow.1 ⟨pipe', hpipe', by simp⟩ hstack, hflow.2⟩
  | wrote => exact hflag _ rfl hinv
  | ondrain => exact hflag _ rfl hinv
  | onend => exact finish_spec hinv hpipe (hend (.inl rfl)) rfl
  | onclose => exact finish_spec hinv hpipe (hend (.inr rfl)) rfl
  | onerror =>
    obtain ⟨hinv', hcalled⟩ := cleanup_spec hinv hpipe (hdead (.inl rfl))
    unfold runPart onerror
    dsimp only
    split_ifs
    · exact ⟨hinv'.stack fun f hf => List.mem_of_mem_tail hf, hcalled⟩
    · exact ⟨hinv', hcalled⟩
  | onpause => exact hinv.flow rfl
  | onresume => exact hflag _ rfl hinv
  | cleanup => exact cleanup_spec hinv hpipe (hdead (.inr rfl))

/-! ### A step -/

theorem step_spec (hinv : Inv none s) {a : Action} {s' : State} (ha : Spares s a)
    (hstep : step s a = some s') : Inv none s' ∧ Called s s' := by
  have hsame : ∀ t : State, t.calls = s.calls → t.live = s.live → Called s t :=
    fun t hcalls hlive => called_of_live (by rw [hcalls]) (Nat.le_of_eq hlive.symm)
  cases a with
  | pipe source endOption =>
    obtain rfl := Option.some.inj hstep
    refine ⟨inv_pipe hinv source endOption, called_of_live rfl ?_⟩
    rw [live_pipe]
    exact Nat.le_add_right _ _
  | on key n =>
    obtain rfl := Option.some.inj hstep
    exact ⟨inv_on hinv key n, hsame _ rfl rfl⟩
  | removeListener key n =>
    obtain rfl := Option.some.inj hstep
    exact ⟨inv_removeListener hinv key n, hsame _ rfl rfl⟩
  | emit key =>
    obtain rfl := Option.some.inj hstep
    exact ⟨inv_emit hinv key, hsame _ rfl rfl⟩
  | call flag =>
    unfold step at hstep
    unfold Spares at ha
    dsimp only at hstep ha
    split at hstep
    · rename_i key h rest stack hstack
      rw [hstack] at ha
      obtain rfl := Option.some.inj hstep
      have hpop := inv_pop hinv hstack
      have htop : (⟨key, h :: rest⟩ : Frame) ∈ s.stack := by
        rw [hstack]
        exact List.mem_cons_self
      cases h with
      | user n => exact ⟨hpop, hsame _ rfl rfl⟩
      | pipe p part =>
        have hknown := hinv.knownStack _ htop p part List.mem_cons_self
        obtain ⟨pipe, hpipe, -⟩ := id hknown
        unfold runHandler
        dsimp only
        rw [hpipe]
        refine runPart_spec hpop hpipe hknown (fun hpart => ?_) key.object flag
        by_cases hdest : key.object = .dest
        · exact ha (hpart.imp id fun h => ⟨h, hdest⟩) pipe hpipe
        · rcases hpart with rfl | rfl
          · exact ha (.inl rfl) pipe hpipe
          · refine Bool.eq_false_iff.mpr fun hlive => ?_
            rcases hinv.beforeStack p pipe hpipe hlive nofun _ htop hdest with hends | hne
            · exact not_ends (by nofun) hends
            · exact hne.1 rfl
    · exact absurd hstep nofun
  | ret =>
    unfold step at hstep
    dsimp only at hstep
    split at hstep
    · rename_i key stack hstack
      obtain rfl := Option.some.inj hstep
      refine ⟨hinv.stack fun f hf => ?_, hsame _ rfl rfl⟩
      rw [hstack]
      exact List.mem_cons_of_mem _ hf
    · exact absurd hstep nofun
  | throw =>
    unfold step at hstep
    dsimp only at hstep
    split_ifs at hstep
    obtain rfl := Option.some.inj hstep
    exact ⟨hinv.stack fun f hf => List.mem_of_mem_tail hf, hsame _ rfl rfl⟩

/-- Otherwise a live pipe goes without being counted. -/
theorem not_count_of_not_spares (hinv : Inv none s) {a : Action} {s' : State} (ha : ¬ Spares s a)
    (hstep : step s a = some s') : s'.pipeCount ≠ s'.live := by
  cases a with
  | call flag =>
    unfold step at hstep
    unfold Spares at ha
    dsimp only at hstep ha
    split at ha
    · rename_i key p part rest stack hstack
      obtain ⟨hpart, ha⟩ := Classical.not_imp.mp ha
      obtain ⟨pipe, ha⟩ := not_forall.mp ha
      obtain ⟨hpipe, hlive⟩ := Classical.not_imp.mp ha
      rw [hstack] at hstep
      obtain rfl := Option.some.inj hstep
      have hless := live_cleanup hpipe pipe
      rw [if_pos ((Bool.not_eq_false _).mp hlive)] at hless
      have hne : s.pipeCount ≠ (cleanup s p pipe).live := by
        rw [hinv.count]
        omega
      unfold runHandler
      dsimp only
      rw [hpipe]
      rcases hpart with rfl | ⟨rfl, -⟩
      · unfold runPart onerror
        dsimp only
        split_ifs
        · exact hne
        · exact hne
      · exact hne
    · exact absurd trivial ha
  | _ => exact absurd trivial ha

end

/-- The count is the number of end-enabled pipes that are live, the destination is ended or
destroyed exactly when the last of them goes, and nothing is left of a pipe that is cleaned up, as
long as only `'end'` and `'close'` of its source reach a live end-enabled pipe. -/
theorem accounted_iff (as : List Action) :
    Along step (fun s _ s' => Accounted s s') fresh as ↔
      Along step (fun s a _ => Spares s a) fresh as := by
  refine along_iff_while (Q := fun s a _ => Spares s a) inv_fresh
    (fun s a s' hinv hstep => ⟨fun h => ?_, fun h => ?_⟩)
    (fun s a s' hinv ha hstep => (step_spec hinv ha hstep).1) as
  · by_contra ha
    exact not_count_of_not_spares hinv ha hstep h.count
  · obtain ⟨hinv', hcalled⟩ := step_spec hinv h hstep
    exact ⟨hinv'.count, hcalled, hinv'.clean⟩

/-- Two sources are piped into the destination, and an error of the first one is handled. -/
theorem not_accounted : ¬ ∀ as : List Action,
    Along step (fun s _ s' => Accounted s s') fresh as := by
  intro h
  obtain ⟨s, s', hs, hs', hcount⟩ : ∃ s s', run step fresh [.pipe 0 true, .pipe 1 true,
      .on ⟨.source 0, .error⟩ 0, .emit ⟨.source 0, .error⟩] = some s ∧
      step s (.call false) = some s' ∧ s'.pipeCount = 2 ∧ s'.live = 1 := ⟨_, _, rfl, rfl, rfl, rfl⟩
  have haccounted := ((h ([.pipe 0 true, .pipe 1 true, .on ⟨.source 0, .error⟩ 0,
    .emit ⟨.source 0, .error⟩] ++ [.call false])).last hs hs').count
  omega

end NodeJS.Piping
