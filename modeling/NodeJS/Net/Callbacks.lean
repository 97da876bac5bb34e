import Mathlib.Data.List.Forall2
import NodeJS.Net.Posting

/-! The callbacks given to `write`, each of which is to be called once, when the kernel has all of
its data. -/
namespace NodeJS.Net.Posting
open Lib

section
variable (kernel : Kernel)

/-- Nothing has thrown because of a callback. On a socket that lives the callbacks that were called
are the first ones, in the order of the writes, all of their data has gone, and they are all there
are when the queue is empty. -/
def Writer.Served (s : Writer) : Prop :=
  s.threw = false ∧ (s.net.sock.destroyed = false → ∃ done waiting,
    s.callbacks = done ++ waiting ∧ s.net.sock.called = done.map Prod.snd ∧
      (∀ p ∈ done, p.1 ≤ s.sent) ∧ (s.net.sock.queue = [] → waiting = []))

/-- Of an item with a callback that does not fit into the pool, the kernel takes all that fits. -/
def Unsplit (n : State) (data : Data) (encoding : EncArg) (cb : Option Callback) : Prop :=
  cb ≠ none → ∀ len, offer n.pool encoding data = some (len, false) →
    (kernel.write n.sock.calls len).All len

/-- No two strings are concatenated that both have a callback, and an item with a callback is not
split by the pool and the kernel both, nor refused by the pool when it was queued. -/
def Fair (s : Writer) : Action → Prop
  | .write chunk encoding _ cb =>
    if s.net.sock.connecting = true ∨ s.net.sock.queue ≠ [] then
      ∀ last lastCb str, s.net.sock.queue.getLast? = some ⟨.str last, encoding, some lastCb⟩ →
        Chunk.data chunk = .str str → cb = none
    else Unsplit kernel s.net (Chunk.data chunk) encoding (cb.map .user)
  | .flush => ∀ e ∈ s.net.sock.queue.head?,
    (e.cb ≠ none → offer s.net.pool e.encoding e.data ≠ none) ∧
      Unsplit kernel s.net e.data e.encoding e.cb
  | _ => True

end

/-- The callbacks of an entry whose data ends at `stop`. -/
def dueAt (stop : ℕ) (cb : Option Callback) : List (ℕ × ℕ) :=
  (calledBack cb).map fun id => (stop, id)

@[simp] theorem dueAt_none (stop : ℕ) : dueAt stop none = [] := rfl

@[simp] theorem map_snd_dueAt (stop : ℕ) (cb : Option Callback) :
    (dueAt stop cb).map Prod.snd = calledBack cb := by
  unfold dueAt
  rw [List.map_map]
  exact List.map_id _

theorem dueAt_user (stop : ℕ) (cb : Option ℕ) :
    dueAt stop (cb.map .user) = (cb.map fun id => (stop, id)).toList := by
  cases cb <;> rfl

/-- The callbacks in a queue whose data begins at `pos`, and where the entry of each ends. -/
def due (pos : ℕ) : List Entry → List (ℕ × ℕ)
  | [] => []
  | e :: q => dueAt (pos + e.size) e.cb ++ due (pos + e.size) q

theorem due_cons (pos : ℕ) (e : Entry) (q : List Entry) :
    due pos (e :: q) = dueAt (pos + e.size) e.cb ++ due (pos + e.size) q := rfl

theorem due_append (pos : ℕ) (q q' : List Entry) :
    due pos (q ++ q') = due pos q ++ due (pos + queuedSize q) q' := by
  induction q generalizing pos with
  | nil => rfl
  | cons e q ih =>
    rw [List.cons_append, queuedSize_cons, due_cons, due_cons, ih, List.append_assoc,
      Nat.add_assoc]

theorem due_single (pos : ℕ) (e : Entry) : due pos [e] = dueAt (pos + e.size) e.cb :=
  List.append_nil _

theorem due_of_none {q : List Entry} (h : ∀ e ∈ q, e.cb = none) (pos : ℕ) : due pos q = [] := by
  induction q generalizing pos with
  | nil => rfl
  | cons e q ih =>
    obtain ⟨he, hq⟩ := List.forall_mem_cons.mp h
    rw [due_cons, he, dueAt_none, ih hq, List.append_nil]

/-- The callbacks that wait are those in the queue. The entry of each ends where its data does, or
later. -/
def Waits : List (ℕ × ℕ) → List (ℕ × ℕ) → Prop :=
  List.Forall₂ fun w d => w.2 = d.2 ∧ w.1 ≤ d.1

theorem Waits.append {ws ws' ds ds' : List (ℕ × ℕ)} (h : Waits ws ds) (h' : Waits ws' ds') :
    Waits (ws ++ ws') (ds ++ ds') := List.rel_append h h'

theorem waits_dueAt {stop stop' : ℕ} (h : stop ≤ stop') (cb : Option Callback) :
    Waits (dueAt stop cb) (dueAt stop' cb) := by
  match cb with
  | none => exact .nil
  | some .merged => exact .nil
  | some (.user id) => exact .cons ⟨rfl, h⟩ .nil

theorem Waits.split {ws ds ds' : List (ℕ × ℕ)} (h : Waits ws (ds ++ ds')) :
    ∃ now rest, ws = now ++ rest ∧ Waits now ds ∧ Waits rest ds' :=
  ⟨_, _, (List.take_append_drop ds.length ws).symm, List.forall₂_take_append _ _ _ h,
    List.forall₂_drop_append _ _ _ h⟩

theorem Waits.trans {ws ds ds' : List (ℕ × ℕ)} (h : Waits ws ds) (h' : Waits ds ds') :
    Waits ws ds' := by
  induction h generalizing ds' with
  | nil => exact h'
  | cons hhead _ ih =>
    cases h' with
    | cons hhead' htail' =>
      exact .cons ⟨hhead.1.trans hhead'.1, Nat.le_trans hhead.2 hhead'.2⟩ (ih htail')

theorem Waits.refl (ws : List (ℕ × ℕ)) : Waits ws ws :=
  List.forall₂_same.mpr fun _ _ => ⟨rfl, Nat.le_refl _⟩

theorem Waits.snd {ws ds : List (ℕ × ℕ)} (h : Waits ws ds) :
    ws.map Prod.snd = ds.map Prod.snd := by
  induction h with
  | nil => rfl
  | cons hhead _ ih => rw [List.map_cons, List.map_cons, hhead.1, ih]

theorem Waits.le {ws : List (ℕ × ℕ)} {stop : ℕ} {cb : Option Callback}
    (h : Waits ws (dueAt stop cb)) : ∀ w ∈ ws, w.1 ≤ stop := by
  match cb, h with
  | none, .nil => exact fun w hw => absurd hw List.not_mem_nil
  | some .merged, .nil => exact fun w hw => absurd hw List.not_mem_nil
  | some (.user id), .cons hhead .nil =>
    intro w hw
    obtain rfl := List.mem_singleton.mp hw
    exact hhead.2

/-- An item that ends at `pos + size` is handed over. Its callback is called or still waits. -/
theorem served_handover {sys : Sys} {s s' : Socket} {size len : ℕ} {whole : Bool} {fd : Option ℕ}
    {cb : Option Callback} {r : Except Exc Bool} (h : Outcome sys s size len whole fd cb r s')
    (hsplit : cb ≠ none → whole = false → sys.All len) (hwhole : whole = true → len = size)
    {pos : ℕ} {waiting : List (ℕ × ℕ)}
    (hwaits : Waits waiting (dueAt (pos + size) cb ++ due (pos + size) s.queue)) :
    ∃ now rest pos', pos' + s.wire.length = pos + s'.wire.length ∧ waiting = now ++ rest ∧
      s'.called = s.called ++ now.map Prod.snd ∧ (∀ p ∈ now, p.1 ≤ pos') ∧
      Waits rest (due pos' s'.queue) := by
  have hnone : ∀ p ∈ ([] : List (ℕ × ℕ)), p.1 ≤ pos + (s'.wire.length - s.wire.length) :=
    fun p hp => absurd hp List.not_mem_nil
  cases h with
  | whole hwhole' hmoved hfds hpassed hcalled hr =>
    obtain ⟨now, rest, hwaiting, hnow, hrest⟩ := hwaits.split
    refine ⟨now, rest, pos + size, ?_, hwaiting, ?_, hnow.le, ?_⟩
    · rw [hmoved.wire]
      omega
    · rw [hcalled, hnow.snd, map_snd_dueAt]
    · rw [hmoved.queue]
      exact hrest
  | rest hwhole' hmoved hsize hcb hfds hpassed hcalled =>
    refine ⟨[], waiting, pos + len, ?_, rfl, ?_, nofun, ?_⟩
    · rw [hmoved.wire]
      omega
    · rw [hcalled, List.map_nil, List.append_nil]
    · rw [hmoved.queue, List.singleton_append, due_cons, hcb, Nat.add_assoc, hsize]
      exact hwaits
  | left hall hmoved hsize hcb hlength hfirst hfds htaken hpassed hcalled =>
    rename_i front m
    refine ⟨[], waiting, pos + m, ?_, rfl, ?_, nofun, ?_⟩
    · rw [hmoved.wire]
      omega
    · rw [hcalled, List.map_nil, List.append_nil]
    · rw [hmoved.queue, due_append, Nat.add_assoc, hsize]
      by_cases hne : cb = none
      · subst hne
        rw [due_of_none hcb]
        exact hwaits
      · have hwhole' : whole = true := by
          by_contra hpart
          exact hall (hsplit hne (Bool.eq_false_iff.mpr hpart))
        obtain ⟨e, he, hfirst⟩ := hfirst
        obtain ⟨front, rfl⟩ : ∃ front', front = e :: front' := List.head?_eq_some_iff.mp he
        rw [hwhole'] at hlength
        obtain rfl : front = [] := List.length_eq_zero_iff.mp (Nat.succ.inj hlength)
        rw [due_single, hcb e (List.mem_singleton_self e), Nat.add_assoc, hfirst, hwhole hwhole']
        exact hwaits

/-! ### The run -/

theorem callbacks_append (s : Writer) (net : State) (start stop : ℕ) (fd cb : Option ℕ) :
    Writer.callbacks { s with net := net, posts := s.posts ++ [⟨start, stop, fd, cb⟩] } =
      s.callbacks ++ dueAt stop (cb.map .user) := by
  unfold Writer.callbacks
  rw [List.flatMap_append, List.flatMap_singleton, dueAt_user]

/-- The callbacks that were given and not yet called wait in the queue. -/
structure Owed (s : Writer) : Prop where
  calm : s.threw = false
  writable : s.net.sock.writable = true
  endOfFile : s.net.sock.endOfFile = false
  single : ∀ e ∈ s.net.sock.queue, e.cb ≠ some .merged
  waiting : ∃ done waiting, s.callbacks = done ++ waiting ∧
    s.net.sock.called = done.map Prod.snd ∧ (∀ p ∈ done, p.1 ≤ s.sent) ∧
      Waits waiting (due s.sent s.net.sock.queue)

theorem Owed.of_sock {s : Writer} (h : Owed s) {net : State} (hsock : net.sock = s.net.sock) :
    Owed { s with net := net } := by
  obtain ⟨pool, sock⟩ := net
  obtain rfl : sock = s.net.sock := hsock
  exact ⟨h.calm, h.writable, h.endOfFile, h.single, h.waiting⟩

theorem Owed.served {s : Writer} (h : Owed s) : s.Served := by
  obtain ⟨done, waiting, hcallbacks, hcalled, hdone, hwaits⟩ := h.waiting
  refine ⟨h.calm, fun _ => ⟨done, waiting, hcallbacks, hcalled, hdone, fun hqueue => ?_⟩⟩
  rw [hqueue] at hwaits
  exact List.forall₂_nil_right_iff.mp hwaits

theorem outcome_single {sys : Sys} {s s' : Socket} {size len : ℕ} {whole : Bool} {fd : Option ℕ}
    {cb : Option Callback} {r : Except Exc Bool} (h : Outcome sys s size len whole fd cb r s')
    (hcb : cb ≠ some .merged) (hsingle : ∀ e ∈ s.queue, e.cb ≠ some .merged) :
    ∀ e ∈ s'.queue, e.cb ≠ some .merged := by
  have hfront : ∀ {m : ℕ} {front : List Entry}, Moved s s' m front → (∀ e ∈ front, e.cb = cb) →
      ∀ e ∈ s'.queue, e.cb ≠ some .merged := by
    intro m front hmoved hfront e he
    rw [hmoved.queue] at he
    rcases List.mem_append.mp he with he | he
    · rw [hfront e he]
      exact hcb
    · exact hsingle e he
  cases h with
  | whole _ hmoved => exact hfront hmoved fun e he => absurd he List.not_mem_nil
  | rest _ hmoved _ hrest =>
    refine hfront hmoved fun e he => ?_
    obtain rfl := List.mem_singleton.mp he
    exact hrest
  | left _ hmoved _ hleft => exact hfront hmoved hleft

section
variable {kernel : Kernel} {s : Writer}

/-- An item leaves the front of the queue, or comes directly from `write`. -/
theorem owed_handover {s' : Writer} {sock : Socket} {sys : Sys} {size len : ℕ} {whole : Bool}
    {fd : Option ℕ} {cb : Option Callback} {r : Except Exc Bool}
    (houtcome : Outcome sys sock size len whole fd cb r s'.net.sock) (hcalm : s'.threw = false)
    (hwritable : sock.writable = true) (hend : sock.endOfFile = false)
    (hcb : cb ≠ some .merged) (hsingle : ∀ e ∈ sock.queue, e.cb ≠ some .merged)
    (hsplit : cb ≠ none → whole = false → sys.All len) (hwhole : whole = true → len = size)
    {done waiting : List (ℕ × ℕ)} (hcallbacks : s'.callbacks = done ++ waiting)
    (hcalled : sock.called = done.map Prod.snd)
    (hdone : ∀ p ∈ done, p.1 ≤ sock.wire.length + s'.lost)
    (hwaits : Waits waiting (dueAt (sock.wire.length + s'.lost + size) cb ++
      due (sock.wire.length + s'.lost + size) sock.queue)) : Owed s' := by
  obtain ⟨m, front, hmoved⟩ := houtcome.moved
  obtain ⟨now, rest, pos', hpos, rfl, hnow, hle, hrest⟩ :=
    served_handover houtcome hsplit hwhole hwaits
  have hsent : s'.sent = pos' := by
    unfold Writer.sent
    omega
  refine ⟨hcalm, hmoved.writable.trans hwritable, hmoved.endOfFile.trans hend,
    outcome_single houtcome hcb hsingle, done ++ now, rest, ?_, ?_, ?_, ?_⟩
  · rw [hcallbacks, List.append_assoc]
  · rw [hnow, hcalled, List.map_append]
  · rw [hsent]
    intro p hp
    rcases List.mem_append.mp hp with hp | hp
    · have hle' := hdone p hp
      have hmore := hmoved.wire
      omega
    · exact hle p hp
  · rw [hsent]
    exact hrest

/-- An item is queued behind the others, or concatenated onto the last one. -/
theorem owed_coalesce {queue : List Entry} {data : Data} {encoding : EncArg} {cb : Option ℕ}
    (hfair : ∀ last lastCb str, queue.getLast? = some ⟨.str last, encoding, some lastCb⟩ →
      data = .str str → cb = none) (hsingle : ∀ e ∈ queue, e.cb ≠ some .merged) (pos : ℕ) :
    (∀ e ∈ coalesce queue data encoding (cb.map .user), e.cb ≠ some .merged) ∧
      Waits (due pos queue ++
          dueAt (pos + queuedSize (coalesce queue data encoding (cb.map .user))) (cb.map .user))
        (due pos (coalesce queue data encoding (cb.map .user))) := by
  have huser : cb.map Callback.user ≠ some .merged := by cases cb <;> nofun
  rcases coalesce_cases queue data encoding (cb.map .user) with
    hc | ⟨init, last, str, lastCb, hq, rfl, hc⟩
  · rw [hc]
    refine ⟨List.forall_mem_append.mpr ⟨hsingle, List.forall_mem_singleton.mpr huser⟩, ?_⟩
    rw [due_append, due_single, queuedSize_append, queuedSize_cons, queuedSize_nil, Nat.add_zero,
      Nat.add_assoc]
    exact Waits.refl _
  · rw [hc, hq]
    rw [hq] at hsingle
    obtain ⟨hinit, hlast⟩ := List.forall_mem_append.mp hsingle
    have hlastCb : lastCb ≠ some .merged := hlast _ (List.mem_singleton_self _)
    have hmerge : mergeCallbacks lastCb (cb.map .user) ≠ some .merged ∧ ∀ stop,
        dueAt stop (mergeCallbacks lastCb (cb.map .user)) =
          dueAt stop lastCb ++ dueAt stop (cb.map .user) := by
      cases lastCb with
      | none =>
        cases cb with
        | none => exact ⟨nofun, fun _ => rfl⟩
        | some id => exact ⟨nofun, fun _ => rfl⟩
      | some lastCb =>
        have hnone : cb = none := by
          refine hfair last lastCb str ?_ rfl
          rw [hq, List.getLast?_concat]
        subst hnone
        exact ⟨hlastCb, fun _ => (List.append_nil _).symm⟩
    refine ⟨List.forall_mem_append.mpr ⟨hinit, List.forall_mem_singleton.mpr hmerge.1⟩, ?_⟩
    rw [due_append, due_append, due_single, due_single, hmerge.2, queuedSize_append,
      queuedSize_cons, queuedSize_nil, Nat.add_zero, List.append_assoc, Nat.add_assoc,
      Nat.add_assoc]
    refine (Waits.refl _).append (.append (waits_dueAt ?_ _) (Waits.refl _))
    exact Nat.add_le_add_left (Nat.add_le_add_left (encode_length_le _ _ _) _) _

theorem owed_post (h : Owed s) {chunk : Chunk} {encoding : EncArg} {fd cb : Option ℕ}
    (hfair : Fair kernel s (.write chunk encoding fd cb)) {s' : Writer}
    (hpost : Posted kernel s chunk encoding fd cb s') :
    (Dead s'.net ∧ s'.threw = false) ∨ Owed s' := by
  unfold Fair at hfair
  obtain ⟨done, waiting, hcallbacks, hcalled, hdone, hwaits⟩ := h.waiting
  cases hpost with
  | queued hqueue =>
    right
    dsimp only at hfair
    rw [if_pos hqueue] at hfair
    obtain ⟨hsingle, hwaits'⟩ := owed_coalesce hfair h.single s.sent
    refine ⟨h.calm, h.writable, h.endOfFile, hsingle, done, waiting ++ _, ?_, hcalled, hdone,
      (hwaits.append (Waits.refl _)).trans hwaits'⟩
    rw [callbacks_append, hcallbacks, List.append_assoc]
  | refused hsock => exact .inr (h.of_sock hsock)
  | handed hqueue hoffer houtcome =>
    right
    dsimp only at hfair
    rw [if_neg hqueue] at hfair
    obtain ⟨hwhole, -⟩ := offer_size hoffer
    have hnil : s.net.sock.queue = [] := by
      by_contra hne
      exact hqueue (.inr hne)
    have huser : cb.map Callback.user ≠ some .merged := by cases cb <;> nofun
    have hwaiting : waiting = [] := by
      rw [hnil] at hwaits
      exact List.forall₂_nil_right_iff.mp hwaits
    rw [hwaiting, List.append_nil] at hcallbacks
    refine owed_handover houtcome h.calm h.writable h.endOfFile huser h.single
      (fun hne hpart => hfair hne _ (hpart ▸ hoffer)) hwhole
      ((callbacks_append ..).trans (congrArg (· ++ _) hcallbacks)) hcalled hdone ?_
    rw [hnil]
    unfold due
    rw [List.append_nil]
    exact Waits.refl _
  | dead hdead hthrew => exact .inl ⟨hdead, hthrew.trans h.calm⟩

theorem owed_flush (h : Owed s) (hfair : Fair kernel s .flush) {s' : Writer}
    (hround : Round kernel s s') : (Dead s'.net ∧ s'.threw = false) ∨ Owed s' := by
  unfold Fair at hfair
  obtain ⟨done, waiting, hcallbacks, hcalled, hdone, hwaits⟩ := h.waiting
  have hsingle := h.single
  cases hround with
  | idle => exact .inr h
  | dead hdead hthrew => exact .inl ⟨hdead, hthrew.trans h.calm⟩
  | refused hqueue hoffer hsock =>
    rename_i e queue net
    right
    have hcb : e.cb = none := by
      by_contra hne
      exact (hfair e (by rw [hqueue]; rfl)).1 hne hoffer
    obtain ⟨pool, sock⟩ := net
    obtain rfl : sock = s.net.sock.shift e queue := hsock
    rw [hqueue, due_cons, hcb, dueAt_none, List.nil_append] at hwaits
    rw [hqueue] at hsingle
    have hsent : s.sent + e.size = s.net.sock.wire.length + (s.lost + e.size) := by
      unfold Writer.sent
      rw [Nat.add_assoc]
    rw [hsent] at hwaits
    refine ⟨h.calm, h.writable, h.endOfFile, (List.forall_mem_cons.mp hsingle).2, done, waiting,
      hcallbacks, hcalled, fun p hp => ?_, hwaits⟩
    exact Nat.le_trans (hdone p hp) (Nat.add_le_add_left (Nat.le_add_right _ _) _)
  | handed hqueue hoffer houtcome =>
    rename_i e queue net r len whole
    right
    obtain ⟨-, hsplit⟩ := hfair e (by rw [hqueue]; rfl)
    obtain ⟨hwhole, -⟩ := offer_size hoffer
    rw [hqueue] at hwaits hsingle
    obtain ⟨hcb, hsingle⟩ := List.forall_mem_cons.mp hsingle
    have hcalm : (s.threw || threw r) = false := by
      obtain ⟨b, rfl⟩ := houtcome.ok hcb
      rw [h.calm]
      rfl
    exact owed_handover houtcome hcalm h.writable h.endOfFile hcb hsingle
      (fun hne hpart => hsplit hne _ (hpart ▸ hoffer)) hwhole hcallbacks hcalled hdone hwaits

theorem owed_step {a : Action} {s' : Writer} (h : (Dead s.net ∧ s.threw = false) ∨ Owed s)
    (hfair : Fair kernel s a) (hstep : step kernel s a = some s') :
    (Dead s'.net ∧ s'.threw = false) ∨ Owed s' := by
  rcases h with ⟨hdead, hcalm⟩ | h
  · obtain ⟨hdead', hthrew⟩ := dead_step hdead hstep
    exact .inl ⟨hdead', hthrew hcalm⟩
  cases a with
  | write chunk encoding fd cb =>
    obtain rfl := Option.some.inj hstep
    exact owed_post h hfair (posted_of_alive h.writable h.endOfFile chunk encoding fd cb)
  | flush =>
    obtain rfl := Option.some.inj hstep
    exact owed_flush h hfair (round_of_alive h.writable h.endOfFile)
  | connect =>
    obtain rfl := connect_step hstep
    exact .inr ⟨h.calm, rfl, h.endOfFile, h.single, h.waiting⟩
  | poolUse stored kept =>
    obtain rfl := Option.some.inj hstep
    exact .inr (h.of_sock rfl)

end

/-- In a fair run every callback is called once, in the order of the writes, when its data has
gone, and nothing throws because of one. -/
theorem served_once (kernel : Kernel) (pool : Pool) (unix connecting : Bool) {s : Writer}
    (h : Reach (step kernel) (Fair kernel) (Writer.new pool unix connecting) s) : s.Served := by
  have hinv : (Dead s.net ∧ s.threw = false) ∨ Owed s := by
    refine h.invariant (P := fun s => (Dead s.net ∧ s.threw = false) ∨ Owed s) (.inr ?_)
      fun s a s' hs hfair hstep => owed_step hs hfair hstep
    exact ⟨rfl, rfl, rfl, fun e he => absurd he List.not_mem_nil, [], [], rfl, rfl,
      fun p hp => absurd hp List.not_mem_nil, .nil⟩
  rcases hinv with ⟨hdead, hcalm⟩ | howed
  · exact ⟨hcalm, fun hlive => absurd (hdead.1.symm.trans hlive) nofun⟩
  · exact howed.served

theorem unsplit_takeAll (n : State) (data : Data) (encoding : EncArg) (cb : Option Callback) :
    Unsplit takeAll n data encoding cb :=
  fun _ len _ => ⟨len, rfl, Nat.le_refl len⟩

/-- This kernel takes what it is offered, and the pool has room for the first entry. -/
theorem fair_flush {s : Writer}
    (h : ∀ e ∈ s.net.sock.queue.head?, (offer s.net.pool e.encoding e.data).isSome = true) :
    Fair takeAll s .flush := by
  intro e he
  refine ⟨fun _ hnone => ?_, unsplit_takeAll _ _ _ _⟩
  have hsome := h e he
  rw [hnone] at hsome
  exact absurd hsome nofun

/-- A callback for a Buffer, and one for a string behind it. -/
theorem served_once_two : ∃ s, run (step takeAll) (Writer.new ⟨fun _ _ => 0, 0, 0⟩ false true)
      [.write (.buffer [0x61]) none none (some 1), .write (.str [0x62]) none none (some 2),
        .connect, .flush, .flush] = some s ∧
      s.net.sock.destroyed = false ∧ s.net.sock.called = [1, 2] ∧ s.Served := by
  obtain ⟨s, hs, hlive, hcalled⟩ : ∃ s, run (step takeAll)
      (Writer.new ⟨fun _ _ => 0, 0, 0⟩ false true)
      [.write (.buffer [0x61]) none none (some 1), .write (.str [0x62]) none none (some 2),
        .connect, .flush, .flush] = some s ∧
      s.net.sock.destroyed = false ∧ s.net.sock.called = [1, 2] := ⟨_, rfl, rfl, rfl⟩
  refine ⟨s, hs, hlive, hcalled,
    served_once takeAll ⟨fun _ _ => 0, 0, 0⟩ false true (reach_of_along hs ?_)⟩
  have hfirst : Fair takeAll (Writer.new ⟨fun _ _ => 0, 0, 0⟩ false true)
      (.write (.buffer [0x61]) none none (some 1)) := by
    unfold Fair
    dsimp only
    rw [if_pos (.inl rfl)]
    intro last lastCb str hlast
    exact absurd hlast nofun
  refine along_cons rfl hfirst (along_cons rfl ?_ (along_cons rfl trivial (along_cons rfl
    (fair_flush fun e he => ?_) (along_cons rfl (fair_flush fun e he => ?_) trivial))))
  · unfold Fair
    dsimp only
    rw [if_pos (.inl rfl)]
    intro last lastCb str hlast
    exact absurd (Option.some.inj hlast) nofun
  · obtain rfl := Option.some.inj he
    rfl
  · obtain rfl := Option.some.inj he
    rfl

/-- Two strings with a callback each are written before the socket is connected. -/
theorem not_served_once : ¬ ∀ s, Reach (step takeAll) (fun _ _ => True)
    (Writer.new ⟨fun _ _ => 0, 0, 0⟩ false true) s → s.Served := by
  intro h
  obtain ⟨s, hs, hthrew⟩ : ∃ s, run (step takeAll) (Writer.new ⟨fun _ _ => 0, 0, 0⟩ false true)
      [.write (.str [0x61]) none none (some 1), .write (.str [0x62]) none none (some 2),
        .connect, .flush] = some s ∧ s.threw = true := ⟨_, rfl, rfl⟩
  have hcalm := (h s (reach_of_run hs fun _ _ => trivial)).1
  exact absurd (hthrew.symm.trans hcalm) nofun

end NodeJS.Net.Posting
