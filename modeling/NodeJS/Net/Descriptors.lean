import NodeJS.Net.Posting

/-! Descriptors that are written on a unix socket, each of which is to reach the kernel together
with the first byte of its data. -/
namespace NodeJS.Net.Posting
open Lib

section
variable (kernel : Kernel)

/-- The descriptors that were passed are those whose data has begun to reach the kernel. As no
step has more than one system call, each went together with the first byte. -/
def Writer.Passed (s : Writer) : Prop :=
  s.net.sock.destroyed = false →
    s.net.sock.passed = (s.descriptors.filter fun p => p.1 < s.sent).map Prod.snd

/-- `write` concatenates the data onto the last string in the queue. -/
def Joins (queue : List Entry) (data : Data) (encoding : EncArg) : Prop :=
  ∃ last lastCb str, queue.getLast? = some ⟨.str last, encoding, lastCb⟩ ∧ data = .str str

/-- A descriptor is queued only behind entries that all have one to go with them, and not with
data that is concatenated. While it waits, no data before it is split or taken in part. -/
def Orderly (s : Writer) : Action → Prop
  | .write chunk encoding fd _ => fd ≠ none →
    (Chunk.data chunk).size encoding ≠ 0 ∧
      (s.net.sock.connecting = true ∨ s.net.sock.queue ≠ [] →
        s.net.sock.queueFD.length = s.net.sock.queue.length ∧
          ¬ Joins s.net.sock.queue (Chunk.data chunk) encoding)
  | .flush => ∀ e ∈ s.net.sock.queue.head?,
    (s.net.sock.queueFD.head?.join ≠ none → offer s.net.pool e.encoding e.data ≠ none) ∧
      ((∃ fd ∈ s.net.sock.queueFD.tail, fd ≠ none) → ∀ len whole,
        offer s.net.pool e.encoding e.data = some (len, whole) →
          whole = true ∧ ∀ n, kernel.write s.net.sock.calls len = .wrote n → len ≤ n)
  | _ => True

end

/-- The bytes in front of each entry of the queue that has a descriptor, from `pos` on, and the
descriptor. -/
def aligned (pos : ℕ) : List Entry → List (Option ℕ) → List (ℕ × ℕ)
  | e :: q, fd :: fds => (fd.map fun d => (pos, d)).toList ++ aligned (pos + e.size) q fds
  | _, _ => []

theorem aligned_cons (pos : ℕ) (e : Entry) (q : List Entry) (fd : Option ℕ)
    (fds : List (Option ℕ)) : aligned pos (e :: q) (fd :: fds) =
      (fd.map fun d => (pos, d)).toList ++ aligned (pos + e.size) q fds := rfl

/-- Where a descriptor goes there is data. -/
def Solid : List Entry → List (Option ℕ) → Prop
  | e :: q, fd :: fds => (fd ≠ none → e.size ≠ 0) ∧ Solid q fds
  | _, _ => True

theorem pos_le_of_mem {pos : ℕ} {q : List Entry} {fds : List (Option ℕ)} {p : ℕ × ℕ}
    (h : p ∈ aligned pos q fds) : pos ≤ p.1 := by
  induction q generalizing pos fds with
  | nil => exact absurd h List.not_mem_nil
  | cons e q ih =>
    cases fds with
    | nil => exact absurd h List.not_mem_nil
    | cons fd fds =>
      rcases List.mem_append.mp h with h | h
      · obtain ⟨d, -, rfl⟩ := Option.map_eq_some_iff.mp (Option.mem_toList.mp h)
        exact Nat.le_refl pos
      · exact Nat.le_trans (Nat.le_add_right _ _) (ih h)

theorem aligned_nil {q : List Entry} {fds : List (Option ℕ)} (h : ∀ fd ∈ fds, fd = none)
    (pos : ℕ) : aligned pos q fds = [] := by
  induction q generalizing pos fds with
  | nil => rfl
  | cons e q ih =>
    cases fds with
    | nil => rfl
    | cons fd fds =>
      obtain ⟨rfl, hfds⟩ := List.forall_mem_cons.mp h
      exact ih hfds _

theorem solid_nil {q : List Entry} {fds : List (Option ℕ)} (h : ∀ fd ∈ fds, fd = none) :
    Solid q fds := by
  induction q generalizing fds with
  | nil => trivial
  | cons e q ih =>
    cases fds with
    | nil => trivial
    | cons fd fds =>
      obtain ⟨rfl, hfds⟩ := List.forall_mem_cons.mp h
      exact ⟨fun hne => absurd rfl hne, ih hfds⟩

/-- The end of the queue may change where there is no descriptor. -/
theorem aligned_append {q : List Entry} {fds : List (Option ℕ)} (h : fds.length ≤ q.length)
    (pos : ℕ) (q' : List Entry) : aligned pos (q ++ q') fds = aligned pos q fds := by
  induction q generalizing pos fds with
  | nil =>
    rw [List.length_eq_zero_iff.mp (Nat.le_zero.mp h)]
    cases q' <;> rfl
  | cons e q ih =>
    cases fds with
    | nil => rfl
    | cons fd fds =>
      have hle : fds.length ≤ q.length := Nat.le_of_succ_le_succ h
      unfold aligned
      rw [List.cons_append]
      dsimp only
      rw [ih hle]

theorem Solid.append {q : List Entry} {fds : List (Option ℕ)} (hsolid : Solid q fds)
    (h : fds.length ≤ q.length) (q' : List Entry) : Solid (q ++ q') fds := by
  induction q generalizing fds with
  | nil =>
    rw [List.length_eq_zero_iff.mp (Nat.le_zero.mp h)]
    cases q' <;> trivial
  | cons e q ih =>
    cases fds with
    | nil => trivial
    | cons fd fds => exact ⟨hsolid.1, ih hsolid.2 (Nat.le_of_succ_le_succ h)⟩

/-- An entry is queued together with its descriptor. -/
theorem aligned_concat {q : List Entry} {fds : List (Option ℕ)} (h : fds.length = q.length)
    (pos : ℕ) (e : Entry) (d : ℕ) :
    aligned pos (q ++ [e]) (fds ++ [some d]) =
      aligned pos q fds ++ [(pos + queuedSize q, d)] := by
  induction q generalizing pos fds with
  | nil =>
    rw [List.length_eq_zero_iff.mp h]
    rfl
  | cons e' q ih =>
    cases fds with
    | nil => exact absurd h nofun
    | cons fd fds =>
      have hlength : fds.length = q.length := Nat.succ.inj h
      rw [List.cons_append, List.cons_append]
      unfold aligned
      rw [ih hlength, queuedSize_cons, List.append_assoc, Nat.add_assoc]

theorem Solid.concat {q : List Entry} {fds : List (Option ℕ)} (hsolid : Solid q fds)
    (h : fds.length = q.length) {e : Entry} (he : e.size ≠ 0) (d : ℕ) :
    Solid (q ++ [e]) (fds ++ [some d]) := by
  induction q generalizing fds with
  | nil =>
    rw [List.length_eq_zero_iff.mp h]
    exact ⟨fun _ => he, trivial⟩
  | cons e' q ih =>
    cases fds with
    | nil => exact absurd h nofun
    | cons fd fds => exact ⟨hsolid.1, ih hsolid.2 (Nat.succ.inj h)⟩

/-- The last entry gets longer. -/
theorem aligned_last {q : List Entry} {e e' : Entry} {fds : List (Option ℕ)} (pos : ℕ) :
    aligned pos (q ++ [e']) fds = aligned pos (q ++ [e]) fds := by
  induction q generalizing pos fds with
  | nil =>
    cases fds with
    | nil => rfl
    | cons fd fds => cases fds <;> rfl
  | cons x q ih =>
    cases fds with
    | nil => rfl
    | cons fd fds =>
      rw [List.cons_append, List.cons_append]
      unfold aligned
      rw [ih]

theorem Solid.last {q : List Entry} {e e' : Entry} {fds : List (Option ℕ)}
    (h : Solid (q ++ [e]) fds) (hle : e.size ≤ e'.size) : Solid (q ++ [e']) fds := by
  induction q generalizing fds with
  | nil =>
    cases fds with
    | nil => trivial
    | cons fd fds =>
      refine ⟨fun hne => ?_, by cases fds <;> trivial⟩
      have hpos := h.1 hne
      omega
  | cons x q ih =>
    cases fds with
    | nil => trivial
    | cons fd fds => exact ⟨h.1, ih h.2⟩

/-- The item's own descriptor is passed, and no other one. -/
theorem handover_now {s s' : Socket} {size pos pos' : ℕ} {fd : Option ℕ}
    (hwire : pos' + s.wire.length = pos + s'.wire.length) (hlt : fd ≠ none → pos < pos')
    (hpassed : s'.passed = s.passed ++ fd.toList)
    (haligned : aligned (pos + size) s.queue s.queueFD = aligned pos' s'.queue s'.queueFD)
    (hle : s'.queueFD.length ≤ s'.queue.length) (hsolid : Solid s'.queue s'.queueFD) :
    ∃ now pos', pos' + s.wire.length = pos + s'.wire.length ∧
      (fd.map fun d => (pos, d)).toList ++ aligned (pos + size) s.queue s.queueFD =
        now ++ aligned pos' s'.queue s'.queueFD ∧
      s'.passed = s.passed ++ now.map Prod.snd ∧ (∀ p ∈ now, p.1 < pos') ∧
      s'.queueFD.length ≤ s'.queue.length ∧ Solid s'.queue s'.queueFD := by
  refine ⟨(fd.map fun d => (pos, d)).toList, pos', hwire, by rw [haligned], ?_, ?_, hle, hsolid⟩
  · rw [hpassed]
    cases fd <;> rfl
  · intro p hp
    obtain ⟨d, hd, rfl⟩ := Option.map_eq_some_iff.mp (Option.mem_toList.mp hp)
    exact hlt (by rw [hd]; exact nofun)

/-- An item that stands at `pos` is handed over with the descriptor `fd`. Some of the descriptors,
its own and those that wait, are passed, and the others wait as they should. -/
theorem handover {sys : Sys} {s s' : Socket} {size len : ℕ} {whole : Bool} {fd : Option ℕ}
    {cb : Option Callback} {r : Except Exc Bool} (h : Outcome sys s size len whole fd cb r s')
    (hunix : s.unix = true) (hsys : 0 < len → sys ≠ .wrote 0) (hfd : fd ≠ none → size ≠ 0)
    (hwhole : whole = true → len = size) (hpart : whole = false → len ≠ 0)
    (hwait : (∃ d ∈ s.queueFD, d ≠ none) → whole = true ∧ ∀ n, sys = .wrote n → len ≤ n)
    (hle : s.queueFD.length ≤ s.queue.length) (hsolid : Solid s.queue s.queueFD) (pos : ℕ) :
    ∃ now pos', pos' + s.wire.length = pos + s'.wire.length ∧
      (fd.map fun d => (pos, d)).toList ++ aligned (pos + size) s.queue s.queueFD =
        now ++ aligned pos' s'.queue s'.queueFD ∧
      s'.passed = s.passed ++ now.map Prod.snd ∧ (∀ p ∈ now, p.1 < pos') ∧
      s'.queueFD.length ≤ s'.queue.length ∧ Solid s'.queue s'.queueFD := by
  cases h with
  | whole hwhole' hmoved hfds hpassed hcalled hr =>
    refine @handover_now _ _ _ _ (pos + size) _ ?_ (fun hne => ?_) (hpassed hunix) ?_ ?_ ?_
    · rw [hmoved.wire]
      omega
    · have hpos := hfd hne
      omega
    · rw [hmoved.queue, hfds]
      rfl
    · rw [hmoved.queue, hfds]
      exact hle
    · rw [hmoved.queue, hfds]
      exact hsolid
  | rest hwhole' hmoved hsize hcb hfds hpassed hcalled =>
    have hnone : ∀ d ∈ s.queueFD, d = none := by
      by_contra hsome
      push Not at hsome
      exact absurd (hwhole'.symm.trans (hwait hsome).1) Bool.false_ne_true
    have hpos := hpart hwhole'
    refine @handover_now _ _ _ _ (pos + len) _ ?_ (fun _ => by omega) (hpassed hunix) ?_ ?_ ?_
    · rw [hmoved.wire]
      omega
    · rw [hfds, aligned_nil hnone, aligned_nil hnone]
    · rw [hmoved.queue, hfds]
      exact Nat.le_succ_of_le hle
    · rw [hfds]
      exact solid_nil hnone
  | left hall hmoved hsize hcb hlength hfirst hfds htaken hpassed hcalled =>
    rename_i front m
    obtain ⟨e, he, hfirst⟩ := hfirst
    obtain ⟨front, rfl⟩ : ∃ front', front = e :: front' := List.head?_eq_some_iff.mp he
    rcases htaken with ⟨hagain, rfl⟩ | ⟨n, hn, hlt, rfl⟩
    · rw [if_pos hagain] at hpassed
      rw [if_pos rfl] at hfds
      rw [Nat.zero_add] at hfirst
      have hqueue : s'.queue = e :: (front ++ s.queue) := hmoved.queue
      have hsize' : fd ≠ none → e.size ≠ 0 := fun hne => by
        cases whole with
        | true => rw [hfirst, hwhole rfl]; exact hfd hne
        | false => rw [hfirst]; exact hpart rfl
      -- nothing else is in front of the queue, or no descriptor waits in it
      have hfront : (front = [] ∧ whole = true) ∨ ∀ d ∈ s.queueFD, d = none := by
        by_cases hsome : ∃ d ∈ s.queueFD, d ≠ none
        · obtain rfl := (hwait hsome).1
          exact .inl ⟨List.length_eq_zero_iff.mp (Nat.succ.inj hlength), rfl⟩
        · push Not at hsome
          exact .inr hsome
      refine ⟨[], pos, ?_, ?_, ?_, fun p hp => absurd hp List.not_mem_nil, ?_, ?_⟩
      · rw [hmoved.wire]
        omega
      · rw [hfds, hqueue, aligned_cons]
        rcases hfront with ⟨rfl, rfl⟩ | hnone
        · rw [hfirst, hwhole rfl]
          rfl
        · rw [aligned_nil hnone, aligned_nil hnone]
          rfl
      · rw [hpassed hunix]
        exact (List.append_nil _).symm
      · rw [hfds, hqueue, List.length_cons, List.length_cons, List.length_append]
        omega
      · rw [hfds, hqueue]
        refine ⟨hsize', ?_⟩
        rcases hfront with ⟨rfl, -⟩ | hnone
        · exact hsolid
        · exact solid_nil hnone
    · have hnone : ∀ d ∈ s.queueFD, d = none := by
        by_contra hsome
        push Not at hsome
        have hfull := (hwait hsome).2 m hn
        omega
      have hpos : m ≠ 0 := by
        rintro rfl
        exact hsys (by omega) hn
      rw [if_neg hpos] at hfds
      rw [hn, if_neg nofun] at hpassed
      refine @handover_now _ _ _ _ (pos + m) _ ?_ (fun _ => by omega) (hpassed hunix) ?_ ?_ ?_
      · rw [hmoved.wire]
        omega
      · rw [hfds, aligned_nil hnone, aligned_nil hnone]
      · rw [hmoved.queue, hfds, List.length_append]
        omega
      · rw [hfds]
        exact solid_nil hnone

/-! ### The run -/

theorem descriptors_append (s : Writer) (net : State) (start stop : ℕ) (fd cb : Option ℕ) :
    Writer.descriptors { s with net := net, posts := s.posts ++ [⟨start, stop, fd, cb⟩] } =
      s.descriptors ++ (fd.map fun d => (start, d)).toList := by
  unfold Writer.descriptors
  rw [List.flatMap_append, List.flatMap_singleton]

/-- The descriptors that were written and not yet passed wait in their queue, each at the place of
its data. -/
structure Attached (s : Writer) : Prop where
  unix : s.net.sock.unix = true
  writable : s.net.sock.writable = true
  endOfFile : s.net.sock.endOfFile = false
  short : s.net.sock.queueFD.length ≤ s.net.sock.queue.length
  solid : Solid s.net.sock.queue s.net.sock.queueFD
  waiting : ∃ done, s.descriptors = done ++ aligned s.sent s.net.sock.queue s.net.sock.queueFD ∧
    s.net.sock.passed = done.map Prod.snd ∧ ∀ p ∈ done, p.1 < s.sent

theorem Attached.of_sock {s : Writer} (h : Attached s) {net : State}
    (hsock : net.sock = s.net.sock) : Attached { s with net := net } := by
  obtain ⟨pool, sock⟩ := net
  obtain rfl : sock = s.net.sock := hsock
  exact ⟨h.unix, h.writable, h.endOfFile, h.short, h.solid, h.waiting⟩

theorem Attached.passed {s : Writer} (h : Attached s) : s.Passed := by
  intro _
  obtain ⟨done, hposted, hpassed, hdone⟩ := h.waiting
  have hfirst : done.filter (fun p => p.1 < s.sent) = done :=
    List.filter_eq_self.mpr fun p hp => decide_eq_true (hdone p hp)
  have hlast : (aligned s.sent s.net.sock.queue s.net.sock.queueFD).filter
      (fun p => p.1 < s.sent) = [] := by
    refine List.filter_eq_nil_iff.mpr fun p hp => ?_
    have hle := pos_le_of_mem hp
    simpa using hle
  rw [hposted, List.filter_append, hfirst, hlast, List.append_nil]
  exact hpassed

section
variable {kernel : Kernel} {s : Writer}

/-- An item leaves the front of the queue, or comes directly from `write`. -/
theorem attached_handover {s' : Writer} {sock : Socket} {sys : Sys} {size len : ℕ} {whole : Bool}
    {fd : Option ℕ} {cb : Option Callback} {r : Except Exc Bool}
    (houtcome : Outcome sys sock size len whole fd cb r s'.net.sock) (hunix : sock.unix = true)
    (hwritable : sock.writable = true) (hend : sock.endOfFile = false)
    (hsys : 0 < len → sys ≠ .wrote 0) (hfd : fd ≠ none → size ≠ 0)
    (hsize : whole = true → len = size) (hpart : whole = false → len ≠ 0)
    (hwait : (∃ d ∈ sock.queueFD, d ≠ none) → whole = true ∧ ∀ n, sys = .wrote n → len ≤ n)
    (hle : sock.queueFD.length ≤ sock.queue.length) (hsolid : Solid sock.queue sock.queueFD)
    {done : List (ℕ × ℕ)} (hdone : ∀ p ∈ done, p.1 < sock.wire.length + s'.lost)
    (hpassed : sock.passed = done.map Prod.snd)
    (hposted : s'.descriptors = done ++
      ((fd.map fun d => (sock.wire.length + s'.lost, d)).toList ++
        aligned (sock.wire.length + s'.lost + size) sock.queue sock.queueFD)) : Attached s' := by
  obtain ⟨m, front, hmoved⟩ := houtcome.moved
  obtain ⟨now, pos', hpos, haligned, hnow, hlt, hle', hsolid'⟩ := handover houtcome
    hunix hsys hfd hsize hpart hwait hle hsolid (sock.wire.length + s'.lost)
  have hsent : s'.sent = pos' := by
    unfold Writer.sent
    omega
  refine ⟨hmoved.unix.trans hunix, hmoved.writable.trans hwritable, hmoved.endOfFile.trans hend,
    hle', hsolid', done ++ now, ?_, ?_, ?_⟩
  · rw [hsent, hposted, haligned, List.append_assoc]
  · rw [hnow, hpassed, List.map_append]
  · rw [hsent]
    intro p hp
    rcases List.mem_append.mp hp with hp | hp
    · have hlt' := hdone p hp
      have hmore := hmoved.wire
      omega
    · exact hlt p hp

/-- An item is queued, with its descriptor if there is one. -/
theorem attached_enqueue (h : Attached s) {data : Data} {encoding : EncArg} {fd : Option ℕ}
    (hfd : fd ≠ none → data.size encoding ≠ 0 ∧
      s.net.sock.queueFD.length = s.net.sock.queue.length ∧ ¬ Joins s.net.sock.queue data encoding)
    (cb : Option Callback) (stop : ℕ) (id : Option ℕ) :
    Attached { s with
      net := { s.net with sock := Net.enqueue s.net.sock data encoding fd cb }
      posts := s.posts ++ [⟨s.sent + queuedSize s.net.sock.queue, stop, fd, id⟩] } := by
  obtain ⟨done, hposted, hpassed, hdone⟩ := h.waiting
  have hkey : aligned s.sent (coalesce s.net.sock.queue data encoding cb)
        (s.net.sock.queueFD ++ (fd.map some).toList) =
      aligned s.sent s.net.sock.queue s.net.sock.queueFD ++
        (fd.map fun d => (s.sent + queuedSize s.net.sock.queue, d)).toList ∧
      (s.net.sock.queueFD ++ (fd.map some).toList).length ≤
        (coalesce s.net.sock.queue data encoding cb).length ∧
      Solid (coalesce s.net.sock.queue data encoding cb)
        (s.net.sock.queueFD ++ (fd.map some).toList) := by
    rcases coalesce_cases s.net.sock.queue data encoding cb with
      hc | ⟨init, last, str, lastCb, hq, rfl, hc⟩
    · rw [hc]
      cases fd with
      | none =>
        rw [Option.map_none, Option.map_none, Option.toList_none, Option.toList_none,
          List.append_nil, List.append_nil, List.length_append]
        exact ⟨aligned_append h.short _ _, Nat.le_add_right_of_le h.short,
          h.solid.append h.short _⟩
      | some d =>
        obtain ⟨hsize, hlength, -⟩ := hfd nofun
        refine ⟨aligned_concat hlength _ _ d, ?_,
          h.solid.concat (e := ⟨data, encoding, cb⟩) hlength hsize d⟩
        rw [List.length_append, List.length_append]
        exact Nat.add_le_add_right h.short 1
    · cases fd with
      | none =>
        have hshort := h.short
        have hsolid := h.solid
        rw [hq] at hshort hsolid
        rw [hc, hq, Option.map_none, Option.map_none, Option.toList_none, Option.toList_none,
          List.append_nil, List.append_nil]
        refine ⟨aligned_last _, ?_, hsolid.last (encode_length_le _ _ _)⟩
        rw [List.length_append] at hshort ⊢
        exact hshort
      | some d =>
        obtain ⟨-, -, hjoins⟩ := hfd nofun
        refine absurd ⟨last, lastCb, str, ?_, rfl⟩ hjoins
        rw [hq, List.getLast?_concat]
  obtain ⟨haligned, hshort, hsolid⟩ := hkey
  refine ⟨h.unix, h.writable, h.endOfFile, hshort, hsolid, done, ?_, hpassed, hdone⟩
  rw [descriptors_append, hposted, List.append_assoc]
  exact congrArg (done ++ ·) haligned.symm

theorem attached_post (hkernel : ∀ i len, 0 < len → kernel.write i len ≠ .wrote 0)
    (h : Attached s) {chunk : Chunk} {encoding : EncArg} {fd cb : Option ℕ}
    (horder : Orderly kernel s (.write chunk encoding fd cb)) {s' : Writer}
    (hpost : Posted kernel s chunk encoding fd cb s') : Dead s'.net ∨ Attached s' := by
  unfold Orderly at horder
  cases hpost with
  | queued hqueue =>
    refine .inr (attached_enqueue h (fun hne => ?_) _ _ _)
    exact ⟨(horder hne).1, (horder hne).2 hqueue⟩
  | refused hsock => exact .inr (h.of_sock hsock)
  | handed hqueue hoffer houtcome =>
    right
    obtain ⟨done, hposted, hpassed, hdone⟩ := h.waiting
    obtain ⟨hsize, hpart⟩ := offer_size hoffer
    have hnil : s.net.sock.queue = [] := by
      by_contra hne
      exact hqueue (.inr hne)
    have hfds : s.net.sock.queueFD = [] := by
      have hshort := h.short
      rw [hnil] at hshort
      exact List.length_eq_zero_iff.mp (Nat.le_zero.mp hshort)
    refine attached_handover houtcome h.unix h.writable h.endOfFile (hkernel _ _)
      (fun hne => (horder hne).1) hsize hpart (fun hsome => ?_) h.short h.solid hdone hpassed ?_
    · obtain ⟨d, hd, -⟩ := hsome
      rw [hfds] at hd
      exact absurd hd List.not_mem_nil
    · rw [descriptors_append, hposted, hnil, hfds]
      unfold aligned
      rw [List.append_nil, List.append_nil]
      rfl
  | dead hdead => exact .inl hdead

/-- The descriptor that goes with the first entry stands in front of the others. -/
theorem aligned_head (pos : ℕ) (e : Entry) (q : List Entry) (fds : List (Option ℕ)) :
    aligned pos (e :: q) fds =
      (fds.head?.join.map fun d => (pos, d)).toList ++ aligned (pos + e.size) q fds.tail := by
  cases fds with
  | nil => cases q <;> rfl
  | cons fd fds => rfl

theorem Solid.head {e : Entry} {q : List Entry} {fds : List (Option ℕ)} (h : Solid (e :: q) fds) :
    (fds.head?.join ≠ none → e.size ≠ 0) ∧ Solid q fds.tail := by
  cases fds with
  | nil => exact ⟨fun hne => absurd rfl hne, by cases q <;> trivial⟩
  | cons fd fds => exact h

theorem attached_flush (hkernel : ∀ i len, 0 < len → kernel.write i len ≠ .wrote 0)
    (h : Attached s) (horder : Orderly kernel s .flush) {s' : Writer} (hround : Round kernel s s') :
    Dead s'.net ∨ Attached s' := by
  unfold Orderly at horder
  have hfirst : ∀ {e : Entry} {queue : List Entry}, s.net.sock.queue = e :: queue →
      (∃ done, s.descriptors = done ++
        ((s.net.sock.queueFD.head?.join.map fun d => (s.sent, d)).toList ++
          aligned (s.sent + e.size) queue s.net.sock.queueFD.tail) ∧
        s.net.sock.passed = done.map Prod.snd ∧ ∀ p ∈ done, p.1 < s.sent) ∧
      (s.net.sock.queueFD.head?.join ≠ none → e.size ≠ 0) ∧
      Solid queue s.net.sock.queueFD.tail ∧ s.net.sock.queueFD.tail.length ≤ queue.length := by
    intro e queue hqueue
    have hwaiting := h.waiting
    have hshort := h.short
    have hsolid := h.solid
    rw [hqueue] at hwaiting hshort hsolid
    rw [aligned_head] at hwaiting
    refine ⟨hwaiting, hsolid.head.1, hsolid.head.2, ?_⟩
    rw [List.length_cons] at hshort
    rw [List.length_tail]
    omega
  cases hround with
  | idle => exact .inr h
  | dead hdead => exact .inl hdead
  | refused hqueue hoffer hsock =>
    rename_i e queue net
    right
    obtain ⟨⟨done, hposted, hpassed, hdone⟩, -, hsolid, hshort⟩ := hfirst hqueue
    have hfd : s.net.sock.queueFD.head?.join = none := by
      by_contra hne
      exact (horder e (by rw [hqueue]; rfl)).1 hne hoffer
    obtain ⟨pool, sock⟩ := net
    obtain rfl : sock = s.net.sock.shift e queue := hsock
    rw [hfd] at hposted
    refine ⟨h.unix, h.writable, h.endOfFile, hshort, hsolid, done, ?_, hpassed, fun p hp => ?_⟩
    · refine hposted.trans ?_
      unfold Writer.sent
      rw [Nat.add_assoc]
      rfl
    · exact Nat.lt_of_lt_of_le (hdone p hp) (Nat.add_le_add_left (Nat.le_add_right _ _) _)
  | handed hqueue hoffer houtcome =>
    rename_i e queue net r len whole
    right
    obtain ⟨⟨done, hposted, hpassed, hdone⟩, hsize, hsolid, hshort⟩ := hfirst hqueue
    obtain ⟨hwhole, hpart⟩ := offer_size hoffer
    have hwait := (horder e (by rw [hqueue]; rfl)).2
    exact attached_handover houtcome h.unix h.writable h.endOfFile (hkernel _ _) hsize hwhole hpart
      (fun hsome => hwait hsome len whole hoffer) hshort hsolid hdone hpassed hposted

theorem attached_step (hkernel : ∀ i len, 0 < len → kernel.write i len ≠ .wrote 0) {a : Action}
    {s' : Writer} (h : Dead s.net ∨ Attached s) (horder : Orderly kernel s a)
    (hstep : step kernel s a = some s') : Dead s'.net ∨ Attached s' := by
  rcases h with hdead | h
  · exact .inl (dead_step hdead hstep).1
  cases a with
  | write chunk encoding fd cb =>
    obtain rfl := Option.some.inj hstep
    exact attached_post hkernel h horder
      (posted_of_alive h.writable h.endOfFile chunk encoding fd cb)
  | flush =>
    obtain rfl := Option.some.inj hstep
    exact attached_flush hkernel h horder (round_of_alive h.writable h.endOfFile)
  | connect =>
    obtain rfl := connect_step hstep
    exact .inr ⟨h.unix, rfl, h.endOfFile, h.short, h.solid, h.waiting⟩
  | poolUse stored kept =>
    obtain rfl := Option.some.inj hstep
    exact .inr (h.of_sock rfl)

end

/-- In an orderly run each descriptor goes with the first byte of its data, and no other does.
`sendmsg` on a stream takes at least one byte of what it is offered if it does not block. -/
theorem passed_once (kernel : Kernel)
    (hkernel : ∀ i len, 0 < len → kernel.write i len ≠ .wrote 0) (pool : Pool)
    (connecting : Bool) {s : Writer}
    (h : Reach (step kernel) (Orderly kernel) (Writer.new pool true connecting) s) : s.Passed := by
  have hinv : Dead s.net ∨ Attached s := by
    refine h.invariant (P := fun s => Dead s.net ∨ Attached s) (.inr ?_)
      fun s a s' hs horder hstep => attached_step hkernel hs horder hstep
    exact ⟨rfl, rfl, rfl, Nat.le_refl 0, trivial, [], rfl, rfl,
      fun p hp => absurd hp List.not_mem_nil⟩
  rcases hinv with hdead | hattached
  · exact fun hlive => absurd (hdead.1.symm.trans hlive) nofun
  · exact hattached.passed

/-- A kernel that takes what it is offered. -/
theorem takeAll_wrote (i len : ℕ) (h : 0 < len) : takeAll.write i len ≠ .wrote 0 := by
  intro hzero
  exact Nat.ne_of_gt h (Sys.wrote.inj hzero)

/-- A Buffer is never split, and this kernel takes all of it. -/
theorem orderly_flush {s : Writer} (h : ∀ e ∈ s.net.sock.queue.head?, ∃ b, e.data = .buf b) :
    Orderly takeAll s .flush := by
  intro e he
  obtain ⟨b, hb⟩ := h e he
  rw [hb]
  refine ⟨fun _ => nofun, fun _ len whole hoffer => ?_⟩
  obtain ⟨rfl, rfl⟩ := Prod.mk.inj (Option.some.inj hoffer)
  exact ⟨rfl, fun n hn => Nat.le_of_eq (Sys.wrote.inj hn)⟩

/-- Two Buffers with a descriptor each, written while the socket connects. -/
theorem passed_once_two : ∃ s, run (step takeAll) (Writer.new ⟨fun _ _ => 0, 0, 0⟩ true true)
      [.write (.buffer [0x61]) none (some 5) none, .write (.buffer [0x62, 0x63]) none (some 6) none,
        .connect, .flush, .flush] = some s ∧
      s.net.sock.destroyed = false ∧ s.net.sock.passed = [5, 6] ∧ s.Passed := by
  obtain ⟨s, hs, hlive, hpassed⟩ : ∃ s, run (step takeAll)
      (Writer.new ⟨fun _ _ => 0, 0, 0⟩ true true)
      [.write (.buffer [0x61]) none (some 5) none, .write (.buffer [0x62, 0x63]) none (some 6) none,
        .connect, .flush, .flush] = some s ∧
      s.net.sock.destroyed = false ∧ s.net.sock.passed = [5, 6] := ⟨_, rfl, rfl, rfl⟩
  refine ⟨s, hs, hlive, hpassed,
    passed_once takeAll takeAll_wrote ⟨fun _ _ => 0, 0, 0⟩ true (reach_of_along hs ?_)⟩
  have hfirst : ∀ b encoding, ¬ Joins [] (.buf b) encoding := by
    rintro b encoding ⟨last, lastCb, str, -, hdata⟩
    exact absurd hdata nofun
  have hsecond : ∀ e b encoding, ¬ Joins [e] (.buf b) encoding := by
    rintro e b encoding ⟨last, lastCb, str, -, hdata⟩
    exact absurd hdata nofun
  refine along_cons rfl (fun _ => ⟨by decide, fun _ => ⟨rfl, hfirst _ _⟩⟩) (along_cons rfl
    (fun _ => ⟨by decide, fun _ => ⟨rfl, hsecond _ _ _⟩⟩) (along_cons rfl trivial (along_cons rfl
      (orderly_flush fun e he => ?_) (along_cons rfl (orderly_flush fun e he => ?_) trivial))))
  · exact ⟨_, (congrArg Entry.data (Option.some.inj he)).symm⟩
  · exact ⟨_, (congrArg Entry.data (Option.some.inj he)).symm⟩

/-- A Buffer without a descriptor stands in front of one with it. -/
theorem not_passed_once : ¬ ∀ s, Reach (step takeAll) (fun _ _ => True)
    (Writer.new ⟨fun _ _ => 0, 0, 0⟩ true true) s → s.Passed := by
  intro h
  obtain ⟨s, hs, hlive, hpassed, hposted, hsent⟩ : ∃ s, run (step takeAll)
      (Writer.new ⟨fun _ _ => 0, 0, 0⟩ true true)
      [.write (.buffer [0x61]) none none none, .write (.buffer [0x62]) none (some 7) none,
        .connect, .flush] = some s ∧ s.net.sock.destroyed = false ∧ s.net.sock.passed = [7] ∧
      s.descriptors = [(1, 7)] ∧ s.sent = 1 := ⟨_, rfl, rfl, rfl, rfl, rfl⟩
  have hall := h s (reach_of_run hs fun _ _ => trivial) hlive
  rw [hpassed, hposted, hsent] at hall
  exact absurd hall (by decide)

end NodeJS.Net.Posting
