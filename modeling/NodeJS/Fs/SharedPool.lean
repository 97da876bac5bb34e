import Mathlib.Data.List.InsertIdx
import NodeJS.Fs.Position
import NodeJS.Lib.Bump
import NodeJS.Lib.Memory

/-! All streams of the module and the pool they read into. -/
namespace NodeJS.Fs

/-- What `_read` captures: `thisPool`, `start` and `toRead`. `read` has the bytes that were read,
once the read has returned. -/
structure Lent where
  stream : ℕ
  pool : ℕ
  start : ℕ
  toRead : ℕ
  read : Option Bytes

def Lent.region (e : Lent) : Lib.Region ℕ := ⟨e.pool, e.start, e.toRead⟩

def Lent.inFlight (i : ℕ) (e : Lent) : Bool := e.stream == i && e.read.isNone

/-- The read `k` of stream `i`, of those in flight, returns. -/
def returned (i : ℕ) (bytes : Bytes) : ℕ → List Lent → List Lent
  | _, [] => []
  | k, e :: lent =>
    if e.inFlight i then
      match k with
      | 0 => { e with read := some bytes } :: lent
      | k + 1 => e :: returned i bytes k lent
    else e :: returned i bytes k lent

/-- `used` is that of the pool that was allocated last, and `lent` are all parts of pools that were
ever given to reads. -/
structure SharedPool (δ : Type) where
  allocated : ℕ
  used : Option ℕ
  stream : ℕ → ReadStream δ
  memory : Lib.Memory ℕ UInt8
  lent : List Lent

namespace SharedPool
variable {δ : Type}

def new (memory : Lib.Memory ℕ UInt8) (stream : ℕ → ReadStream δ) : SharedPool δ where
  allocated := 0
  used := none
  stream := stream
  memory := memory
  lent := []

/-- A read returns, and then its bytes are where it was to put them. -/
def complete (w : SharedPool δ) (i : ℕ) : ReadStream.Action → SharedPool δ
  | .completed k r =>
    match (w.lent.filter (·.inFlight i))[k]? with
    | none => w
    | some e =>
      { w with
        memory := w.memory.store e.pool e.start (r.getD [])
        lent := returned i (r.getD []) k w.lent }
  | _ => w

/-- The stream has become `s'`. If it has issued a read since it was `s`, then that read has the
part of the pool from `pool.used` on. -/
def issue (w : SharedPool δ) (i : ℕ) (s s' : ReadStream δ) : SharedPool δ :=
  let w := { w with stream := Function.update w.stream i s' }
  match s'.reads[s.reads.length]? with
  | none => w
  | some r =>
    -- allocNewPool
    let allocated :=
      if s.pool.all (kPoolSize - · < kMinPoolSpace) then w.allocated + 1 else w.allocated
    { w with
      allocated := allocated
      used := s'.pool
      lent := w.lent ++ [⟨i, allocated - 1, s.poolUsed, r.length, none⟩] }

/-- Something happens to a stream, or the kernel puts a byte where a read is in flight. -/
inductive Action
  | act (i : ℕ) (a : ReadStream.Action)
  | fill (n j : ℕ) (b : UInt8)

def step (decode : δ → Bytes → δ × JSString) (w : SharedPool δ) : Action → Option (SharedPool δ)
  | .act _ (.pool _) => none
  | .act i a =>
    let s := { w.stream i with pool := w.used }
    (s.step decode a).map fun s' => (w.complete i a).issue i (s.before a) s'
  | .fill n j b =>
    match w.lent[n]? with
    | some e =>
      if e.read.isNone && j < e.toRead then
        some { w with memory := w.memory.store e.pool (e.start + j) [b] }
      else none
    | none => none

end SharedPool

/-! ### The reads in flight -/

theorem map_returned (i : ℕ) (bytes : Bytes) (k : ℕ) (lent : List Lent) :
    (returned i bytes k lent).map Lent.region = lent.map Lent.region := by
  induction lent generalizing k with
  | nil => rfl
  | cons e lent ih =>
    unfold returned
    split_ifs
    · cases k with
      | zero => rfl
      | succ k => exact congrArg (e.region :: ·) (ih k)
    · exact congrArg (e.region :: ·) (ih k)

/-- One of the reads has returned, and the others are as they were. -/
theorem mem_returned {i k : ℕ} {bytes : Bytes} {lent : List Lent} {e : Lent}
    (h : e ∈ returned i bytes k lent) : e ∈ lent ∨ ∃ e₀,
      (lent.filter (·.inFlight i))[k]? = some e₀ ∧ e = { e₀ with read := some bytes } := by
  induction lent generalizing k with
  | nil => cases h
  | cons e₁ lent ih =>
    unfold returned at h
    split_ifs at h with hflight
    · rw [List.filter_cons_of_pos hflight]
      cases k with
      | zero =>
        rcases List.mem_cons.mp h with rfl | h
        · exact .inr ⟨e₁, rfl, rfl⟩
        · exact .inl (List.mem_cons_of_mem _ h)
      | succ k =>
        rcases List.mem_cons.mp h with rfl | h
        · exact .inl List.mem_cons_self
        · exact (ih h).imp_left (List.mem_cons_of_mem _)
    · rw [List.filter_cons_of_neg hflight]
      rcases List.mem_cons.mp h with rfl | h
      · exact .inl List.mem_cons_self
      · exact (ih h).imp_left (List.mem_cons_of_mem _)

/-- An entry of a read that has returned stays. -/
theorem mem_returned_of_mem {i k : ℕ} {bytes : Bytes} {lent : List Lent} {e : Lent}
    (h : e ∈ lent) (hread : e.read ≠ none) : e ∈ returned i bytes k lent := by
  induction lent generalizing k with
  | nil => cases h
  | cons e₁ lent ih =>
    unfold returned
    split_ifs with hflight
    · cases k with
      | zero =>
        rcases List.mem_cons.mp h with rfl | h
        · simp [Lent.inFlight, hread] at hflight
        · exact List.mem_cons_of_mem _ h
      | succ k => exact List.mem_cons.mpr ((List.mem_cons.mp h).imp_right ih)
    · exact List.mem_cons.mpr ((List.mem_cons.mp h).imp_right ih)

theorem mem_returned_of_get {i k : ℕ} {bytes : Bytes} {lent : List Lent} {e : Lent}
    (h : (lent.filter (·.inFlight i))[k]? = some e) :
    { e with read := some bytes } ∈ returned i bytes k lent := by
  induction lent generalizing k with
  | nil => cases h
  | cons e₁ lent ih =>
    unfold returned
    split_ifs with hflight
    · rw [List.filter_cons_of_pos hflight] at h
      cases k with
      | zero =>
        obtain rfl : e₁ = e := Option.some.inj h
        exact List.mem_cons_self
      | succ k => exact List.mem_cons_of_mem _ (ih h)
    · rw [List.filter_cons_of_neg hflight] at h
      exact List.mem_cons_of_mem _ (ih h)

theorem inFlight_returned (e : Lent) (bytes : Bytes) (j : ℕ) :
    { e with read := some bytes }.inFlight j = false := Bool.and_false _

theorem filter_returned (i : ℕ) (bytes : Bytes) (k : ℕ) (lent : List Lent) :
    (returned i bytes k lent).filter (·.inFlight i) =
      (lent.filter (·.inFlight i)).eraseIdx k := by
  induction lent generalizing k with
  | nil => rfl
  | cons e lent ih =>
    unfold returned
    split_ifs with hflight
    · rw [List.filter_cons_of_pos hflight]
      cases k with
      | zero =>
        rw [List.filter_cons_of_neg (by rw [inFlight_returned]; exact Bool.false_ne_true)]
        rfl
      | succ k => rw [List.filter_cons_of_pos hflight, ih, List.eraseIdx_cons_succ]
    · rw [List.filter_cons_of_neg hflight, List.filter_cons_of_neg hflight, ih]

theorem filter_returned_other {i j : ℕ} (hij : i ≠ j) (bytes : Bytes) (k : ℕ)
    (lent : List Lent) :
    (returned i bytes k lent).filter (·.inFlight j) = lent.filter (·.inFlight j) := by
  induction lent generalizing k with
  | nil => rfl
  | cons e lent ih =>
    unfold returned
    split_ifs with hflight
    · obtain ⟨hi, -⟩ := Bool.and_eq_true_iff.mp hflight
      have hother : ¬ e.inFlight j = true := by
        intro hj
        obtain ⟨hj, -⟩ := Bool.and_eq_true_iff.mp hj
        exact hij ((beq_iff_eq.mp hi).symm.trans (beq_iff_eq.mp hj))
      rw [List.filter_cons_of_neg hother]
      cases k with
      | zero =>
        rw [List.filter_cons_of_neg (by rw [inFlight_returned]; exact Bool.false_ne_true)]
      | succ k => rw [List.filter_cons_of_neg hother, ih]
    · simp only [List.filter_cons, ih]

/-! ### What a stream emits -/

namespace ReadStream
variable {δ : Type} {decode : δ → Bytes → δ × JSString} {s s' : ReadStream δ}

/-- The buffers that are kept or were emitted are of this kind. -/
structure Known (R : Bytes → Prop) (s : ReadStream δ) : Prop where
  buffer : ∀ b, s.buffer = some b → R b
  data : ∀ b, .buffer b ∈ s.data → R b

variable {R : Bytes → Prop}

theorem Known.read (h : s.Known R) : s.read.Known R := by
  rcases read_eq s with heq | ⟨-, -, -, heq⟩
  · rw [heq]
    exact h
  · rw [heq]
    exact ⟨h.buffer, h.data⟩

theorem Known.destroy (h : s.Known R) : s.destroy.Known R := by
  unfold ReadStream.destroy
  dsimp only
  split
  · exact ⟨h.buffer, h.data⟩
  · exact ⟨h.buffer, h.data⟩

theorem Known.leave (h : s.Known R) (f : Frame) : (s.leave f).Known R := by
  cases f with
  | read => exact h.read
  | opened => exact h.read
  | resumed =>
    have hcleared : Known R { s with buffer := none } := ⟨nofun, h.data⟩
    unfold ReadStream.leave
    dsimp only
    split_ifs
    · exact hcleared
    · exact hcleared.read
  | ended => exact h.destroy
  | failed => exact ⟨h.buffer, h.data⟩

theorem Known.emitThen (h : s.Known R) {b : Bytes} (hb : R b) (f : Frame) :
    (s.emitThen decode b f).Known R := by
  have hemit : (s.emitData decode b).1.Known R := by
    unfold emitData
    dsimp only
    split
    · refine ⟨h.buffer, fun c hc => ?_⟩
      rcases List.mem_append.mp hc with hc | hc
      · exact h.data c hc
      · cases List.mem_singleton.mp hc
        exact hb
    · split_ifs
      · refine ⟨h.buffer, fun c hc => ?_⟩
        rcases List.mem_append.mp hc with hc | hc
        · exact h.data c hc
        · cases List.mem_singleton.mp hc
      · exact ⟨h.buffer, h.data⟩
  unfold ReadStream.emitThen
  dsimp only
  split_ifs
  · exact ⟨hemit.buffer, hemit.data⟩
  · exact hemit.leave f

theorem Known.resume (h : s.Known R) : (s.resume decode).Known R := by
  have hflow : Known R { s with paused := false } := ⟨h.buffer, h.data⟩
  unfold ReadStream.resume
  dsimp only
  split
  · rename_i b hb
    exact hflow.emitThen (h.buffer b hb) .resumed
  · split_ifs
    · exact hflow
    · exact hflow.read

theorem Known.afterRead (h : s.Known R) {r : Option Bytes} (hr : ∀ b ∈ r, R b) :
    (s.afterRead decode r).Known R := by
  unfold ReadStream.afterRead
  split
  · exact ⟨h.buffer, h.data⟩
  · exact ⟨h.buffer, h.data⟩
  · rename_i b _
    have htook : Known R { s with reading := false, received := s.received ++ [b] } :=
      ⟨h.buffer, h.data⟩
    dsimp only
    split_ifs
    · refine ⟨fun c hc => ?_, htook.data⟩
      obtain rfl := Option.some.inj hc
      exact hr b rfl
    · exact htook
    · exact htook.emitThen (hr b rfl) .read

theorem Known.step {a : Action} (h : s.Known R) (hread : ∀ k b, a = .completed k (some b) → R b)
    (ha : s.step decode a = some s') : s'.Known R := by
  cases a with
  | opened r =>
    dsimp only [ReadStream.step] at ha
    split_ifs at ha
    obtain rfl := Option.some.inj ha
    cases r with
    | none => exact ⟨h.buffer, h.data⟩
    | some fd => exact ⟨h.buffer, h.data⟩
  | completed i r =>
    dsimp only [ReadStream.step] at ha
    split at ha
    · cases ha
    · split_ifs at ha
      obtain rfl := Option.some.inj ha
      have herased : Known R { s with reads := s.reads.eraseIdx i } := ⟨h.buffer, h.data⟩
      exact herased.afterRead fun b hb => hread i b (congrArg _ hb)
  | pause =>
    obtain rfl := Option.some.inj ha
    exact ⟨h.buffer, h.data⟩
  | resume =>
    obtain rfl := Option.some.inj ha
    exact h.resume
  | destroy =>
    obtain rfl := Option.some.inj ha
    exact h.destroy
  | ret =>
    dsimp only [ReadStream.step] at ha
    split at ha
    · cases ha
    · rename_i f stack _
      obtain rfl := Option.some.inj ha
      have hpopped : Known R { s with stack := stack } := ⟨h.buffer, h.data⟩
      exact hpopped.leave f
  | pool used =>
    obtain rfl := Option.some.inj ha
    exact ⟨h.buffer, h.data⟩

theorem Known.mono {R' : Bytes → Prop} (h : s.Known R) (hR : ∀ b, R b → R' b) : s.Known R' :=
  ⟨fun b hb => hR b (h.buffer b hb), fun b hb => hR b (h.data b hb)⟩

theorem toRead_le (s : ReadStream δ) : s.poolUsed + s.toRead ≤ kPoolSize := by
  have hused := poolUsed_lt s
  unfold toRead
  dsimp only
  split
  · omega
  · omega

theorem poolUsed_of_full (h : s.pool.all (kPoolSize - · < kMinPoolSpace) = true) :
    s.poolUsed = 0 := by
  unfold poolUsed
  split
  · rfl
  · rename_i used hpool
    rw [hpool] at h
    exact if_pos (of_decide_eq_true h)

theorem poolUsed_of_room (h : ¬ s.pool.all (kPoolSize - · < kMinPoolSpace) = true) :
    s.pool = some s.poolUsed := by
  unfold poolUsed
  split
  · rename_i hpool
    rw [hpool] at h
    exact absurd rfl h
  · rename_i used hpool
    rw [hpool] at h ⊢
    rw [if_neg fun hfull => h (decide_eq_true hfull)]

/-- `end - pos + 1` is not negative. -/
def Within (s : ReadStream δ) : Prop := ∀ p ∈ s.readPos, ∀ e ∈ s.stop, p ≤ e + 1

theorem within_new (fd : Option ℕ) (bufferSize : ℕ) (range : Option Range) (decoder : Option δ) :
    (new fd bufferSize range decoder).Within := by
  intro p hp e he
  cases range with
  | none => cases he
  | some range =>
    obtain rfl : range.start = p := Option.some.inj hp
    exact Nat.le_succ_of_le (range.start_le e he)

theorem SameReads.readPos {t : ReadStream δ} (h : SameReads s t) : t.readPos = s.readPos := by
  unfold ReadStream.readPos
  rw [h.start, h.firstRead, h.pos]

theorem Within.same {t : ReadStream δ} (h : s.Within) (hsame : SameReads s t) : t.Within := by
  intro p hp e he
  rw [hsame.readPos] at hp
  rw [hsame.stop] at he
  exact h p hp e he

theorem Within.read (h : s.Within) : s.read.Within := by
  rcases read_eq s with heq | ⟨-, -, -, heq⟩
  · rw [heq]
    exact h
  · rw [heq]
    intro p hp e he
    have hpos : s.readPos.map (· + s.toRead) = some p := by
      unfold readPos at hp
      rw [if_neg (by cases s.start <;> simp)] at hp
      exact hp
    obtain ⟨p₀, hp₀, rfl⟩ := Option.map_eq_some_iff.mp hpos
    have hle := h p₀ hp₀ e he
    have hread : s.toRead ≤ e + 1 - p₀ := by
      unfold toRead
      rw [hp₀, show s.stop = some e from he]
      exact Nat.min_le_left _ _
    omega

theorem Within.step {a : Action} (h : s.Within) (ha : s.step decode a = some s') : s'.Within := by
  have hbefore : (s.before a).Within := by
    cases a with
    | _ => exact h
  obtain ⟨t, hsame, rfl | rfl⟩ := issues_step ha
  · exact hbefore.same hsame
  · exact (hbefore.same hsame).read

/-- Whether a read is issued, and which. -/
theorem Issues.cases (h : Issues s s') :
    (s'.reads = s.reads ∧ s'.pool = s.pool) ∨
      (s'.reads = s.reads ++ [⟨s.toRead, s.readPos⟩] ∧
        s'.pool = some (s.poolUsed + s.toRead)) := by
  obtain ⟨t, hsame, ht⟩ := h
  have hused : t.poolUsed = s.poolUsed := by
    unfold poolUsed
    rw [hsame.pool]
  have hpos := hsame.readPos
  have hread : t.toRead = s.toRead := by
    unfold toRead
    rw [hused, hpos, hsame.bufferSize, hsame.stop]
  rcases ht with rfl | rfl
  · exact .inl ⟨hsame.reads, hsame.pool⟩
  · rcases read_eq t with heq | ⟨-, -, -, heq⟩
    · rw [heq]
      exact .inl ⟨hsame.reads, hsame.pool⟩
    · rw [heq, ← hsame.reads, ← hread, ← hpos, ← hused]
      exact .inr ⟨rfl, rfl⟩

end ReadStream

/-! ### The pool -/

namespace SharedPool
variable {δ : Type} {decode : δ → Bytes → δ × JSString} {w w' : SharedPool δ} {i : ℕ}
  {s s' : ReadStream δ}

/-- How much of each pool was given away. -/
def mark (w : SharedPool δ) (pool : ℕ) : ℤ :=
  if pool + 1 < w.allocated then kPoolSize
  else if pool + 1 = w.allocated then w.used.getD 0
  else 0

/-- No two reads were given the same part of a pool, and what was read is still there. -/
structure Sound (w : SharedPool δ) : Prop where
  none_iff : w.used = none ↔ w.allocated = 0
  used_le : w.used.getD 0 ≤ kPoolSize
  packed : Lib.Packed w.mark (w.lent.map Lent.region)
  held : ∀ e ∈ w.lent, ∀ bytes, e.read = some bytes → bytes.length ≤ e.toRead ∧
    w.memory.read e.pool e.start bytes.length = bytes

theorem Sound.apart (h : w.Sound) {e e' : Lent} (he : e ∈ w.lent) (he' : e' ∈ w.lent)
    (hne : e ≠ e') : e.region.Disjoint e'.region := by
  have hsymm : Std.Symm fun e e' : Lent => e.region.Disjoint e'.region :=
    ⟨fun _ _ hd a i hi => hd a i hi.symm⟩
  exact (List.pairwise_map.mp h.packed.disjoint).forall he he' hne

/-- What is put where a read is in flight leaves the others as they are. -/
theorem Sound.store (h : w.Sound) {e e' : Lent} (he : e ∈ w.lent) (he' : e' ∈ w.lent)
    {bytes : Bytes} (hread : e.read = some bytes) (hflight : e'.read = none) {j : ℕ}
    {values : Bytes} (hfits : j + values.length ≤ e'.toRead) :
    (w.memory.store e'.pool (e'.start + j) values).read e.pool e.start bytes.length = bytes := by
  obtain ⟨hlength, hheld⟩ := h.held e he bytes hread
  have hne : e ≠ e' := by
    rintro rfl
    cases hread.symm.trans hflight
  rw [Lib.Memory.read_store_apart, hheld]
  intro i hpool hlo hhi
  by_contra hin
  have hhas : e.region.Has e.pool i := ⟨rfl, Int.ofNat_le.mpr hlo, by
    show (i : ℤ) < e.start + e.toRead
    omega⟩
  have hhas' : e'.region.Has e.pool i := ⟨hpool.symm, by
    show (e'.start : ℤ) ≤ i
    omega, by
    show (i : ℤ) < e'.start + e'.toRead
    omega⟩
  exact h.apart he he' hne e.pool i ⟨hhas, hhas'⟩

theorem Sound.fill (h : w.Sound) {e : Lent} (he : e ∈ w.lent) (hflight : e.read = none) {j : ℕ}
    (hj : j < e.toRead) (b : UInt8) :
    Sound { w with memory := w.memory.store e.pool (e.start + j) [b] } where
  none_iff := h.none_iff
  used_le := h.used_le
  packed := h.packed
  held e' he' bytes hread := ⟨(h.held e' he' bytes hread).1, h.store he' he hread hflight hj⟩

/-- The bytes that a read has put into its part of the pool stay there from then on. -/
theorem Sound.complete (h : w.Sound) {a : ReadStream.Action}
    (hfits : ∀ k r e, a = .completed k r → (w.lent.filter (·.inFlight i))[k]? = some e →
      (r.getD []).length ≤ e.toRead) : (w.complete i a).Sound := by
  unfold SharedPool.complete
  split
  · rename_i k r
    split
    · exact h
    · rename_i e hget
      have hmem := List.mem_filter.mp (List.mem_of_getElem? hget)
      have hflight : e.read = none :=
        Option.isNone_iff_eq_none.mp (Bool.and_eq_true_iff.mp hmem.2).2
      have hlength := hfits k r e rfl hget
      refine ⟨h.none_iff, h.used_le, ?_, fun e' he' bytes hread => ?_⟩
      · show Lib.Packed w.mark _
        rw [map_returned]
        exact h.packed
      · rcases mem_returned he' with he' | ⟨e₀, hget₀, rfl⟩
        · exact ⟨(h.held e' he' bytes hread).1,
            h.store (j := 0) he' hmem.1 hread hflight (by omega)⟩
        · obtain rfl : e = e₀ := Option.some.inj (hget.symm.trans hget₀)
          obtain rfl : r.getD [] = bytes := Option.some.inj hread
          exact ⟨hlength, Lib.Memory.read_store _ _ _ _⟩
  · exact h

/-- A part of the pool is given to a read. -/
theorem Sound.lend (h : w.Sound) {allocated used toRead : ℕ} (i : ℕ)
    (hnext : used + toRead ≤ kPoolSize)
    (hpool : (allocated = w.allocated + 1 ∧ used = 0) ∨
      (allocated = w.allocated ∧ w.used = some used)) :
    Sound { w with
      allocated := allocated
      used := some (used + toRead)
      lent := w.lent ++ [⟨i, allocated - 1, used, toRead, none⟩] } := by
  have hallocated : allocated ≠ 0 := by
    rcases hpool with ⟨rfl, -⟩ | ⟨rfl, hused⟩
    · exact Nat.succ_ne_zero _
    · intro hzero
      cases (h.none_iff.mpr hzero).symm.trans hused
  refine ⟨iff_of_false nofun hallocated, hnext, ?_, fun e he bytes hread => ?_⟩
  · rw [List.map_append]
    refine Lib.Packed.perm (Lib.Packed.cons h.packed ?_ ?_ ?_ ?_)
      (List.perm_append_singleton _ _).symm
    · exact Int.natCast_nonneg used
    · show w.mark (allocated - 1) ≤ (used : ℤ)
      unfold mark
      rcases hpool with ⟨rfl, rfl⟩ | ⟨rfl, hused⟩
      · rw [if_neg (by omega), if_neg (by omega)]
        exact Int.le_refl 0
      · rw [if_neg (by omega), if_pos (by omega), hused]
        exact Int.le_refl _
    · intro a
      have hused := h.used_le
      unfold mark
      rcases hpool with ⟨rfl, rfl⟩ | ⟨rfl, hused'⟩
      · dsimp only
        split_ifs <;> omega
      · rw [hused'] at hused ⊢
        dsimp only [Option.getD_some]
        split_ifs <;> omega
    · show ((used : ℤ) + toRead) ≤ mark _ (allocated - 1)
      unfold mark
      rw [if_neg (by dsimp only; omega), if_pos (by dsimp only; omega)]
      exact Int.le_refl _
  · rcases List.mem_append.mp he with he | he
    · exact h.held e he bytes hread
    · cases List.mem_singleton.mp he
      cases hread

theorem Sound.issue (h : w.Sound) (hpool : s.pool = w.used) (hissues : ReadStream.Issues s s') :
    (w.issue i s s').Sound := by
  unfold SharedPool.issue
  dsimp only
  rcases hissues.cases with ⟨hreads, -⟩ | ⟨hreads, hused⟩
  · rw [hreads, List.getElem?_eq_none (Nat.le_refl _)]
    exact ⟨h.none_iff, h.used_le, h.packed, h.held⟩
  · rw [hreads, List.getElem?_concat_length, hused]
    dsimp only
    have hstream : Sound { w with stream := Function.update w.stream i s' } :=
      ⟨h.none_iff, h.used_le, h.packed, h.held⟩
    refine hstream.lend i s.toRead_le ?_
    split_ifs with hfull
    · exact .inl ⟨rfl, ReadStream.poolUsed_of_full hfull⟩
    · exact .inr ⟨rfl, hpool.symm.trans (ReadStream.poolUsed_of_room hfull)⟩

/-- The parts of the pool that the reads of a stream in flight were given. -/
def flights (w : SharedPool δ) (i : ℕ) : List Lent := w.lent.filter (·.inFlight i)

structure Inv (w : SharedPool δ) : Prop extends w.Sound where
  flights : ∀ i, (w.flights i).map Lent.toRead = (w.stream i).reads.map Read.length
  known : ∀ i, (w.stream i).Known fun b => ∃ e ∈ w.lent, e.stream = i ∧ e.read = some b
  within : ∀ i, (w.stream i).Within

theorem inv_new (memory : Lib.Memory ℕ UInt8) {stream : ℕ → ReadStream δ}
    (hstream : ∀ i, ∃ fd bufferSize range decoder,
      stream i = .new fd bufferSize range decoder) : (new memory stream).Inv where
  none_iff := iff_of_true rfl rfl
  used_le := Nat.zero_le _
  packed := Lib.Packed.nil
  held := nofun
  flights i := by
    obtain ⟨fd, bufferSize, range, decoder, hnew⟩ := hstream i
    show [] = ((stream i).reads).map Read.length
    rw [hnew]
    rfl
  known i := by
    obtain ⟨fd, bufferSize, range, decoder, hnew⟩ := hstream i
    show (stream i).Known _
    rw [hnew]
    exact ⟨nofun, nofun⟩
  within i := by
    obtain ⟨fd, bufferSize, range, decoder, hnew⟩ := hstream i
    show (stream i).Within
    rw [hnew]
    exact ReadStream.within_new fd bufferSize range decoder

theorem complete_stream (w : SharedPool δ) (i : ℕ) (a : ReadStream.Action) :
    (w.complete i a).stream = w.stream ∧ (w.complete i a).used = w.used := by
  unfold SharedPool.complete
  split
  · split
    · exact ⟨rfl, rfl⟩
    · exact ⟨rfl, rfl⟩
  · exact ⟨rfl, rfl⟩

/-- The reads that are in flight when the action has been taken. -/
theorem flights_complete {s : ReadStream δ}
    (h : (w.flights i).map Lent.toRead = s.reads.map Read.length) (a : ReadStream.Action) :
    ((w.complete i a).flights i).map Lent.toRead = (s.before a).reads.map Read.length ∧
      ∀ j ≠ i, (w.complete i a).flights j = w.flights j := by
  cases a with
  | completed k r =>
    unfold SharedPool.complete
    dsimp only
    split
    · rename_i hget
      refine ⟨?_, fun _ _ => rfl⟩
      have hlength : s.reads.length ≤ k := by
        rw [← List.length_map (f := Read.length), ← h, List.length_map]
        exact List.getElem?_eq_none_iff.mp hget
      show (w.flights i).map Lent.toRead = (s.reads.eraseIdx k).map Read.length
      rw [List.eraseIdx_of_length_le hlength]
      exact h
    · refine ⟨?_, fun j hj => filter_returned_other (Ne.symm hj) _ _ _⟩
      show ((returned i (r.getD []) k w.lent).filter _).map Lent.toRead =
        (s.reads.eraseIdx k).map Read.length
      rw [filter_returned, ← List.eraseIdx_map, ← List.eraseIdx_map, ← h]
      rfl
  | opened r => exact ⟨h, fun _ _ => rfl⟩
  | pause => exact ⟨h, fun _ _ => rfl⟩
  | resume => exact ⟨h, fun _ _ => rfl⟩
  | destroy => exact ⟨h, fun _ _ => rfl⟩
  | ret => exact ⟨h, fun _ _ => rfl⟩
  | pool used => exact ⟨h, fun _ _ => rfl⟩

theorem flights_issue {s s' : ReadStream δ} (hissues : ReadStream.Issues s s')
    (h : (w.flights i).map Lent.toRead = s.reads.map Read.length) :
    ((w.issue i s s').flights i).map Lent.toRead = s'.reads.map Read.length ∧
      ∀ j ≠ i, (w.issue i s s').flights j = w.flights j := by
  unfold SharedPool.issue
  dsimp only
  rcases hissues.cases with ⟨hreads, -⟩ | ⟨hreads, -⟩
  · rw [hreads, List.getElem?_eq_none (Nat.le_refl _)]
    exact ⟨h, fun _ _ => rfl⟩
  · rw [hreads, List.getElem?_concat_length]
    dsimp only
    constructor
    · show ((w.lent ++ [_]).filter _).map Lent.toRead = _
      rw [List.filter_append, List.map_append, List.map_append, ← h,
        List.filter_cons_of_pos (by simp [Lent.inFlight])]
      rfl
    · intro j hj
      show (w.lent ++ [_]).filter _ = _
      rw [List.filter_append, List.filter_cons_of_neg (by simp [Lent.inFlight, Ne.symm hj]),
        List.filter_nil, List.append_nil]
      rfl

/-- An entry whose read has returned stays, whatever the stream does. -/
theorem mem_complete {e : Lent} (he : e ∈ w.lent) (hread : e.read ≠ none) (i : ℕ)
    (a : ReadStream.Action) : e ∈ (w.complete i a).lent := by
  unfold SharedPool.complete
  split
  · split
    · exact he
    · exact mem_returned_of_mem he hread
  · exact he

theorem mem_issue {e : Lent} (he : e ∈ w.lent) (i : ℕ) (s s' : ReadStream δ) :
    e ∈ (w.issue i s s').lent := by
  unfold SharedPool.issue
  dsimp only
  split
  · exact he
  · exact List.mem_append_left _ he

theorem stream_issue (w : SharedPool δ) (i : ℕ) (s s' : ReadStream δ) :
    (w.issue i s s').stream = Function.update w.stream i s' := by
  unfold SharedPool.issue
  dsimp only
  split
  · rfl
  · rfl

/-- The read that returns has a part of the pool, in which there is room for the bytes. -/
theorem Inv.lent_of_completed (h : w.Inv) {i k : ℕ} {r : Option Bytes} {s' : ReadStream δ}
    (hs : ReadStream.step decode { w.stream i with pool := w.used } (.completed k r) = some s') :
    ∃ e, (w.lent.filter (·.inFlight i))[k]? = some e ∧ (r.getD []).length ≤ e.toRead := by
  dsimp only [ReadStream.step] at hs
  split at hs
  · cases hs
  · rename_i read hget
    split_ifs at hs with hok
    have hlength := congrArg (·[k]?) (h.flights i)
    rw [List.getElem?_map, List.getElem?_map, hget] at hlength
    obtain ⟨e, he, htoRead⟩ := Option.map_eq_some_iff.mp hlength
    refine ⟨e, he, ?_⟩
    rw [htoRead]
    obtain ⟨-, hall⟩ := Bool.and_eq_true_iff.mp hok
    cases r with
    | none => exact Nat.zero_le _
    | some bytes => exact of_decide_eq_true hall

/-- Everything is kept when something happens to a stream. -/
theorem Inv.act (h : w.Inv) {i : ℕ} {a : ReadStream.Action} (ha : ∀ used, a ≠ .pool used)
    {s' : ReadStream δ}
    (hs : ReadStream.step decode { w.stream i with pool := w.used } a = some s') :
    ((w.complete i a).issue i ({ w.stream i with pool := w.used }.before a) s').Inv := by
  have hissues := ReadStream.issues_step hs
  obtain ⟨hstream, hused⟩ := complete_stream w i a
  have hpool : ({ w.stream i with pool := w.used }.before a).pool = (w.complete i a).used := by
    rw [hused]
    cases a with
    | pool used => exact absurd rfl (ha used)
    | _ => rfl
  have hsound : (w.complete i a).Sound := by
    refine h.toSound.complete fun k r e hcompleted hget => ?_
    subst hcompleted
    obtain ⟨e', hget', hlength⟩ := h.lent_of_completed hs
    obtain rfl : e = e' := Option.some.inj (hget.symm.trans hget')
    exact hlength
  obtain ⟨hown, hothers⟩ :=
    flights_complete (s := { w.stream i with pool := w.used }) (h.flights i) a
  obtain ⟨hown', hothers'⟩ := flights_issue hissues hown
  have hlent : ∀ e ∈ w.lent, e.read ≠ none → e ∈ ((w.complete i a).issue i
      ({ w.stream i with pool := w.used }.before a) s').lent := fun e he hread =>
    mem_issue (mem_complete he hread i a) i _ s'
  refine ⟨hsound.issue hpool hissues, fun j => ?_, fun j => ?_, fun j => ?_⟩
  · rw [stream_issue, hstream]
    by_cases hj : j = i
    · rw [hj, Function.update_self]
      exact hown'
    · rw [Function.update_of_ne hj, hothers' j hj, hothers j hj]
      exact h.flights j
  · have hknown : (w.stream j).Known fun b => ∃ e ∈ ((w.complete i a).issue i
        ({ w.stream i with pool := w.used }.before a) s').lent, e.stream = j ∧ e.read = some b := by
      refine (h.known j).mono ?_
      rintro b ⟨e, he, hstream, hread⟩
      exact ⟨e, hlent e he (by rw [hread]; exact Option.some_ne_none b), hstream, hread⟩
    rw [stream_issue, hstream]
    by_cases hj : j = i
    · subst hj
      rw [Function.update_self]
      have hpooled : ReadStream.Known _ { w.stream j with pool := w.used } :=
        ⟨hknown.buffer, hknown.data⟩
      refine hpooled.step (fun k b hcompleted => ?_) hs
      subst hcompleted
      obtain ⟨e, hget, -⟩ := h.lent_of_completed hs
      have hmem : { e with read := some b } ∈ (w.complete j (.completed k (some b))).lent := by
        dsimp only [SharedPool.complete]
        rw [hget]
        exact mem_returned_of_get hget
      have hflight := (List.mem_filter.mp (List.mem_of_getElem? hget)).2
      exact ⟨_, mem_issue hmem j _ s', beq_iff_eq.mp (Bool.and_eq_true_iff.mp hflight).1, rfl⟩
    · rw [Function.update_of_ne hj]
      exact hknown
  · rw [stream_issue, hstream]
    by_cases hj : j = i
    · subst hj
      rw [Function.update_self]
      have hpooled : ReadStream.Within { w.stream j with pool := w.used } := h.within j
      exact hpooled.step hs
    · rw [Function.update_of_ne hj]
      exact h.within j

theorem Inv.step (h : w.Inv) {a : Action} (hs : w.step decode a = some w') : w'.Inv := by
  cases a with
  | act i a =>
    unfold SharedPool.step at hs
    split at hs
    · cases hs
    · rename_i i a ha heq
      obtain ⟨rfl, rfl⟩ := Action.act.inj heq
      obtain ⟨s', hs', rfl⟩ := Option.map_eq_some_iff.mp hs
      exact h.act (fun used hused => ha used hused) hs'
    · rename_i heq
      cases heq
  | fill n j b =>
    dsimp only [SharedPool.step] at hs
    split at hs
    · rename_i e hget
      split_ifs at hs with hflight
      obtain rfl := Option.some.inj hs
      obtain ⟨hnone, hj⟩ := Bool.and_eq_true_iff.mp hflight
      exact ⟨h.toSound.fill (List.mem_of_getElem? hget) (Option.isNone_iff_eq_none.mp hnone)
        (of_decide_eq_true hj) b, h.flights, h.known, h.within⟩
    · cases hs

def Inside (r : Lib.Region ℕ) : Prop := 0 ≤ r.start ∧ r.start + r.size ≤ kPoolSize

theorem Sound.inside (h : w.Sound) : ∀ r ∈ w.lent.map Lent.region, Inside r := by
  intro r hr
  have hmark : w.mark r.arena ≤ kPoolSize := by
    have hused := h.used_le
    unfold mark
    split_ifs <;> omega
  exact ⟨h.packed.start_nonneg r hr, (h.packed.below r hr).trans hmark⟩

end SharedPool

/-- At any time, whatever any number of streams do: no byte of a pool was given to two reads, all
parts are inside of their pools, the reads in flight have the parts that they were issued for, and
every buffer that was emitted has its bytes. Nor is what is left of a range ever negative. -/
theorem lent_apart {δ : Type} {decode : δ → Bytes → δ × JSString} {memory : Lib.Memory ℕ UInt8}
    {stream : ℕ → ReadStream δ} (hstream : ∀ i, ∃ fd bufferSize range decoder,
      stream i = .new fd bufferSize range decoder)
    {w : SharedPool δ} (hreach : Lib.Reach (SharedPool.step decode) (fun _ _ => True)
      (.new memory stream) w) :
    (w.lent.map Lent.region).Pairwise Lib.Region.Disjoint ∧
    (∀ r ∈ w.lent.map Lent.region, SharedPool.Inside r) ∧
    (∀ i, (w.flights i).map Lent.toRead = (w.stream i).reads.map Read.length) ∧
    (∀ i b, .buffer b ∈ (w.stream i).data → ∃ e ∈ w.lent, e.stream = i ∧ e.read = some b ∧
      w.memory.read e.pool e.start b.length = b) ∧
    ∀ i, (w.stream i).Within := by
  have hinv : w.Inv := hreach.invariant (SharedPool.inv_new memory hstream)
    fun _ _ _ h _ hs => h.step hs
  refine ⟨hinv.packed.disjoint, hinv.toSound.inside, hinv.flights, fun i b hb => ?_, hinv.within⟩
  obtain ⟨e, he, hi, hread⟩ := (hinv.known i).data b hb
  exact ⟨e, he, hi, hread, (hinv.held e he b hread).2⟩

/-- Two streams read at the same time. -/
theorem lent_apart_two : ∃ w : SharedPool Unit,
    Lib.run (SharedPool.step fun _ _ => ((), []))
      (.new (fun _ _ => 0) fun _ => .new none 65536 none none)
      [.act 0 (.opened (some 3)), .act 1 (.opened (some 4)), .act 0 .ret, .act 1 .ret] = some w ∧
    w.lent.length = 2 ∧ (w.lent.map Lent.region).Pairwise Lib.Region.Disjoint := by
  obtain ⟨w, hw, hlength⟩ : ∃ w : SharedPool Unit,
      Lib.run (SharedPool.step fun _ _ => ((), []))
        (.new (fun _ _ => 0) fun _ => .new none 65536 none none)
        [.act 0 (.opened (some 3)), .act 1 (.opened (some 4)), .act 0 .ret, .act 1 .ret] = some w ∧
      w.lent.length = 2 := ⟨_, rfl, rfl⟩
  exact ⟨w, hw, hlength, (lent_apart (fun _ => ⟨none, 65536, none, none, rfl⟩)
    (Lib.reach_of_run hw fun _ _ => trivial)).1⟩

end NodeJS.Fs
