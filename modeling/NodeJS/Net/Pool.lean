import NodeJS.Buffer.Encoding

/-! The pool that all sockets share, the Buffers that point into it, and the part of it that
nothing will store to again. -/
namespace NodeJS.Net

def kMinPoolSpace : ℕ := 128

def kPoolSize : ℕ := 40 * 1024

/-- The memory of every pool allocated so far. The last one is the module's `pool`, which is
null before the first allocation. -/
structure Pool where
  mem : ℕ → ℕ → UInt8
  count : ℕ
  used : ℕ

def Pool.current (p : Pool) : ℕ := p.count - 1

def allocNewPool (p : Pool) : Pool := { p with count := p.count + 1, used := 0 }

/-- The guard in front of every use: a new pool when there is none or little is left of it. -/
def Pool.ensure (p : Pool) : Pool :=
  if p.count = 0 ∨ kPoolSize - p.used < kMinPoolSpace then allocNewPool p else p

/-- Bytes stored from `pool.used` on. -/
def Pool.store (p : Pool) (bytes : Bytes) : Pool :=
  { p with mem := Function.update p.mem p.current fun i =>
      if p.used ≤ i then bytes.getD (i - p.used) (p.mem p.current i) else p.mem p.current i }

/-- A Buffer: one of the user's own, the pool itself, or a slice of a pool. -/
inductive Buf
  | user (bytes : Bytes)
  | pool (id : ℕ)
  | window (id start stop : ℕ)
  deriving DecidableEq

def Buf.length : Buf → ℕ
  | .user bytes => bytes.length
  | .pool _ => kPoolSize
  | .window _ start stop => stop - start

def Buf.slice : Buf → ℕ → ℕ → Buf
  | .user bytes, s, e => .user ((bytes.drop s).take (e - s))
  | .pool id, s, e => .window id s e
  | .window id start _, s, e => .window id (start + s) (start + e)

/-- The memory a Buffer refers to, from `off` on. -/
def Buf.read (p : Pool) : Buf → ℕ → ℕ → Bytes
  | .user bytes, off, len => (bytes.drop off).take len
  | .pool id, off, len => (List.range' off len).map (p.mem id)
  | .window id start _, off, len => (List.range' (start + off) len).map (p.mem id)

def Buf.bytes (p : Pool) (b : Buf) : Bytes := b.read p 0 b.length

theorem ensure_room (p : Pool) :
    p.ensure.count ≠ 0 ∧ p.ensure.used + kMinPoolSpace ≤ kPoolSize := by
  unfold Pool.ensure
  split_ifs with h
  · simp [allocNewPool, kMinPoolSpace, kPoolSize]
  · rw [not_or] at h
    have hroom := h.2
    refine ⟨h.1, ?_⟩
    simp only [kMinPoolSpace, kPoolSize] at hroom ⊢
    omega

theorem used_ensure_lt (p : Pool) : p.ensure.used < kPoolSize := by
  have hroom := (ensure_room p).2
  simp only [kMinPoolSpace] at hroom
  omega

theorem read_append (p : Pool) (b : Buf) (off : ℕ) {n len : ℕ} (h : n ≤ len) :
    b.read p off n ++ b.read p (off + n) (len - n) = b.read p off len := by
  obtain ⟨m, rfl⟩ := Nat.exists_eq_add_of_le h
  rw [Nat.add_sub_cancel_left]
  cases b with
  | user bytes =>
    simp only [Buf.read]
    rw [List.take_add, List.drop_drop]
  | pool id =>
    simp only [Buf.read]
    rw [← List.map_append, List.range'_append_1]
  | window id start stop =>
    simp only [Buf.read]
    rw [← List.map_append, ← Nat.add_assoc, List.range'_append_1]

theorem bytes_slice (p : Pool) (b : Buf) {s e : ℕ} (h : e ≤ b.length) :
    (b.slice s e).bytes p = b.read p s (e - s) := by
  cases b with
  | user bytes =>
    simp only [Buf.slice, Buf.bytes, Buf.read, Buf.length, List.drop_zero, List.take_length]
  | pool id => simp [Buf.slice, Buf.bytes, Buf.read, Buf.length]
  | window id start stop =>
    simp only [Buf.slice, Buf.bytes, Buf.read, Buf.length, Nat.add_zero]
    rw [Nat.add_sub_add_left]

theorem length_slice (b : Buf) {s e : ℕ} (h : e ≤ b.length) : (b.slice s e).length = e - s := by
  cases b with
  | user bytes =>
    simp only [Buf.length] at h
    simp only [Buf.slice, Buf.length, List.length_take, List.length_drop]
    omega
  | pool id => rfl
  | window id start stop =>
    simp only [Buf.slice, Buf.length]
    omega

/-- What has been stored can be read back at the place it was stored to. -/
theorem read_store {p : Pool} {bytes : Bytes} {len : ℕ} (h : len ≤ bytes.length) :
    (Buf.pool p.current).read (p.store bytes) p.used len = bytes.take len := by
  apply List.ext_getElem
  · simp [Buf.read, h]
  · intro i h₁ h₂
    simp only [Buf.read, List.length_map, List.length_range'] at h₁
    have hi : i < bytes.length := by omega
    simp [Buf.read, Pool.store, hi]

/-- Memory that the pool's users have given away: an earlier pool, or the part of the current
one below `pool.used`. -/
def Pool.Frozen (p : Pool) (id i : ℕ) : Prop :=
  id < p.count ∧ (id = p.current → i < p.used)

/-- A Buffer whose content cannot change under it. -/
def Buf.Frozen (p : Pool) : Buf → Prop
  | .user _ => True
  | .pool _ => False
  | .window id start stop => ∀ i, start ≤ i → i < stop → p.Frozen id i

/-- `p'` is a later state of the pool: what was given away is still so and is unchanged. -/
def Pool.Keeps (p p' : Pool) : Prop :=
  ∀ id i, p.Frozen id i → p'.Frozen id i ∧ p'.mem id i = p.mem id i

theorem Pool.Keeps.refl (p : Pool) : p.Keeps p := fun _ _ h => ⟨h, rfl⟩

theorem Pool.Keeps.trans {p p' p'' : Pool} (h : p.Keeps p') (h' : p'.Keeps p'') : p.Keeps p'' := by
  intro id i hi
  obtain ⟨hf, hm⟩ := h id i hi
  obtain ⟨hf', hm'⟩ := h' id i hf
  exact ⟨hf', hm'.trans hm⟩

theorem keeps_ensure (p : Pool) : p.Keeps p.ensure := by
  intro id i hi
  unfold Pool.ensure
  split_ifs
  · refine ⟨⟨?_, ?_⟩, rfl⟩
    · have := hi.1
      simp only [allocNewPool]
      omega
    · have := hi.1
      simp only [allocNewPool, Pool.current]
      omega
  · exact ⟨hi, rfl⟩

theorem keeps_store (p : Pool) (bytes : Bytes) : p.Keeps (p.store bytes) := by
  intro id i hi
  refine ⟨hi, ?_⟩
  unfold Pool.store
  by_cases hid : id = p.current
  · have hlt := hi.2 hid
    subst hid
    simp [Nat.not_le.mpr hlt]
  · simp [hid]

theorem keeps_advance (p : Pool) (n : ℕ) : p.Keeps { p with used := p.used + n } := by
  intro id i hi
  refine ⟨⟨hi.1, fun hid => ?_⟩, rfl⟩
  have := hi.2 hid
  dsimp only
  omega

theorem Buf.Frozen.keeps {p p' : Pool} {b : Buf} (h : b.Frozen p) (hp : p.Keeps p') :
    b.Frozen p' ∧ b.bytes p' = b.bytes p := by
  cases b with
  | user bytes => exact ⟨trivial, rfl⟩
  | pool id => exact h.elim
  | window id start stop =>
    refine ⟨fun i h₁ h₂ => (hp id i (h i h₁ h₂)).1, ?_⟩
    simp only [Buf.bytes, Buf.read, Buf.length, List.map_inj_left, List.mem_range'_1]
    intro i hi
    exact (hp id i (h i (by omega) (by omega))).2

theorem Buf.Frozen.slice {p : Pool} {b : Buf} (h : b.Frozen p) {s e : ℕ} (he : e ≤ b.length) :
    (b.slice s e).Frozen p := by
  cases b with
  | user bytes => trivial
  | pool id => exact h.elim
  | window id start stop =>
    intro i h₁ h₂
    simp only [Buf.length] at he
    exact h i (by omega) (by omega)

end NodeJS.Net
