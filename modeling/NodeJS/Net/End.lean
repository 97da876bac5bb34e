import NodeJS.Net.Handover

/-! `Socket.prototype.end` for any answers of the kernel, and when it throws. -/
namespace NodeJS.Net

/-- The count that `_writeImpl` returns is the one it was given. A write of nothing that would
block is such a case, on a socket that is not a unix one. -/
def Sys.Takes (sys : Sys) (unix : Bool) (len : ℕ) : Prop :=
  sys.All len ∨ sys = .again ∧ unix = false ∧ len = 0

/-- The Buffer that an item is written from, and where it begins there. -/
def Data.source (p : Pool) : Data → Buf × ℕ
  | .buf b => (b, 0)
  | .str _ => (.pool p.ensure.current, p.ensure.used)

/-- The pool after all of an item was sent, as far as its length goes. -/
def Pool.sent (p : Pool) : Data → Pool
  | .buf b => if b = .pool p.current then { p with used := p.used - b.length } else p
  | .str _ => p.ensure

section
variable (kernel : Kernel)

end

/-! ### One hand-over -/

section
variable {kernel : Kernel} {n : State} {buffer : Buf} {off len : ℕ} {fd : Option ℕ}

/-- What a system call leaves as it was. -/
structure Spent (s s' : Socket) : Prop where
  queue : s'.queue = s.queue
  queueFD : s'.queueFD = s.queueFD
  unix : s'.unix = s.unix
  writable : s'.writable = s.writable
  connecting : s'.connecting = s.connecting
  calls : s'.calls = s.calls + 1

end

/-! ### From one item to the next -/

/-- Two pools into which the same goes. -/
def Pool.Alike (p p' : Pool) : Prop := p.count = p'.count ∧ p.used = p'.used

theorem Pool.Alike.ensure {p p' : Pool} (h : p.Alike p') : p.ensure.Alike p'.ensure := by
  unfold Pool.ensure
  rw [h.1, h.2]
  split_ifs
  · exact ⟨congrArg (· + 1) h.1, rfl⟩
  · exact h

theorem Pool.Alike.current {p p' : Pool} (h : p.Alike p') : p.current = p'.current :=
  congrArg (· - 1) h.1

theorem Pool.Alike.offer {p p' : Pool} (h : p.Alike p') (encoding : EncArg) (data : Data) :
    offer p encoding data = offer p' encoding data := by
  cases data with
  | buf b => rfl
  | str s =>
    unfold Net.offer
    rw [h.ensure.2]

theorem Pool.Alike.source {p p' : Pool} (h : p.Alike p') (data : Data) :
    data.source p = data.source p' := by
  cases data with
  | buf b => rfl
  | str s =>
    unfold Data.source
    rw [h.ensure.2, h.ensure.current]

theorem Pool.Alike.sent {p p' : Pool} (h : p.Alike p') (data : Data) :
    (p.sent data).Alike (p'.sent data) := by
  cases data with
  | buf b =>
    unfold Pool.sent
    dsimp only
    rw [h.current]
    split_ifs
    · exact ⟨h.1, congrArg (· - b.length) h.2⟩
    · exact h
  | str s => exact h.ensure

section
variable {kernel : Kernel} {n n' : State} {arg : Option (Data × EncArg)} {data : Data}
  {encoding : EncArg}

end

end NodeJS.Net
