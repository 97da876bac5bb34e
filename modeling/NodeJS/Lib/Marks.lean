import Mathlib.Data.Finset.Basic
import Mathlib.Tactic.Common

/-! Machines that read a stream as it arrives, window by window, and hand on pieces of it in
place. A mark says where in the window at hand a piece begins; at the end of a window the pieces
that have begun are handed on as far as they go, and go on with the next window. How the stream is
cut into windows makes no difference to a client that puts its pieces together again. -/
namespace Lib.Marks
variable {α K Q S O U : Type}

/-- What a machine does with the element at hand. A client answers zero, or something else to
interfere. -/
inductive Act (K Q S O : Type)
  /-- On to the next element. -/
  | next (s : S)
  | stop (o : O)
  /-- A piece begins with this element. -/
  | mark (k : K) (rest : Act K Q S O)
  /-- A piece ends before this element, and is handed on. -/
  | hand (k : K) (rest : ℤ → Act K Q S O)
  | ask (q : Q) (rest : ℤ → Act K Q S O)
  /-- This element and those after it, so many, go to the body in one. -/
  | take (n : ℕ) (rest : Act K Q S O)

/-- The client. A piece is a window, where the piece begins in it, and its length. -/
structure Client (α K Q U : Type) where
  data : K → List α → ℕ → ℕ → U → ℤ × U
  body : List α → ℕ → ℕ → U → U
  ask : Q → U → ℤ × U

/-- The variables of the loop over a window. -/
structure Cursor (K U : Type) where
  p : ℕ
  marks : K → Option ℕ
  user : U

/-- `step` gets to know how many elements the window has left. A state is in the middle of its
`active` pieces. -/
structure Machine (α K Q S O : Type) where
  step : S → α → ℕ → Act K Q S O
  active : S → Finset K
  /-- The order in which pieces are handed on at the end of a window. -/
  order : List K
  /-- The client interferes at the end of a window. -/
  refused : S → O

/-- How a run ends: all was read, or the element with this number was the last one looked at. -/
inductive Outcome (S O U : Type)
  | done (s : S) (u : U)
  | stopped (o : O) (n : ℕ) (u : U)

/-- The run after so many elements that are counted too. -/
def Outcome.shift (n : ℕ) : Outcome S O U → Outcome S O U
  | .done s u => .done s u
  | .stopped o m u => .stopped o (n + m) u

def Outcome.andThen (r : Outcome S O U) (n : ℕ) (f : S → U → Outcome S O U) : Outcome S O U :=
  match r with
  | .stopped o m u => .stopped o m u
  | .done s u => (f s u).shift n

@[simp] theorem Outcome.shift_done (n : ℕ) (s : S) (u : U) :
    (Outcome.done s u : Outcome S O U).shift n = .done s u := rfl

@[simp] theorem Outcome.shift_stopped (n : ℕ) (o : O) (m : ℕ) (u : U) :
    (Outcome.stopped o m u : Outcome S O U).shift n = .stopped o (n + m) u := rfl

@[simp] theorem Outcome.shift_zero (r : Outcome S O U) : r.shift 0 = r := by
  cases r with
  | done s u => rfl
  | stopped o m u => simp

@[simp] theorem Outcome.shift_shift (n k : ℕ) (r : Outcome S O U) :
    (r.shift k).shift n = r.shift (n + k) := by
  cases r with
  | done s u => rfl
  | stopped o m u => simp [Nat.add_assoc]

@[simp] theorem Outcome.andThen_done (s : S) (u : U) (n : ℕ) (f : S → U → Outcome S O U) :
    (Outcome.done s u : Outcome S O U).andThen n f = (f s u).shift n := rfl

@[simp] theorem Outcome.andThen_stopped (o : O) (m : ℕ) (u : U) (n : ℕ)
    (f : S → U → Outcome S O U) :
    (Outcome.stopped o m u : Outcome S O U).andThen n f = .stopped o m u := rfl

/-! ### Window by window -/

section Window
variable [DecidableEq K]

def Act.exec (c : Client α K Q U) (w : List α) : Act K Q S O → Cursor K U → (S ⊕ O) × Cursor K U
  | .next s, x => (.inl s, { x with p := x.p + 1 })
  | .stop o, x => (.inr o, x)
  | .mark k rest, x => rest.exec c w { x with marks := Function.update x.marks k (some x.p) }
  | .hand k rest, x =>
    match x.marks k with
    | none => (rest 0).exec c w x
    | some m =>
      (rest (c.data k w m (x.p - m) x.user).1).exec c w
        { x with
          marks := Function.update x.marks k none
          user := (c.data k w m (x.p - m) x.user).2 }
  | .ask q rest, x => (rest (c.ask q x.user).1).exec c w { x with user := (c.ask q x.user).2 }
  | .take n rest, x =>
    rest.exec c w { x with p := x.p + n - 1, user := c.body w x.p n x.user }

def Machine.loop (m : Machine α K Q S O) (c : Client α K Q U) (w : List α) :
    ℕ → S → Cursor K U → (S ⊕ O) × Cursor K U
  | 0, s, x => (.inl s, x)
  | rounds + 1, s, x =>
    match w[x.p]? with
    | none => (.inl s, x)
    | some a =>
      match (m.step s a (w.length - x.p)).exec c w x with
      | (.inl s, x) => m.loop c w rounds s x
      | (.inr o, x) => (.inr o, x)

/-- The end of a window: the pieces that have begun, or what the client had seen when it
interfered. -/
def handOn (c : Client α K Q U) (w : List α) (x : Cursor K U) : List K → U → Bool × U
  | [], u => (true, u)
  | k :: order, u =>
    match x.marks k with
    | none => handOn c w x order u
    | some m =>
      if (c.data k w m (x.p - m) u).1 ≠ 0 then (false, (c.data k w m (x.p - m) u).2)
      else handOn c w x order (c.data k w m (x.p - m) u).2

def Machine.entry (m : Machine α K Q S O) (s : S) (u : U) : Cursor K U :=
  ⟨0, fun k => if k ∈ m.active s then some 0 else none, u⟩

def Machine.window (m : Machine α K Q S O) (c : Client α K Q U) (w : List α) (s : S) (u : U) :
    Outcome S O U :=
  match m.loop c w w.length s (m.entry s u) with
  | (.inr o, x) => .stopped o x.p x.user
  | (.inl s, x) =>
    if (handOn c w x m.order x.user).1 then .done s (handOn c w x m.order x.user).2
    else .stopped (m.refused s) x.p (handOn c w x m.order x.user).2

def Machine.windows (m : Machine α K Q S O) (c : Client α K Q U) :
    List (List α) → S → U → Outcome S O U
  | [], s, u => .done s u
  | w :: ws, s, u => (m.window c w s u).andThen w.length (m.windows c ws)

end Window

/-! ### Element by element -/

/-- A client that takes pieces as they come. -/
structure Feed (α K Q U : Type) where
  data : K → List α → U → U
  body : List α → U → U
  ask : Q → U → ℤ × U

def Act.feed (f : Feed α K Q U) (a : α) : Act K Q S O → U → (S ⊕ O) × U
  | .next s, u => (.inl s, u)
  | .stop o, u => (.inr o, u)
  | .mark k rest, u => rest.feed f a (f.data k [] u)
  | .hand _ rest, u => (rest 0).feed f a u
  | .ask q rest, u => (rest (f.ask q u).1).feed f a (f.ask q u).2
  | .take _ rest, u => rest.feed f a (f.body [a] u)

section Bytes
variable [DecidableEq K]

/-- An element goes to all pieces it is part of. -/
def fed (f : Feed α K Q U) (A : Finset K) (a : α) : List K → U → U
  | [], u => u
  | k :: order, u => fed f A a order (if k ∈ A then f.data k [a] u else u)

def Machine.byte (m : Machine α K Q S O) (f : Feed α K Q U) (s : S) (a : α) (u : U) :
    (S ⊕ O) × U :=
  match (m.step s a 1).feed f a u with
  | (.inl s, u) => (.inl s, fed f (m.active s) a m.order u)
  | (.inr o, u) => (.inr o, u)

/-- The machine without windows and without marks. -/
def Machine.bytes (m : Machine α K Q S O) (f : Feed α K Q U) : List α → S → U → Outcome S O U
  | [], s, u => .done s u
  | a :: l, s, u =>
    match m.byte f s a u with
    | (.inl s, u) => (m.bytes f l s u).shift 1
    | (.inr o, u) => .stopped o 0 u

theorem Machine.bytes_append (m : Machine α K Q S O) (f : Feed α K Q U) (l l' : List α) (s : S)
    (u : U) : m.bytes f (l ++ l') s u = (m.bytes f l s u).andThen l.length (m.bytes f l') := by
  induction l generalizing s u with
  | nil => simp [bytes]
  | cons a l ih =>
    rw [List.cons_append, bytes, bytes]
    obtain ⟨r, u⟩ := m.byte f s a u
    cases r with
    | inr o => rfl
    | inl s =>
      dsimp only
      rw [ih]
      cases m.bytes f l s u with
      | done s u => simp [Nat.add_comm]
      | stopped o n u => rfl

/-- All of it is read, and this is what comes of it. -/
def Machine.Reads (m : Machine α K Q S O) (f : Feed α K Q U) (l : List α) (s : S) (u : U) (s' : S)
    (u' : U) : Prop :=
  m.bytes f l s u = .done s' u'

section Reads
variable {m : Machine α K Q S O} {f : Feed α K Q U} {l l' : List α} {s s' s'' : S} {u u' u'' : U}

theorem Machine.Reads.nil : m.Reads f [] s u s u := rfl

theorem Machine.Reads.cons {a : α} (h : m.byte f s a u = (.inl s', u'))
    (hrest : m.Reads f l s' u' s'' u'') : m.Reads f (a :: l) s u s'' u'' := by
  unfold Reads at hrest ⊢
  rw [bytes, h]
  dsimp only
  rw [hrest]
  rfl

theorem Machine.Reads.one {a : α} (h : m.byte f s a u = (.inl s', u')) : m.Reads f [a] s u s' u' :=
  .cons h .nil

theorem Machine.Reads.append (h : m.Reads f l s u s' u') (h' : m.Reads f l' s' u' s'' u'') :
    m.Reads f (l ++ l') s u s'' u'' := by
  unfold Reads at h h' ⊢
  rw [bytes_append, h, Outcome.andThen_done, h']
  rfl

end Reads

end Bytes

/-! ### What keeps the two together -/

def slice (w : List α) (at' length : ℕ) : List α := (w.drop at').take length

/-- The client takes what it is handed as the feed does, and never interferes with a piece. -/
structure Client.Follows (c : Client α K Q U) (f : Feed α K Q U) : Prop where
  data : ∀ k w i n u, c.data k w i n u = (0, f.data k (slice w i n) u)
  body : ∀ w i n u, c.body w i n u = f.body (slice w i n) u
  ask : ∀ q u, c.ask q u = f.ask q u

/-- The client that lets a feed take what it is handed. -/
def Feed.client (f : Feed α K Q U) : Client α K Q U where
  data k w i n u := (0, f.data k (slice w i n) u)
  body w i n u := f.body (slice w i n) u
  ask := f.ask

theorem Feed.client_follows (f : Feed α K Q U) : f.client.Follows f :=
  ⟨fun _ _ _ _ _ => rfl, fun _ _ _ _ => rfl, fun _ _ => rfl⟩

/-- Pieces can be cut, and pieces of kinds that can overlap can come in either order. -/
structure Feed.Lawful (f : Feed α K Q U) (overlap : K → K → Prop) : Prop where
  append : ∀ k x y u, f.data k y (f.data k x u) = f.data k (x ++ y) u
  body_append : ∀ x y u, f.body y (f.body x u) = f.body (x ++ y) u
  comm : ∀ k k', overlap k k' → ∀ x y u,
    f.data k x (f.data k' y u) = f.data k' y (f.data k x u)

/-- Nothing is taken in one. -/
def Act.Plain : Act K Q S O → Prop
  | .next _ => True
  | .stop _ => True
  | .mark _ rest => rest.Plain
  | .hand _ rest => ∀ r, (rest r).Plain
  | .ask _ rest => ∀ r, (rest r).Plain
  | .take _ _ => False

section Marked
variable [DecidableEq K]

/-- The pieces that have begun are those the next state is in the middle of; the client is asked,
or takes a body, between pieces only. A stop may lose the pieces that have begun. -/
def Act.Marked (active : S → Finset K) (overlap : K → K → Prop) (loses : O → Prop) :
    Finset K → Act K Q S O → Prop
  | A, .next s => A = active s
  | A, .stop o => loses o ∨ A = ∅
  | A, .mark k rest =>
    k ∉ A ∧ (∀ k' ∈ A, overlap k k' ∧ overlap k' k) ∧ rest.Marked active overlap loses (insert k A)
  | A, .hand k rest => (rest 0).Marked active overlap loses (A.erase k)
  | A, .ask _ rest => A = ∅ ∧ ∀ r, (rest r).Marked active overlap loses ∅
  | A, .take _ rest => A = ∅ ∧ rest.Marked active overlap loses ∅

end Marked

/-- Taking several elements in one is the same as taking them one by one. -/
inductive Machine.Bulk (m : Machine α K Q S O) : S → ℕ → ℕ → Act K Q S O → Prop
  | one {s : S} {left : ℕ} {rest : Act K Q S O} (h : ∀ a, m.step s a left = .take 1 rest)
      (h1 : ∀ a, m.step s a 1 = .take 1 rest) (hrest : rest.Plain) : m.Bulk s left 1 rest
  | more {s s' : S} {left n : ℕ} {rest : Act K Q S O}
      (h : ∀ a, m.step s a (left + 1) = .take (n + 1) rest)
      (h1 : ∀ a, m.step s a 1 = .take 1 (.next s')) (hmore : m.Bulk s' left n rest) :
      m.Bulk s (left + 1) (n + 1) rest

/-- The machine keeps its marks in order. -/
structure Machine.Orderly [DecidableEq K] (m : Machine α K Q S O) (overlap : K → K → Prop)
    (loses : O → Prop) : Prop where
  order : m.order.Nodup
  complete : ∀ k, k ∈ m.order
  active : ∀ s, ∀ k ∈ m.active s, ∀ k' ∈ m.active s, k ≠ k' → overlap k k'
  marked : ∀ s a n, 0 < n → (m.step s a n).Marked m.active overlap loses (m.active s)
  bulk : ∀ s a n, 0 < n → (m.step s a n).Plain ∧ m.step s a n = m.step s a 1 ∨
    ∃ k rest, k ≤ n ∧ m.step s a n = .take k rest ∧ m.Bulk s n k rest

/-! ### What every step keeps -/

/-- Whatever the client answers, the next state and the stops are such. -/
def Act.Ensures (P : S → Prop) (PO : O → Prop) : Act K Q S O → Prop
  | .next s => P s
  | .stop o => PO o
  | .mark _ rest => rest.Ensures P PO
  | .hand _ rest => ∀ r, (rest r).Ensures P PO
  | .ask _ rest => ∀ r, (rest r).Ensures P PO
  | .take _ rest => rest.Ensures P PO

def Outcome.Ensures (P : S → Prop) (PO : O → Prop) : Outcome S O U → Prop
  | .done s _ => P s
  | .stopped o _ _ => PO o

section Ensures
variable [DecidableEq K] {P : S → Prop} {PO : O → Prop} {c : Client α K Q U} {w : List α}

theorem Act.Ensures.exec {act : Act K Q S O} (h : act.Ensures P PO) (x : Cursor K U) :
    Sum.elim P PO (act.exec c w x).1 := by
  induction act generalizing x with
  | next s => exact h
  | stop o => exact h
  | mark k rest ih => exact ih h _
  | hand k rest ih =>
    rw [Act.exec]
    cases x.marks k with
    | none => exact ih 0 (h 0) x
    | some i => exact ih _ (h _) _
  | ask q rest ih => exact ih _ (h _) _
  | take n rest ih => exact ih h _

variable {m : Machine α K Q S O} (hstep : ∀ s a n, P s → (m.step s a n).Ensures P PO)

include hstep in
theorem Machine.loop_ensures (rounds : ℕ) {s : S} (h : P s) (x : Cursor K U) :
    Sum.elim P PO (m.loop c w rounds s x).1 := by
  induction rounds generalizing s x with
  | zero => exact h
  | succ rounds ih =>
    rw [loop]
    cases w[x.p]? with
    | none => exact h
    | some a =>
      have hexec := (hstep s a (w.length - x.p) h).exec (c := c) (w := w) x
      dsimp only
      generalize (m.step s a (w.length - x.p)).exec c w x = r at hexec ⊢
      obtain ⟨s | o, x⟩ := r
      · exact ih hexec x
      · exact hexec

include hstep in
/-- What every step keeps is kept by a window, and the loop stops only as its steps do. -/
theorem Machine.window_ensures (hrefused : ∀ s, PO (m.refused s)) {s : S} (h : P s) (u : U) :
    (m.window c w s u).Ensures P PO := by
  have hloop := loop_ensures (c := c) (w := w) hstep w.length h (m.entry s u)
  rw [window]
  generalize m.loop c w w.length s (m.entry s u) = r at hloop ⊢
  obtain ⟨s | o, x⟩ := r
  · dsimp only
    split_ifs
    · exact hloop
    · exact hrefused s
  · exact hloop

end Ensures

end Lib.Marks
