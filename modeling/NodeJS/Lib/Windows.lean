import NodeJS.Lib.Marks

/-! How a stream is cut into windows makes no difference to a machine that keeps its marks in
order. -/
namespace Lib.Marks
variable {α K Q S O U : Type}

/-! ### The pieces that have begun -/

section Handed
variable {f : Feed α K Q U} {overlap : K → K → Prop} {A : Finset K} {w : List α}

/-- What the client has seen once the pieces that have begun are handed on, as far as they go. -/
def handed (f : Feed α K Q U) (w : List α) (marks : K → Option ℕ) (p : ℕ) : List K → U → U
  | [], u => u
  | k :: order, u =>
    handed f w marks p order
      (match marks k with
        | none => u
        | some i => f.data k (slice w i (p - i)) u)

theorem handed_of_none {marks : K → Option ℕ} {order : List K} (h : ∀ k ∈ order, marks k = none)
    (p : ℕ) (u : U) : handed f w marks p order u = u := by
  induction order with
  | nil => rfl
  | cons k order ih =>
    rw [handed, h k List.mem_cons_self]
    exact ih fun k hk => h k (List.mem_cons_of_mem _ hk)

theorem handed_congr {marks marks' : K → Option ℕ} {order : List K}
    (h : ∀ k ∈ order, marks k = marks' k) (p : ℕ) (u : U) :
    handed f w marks p order u = handed f w marks' p order u := by
  induction order generalizing u with
  | nil => rfl
  | cons k order ih =>
    rw [handed, handed, h k List.mem_cons_self]
    exact ih (fun k hk => h k (List.mem_cons_of_mem _ hk)) _

/-- A piece that overlaps those that have begun can come before them or after them. -/
theorem handed_comm (hf : f.Lawful overlap) {marks : K → Option ℕ} {order : List K} {k : K}
    (h : ∀ k' ∈ order, (marks k').isSome → overlap k k') (p : ℕ) (b : List α) (u : U) :
    handed f w marks p order (f.data k b u) = f.data k b (handed f w marks p order u) := by
  induction order generalizing u with
  | nil => rfl
  | cons k' order ih =>
    have hrest := ih fun k' hk' => h k' (List.mem_cons_of_mem _ hk')
    rw [handed, handed]
    cases hk : marks k' with
    | none => exact hrest u
    | some i =>
      have hov : overlap k k' := h k' List.mem_cons_self (by simp [hk])
      dsimp only
      rw [← hf.comm k k' hov, hrest]

def Overlapping (overlap : K → K → Prop) (A : Finset K) : Prop :=
  ∀ k ∈ A, ∀ k' ∈ A, k ≠ k' → overlap k k'

structure Cursor.Holds (x : Cursor K U) (A : Finset K) : Prop where
  set : ∀ k, (x.marks k).isSome ↔ k ∈ A
  le : ∀ k i, x.marks k = some i → i ≤ x.p

variable [DecidableEq K]

theorem Overlapping.erase (h : Overlapping overlap A) (k : K) : Overlapping overlap (A.erase k) :=
  fun k₁ h₁ k₂ h₂ => h k₁ (Finset.mem_of_mem_erase h₁) k₂ (Finset.mem_of_mem_erase h₂)

theorem Overlapping.insert (h : Overlapping overlap A) {k : K}
    (hk : ∀ k' ∈ A, overlap k k' ∧ overlap k' k) : Overlapping overlap (insert k A) := by
  intro k₁ h₁ k₂ h₂ hne
  rcases Finset.mem_insert.mp h₁ with rfl | hA₁
  · exact (hk k₂ ((Finset.mem_insert.mp h₂).resolve_left (Ne.symm hne))).1
  · rcases Finset.mem_insert.mp h₂ with rfl | hA₂
    · exact (hk k₁ hA₁).2
    · exact h k₁ hA₁ k₂ hA₂ hne

/-- Handing on a piece at its end changes nothing about what will have been handed on. -/
theorem handed_hand (hf : f.Lawful overlap) {marks : K → Option ℕ} {order : List K} {k : K}
    {i : ℕ} (horder : order.Nodup) (hk : k ∈ order) (hi : marks k = some i)
    (h : ∀ k' ∈ order, k' ≠ k → (marks k').isSome → overlap k k') (p : ℕ) (u : U) :
    handed f w marks p order u =
      handed f w (Function.update marks k none) p order (f.data k (slice w i (p - i)) u) := by
  induction order generalizing u with
  | nil => cases hk
  | cons k' order ih =>
    obtain ⟨hnot, hnodup⟩ := List.nodup_cons.mp horder
    rw [handed, handed]
    by_cases hkk : k' = k
    · subst hkk
      rw [hi, Function.update_self]
      apply handed_congr
      intro k₁ hk₁
      have hne : k₁ ≠ k' := by
        rintro rfl
        exact hnot hk₁
      exact (Function.update_of_ne hne _ _).symm
    · have hmem : k ∈ order := (List.mem_cons.mp hk).resolve_left fun h => hkk h.symm
      have hrest := ih hnodup hmem fun k' hk' => h k' (List.mem_cons_of_mem _ hk')
      rw [Function.update_of_ne hkk]
      cases hk' : marks k' with
      | none => exact hrest u
      | some j =>
        have hov : overlap k k' := h k' List.mem_cons_self hkk (by simp [hk'])
        dsimp only
        rw [hrest, hf.comm k k' hov]

theorem handed_mark (hf : f.Lawful overlap) {marks : K → Option ℕ} {order : List K} {k : K}
    (horder : order.Nodup) (hk : k ∈ order) (hnone : marks k = none)
    (h : ∀ k' ∈ order, (marks k').isSome → overlap k k') (p : ℕ) (u : U) :
    handed f w (Function.update marks k (some p)) p order u =
      handed f w marks p order (f.data k [] u) := by
  have hhand := handed_hand (w := w) hf horder hk (Function.update_self k (some p) marks)
    (fun k' hk' hne hsome => h k' hk' (by rwa [Function.update_of_ne hne] at hsome)) p u
  rw [hhand, Function.update_idem, Nat.sub_self, ← hnone, Function.update_eq_self]
  rfl

/-- With one more element every piece that has begun is that much longer. -/
theorem handed_succ (hf : f.Lawful overlap) {marks : K → Option ℕ} {order : List K} {p : ℕ} {a : α}
    (ha : w[p]? = some a) (hA : Overlapping overlap A) (horder : order.Nodup)
    (hset : ∀ k, (marks k).isSome ↔ k ∈ A) (hle : ∀ k i, marks k = some i → i ≤ p) (u : U) :
    handed f w marks (p + 1) order u = fed f A a order (handed f w marks p order u) := by
  induction order generalizing u with
  | nil => rfl
  | cons k order ih =>
    obtain ⟨hnot, hnodup⟩ := List.nodup_cons.mp horder
    rw [handed, handed, fed, ih hnodup]
    cases hk : marks k with
    | none =>
      have hmem : k ∉ A := by
        intro hmem
        have hsome := (hset k).mpr hmem
        rw [hk] at hsome
        cases hsome
      rw [if_neg hmem]
    | some i =>
      have hmem : k ∈ A := (hset k).mp (by simp [hk])
      have hi : i ≤ p := hle k i hk
      have hslice : slice w i (p + 1 - i) = slice w i (p - i) ++ [a] := by
        have hget : (w.drop i)[p - i]? = some a := by
          rw [List.getElem?_drop, Nat.add_sub_cancel' hi]
          exact ha
        rw [slice, slice, Nat.succ_sub hi, List.take_add_one, hget]
        rfl
      have hov : ∀ k' ∈ order, (marks k').isSome → overlap k k' := by
        intro k' hk' hsome
        exact hA k hmem k' ((hset k').mp hsome) (by rintro rfl; exact hnot hk')
      dsimp only
      rw [if_pos hmem, hslice, ← hf.append, handed_comm hf hov]

theorem fed_comm (hf : f.Lawful overlap) {order : List K} {k : K} (a : α)
    (h : ∀ k' ∈ order, k' ∈ A → overlap k k') (b : List α) (u : U) :
    fed f A a order (f.data k b u) = f.data k b (fed f A a order u) := by
  induction order generalizing u with
  | nil => rfl
  | cons k' order ih =>
    have hrest := ih fun k' hk' => h k' (List.mem_cons_of_mem _ hk')
    rw [fed, fed]
    split_ifs with hk
    · rw [← hf.comm k k' (h k' List.mem_cons_self hk), hrest]
    · exact hrest u

/-- A piece that has got something can be continued with nothing. -/
theorem fed_absorbs (hf : f.Lawful overlap) {order : List K} (horder : order.Nodup)
    (hA : Overlapping overlap A) {k : K} (hk : k ∈ order) (hmem : k ∈ A) (a : α) (u : U) :
    f.data k [] (fed f A a order u) = fed f A a order u := by
  induction order generalizing u with
  | nil => cases hk
  | cons k' order ih =>
    obtain ⟨hnot, hnodup⟩ := List.nodup_cons.mp horder
    rw [fed]
    by_cases hkk : k' = k
    · subst hkk
      have hov : ∀ k₁ ∈ order, k₁ ∈ A → overlap k' k₁ := fun k₁ h₁ hA₁ =>
        hA k' hmem k₁ hA₁ (by rintro rfl; exact hnot h₁)
      rw [if_pos hmem, ← fed_comm hf a hov, hf.append, List.append_nil]
    · exact ih hnodup ((List.mem_cons.mp hk).resolve_left fun h => hkk h.symm) _

end Handed

/-! ### One element -/

section Element
variable {c : Client α K Q U} {f : Feed α K Q U} {overlap : K → K → Prop}
  {loses : O → Prop} {w : List α} {active : S → Finset K} {order : List K}

/-- How the loop goes on after the element at `p`, when the feed goes on so. -/
def Tracks (f : Feed α K Q U) (w : List α) (active : S → Finset K) (loses : O → Prop)
    (order : List K) (p : ℕ) (r : (S ⊕ O) × U) : (S ⊕ O) × Cursor K U → Prop
  | (.inl s, x) =>
    r = (.inl s, handed f w x.marks p order x.user) ∧ x.p = p + 1 ∧
      (∀ k, (x.marks k).isSome ↔ k ∈ active s) ∧ ∀ k i, x.marks k = some i → i ≤ p
  | (.inr o, x) =>
    r = (.inr o, handed f w x.marks p order x.user) ∧ x.p = p ∧
      (loses o ∨ handed f w x.marks p order x.user = x.user)

theorem Cursor.Holds.eq_none {A : Finset K} {x : Cursor K U} (h : x.Holds A) {k : K} (hk : k ∉ A) :
    x.marks k = none := by
  cases hm : x.marks k with
  | none => rfl
  | some i => exact absurd ((h.set k).mp (by simp [hm])) hk

/-- Between pieces nothing is outstanding. -/
theorem Cursor.Holds.handed_empty {x : Cursor K U} (h : x.Holds (∅ : Finset K)) (p : ℕ) (u : U) :
    handed f w x.marks p order u = u :=
  handed_of_none (fun k _ => h.eq_none (Finset.notMem_empty k)) p u

variable [DecidableEq K]

theorem Cursor.Holds.mark {A : Finset K} {x : Cursor K U} (h : x.Holds A) (k : K) :
    Cursor.Holds ⟨x.p, Function.update x.marks k (some x.p), x.user⟩ (insert k A) := by
  constructor
  · intro k'
    by_cases hkk : k' = k
    · simp [hkk]
    · simp [h.set, hkk]
  · intro k' i hi
    dsimp only at hi ⊢
    by_cases hkk : k' = k
    · rw [hkk, Function.update_self] at hi
      exact (Option.some.inj hi).ge
    · rw [Function.update_of_ne hkk] at hi
      exact h.le k' i hi

theorem Cursor.Holds.hand {A : Finset K} {x : Cursor K U} (h : x.Holds A) (k : K) (u : U) :
    Cursor.Holds ⟨x.p, Function.update x.marks k none, u⟩ (A.erase k) := by
  constructor
  · intro k'
    by_cases hkk : k' = k
    · simp [hkk]
    · simp [h.set, hkk]
  · intro k' i hi
    dsimp only at hi ⊢
    by_cases hkk : k' = k
    · rw [hkk, Function.update_self] at hi
      cases hi
    · rw [Function.update_of_ne hkk] at hi
      exact h.le k' i hi

theorem Act.exec_tracks (hc : c.Follows f) (hf : f.Lawful overlap) (horder : order.Nodup)
    (hcomplete : ∀ k, k ∈ order) {act : Act K Q S O} {A : Finset K} (hplain : act.Plain)
    (hact : act.Marked active overlap loses A) {x : Cursor K U} (hx : x.Holds A)
    (hA : Overlapping overlap A) (a : α) :
    Tracks f w active loses order x.p
      (act.feed f a (handed f w x.marks x.p order x.user)) (act.exec c w x) := by
  induction act generalizing A x with
  | next s =>
    obtain rfl : A = active s := hact
    exact ⟨rfl, rfl, hx.set, hx.le⟩
  | stop o =>
    refine ⟨rfl, rfl, ?_⟩
    rcases hact with hl | rfl
    · exact .inl hl
    · exact .inr (hx.handed_empty _ _)
  | mark k rest ih =>
    obtain ⟨hk, hov, hrest⟩ := hact
    have hcommutes : ∀ k' ∈ order, (x.marks k').isSome → overlap k k' := fun k' _ hsome =>
      (hov k' ((hx.set k').mp hsome)).1
    have hnext := ih hplain hrest (hx.mark k) (hA.insert hov)
    dsimp only at hnext
    rw [handed_mark hf horder (hcomplete k) (hx.eq_none hk) hcommutes,
      handed_comm hf hcommutes] at hnext
    exact hnext
  | hand k rest ih =>
    have hrest : (rest 0).Marked active overlap loses (A.erase k) := hact
    have hfeed : ∀ u, (hand k rest).feed f a u = (rest 0).feed f a u := fun _ => rfl
    rw [exec, hfeed]
    cases hk : x.marks k with
    | none =>
      have hmem : k ∉ A := by
        intro hmem
        have hsome := (hx.set k).mpr hmem
        rw [hk] at hsome
        cases hsome
      rw [Finset.erase_eq_of_notMem hmem] at hrest
      exact ih 0 (hplain 0) hrest hx hA
    | some i =>
      have hmem : k ∈ A := (hx.set k).mp (by simp [hk])
      have hcommutes : ∀ k' ∈ order, k' ≠ k → (x.marks k').isSome → overlap k k' :=
        fun k' _ hne hsome => hA k hmem k' ((hx.set k').mp hsome) hne.symm
      have hnext := ih 0 (hplain 0) hrest (hx.hand k (f.data k (slice w i (x.p - i)) x.user))
        (hA.erase k)
      dsimp only at hnext
      rw [← handed_hand hf horder (hcomplete k) hk hcommutes] at hnext
      dsimp only
      rw [hc.data]
      exact hnext
  | ask q rest ih =>
    obtain ⟨rfl, hrest⟩ := hact
    rw [hx.handed_empty, exec, hc.ask]
    have hnext := ih (f.ask q x.user).1 (hplain _) (hrest _)
      (x := { x with user := (f.ask q x.user).2 }) ⟨hx.set, hx.le⟩ hA
    rw [hx.handed_empty (x := x)] at hnext
    exact hnext
  | take n rest => exact hplain.elim

end Element

/-! ### Whole windows -/

theorem Machine.Bulk.pos {m : Machine α K Q S O} {s : S} {left n : ℕ} {rest : Act K Q S O}
    (h : m.Bulk s left n rest) : 0 < n := by
  cases h with
  | one => exact Nat.one_pos
  | more => exact Nat.succ_pos _

theorem Machine.Bulk.plain {m : Machine α K Q S O} {s : S} {left n : ℕ} {rest : Act K Q S O}
    (h : m.Bulk s left n rest) : rest.Plain := by
  induction h with
  | one _ _ hrest => exact hrest
  | more _ _ _ ih => exact ih

section Loop
variable [DecidableEq K] {m : Machine α K Q S O} {c : Client α K Q U} {f : Feed α K Q U}
  {overlap : K → K → Prop} {loses : O → Prop} {w : List α}

/-- The run over what follows, once it is known what the element at hand leads to. -/
def Machine.resume (m : Machine α K Q S O) (f : Feed α K Q U) (a : α) (l : List α) :
    (S ⊕ O) × U → Outcome S O U
  | (.inl s, u) => (m.bytes f l s (fed f (m.active s) a m.order u)).shift 1
  | (.inr o, u) => .stopped o 0 u

theorem Machine.bytes_cons (m : Machine α K Q S O) (f : Feed α K Q U) (a : α) (l : List α) (s : S)
    (u : U) : m.bytes f (a :: l) s u = m.resume f a l ((m.step s a 1).feed f a u) := by
  rw [bytes, byte]
  obtain ⟨r, u⟩ := (m.step s a 1).feed f a u
  cases r with
  | inl s => rfl
  | inr o => rfl

theorem fed_empty (f : Feed α K Q U) (a : α) (order : List K) (u : U) :
    fed f ∅ a order u = u := by
  induction order with
  | nil => rfl
  | cons k order ih => rwa [fed, if_neg (Finset.notMem_empty k)]

theorem Machine.bytes_bulk (hf : f.Lawful overlap) (hm : m.Orderly overlap loses) {s : S}
    {left n : ℕ} {rest : Act K Q S O} (h : m.Bulk s left n rest) {l : List α}
    (hl : l.length = left) (hn : n ≤ left) (hs : m.active s = ∅) (u : U) :
    ∃ a, l[n - 1]? = some a ∧ m.bytes f l s u =
      (m.resume f a (l.drop n) (rest.feed f a (f.body (l.take n) u))).shift (n - 1) := by
  induction h generalizing l u with
  | one h h1 hrest =>
    cases l with
    | nil =>
      subst hl
      cases hn
    | cons a l =>
      refine ⟨a, rfl, ?_⟩
      rw [bytes_cons, h1, Outcome.shift_zero]
      rfl
  | @more s s' left n rest h h1 hmore ih =>
    cases l with
    | nil => cases hl
    | cons a l =>
      have hs' : m.active s' = ∅ := by
        have hmarked := hm.marked s a 1 Nat.one_pos
        rw [h1] at hmarked
        exact hmarked.2.symm
      obtain ⟨b, hb, hbytes⟩ := ih (Nat.succ.inj hl) (Nat.le_of_succ_le_succ hn) hs'
        (f.body [a] u)
      have hpos := hmore.pos
      refine ⟨b, ?_, ?_⟩
      · rw [show n + 1 - 1 = n - 1 + 1 by omega, List.getElem?_cons_succ]
        exact hb
      · have hstep : m.resume f a l ((m.step s a 1).feed f a u) =
            (m.bytes f l s' (f.body [a] u)).shift 1 := by
          rw [h1]
          show (m.bytes f l s' (fed f (m.active s') a m.order (f.body [a] u))).shift 1 = _
          rw [hs', fed_empty]
        rw [bytes_cons, hstep, hbytes, hf.body_append, Outcome.shift_shift,
          show 1 + (n - 1) = n + 1 - 1 by omega]
        rfl

/-- The result of a loop against that of the machine without marks. -/
def Settles (m : Machine α K Q S O) (f : Feed α K Q U) (w : List α) (loses : O → Prop)
    (r : Outcome S O U) : (S ⊕ O) × Cursor K U → Prop
  | (.inl s, x) => r = .done s (handed f w x.marks x.p m.order x.user)
  | (.inr o, x) =>
    r = .stopped o x.p (handed f w x.marks x.p m.order x.user) ∧
      (loses o ∨ handed f w x.marks x.p m.order x.user = x.user)

def Machine.goOn (m : Machine α K Q S O) (c : Client α K Q U) (w : List α) (rounds : ℕ) :
    (S ⊕ O) × Cursor K U → (S ⊕ O) × Cursor K U
  | (.inl s, x) => m.loop c w rounds s x
  | (.inr o, x) => (.inr o, x)

theorem Machine.loop_succ (m : Machine α K Q S O) (c : Client α K Q U) {a : α} {s : S}
    {x : Cursor K U} (ha : w[x.p]? = some a) (rounds : ℕ) :
    m.loop c w (rounds + 1) s x =
      m.goOn c w rounds ((m.step s a (w.length - x.p)).exec c w x) := by
  rw [loop, ha]
  dsimp only
  obtain ⟨s | o, x⟩ := (m.step s a (w.length - x.p)).exec c w x
  · rfl
  · rfl

/-- The loop goes on after an element for as long as it does without marks. -/
theorem Machine.resume_settles (rounds : ℕ) {p : ℕ} {a : α} (ha : w[p]? = some a)
    (hm : m.Orderly overlap loses) (hf : f.Lawful overlap) {fedTo : (S ⊕ O) × U}
    {r : (S ⊕ O) × Cursor K U} (htracks : Tracks f w m.active loses m.order p fedTo r)
    (hloop : ∀ s (x : Cursor K U), x.p = p + 1 → x.Holds (m.active s) →
      Settles m f w loses ((m.bytes f (w.drop x.p) s
        (handed f w x.marks x.p m.order x.user)).shift x.p) (m.loop c w rounds s x)) :
    Settles m f w loses ((m.resume f a (w.drop (p + 1)) fedTo).shift p)
      (m.goOn c w rounds r) := by
  obtain ⟨s | o, x⟩ := r
  · obtain ⟨rfl, hp, hset, hle⟩ := htracks
    have hnext := hloop s x hp ⟨hset, fun k i hi => (hle k i hi).trans (by omega)⟩
    rw [hp, handed_succ hf ha (hm.active s) hm.order hset hle] at hnext
    rw [resume, Outcome.shift_shift]
    exact hnext
  · obtain ⟨rfl, hp, hlost⟩ := htracks
    rw [resume, Outcome.shift_stopped, Nat.add_zero, ← hp]
    rw [← hp] at hlost
    exact ⟨rfl, hlost⟩

theorem Machine.loop_settles (hc : c.Follows f) (hf : f.Lawful overlap)
    (hm : m.Orderly overlap loses) (rounds : ℕ) {s : S} {x : Cursor K U}
    (hx : x.Holds (m.active s)) (hp : x.p ≤ w.length) (hrounds : w.length - x.p ≤ rounds) :
    Settles m f w loses
      ((m.bytes f (w.drop x.p) s (handed f w x.marks x.p m.order x.user)).shift x.p)
      (m.loop c w rounds s x) := by
  have hend : x.p = w.length → Settles m f w loses
      ((m.bytes f (w.drop x.p) s (handed f w x.marks x.p m.order x.user)).shift x.p)
      (.inl s, x) := by
    intro hp
    rw [hp, List.drop_length]
    show Outcome.done s _ = _
    rw [← hp]
  induction rounds generalizing s x with
  | zero => exact hend (by omega)
  | succ rounds ih =>
    cases ha : w[x.p]? with
    | none =>
      have hlen := List.getElem?_eq_none_iff.mp ha
      rw [loop, ha]
      exact hend (by omega)
    | some a =>
      rw [loop_succ m c ha]
      obtain ⟨hlt, rfl⟩ := List.getElem?_eq_some_iff.mp ha
      have hleft : 0 < w.length - x.p := by omega
      have hmarked := hm.marked s w[x.p] _ hleft
      have hloop : ∀ s (y : Cursor K U), x.p < y.p → y.p ≤ w.length → y.Holds (m.active s) →
          Settles m f w loses ((m.bytes f (w.drop y.p) s
            (handed f w y.marks y.p m.order y.user)).shift y.p) (m.loop c w rounds s y) := by
        intro s y hlt hle hy
        refine ih hy hle (by omega) fun hp => ?_
        rw [hp, List.drop_length]
        show Outcome.done s _ = _
        rw [← hp]
      rcases hm.bulk s w[x.p] _ hleft with ⟨hplain, hone⟩ | ⟨n, rest, hn, htake, hbulk⟩
      · have htracks := Act.exec_tracks (w := w) hc hf hm.order hm.complete hplain hmarked hx
          (hm.active s) w[x.p]
        rw [List.drop_eq_getElem_cons hlt, bytes_cons, ← hone]
        refine resume_settles rounds ha hm hf htracks fun s y hy hheld => ?_
        exact hloop s y (by omega) (by omega) hheld
      · rw [htake] at hmarked ⊢
        obtain ⟨hs, hrest⟩ := hmarked
        have hpos := hbulk.pos
        obtain ⟨b, hb, hbytes⟩ := bytes_bulk (l := w.drop x.p) hf hm hbulk (by simp) hn hs
          (handed f w x.marks x.p m.order x.user)
        have hlast : x.p + (n - 1) = x.p + n - 1 := by omega
        rw [hs] at hx
        have hx' : Cursor.Holds ⟨x.p + n - 1, x.marks, c.body w x.p n x.user⟩ (∅ : Finset K) :=
          ⟨hx.set, fun k i hi => (hx.le k i hi).trans (by show x.p ≤ x.p + n - 1; omega)⟩
        have htracks := Act.exec_tracks (w := w) hc hf hm.order hm.complete hbulk.plain hrest hx'
          (by simp [Overlapping]) b
        rw [List.getElem?_drop, hlast] at hb
        have hsettles := resume_settles rounds hb hm hf htracks fun s y hy hheld =>
          hloop s y (by omega) (by omega) hheld
        rw [hx'.handed_empty, hc.body, show x.p + n - 1 + 1 = x.p + n by omega] at hsettles
        rw [hbytes, hx.handed_empty, Outcome.shift_shift, List.drop_drop, hlast, Act.exec, hc.body]
        exact hsettles

end Loop

/-! ### Streams -/

/-- The same end, for the same client; a stop that loses pieces says nothing about what the client
has seen of them. -/
def Outcome.Agree (loses : O → Prop) : Outcome S O U → Outcome S O U → Prop
  | .done s u, .done s' u' => s = s' ∧ u = u'
  | .stopped o n u, .stopped o' n' u' => o = o' ∧ n = n' ∧ (loses o ∨ u = u')
  | _, _ => False

theorem Outcome.Agree.refl (loses : O → Prop) (r : Outcome S O U) : r.Agree loses r := by
  cases r with
  | done s u => exact ⟨rfl, rfl⟩
  | stopped o n u => exact ⟨rfl, rfl, .inr rfl⟩

theorem Outcome.Agree.symm {loses : O → Prop} {r r' : Outcome S O U} (h : r.Agree loses r') :
    r'.Agree loses r := by
  cases r with
  | done s u =>
    cases r' with
    | done s' u' => exact ⟨h.1.symm, h.2.symm⟩
    | stopped => exact h.elim
  | stopped o n u =>
    cases r' with
    | done => exact h.elim
    | stopped o' n' u' =>
      obtain ⟨rfl, rfl, hu⟩ := h
      exact ⟨rfl, rfl, hu.imp_right Eq.symm⟩

theorem Outcome.Agree.trans {loses : O → Prop} {r r' r'' : Outcome S O U}
    (h : r.Agree loses r') (h' : r'.Agree loses r'') : r.Agree loses r'' := by
  cases r' with
  | done s u =>
    cases r with
    | stopped => exact h.elim
    | done =>
      obtain ⟨rfl, rfl⟩ := h
      exact h'
  | stopped o n u =>
    cases r with
    | done => exact h.elim
    | stopped =>
      cases r'' with
      | done => exact h'.elim
      | stopped =>
        obtain ⟨rfl, rfl, hu⟩ := h
        obtain ⟨rfl, rfl, hu'⟩ := h'
        refine ⟨rfl, rfl, ?_⟩
        rcases hu with hl | rfl
        · exact .inl hl
        · exact hu'

theorem Outcome.Agree.shift {loses : O → Prop} {r r' : Outcome S O U} (h : r.Agree loses r')
    (n : ℕ) : (r.shift n).Agree loses (r'.shift n) := by
  cases r with
  | done s u =>
    cases r' with
    | done s' u' => exact h
    | stopped => exact h.elim
  | stopped o k u =>
    cases r' with
    | done => exact h.elim
    | stopped o' k' u' =>
      obtain ⟨ho, rfl, hu⟩ := h
      exact ⟨ho, rfl, hu⟩

theorem handOn_eq {c : Client α K Q U} {f : Feed α K Q U} {w : List α} (hc : c.Follows f)
    (x : Cursor K U) (order : List K) (u : U) :
    handOn c w x order u = (true, handed f w x.marks x.p order u) := by
  induction order generalizing u with
  | nil => rfl
  | cons k order ih =>
    rw [handOn, handed]
    cases x.marks k with
    | none => exact ih u
    | some i =>
      dsimp only
      rw [hc.data, if_neg (by simp)]
      exact ih _

section Windows
variable [DecidableEq K] {m : Machine α K Q S O} {c : Client α K Q U} {f : Feed α K Q U}
  {overlap : K → K → Prop} {loses : O → Prop} {w : List α}

/-- Going on with the pieces a state is in the middle of is nothing new to the client. -/
def Absorbs (m : Machine α K Q S O) (f : Feed α K Q U) (s : S) (u : U) : Prop :=
  ∀ k ∈ m.active s, f.data k [] u = u

theorem Machine.entry_holds (m : Machine α K Q S O) (s : S) (u : U) :
    (m.entry s u).Holds (m.active s) := by
  constructor
  · intro k
    by_cases hk : k ∈ m.active s
    · simp [entry, hk]
    · simp [entry, hk]
  · intro k i hi
    unfold entry at hi ⊢
    dsimp only at hi ⊢
    split_ifs at hi
    exact (Option.some.inj hi).ge

theorem handed_entry {s : S} {u : U} (h : Absorbs m f s u) (order : List K) :
    handed f w (m.entry s u).marks 0 order u = u := by
  induction order with
  | nil => rfl
  | cons k order ih =>
    rw [handed]
    by_cases hk : k ∈ m.active s
    · have hmark : (m.entry s u).marks k = some 0 := if_pos hk
      rw [hmark]
      dsimp only
      rw [show slice w 0 (0 - 0) = [] from List.take_zero, h k hk]
      exact ih
    · have hmark : (m.entry s u).marks k = none := if_neg hk
      rw [hmark]
      exact ih

/-- A window is read as the machine without marks reads it. -/
theorem Machine.window_agree (hc : c.Follows f) (hf : f.Lawful overlap)
    (hm : m.Orderly overlap loses) (w : List α) {s : S} {u : U} (h : Absorbs m f s u) :
    (m.bytes f w s u).Agree loses (m.window c w s u) := by
  have hsettles := loop_settles (w := w) hc hf hm w.length (m.entry_holds s u)
    (Nat.zero_le _) (Nat.sub_le _ _)
  rw [show (m.entry s u).p = 0 from rfl, show (m.entry s u).user = u from rfl,
    handed_entry h, Outcome.shift_zero, List.drop_zero] at hsettles
  rw [window]
  generalize m.loop c w w.length s (m.entry s u) = r at hsettles ⊢
  obtain ⟨s' | o, x⟩ := r
  · have hdone : m.bytes f w s u = _ := hsettles
    dsimp only
    rw [handOn_eq hc, hdone]
    exact Outcome.Agree.refl loses _
  · obtain ⟨hstop, hlost⟩ := hsettles
    rw [hstop]
    exact ⟨rfl, rfl, hlost⟩

theorem Machine.bytes_absorbs (hf : f.Lawful overlap) (hm : m.Orderly overlap loses) {l : List α}
    {s s' : S} {u u' : U} (h : Absorbs m f s u) (hdone : m.bytes f l s u = .done s' u') :
    Absorbs m f s' u' := by
  induction l generalizing s u with
  | nil =>
    cases hdone
    exact h
  | cons a l ih =>
    rw [bytes_cons] at hdone
    generalize (m.step s a 1).feed f a u = r at hdone
    obtain ⟨s₁ | o, u₁⟩ := r
    · refine ih (s := s₁) (u := fed f (m.active s₁) a m.order u₁) ?_ ?_
      · intro k hk
        exact fed_absorbs hf hm.order (hm.active s₁) (hm.complete k) hk a u₁
      · rw [resume] at hdone
        cases hr : m.bytes f l s₁ (fed f (m.active s₁) a m.order u₁) with
        | done s₂ u₂ => rwa [hr] at hdone
        | stopped o n u₂ =>
          rw [hr] at hdone
          cases hdone
    · cases hdone

/-- However the stream is cut, it is read as the machine without marks reads it. -/
theorem Machine.windows_agree (hc : c.Follows f) (hf : f.Lawful overlap)
    (hm : m.Orderly overlap loses) (ws : List (List α)) {s : S} {u : U} (h : Absorbs m f s u) :
    (m.bytes f ws.flatten s u).Agree loses (m.windows c ws s u) := by
  induction ws generalizing s u with
  | nil => exact ⟨rfl, rfl⟩
  | cons w ws ih =>
    have hwindow := window_agree hc hf hm w h
    rw [List.flatten_cons, bytes_append, windows]
    cases hb : m.bytes f w s u with
    | done s₁ u₁ =>
      have habsorbs := bytes_absorbs hf hm h hb
      rw [hb] at hwindow
      cases hw : m.window c w s u with
      | done s₂ u₂ =>
        rw [hw] at hwindow
        obtain ⟨rfl, rfl⟩ := hwindow
        exact (ih habsorbs).shift w.length
      | stopped =>
        rw [hw] at hwindow
        exact hwindow.elim
    | stopped o n u₁ =>
      rw [hb] at hwindow
      cases hw : m.window c w s u with
      | done =>
        rw [hw] at hwindow
        exact hwindow.elim
      | stopped =>
        rw [hw] at hwindow
        exact hwindow

/-- Two ways to cut a stream come to the same. -/
theorem Machine.windows_congr (hc : c.Follows f) (hf : f.Lawful overlap)
    (hm : m.Orderly overlap loses) {ws ws' : List (List α)} (hws : ws.flatten = ws'.flatten)
    {s : S} {u : U} (h : Absorbs m f s u) :
    (m.windows c ws s u).Agree loses (m.windows c ws' s u) := by
  have hagree := windows_agree hc hf hm ws h
  rw [hws] at hagree
  exact hagree.symm.trans (windows_agree hc hf hm ws' h)

end Windows

end Lib.Marks
