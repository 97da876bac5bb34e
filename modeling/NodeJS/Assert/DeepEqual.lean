import Mathlib.Data.List.Sort
import Mathlib.Data.Rat.Defs
import NodeJS.Buffer.Text

/-! `_deepEqual`: which values it takes for equal, and for which the order of the two matters. -/
namespace NodeJS.Assert

/-- A number as `===` sees it, with one zero. -/
inductive Number
  | nan
  | infinity (negative : Bool)
  | finite (value : ℚ)
  deriving DecidableEq

local instance : LawfulBEq JSString := inferInstance

/-- `===` -/
def Number.eq (m n : Number) : Bool := m ≠ .nan ∧ m = n

inductive Primitive
  | undefined
  | null
  | boolean (b : Bool)
  | number (n : Number)
  | string (s : JSString)
  deriving DecidableEq

/-- What `_deepEqual` tells objects apart by. Plain objects and arrays are the same to it. -/
inductive Kind
  | plain
  | date (time : Number)
  | buffer (bytes : List UInt8)
  | arguments (length : ℕ)

/-- An object: which one it is, and its own enumerable properties. -/
structure Object where
  id : ℕ
  kind : Kind
  keys : List JSString

/-- A value without cycles, where `get key` is what `value[key]` reads. -/
inductive Value
  | primitive (p : Primitive)
  | object (o : Object) (get : JSString → Value)

/-- `===` -/
def Primitive.strictEq : Primitive → Primitive → Bool
  | .number m, .number n => m.eq n
  | p, q => p = q

/-- `===` -/
def Value.strictEq : Value → Value → Bool
  | .primitive p, .primitive q => p.strictEq q
  | .object o _, .object o' _ => o.id = o'.id
  | _, _ => false

/-- `value[key]` of what is not `undefined` or `null`. No property of a primitive is read that it
has. -/
def Value.get : Value → JSString → Value
  | .primitive _, _ => .primitive .undefined
  | .object _ get, key => get key

/-- A value with `typeof value != 'object'`. -/
def Value.scalar : Value → Option Primitive
  | .primitive .null => none
  | .primitive p => some p
  | .object _ _ => none

/-- The bytes, if `Buffer.isBuffer(value)`. -/
def Value.bytes : Value → Option (List UInt8)
  | .object ⟨_, .buffer bytes, _⟩ _ => some bytes
  | _ => none

/-- `value.getTime()`, if `value instanceof Date`. -/
def Value.time : Value → Option Number
  | .object ⟨_, .date time, _⟩ _ => some time
  | _ => none

def isUndefinedOrNull : Value → Bool
  | .primitive p => p = .undefined ∨ p = .null
  | .object _ _ => false

def Object.isArguments (o : Object) : Bool := o.kind matches .arguments _

/-- The keys of `pSlice.call(o)`. -/
def Object.slice (o : Object) : List JSString :=
  match o.kind with
  | .arguments length => ((List.range length).map fun i => js (toString i)).filter (· ∈ o.keys)
  | _ => []

/-- What `objEquiv` does with the keys of the two objects. -/
def equivKeys (ka kb : List JSString) (equal : JSString → Bool) : Bool :=
  if ka.length ≠ kb.length then false
  else
    let ka := ka.insertionSort (· ≤ ·)
    let kb := kb.insertionSort (· ≤ ·)
    if (ka.zip kb).reverse.all fun (key, key') => key = key' then ka.reverse.all equal else false

/-- `objEquiv`, where `equal key` compares `a[key]` to `b[key]`. The slices of two Arguments objects
are new arrays, for which `_deepEqual` comes to their keys. `Object.keys` throws for what is no
object. -/
def objEquiv (a b : Value) (equal : JSString → Bool) : Bool :=
  if isUndefinedOrNull a || isUndefinedOrNull b then false
  else if !(a.get (js "prototype")).strictEq (b.get (js "prototype")) then false
  else match a, b with
  | .object o _, .object o' _ =>
    if o.isArguments then
      if !o'.isArguments then false else equivKeys o.slice o'.slice equal
    else equivKeys o.keys o'.keys equal
  | _, _ => false

section
variable (toNumber : JSString → Number)

/-- The conversion to a number, where that of a string is any function. -/
def Primitive.asNumber : Primitive → Number
  | .undefined => .nan
  | .null => .finite 0
  | .boolean b => .finite (if b then 1 else 0)
  | .number n => n
  | .string s => toNumber s

/-- `==` -/
def Primitive.looseEq : Primitive → Primitive → Bool
  | .undefined, .undefined | .undefined, .null | .null, .undefined | .null, .null => true
  | .undefined, _ | .null, _ | _, .undefined | _, .null => false
  | .string s, .string t => s = t
  | p, q => (p.asNumber toNumber).eq (q.asNumber toNumber)

def deepEqual (a b : Value) : Bool :=
  if a.strictEq b then true
  else match a.bytes, b.bytes with
  | some x, some y => if x.length ≠ y.length then false else (x.zip y).all fun (c, d) => c = d
  | _, _ => match a.time, b.time with
    | some s, some t => s.eq t
    | _, _ => match a.scalar, b.scalar with
      | some p, some q => p.looseEq toNumber q
      | _, _ => match a with
        | .primitive _ => objEquiv a b fun _ => false
        | .object _ get => objEquiv a b fun key => deepEqual (get key) (b.get key)

/-! ### What is compared -/

/-- Whether two buffers have the same bytes, or two dates the same time. -/
def Kind.same : Kind → Kind → Option Bool
  | .buffer x, .buffer y => some (x = y)
  | .date s, .date t => some (s.eq t)
  | _, _ => none

/-- The keys that count when `o` is compared to `o'`: of two Arguments objects, the indices. -/
def Object.against (o o' : Object) : List JSString :=
  if o.isArguments ∧ o'.isArguments then o.slice else o.keys

/-- The two are equal, if an Arguments object is taken for an object with the same keys. -/
def Alike : Value → Value → Prop
  | .primitive p, .primitive q =>
    p.strictEq q ∨ p ≠ .null ∧ q ≠ .null ∧ p.looseEq toNumber q
  | .object o get, .object o' get' => o.id = o'.id ∨ match o.kind.same o'.kind with
    | some same => same
    | none => (get (js "prototype")).strictEq (get' (js "prototype")) ∧
      (o.against o').Perm (o'.against o) ∧ ∀ key ∈ o.against o', Alike (get key) (get' key)
  | _, _ => False

/-- Somewhere in the two, an Arguments object of the first is compared to an object of the second
that is none. -/
def Faces : Value → Value → Prop
  | .object o get, .object o' get' => o.id ≠ o'.id ∧ o.kind.same o'.kind = none ∧
    (o.isArguments ∧ ¬ o'.isArguments ∨ ∃ key ∈ o.against o', Faces (get key) (get' key))
  | _, _ => False

end

/-! ### Keys -/

theorem insertionSort_eq_iff {ka kb : List JSString} :
    ka.insertionSort (· ≤ ·) = kb.insertionSort (· ≤ ·) ↔ ka.Perm kb := by
  constructor
  · intro h
    have hka := List.perm_insertionSort (· ≤ ·) ka
    rw [h] at hka
    exact hka.symm.trans (List.perm_insertionSort (· ≤ ·) kb)
  · intro h
    have hperm := ((List.perm_insertionSort (· ≤ ·) ka).trans h).trans
      (List.perm_insertionSort (· ≤ ·) kb).symm
    exact hperm.eq_of_pairwise (fun _ _ _ _ hle hge => List.le_antisymm hle hge)
      (List.pairwise_insertionSort _ ka) (List.pairwise_insertionSort _ kb)

/-- The loop finds no difference between lists of one length that are equal. -/
theorem zip_all_eq {α : Type*} [DecidableEq α] : ∀ {l l' : List α}, l.length = l'.length →
    ((l.zip l').all (fun (x, x') => x = x') = true ↔ l = l')
  | [], [], _ => by simp
  | x :: l, x' :: l', h => by
    rw [List.zip_cons_cons, List.all_cons, Bool.and_eq_true, zip_all_eq (Nat.succ.inj h)]
    simp

theorem equivKeys_iff {ka kb : List JSString} {equal : JSString → Bool} :
    equivKeys ka kb equal = true ↔ ka.Perm kb ∧ ∀ key ∈ ka, equal key = true := by
  unfold equivKeys
  split_ifs with hlength
  · exact ⟨nofun, fun h => absurd h.1.length_eq hlength⟩
  · have hsorted : (ka.insertionSort (· ≤ ·)).length = (kb.insertionSort (· ≤ ·)).length := by
      rw [List.length_insertionSort, List.length_insertionSort]
      exact not_not.mp hlength
    have hperm := (zip_all_eq hsorted).trans insertionSort_eq_iff
    dsimp only
    rw [List.all_reverse, List.all_reverse]
    split_ifs with hall
    · rw [List.all_eq_true]
      simp only [List.mem_insertionSort]
      exact ⟨fun h => ⟨hperm.mp hall, h⟩, fun h => h.2⟩
    · exact ⟨nofun, fun h => absurd (hperm.mpr h.1) hall⟩

/-! ### The order of the two -/

theorem Number.eq_comm (m n : Number) : m.eq n = n.eq m := by
  unfold Number.eq
  refine decide_eq_decide.mpr ⟨?_, ?_⟩
  · rintro ⟨hm, rfl⟩
    exact ⟨hm, rfl⟩
  · rintro ⟨hn, rfl⟩
    exact ⟨hn, rfl⟩

theorem Primitive.strictEq_comm (p q : Primitive) : p.strictEq q = q.strictEq p := by
  cases p with
  | number m =>
    cases q with
    | number n => exact m.eq_comm n
    | _ => rfl
  | _ => cases q <;> simp [Primitive.strictEq, eq_comm]

theorem Value.strictEq_comm (a b : Value) : a.strictEq b = b.strictEq a := by
  cases a with
  | primitive p =>
    cases b with
    | primitive q => exact p.strictEq_comm q
    | object o' get' => rfl
  | object o get =>
    cases b with
    | primitive q => rfl
    | object o' get' => exact decide_eq_decide.mpr ⟨Eq.symm, Eq.symm⟩

theorem Kind.same_comm (k k' : Kind) : k.same k' = k'.same k := by
  cases k with
  | date s =>
    cases k' with
    | date t => exact congrArg some (s.eq_comm t)
    | _ => rfl
  | buffer x =>
    cases k' with
    | buffer y => exact congrArg some (decide_eq_decide.mpr ⟨Eq.symm, Eq.symm⟩)
    | _ => rfl
  | _ => cases k' <;> rfl

section
variable (toNumber : JSString → Number)

theorem Primitive.looseEq_comm (p q : Primitive) :
    p.looseEq toNumber q = q.looseEq toNumber p := by
  cases p with
  | string s =>
    cases q with
    | string t => exact decide_eq_decide.mpr ⟨Eq.symm, Eq.symm⟩
    | undefined => rfl
    | null => rfl
    | _ => exact Number.eq_comm _ _
  | undefined => cases q <;> rfl
  | null => cases q <;> rfl
  | _ =>
    cases q with
    | undefined => rfl
    | null => rfl
    | _ => exact Number.eq_comm _ _

variable {toNumber}

theorem Alike.symm {a b : Value} (h : Alike toNumber a b) : Alike toNumber b a := by
  induction a generalizing b with
  | primitive p =>
    cases b with
    | object o' get' => cases h
    | primitive q =>
      unfold Alike at h ⊢
      rw [q.strictEq_comm p, q.looseEq_comm toNumber p]
      exact h.imp_right fun ⟨hp, hq, hloose⟩ => ⟨hq, hp, hloose⟩
  | object o get ih =>
    cases b with
    | primitive q => cases h
    | object o' get' =>
      unfold Alike at h ⊢
      rw [o'.kind.same_comm o.kind]
      refine h.imp Eq.symm fun h => ?_
      cases hsame : o.kind.same o'.kind with
      | some same =>
        rw [hsame] at h
        exact h
      | none =>
        rw [hsame] at h
        obtain ⟨hproto, hkeys, hall⟩ := h
        refine ⟨(Value.strictEq_comm _ _).trans hproto, hkeys.symm, fun key hkey => ?_⟩
        exact ih key (hall key (hkeys.mem_iff.mpr hkey))

/-! ### What `_deepEqual` returns -/

theorem objEquiv_iff {o o' : Object} {get get' : JSString → Value} {equal : JSString → Bool} :
    objEquiv (.object o get) (.object o' get') equal = true ↔
      ((get (js "prototype")).strictEq (get' (js "prototype")) ∧
        (o.against o').Perm (o'.against o) ∧ ∀ key ∈ o.against o', equal key = true) ∧
      ¬ (o.isArguments ∧ ¬ o'.isArguments) := by
  unfold objEquiv Object.against
  by_cases hproto : (get (js "prototype")).strictEq (get' (js "prototype")) = true
  · by_cases ho : o.isArguments = true
    · by_cases ho' : o'.isArguments = true
      · simp [isUndefinedOrNull, Value.get, hproto, ho, ho', equivKeys_iff]
      · simp [isUndefinedOrNull, ho, ho']
    · simp [isUndefinedOrNull, Value.get, hproto, ho, equivKeys_iff]
  · simp [isUndefinedOrNull, Value.get, hproto]

theorem deepEqual_object {o o' : Object} {get get' : JSString → Value} :
    deepEqual toNumber (.object o get) (.object o' get') =
      if o.id = o'.id then true else match o.kind.same o'.kind with
        | some same => same
        | none => objEquiv (.object o get) (.object o' get') fun key =>
          deepEqual toNumber (get key) (get' key) := by
  rw [deepEqual]
  have hstrict : (Value.object o get).strictEq (.object o' get') = decide (o.id = o'.id) := rfl
  rw [hstrict]
  by_cases hid : o.id = o'.id
  · rw [if_pos hid, if_pos (decide_eq_true hid)]
  · rw [if_neg hid, if_neg (fun h => hid (of_decide_eq_true h))]
    obtain ⟨id, kind, keys⟩ := o
    obtain ⟨id', kind', keys'⟩ := o'
    cases kind with
    | buffer x =>
      cases kind' with
      | buffer y =>
        dsimp only [Value.bytes, Kind.same]
        split_ifs with hlength
        · exact (decide_eq_false fun h => hlength (congrArg _ h)).symm
        · have hbytes := (zip_all_eq (not_not.mp hlength)).trans decide_eq_true_iff.symm
          exact Bool.eq_iff_iff.mpr hbytes
      | _ => rfl
    | date s =>
      cases kind' with
      | _ => rfl
    | _ => rfl

theorem deepEqual_iff {a b : Value} :
    deepEqual toNumber a b = true ↔ Alike toNumber a b ∧ ¬ Faces a b := by
  induction a generalizing b with
  | primitive p =>
    cases b with
    | object o' get' =>
      unfold Alike
      rw [deepEqual]
      cases p <;> simp [Value.strictEq, Value.bytes, Value.time, Value.scalar, objEquiv]
    | primitive q =>
      unfold Alike Faces
      rw [deepEqual]
      by_cases hstrict : p.strictEq q = true
      · simp [Value.strictEq, hstrict]
      · cases p <;> cases q <;> simp [Value.strictEq, Value.bytes, Value.time, Value.scalar,
          objEquiv, isUndefinedOrNull, hstrict]
  | object o get ih =>
    cases b with
    | primitive q =>
      unfold Alike
      rw [deepEqual]
      cases q <;> simp [Value.strictEq, Value.bytes, Value.time, Value.scalar, objEquiv]
    | object o' get' =>
      rw [deepEqual_object]
      unfold Alike Faces
      by_cases hid : o.id = o'.id
      · simp [hid]
      · rw [if_neg hid]
        cases o.kind.same o'.kind with
        | some same => simp [hid]
        | none =>
          dsimp only
          rw [objEquiv_iff]
          simp only [ih, hid, false_or, ne_eq, not_false_eq_true, true_and]
          constructor
          · rintro ⟨⟨hproto, hkeys, hall⟩, hargs⟩
            refine ⟨⟨hproto, hkeys, fun key hkey => (hall key hkey).1⟩, ?_⟩
            rintro (hargs' | ⟨key, hkey, hfaces⟩)
            · exact hargs hargs'
            · exact (hall key hkey).2 hfaces
          · rintro ⟨⟨hproto, hkeys, hall⟩, hnone⟩
            refine ⟨⟨hproto, hkeys, fun key hkey => ⟨hall key hkey, fun hfaces => ?_⟩⟩, ?_⟩
            · exact hnone (.inr ⟨key, hkey, hfaces⟩)
            · exact fun hargs => hnone (.inl hargs)

/-- The order matters if the two are alike and an Arguments object is compared to another object in
one order only. -/
theorem deepEqual_comm_iff (toNumber : JSString → Number) (a b : Value) :
    deepEqual toNumber a b = deepEqual toNumber b a ↔
      (Alike toNumber a b → (Faces a b ↔ Faces b a)) := by
  rw [Bool.eq_iff_iff, deepEqual_iff, deepEqual_iff]
  have hsymm : Alike toNumber b a ↔ Alike toNumber a b := ⟨Alike.symm, Alike.symm⟩
  rw [hsymm]
  tauto

end

/-- `[1, 2]`, and the Arguments object of a call `f(1, 2)`. -/
def pair (id : ℕ) (kind : Kind) : Value :=
  .object ⟨id, kind, [js "0", js "1"]⟩ fun key =>
    if key = js "0" then .primitive (.number (.finite 1))
    else if key = js "1" then .primitive (.number (.finite 2))
    else .primitive .undefined

theorem deepEqual_not_comm : ¬ ∀ (toNumber : JSString → Number) (a b : Value),
    deepEqual toNumber a b = deepEqual toNumber b a := fun h =>
  absurd (h (fun _ => .nan) (pair 0 .plain) (pair 1 (.arguments 2))) (by decide +kernel)

example : deepEqual (fun _ => .nan) (pair 0 .plain) (pair 1 (.arguments 2)) = true := by
  decide +kernel

example : deepEqual (fun _ => .nan) (pair 0 (.arguments 2)) (pair 1 (.arguments 2)) = true := by
  decide +kernel

end NodeJS.Assert
