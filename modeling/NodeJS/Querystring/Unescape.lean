import NodeJS.Buffer.Slice
import NodeJS.Url.Parse

/-! `unescapeBuffer` of lib/querystring.js: a machine that reads one character at a time, and one
step more. -/
namespace NodeJS.Querystring
open NodeJS.Url (percentSign)

abbrev plusSign : UInt16 := 0x2B
abbrev space : UInt16 := 0x20

/-! ### The machine -/

inductive State
  | char
  | hex0
  | hex1
  deriving DecidableEq

/-- The variables of `unescapeBuffer`. What `charCodeAt` yields behind the end is `none`. -/
structure Unescape where
  state : State
  n : UInt16
  m : UInt16
  hexchar : Option UInt16
  out : Bytes
  outIndex : ℕ

def hexDigit (c : UInt16) : Option UInt16 :=
  if 0x30 ≤ c ∧ c ≤ 0x39 then some (c - 0x30)
  else if 0x61 ≤ c ∧ c ≤ 0x66 then some (c - 0x61 + 10)
  else if 0x41 ≤ c ∧ c ≤ 0x46 then some (c - 0x41 + 10)
  else none

/-- `out[outIndex++] = c`, which stores nothing behind the end of `out`. -/
def Unescape.emit (st : Unescape) (c : Option UInt16) : Unescape :=
  { st with out := st.out.set st.outIndex (lowByte (c.getD 0)), outIndex := st.outIndex + 1 }

def unescapeStep (decodeSpaces : Bool) (st : Unescape) (c : Option UInt16) : Unescape :=
  match st.state with
  | .char =>
    if c = some percentSign then { st with n := 0, m := 0, state := .hex0 }
    else if c = some plusSign then st.emit (if decodeSpaces then some space else c)
    else st.emit c
  | .hex0 =>
    let st := { st with state := .hex1, hexchar := c }
    match c.bind hexDigit with
    | some n => { st with n := n }
    | none => { (st.emit (some percentSign)).emit c with state := .char }
  | .hex1 =>
    let st := { st with state := .char }
    match c.bind hexDigit with
    | some m => { st with m := m }.emit (some (16 * st.n + m))
    | none => ((st.emit (some percentSign)).emit st.hexchar).emit c

/-- `QueryString.unescapeBuffer`, where `out` is what `new Buffer(s.length)` comes with. -/
def unescapeBuffer (out : Bytes) (s : JSString) (decodeSpaces : Bool) :
    Except SliceFailure Bytes :=
  let st := (s.map some ++ [none]).foldl (unescapeStep decodeSpaces) ⟨.char, 0, 0, none, out, 0⟩
  sliceOf st.out 0 (st.outIndex - 1)

/-! ### What it reads and what it should read -/

def plainByte (decodeSpaces : Bool) (c : UInt16) : UInt8 :=
  lowByte (if c = plusSign ∧ decodeSpaces then space else c)

def unescaped (decodeSpaces : Bool) : JSString → Bytes
  | [] => []
  | c :: s =>
    if c ≠ percentSign then plainByte decodeSpaces c :: unescaped decodeSpaces s
    else match s with
      | [] => [lowByte percentSign]
      | a :: s =>
        match hexDigit a with
        | none => lowByte percentSign :: lowByte a :: unescaped decodeSpaces s
        | some n =>
          match s with
          | [] => [lowByte percentSign, lowByte a]
          | b :: s =>
            match hexDigit b with
            | some m => lowByte (16 * n + m) :: unescaped decodeSpaces s
            | none => lowByte percentSign :: lowByte a :: lowByte b :: unescaped decodeSpaces s

/-- Two hexadecimal digits. -/
def escapeValue (a b : UInt16) : Option UInt16 :=
  (hexDigit a).bind fun n => (hexDigit b).map fun m => 16 * n + m

def lenient (decodeSpaces : Bool) : JSString → Bytes
  | [] => []
  | c :: s =>
    if c ≠ percentSign then plainByte decodeSpaces c :: lenient decodeSpaces s
    else match s with
      | a :: b :: t =>
        match escapeValue a b with
        | some value => lowByte value :: lenient decodeSpaces t
        | none => lowByte percentSign :: lenient decodeSpaces (a :: b :: t)
      | s => lowByte percentSign :: lenient decodeSpaces s

/-- A character that does not stand for itself: a plus sign that is a space, or the start of an
escape. -/
def Special (decodeSpaces : Bool) (c : UInt16) (s : JSString) : Prop :=
  c = plusSign ∧ decodeSpaces = true ∨
    c = percentSign ∧ ∃ a b t, s = a :: b :: t ∧ (hexDigit a).isSome ∧ (hexDigit b).isSome

/-- An escape that is not well formed ends with such a character. -/
inductive Swallows (decodeSpaces : Bool) : JSString → Prop
  | short {c s} : hexDigit c = none → Special decodeSpaces c s →
      Swallows decodeSpaces (percentSign :: c :: s)
  | long {a c s} : (hexDigit a).isSome → hexDigit c = none → Special decodeSpaces c s →
      Swallows decodeSpaces (percentSign :: a :: c :: s)
  | afterPlain {c s} : c ≠ percentSign → Swallows decodeSpaces s → Swallows decodeSpaces (c :: s)
  | afterEscape {a b s} : (hexDigit a).isSome → (hexDigit b).isSome → Swallows decodeSpaces s →
      Swallows decodeSpaces (percentSign :: a :: b :: s)
  | afterShort {c s} : hexDigit c = none → Swallows decodeSpaces s →
      Swallows decodeSpaces (percentSign :: c :: s)
  | afterLong {a c s} : (hexDigit a).isSome → hexDigit c = none → Swallows decodeSpaces s →
      Swallows decodeSpaces (percentSign :: a :: c :: s)

/-! ### The machine makes these bytes -/

/-- What has been stored so far, as far as there is room. -/
structure Unescape.Shows (st : Unescape) (length : ℕ) (bytes : Bytes) : Prop where
  length_eq : st.out.length = length
  outIndex_eq : st.outIndex = bytes.length
  stored : ∀ i < length, i < bytes.length → st.out[i]? = bytes[i]?

section
variable {st : Unescape} {length : ℕ} {bytes : Bytes}

theorem Unescape.Shows.emit (h : st.Shows length bytes) (c : Option UInt16) :
    (st.emit c).Shows length (bytes ++ [lowByte (c.getD 0)]) where
  length_eq := by rw [Unescape.emit, List.length_set, h.length_eq]
  outIndex_eq := by
    rw [Unescape.emit, h.outIndex_eq, List.length_append, List.length_singleton]
  stored := by
    intro i hi hlt
    rw [Unescape.emit, h.outIndex_eq, List.getElem?_set]
    split_ifs with heq hin
    · rw [← heq, List.getElem?_concat_length]
    · rw [h.length_eq] at hin
      omega
    · rw [List.length_append, List.length_singleton] at hlt
      rw [List.getElem?_append_left (by omega)]
      exact h.stored i hi (by omega)

/-- What the variables hold besides is of no account. -/
theorem Unescape.Shows.congr {st' : Unescape} (h : st.Shows length bytes) (hout : st'.out = st.out)
    (hindex : st'.outIndex = st.outIndex) : st'.Shows length bytes where
  length_eq := hout ▸ h.length_eq
  outIndex_eq := hindex ▸ h.outIndex_eq
  stored := hout ▸ h.stored

theorem unescapeStep_plain (decodeSpaces : Bool) (hstate : st.state = .char) {c : UInt16}
    (hc : c ≠ percentSign) (h : st.Shows length bytes) :
    (unescapeStep decodeSpaces st (some c)).state = .char ∧
      (unescapeStep decodeSpaces st (some c)).Shows length (bytes ++ [plainByte decodeSpaces c]) := by
  have hemit : unescapeStep decodeSpaces st (some c) =
      st.emit (some (if c = plusSign ∧ decodeSpaces then space else c)) := by
    unfold unescapeStep
    rw [hstate]
    dsimp only
    rw [if_neg (by simpa using hc)]
    by_cases hplus : c = plusSign
    · subst hplus
      cases decodeSpaces <;> rfl
    · rw [if_neg (by simpa using hplus), if_neg fun h => hplus h.1]
  rw [hemit]
  exact ⟨hstate, h.emit _⟩

/-- A percent sign that no digit follows is stored with what does follow. -/
theorem unescapeStep_short (decodeSpaces : Bool) (hstate : st.state = .char) {c : Option UInt16}
    (hc : c.bind hexDigit = none) (h : st.Shows length bytes) :
    let st' := [some percentSign, c].foldl (unescapeStep decodeSpaces) st
    st'.state = .char ∧
      st'.Shows length (bytes ++ [lowByte percentSign, lowByte (c.getD 0)]) := by
  have hpercent : unescapeStep decodeSpaces st (some percentSign) =
      { st with n := 0, m := 0, state := .hex0 } := by
    unfold unescapeStep
    rw [hstate]
    rfl
  dsimp only [List.foldl_cons, List.foldl_nil]
  rw [hpercent]
  unfold unescapeStep
  dsimp only
  rw [hc]
  have hstart : ({ st with n := 0, m := 0, state := .hex1, hexchar := c } : Unescape).Shows length
    bytes := h.congr rfl rfl
  have hboth := (hstart.emit (some percentSign)).emit c
  rw [List.append_assoc] at hboth
  exact ⟨rfl, hboth.congr rfl rfl⟩

theorem unescapeStep_hex0 (decodeSpaces : Bool) (hstate : st.state = .char) {a n : UInt16}
    (ha : hexDigit a = some n) :
    [some percentSign, some a].foldl (unescapeStep decodeSpaces) st =
      { st with n := n, m := 0, state := .hex1, hexchar := some a } := by
  have hpercent : unescapeStep decodeSpaces st (some percentSign) =
      { st with n := 0, m := 0, state := .hex0 } := by
    unfold unescapeStep
    rw [hstate]
    rfl
  dsimp only [List.foldl_cons, List.foldl_nil]
  rw [hpercent]
  unfold unescapeStep
  dsimp only [Option.bind_some]
  rw [ha]

/-- So is one that a single digit follows. -/
theorem unescapeStep_long (decodeSpaces : Bool) (hstate : st.state = .char) {a n : UInt16}
    (ha : hexDigit a = some n) {c : Option UInt16} (hc : c.bind hexDigit = none)
    (h : st.Shows length bytes) :
    let st' := [some percentSign, some a, c].foldl (unescapeStep decodeSpaces) st
    st'.state = .char ∧
      st'.Shows length (bytes ++ [lowByte percentSign, lowByte a, lowByte (c.getD 0)]) := by
  have hfold : [some percentSign, some a, c].foldl (unescapeStep decodeSpaces) st =
      unescapeStep decodeSpaces { st with n := n, m := 0, state := .hex1, hexchar := some a } c := by
    rw [← unescapeStep_hex0 decodeSpaces hstate ha]
    rfl
  dsimp only
  rw [hfold]
  unfold unescapeStep
  dsimp only
  rw [hc]
  have hstart : ({ st with n := n, m := 0, state := .char, hexchar := some a } : Unescape).Shows
    length bytes := h.congr rfl rfl
  have hall := ((hstart.emit (some percentSign)).emit (some a)).emit c
  rw [List.append_assoc, List.append_assoc] at hall
  exact ⟨rfl, hall⟩

theorem unescapeStep_escape (decodeSpaces : Bool) (hstate : st.state = .char) {a n b m : UInt16}
    (ha : hexDigit a = some n) (hb : hexDigit b = some m) (h : st.Shows length bytes) :
    let st' := [some percentSign, some a, some b].foldl (unescapeStep decodeSpaces) st
    st'.state = .char ∧ st'.Shows length (bytes ++ [lowByte (16 * n + m)]) := by
  have hfold : [some percentSign, some a, some b].foldl (unescapeStep decodeSpaces) st =
      unescapeStep decodeSpaces { st with n := n, m := 0, state := .hex1, hexchar := some a }
        (some b) := by
    rw [← unescapeStep_hex0 decodeSpaces hstate ha]
    rfl
  dsimp only
  rw [hfold]
  unfold unescapeStep
  dsimp only [Option.bind_some]
  rw [hb]
  have hstart : ({ st with n := n, m := m, state := .char, hexchar := some a } : Unescape).Shows
    length bytes := h.congr rfl rfl
  exact ⟨rfl, hstart.emit _⟩

end

/-- The machine, from the start of a character on, and the step behind the end. -/
theorem run_shows (decodeSpaces : Bool) (s : JSString) {st : Unescape} {length : ℕ} {bytes : Bytes}
    (hstate : st.state = .char) (h : st.Shows length bytes) :
    ∃ last, ((s.map some ++ [none]).foldl (unescapeStep decodeSpaces) st).Shows length
      (bytes ++ unescaped decodeSpaces s ++ [last]) := by
  fun_induction unescaped decodeSpaces s generalizing st bytes with
  | case1 =>
    have hlast : unescapeStep decodeSpaces st none = st.emit none := by
      unfold unescapeStep
      rw [hstate]
      rfl
    rw [List.append_nil]
    exact ⟨_, hlast ▸ h.emit none⟩
  | case2 c s hc ih =>
    obtain ⟨hstate', h'⟩ := unescapeStep_plain decodeSpaces hstate hc h
    obtain ⟨last, hlast⟩ := ih hstate' h'
    exact ⟨last, by simpa using hlast⟩
  | case3 c hc =>
    obtain rfl := not_not.mp hc
    obtain ⟨-, h'⟩ := unescapeStep_short decodeSpaces hstate (c := none) rfl h
    exact ⟨_, by simpa using h'⟩
  | case4 c hc a s ha ih =>
    obtain rfl := not_not.mp hc
    obtain ⟨hstate', h'⟩ := unescapeStep_short decodeSpaces hstate (c := some a) ha h
    obtain ⟨last, hlast⟩ := ih hstate' h'
    exact ⟨last, by simpa using hlast⟩
  | case5 c hc a n ha =>
    obtain rfl := not_not.mp hc
    obtain ⟨-, h'⟩ := unescapeStep_long decodeSpaces hstate ha (c := none) rfl h
    exact ⟨_, by simpa using h'⟩
  | case6 c hc a n ha b s m hb ih =>
    obtain rfl := not_not.mp hc
    obtain ⟨hstate', h'⟩ := unescapeStep_escape decodeSpaces hstate ha hb h
    obtain ⟨last, hlast⟩ := ih hstate' h'
    exact ⟨last, by simpa using hlast⟩
  | case7 c hc a n ha b s hb ih =>
    obtain rfl := not_not.mp hc
    obtain ⟨hstate', h'⟩ := unescapeStep_long decodeSpaces hstate ha (c := some b) hb h
    obtain ⟨last, hlast⟩ := ih hstate' h'
    exact ⟨last, by simpa using hlast⟩

theorem length_unescaped_le (decodeSpaces : Bool) (s : JSString) :
    (unescaped decodeSpaces s).length ≤ s.length := by
  fun_induction unescaped decodeSpaces s with
  | case1 => exact le_refl _
  | case2 c s hc ih => exact Nat.succ_le_succ ih
  | case3 c hc => exact le_refl _
  | case4 c hc a s ha ih => exact Nat.succ_le_succ (Nat.succ_le_succ ih)
  | case5 c hc a n ha => exact le_refl _
  | case6 c hc a n ha b s m hb ih => exact (Nat.succ_le_succ ih).trans (by simp)
  | case7 c hc a n ha b s hb ih =>
    exact Nat.succ_le_succ (Nat.succ_le_succ (Nat.succ_le_succ ih))

/-- The last byte that was stored, of the step behind the end, is dropped; nothing is thrown. -/
theorem unescapeBuffer_eq {out : Bytes} {s : JSString} (h : out.length = s.length)
    (decodeSpaces : Bool) : unescapeBuffer out s decodeSpaces = .ok (unescaped decodeSpaces s) := by
  have hstart : (⟨.char, 0, 0, none, out, 0⟩ : Unescape).Shows s.length [] :=
    ⟨h, rfl, fun i _ hi => absurd hi (Nat.not_lt_zero i)⟩
  obtain ⟨last, hlength, hindex, hstored⟩ := run_shows decodeSpaces s rfl hstart
  have hle := length_unescaped_le decodeSpaces s
  rw [List.nil_append] at hindex hstored
  rw [List.length_append, List.length_singleton] at hindex hstored
  unfold unescapeBuffer
  dsimp only
  generalize (s.map some ++ [none]).foldl _ _ = st at hlength hindex hstored ⊢
  unfold sliceOf
  rw [if_neg (by omega), if_neg (by omega)]
  congr 1
  refine List.ext_getElem? fun i => ?_
  rw [Int.toNat_zero, List.drop_zero, List.getElem?_take]
  split_ifs with hi
  · rw [hstored i (by omega) (by omega), List.getElem?_append_left (by omega)]
  · rw [List.getElem?_eq_none (by omega)]

/-! ### What is swallowed -/

theorem hexDigit_percentSign : hexDigit percentSign = none := by decide

theorem hexDigit_plusSign : hexDigit plusSign = none := by decide

theorem unescaped_plain (decodeSpaces : Bool) {c : UInt16} (hc : c ≠ percentSign) (s : JSString) :
    unescaped decodeSpaces (c :: s) = plainByte decodeSpaces c :: unescaped decodeSpaces s := by
  rw [unescaped.eq_def]
  exact if_pos hc

theorem unescaped_escape (decodeSpaces : Bool) {a b n m : UInt16} (ha : hexDigit a = some n)
    (hb : hexDigit b = some m) (s : JSString) :
    unescaped decodeSpaces (percentSign :: a :: b :: s) =
      lowByte (16 * n + m) :: unescaped decodeSpaces s := by
  rw [unescaped.eq_def]
  refine (if_neg (not_not.mpr rfl)).trans ?_
  dsimp only
  rw [ha]
  dsimp only
  rw [hb]

/-- A digit stands for itself. -/
theorem lenient_digit (decodeSpaces : Bool) {c : UInt16} (hc : (hexDigit c).isSome)
    (s : JSString) :
    lenient decodeSpaces (c :: s) = lowByte c :: lenient decodeSpaces s ∧
      unescaped decodeSpaces (c :: s) = lowByte c :: unescaped decodeSpaces s := by
  have hpercent : c ≠ percentSign := by
    rintro rfl
    rw [hexDigit_percentSign] at hc
    cases hc
  have hplus : ¬ (c = plusSign ∧ decodeSpaces = true) := by
    rintro ⟨rfl, -⟩
    rw [hexDigit_plusSign] at hc
    cases hc
  have hbyte : plainByte decodeSpaces c = lowByte c := by rw [plainByte, if_neg hplus]
  rw [lenient.eq_def, unescaped_plain decodeSpaces hpercent, ← hbyte]
  exact ⟨if_pos hpercent, rfl⟩

theorem lenient_escape (decodeSpaces : Bool) {a b n m : UInt16} (ha : hexDigit a = some n)
    (hb : hexDigit b = some m) (s : JSString) :
    lenient decodeSpaces (percentSign :: a :: b :: s) =
      lowByte (16 * n + m) :: lenient decodeSpaces s := by
  have hvalue : escapeValue a b = some (16 * n + m) := by
    rw [escapeValue, ha, hb]
    rfl
  rw [lenient.eq_def]
  refine (if_neg (not_not.mpr rfl)).trans ?_
  dsimp only
  rw [hvalue]

/-- Any other percent sign stands for itself. -/
theorem lenient_percent (decodeSpaces : Bool) {s : JSString}
    (h : ∀ a b t, s = a :: b :: t → escapeValue a b = none) :
    lenient decodeSpaces (percentSign :: s) = lowByte percentSign :: lenient decodeSpaces s := by
  rw [lenient.eq_def decodeSpaces (percentSign :: s)]
  refine (if_neg (not_not.mpr rfl)).trans ?_
  match s, h with
  | [], _ => rfl
  | [a], _ => rfl
  | a :: b :: t, h =>
    dsimp only
    rw [h a b t rfl]

theorem lenient_plain (decodeSpaces : Bool) {c : UInt16} (hc : c ≠ percentSign) (s : JSString) :
    lenient decodeSpaces (c :: s) = plainByte decodeSpaces c :: lenient decodeSpaces s := by
  rw [lenient.eq_def decodeSpaces (c :: s)]
  exact if_pos hc

theorem lenient_of_not_special {decodeSpaces : Bool} {c : UInt16} {s : JSString}
    (h : ¬ Special decodeSpaces c s) :
    lenient decodeSpaces (c :: s) = lowByte c :: lenient decodeSpaces s := by
  obtain ⟨hplus, hescape⟩ := not_or.mp h
  by_cases hc : c = percentSign
  · subst hc
    refine lenient_percent decodeSpaces fun a b t hs => ?_
    unfold escapeValue
    cases ha : hexDigit a with
    | none => rfl
    | some n =>
      cases hb : hexDigit b with
      | none => rfl
      | some m =>
        exact absurd ⟨rfl, a, b, t, hs, by rw [ha]; rfl, by rw [hb]; rfl⟩ hescape
  · rw [lenient_plain decodeSpaces hc, plainByte, if_neg hplus]

/-- An escape is three bytes where it is not read as one. -/
theorem length_lenient_special (decodeSpaces : Bool) {s : JSString}
    (h : ∃ a b t, s = a :: b :: t ∧ (hexDigit a).isSome ∧ (hexDigit b).isSome) :
    (lenient decodeSpaces (percentSign :: s)).length + 1 = (lenient decodeSpaces s).length := by
  obtain ⟨a, b, t, rfl, ha, hb⟩ := h
  obtain ⟨n, hn⟩ := Option.isSome_iff_exists.mp ha
  obtain ⟨m, hm⟩ := Option.isSome_iff_exists.mp hb
  rw [lenient_escape decodeSpaces hn hm, (lenient_digit decodeSpaces ha _).1,
    (lenient_digit decodeSpaces hb _).1]
  rfl

theorem length_lenient_cons_le (decodeSpaces : Bool) (c : UInt16) (s : JSString) :
    (lenient decodeSpaces (c :: s)).length ≤ (lenient decodeSpaces s).length + 1 := by
  by_cases hspecial : Special decodeSpaces c s
  · rcases hspecial with ⟨rfl, -⟩ | ⟨rfl, hescape⟩
    · rw [lenient_plain decodeSpaces (by decide), List.length_cons]
    · have hlength := length_lenient_special decodeSpaces hescape
      omega
  · rw [lenient_of_not_special hspecial, List.length_cons]

theorem length_lenient_le (decodeSpaces : Bool) (s : JSString) :
    (lenient decodeSpaces s).length ≤ (unescaped decodeSpaces s).length := by
  fun_induction unescaped decodeSpaces s with
  | case1 => exact le_refl _
  | case2 c s hc ih =>
    rw [lenient_plain decodeSpaces hc]
    exact Nat.succ_le_succ ih
  | case3 c hc =>
    obtain rfl := not_not.mp hc
    exact length_lenient_cons_le decodeSpaces percentSign []
  | case4 c hc a s ha ih =>
    obtain rfl := not_not.mp hc
    have h₁ := length_lenient_cons_le decodeSpaces percentSign (a :: s)
    have h₂ := length_lenient_cons_le decodeSpaces a s
    rw [List.length_cons, List.length_cons]
    omega
  | case5 c hc a n ha =>
    obtain rfl := not_not.mp hc
    have h₁ := length_lenient_cons_le decodeSpaces percentSign [a]
    have h₂ := length_lenient_cons_le decodeSpaces a []
    rw [lenient, List.length_nil] at h₂
    rw [List.length_cons, List.length_singleton]
    omega
  | case6 c hc a n ha b s m hb ih =>
    obtain rfl := not_not.mp hc
    rw [lenient_escape decodeSpaces ha hb]
    exact Nat.succ_le_succ ih
  | case7 c hc a n ha b s hb ih =>
    obtain rfl := not_not.mp hc
    have h₁ := length_lenient_cons_le decodeSpaces percentSign (a :: b :: s)
    have h₂ := length_lenient_cons_le decodeSpaces a (b :: s)
    have h₃ := length_lenient_cons_le decodeSpaces b s
    rw [List.length_cons, List.length_cons, List.length_cons]
    omega

/-- The last character of an escape that is not well formed. -/
theorem swallowed_iff (decodeSpaces : Bool) (c : UInt16) {s : JSString}
    (h : unescaped decodeSpaces s = lenient decodeSpaces s ↔ ¬ Swallows decodeSpaces s) :
    lowByte c :: unescaped decodeSpaces s = lenient decodeSpaces (c :: s) ↔
      ¬ (Special decodeSpaces c s ∨ Swallows decodeSpaces s) := by
  by_cases hspecial : Special decodeSpaces c s
  · refine iff_of_false (fun heq => ?_) fun hno => hno (.inl hspecial)
    rcases hspecial with ⟨rfl, hspaces⟩ | ⟨rfl, hescape⟩
    · rw [lenient_plain decodeSpaces (by decide), plainByte, if_pos ⟨rfl, hspaces⟩] at heq
      exact absurd (List.cons_eq_cons.mp heq).1 (by decide)
    · have hlength := congrArg List.length heq
      have hshort := length_lenient_special decodeSpaces hescape
      have hle := length_lenient_le decodeSpaces s
      rw [List.length_cons] at hlength
      omega
  · rw [lenient_of_not_special hspecial, List.cons_inj_right, h, or_iff_right hspecial]

theorem swallows_plain {decodeSpaces : Bool} {c : UInt16} (hc : c ≠ percentSign) (s : JSString) :
    Swallows decodeSpaces (c :: s) ↔ Swallows decodeSpaces s := by
  constructor
  · intro h
    cases h with
    | afterPlain _ h => exact h
    | _ => exact absurd rfl hc
  · exact .afterPlain hc

theorem swallows_short {decodeSpaces : Bool} {c : UInt16} (hc : hexDigit c = none) (s : JSString) :
    Swallows decodeSpaces (percentSign :: c :: s) ↔
      Special decodeSpaces c s ∨ Swallows decodeSpaces s := by
  constructor
  · intro h
    cases h with
    | short _ h => exact .inl h
    | afterShort _ h => exact .inr h
    | afterPlain hne => exact absurd rfl hne
    | long ha | afterLong ha | afterEscape ha =>
      rw [hc] at ha
      cases ha
  · exact fun h => h.elim (.short hc) (.afterShort hc)

theorem swallows_escape {decodeSpaces : Bool} {a b : UInt16} (ha : (hexDigit a).isSome)
    (hb : (hexDigit b).isSome) (s : JSString) :
    Swallows decodeSpaces (percentSign :: a :: b :: s) ↔ Swallows decodeSpaces s := by
  constructor
  · intro h
    cases h with
    | afterEscape _ _ h => exact h
    | afterPlain hne => exact absurd rfl hne
    | short hc | afterShort hc =>
      rw [hc] at ha
      cases ha
    | long _ hc | afterLong _ hc =>
      rw [hc] at hb
      cases hb
  · exact .afterEscape ha hb

theorem swallows_long {decodeSpaces : Bool} {a c : UInt16} (ha : (hexDigit a).isSome)
    (hc : hexDigit c = none) (s : JSString) :
    Swallows decodeSpaces (percentSign :: a :: c :: s) ↔
      Special decodeSpaces c s ∨ Swallows decodeSpaces s := by
  constructor
  · intro h
    cases h with
    | long _ _ h => exact .inl h
    | afterLong _ _ h => exact .inr h
    | afterPlain hne => exact absurd rfl hne
    | short hn | afterShort hn =>
      rw [hn] at ha
      cases ha
    | afterEscape _ hb =>
      rw [hc] at hb
      cases hb
  · exact fun h => h.elim (.long ha hc) (.afterLong ha hc)

/-- A text of which no more is left than a percent sign and a digit swallows nothing. -/
theorem not_swallows_end {decodeSpaces : Bool} {s : JSString}
    (h : ∀ a b t, s = a :: b :: t → False) (hdigit : ∀ a ∈ s, (hexDigit a).isSome) :
    ¬ Swallows decodeSpaces (percentSign :: s) := by
  intro hswallows
  cases hswallows with
  | afterPlain hne => exact hne rfl
  | short hc | afterShort hc =>
    have hd := hdigit _ List.mem_cons_self
    rw [hc] at hd
    cases hd
  | long => exact h _ _ _ rfl
  | afterEscape => exact h _ _ _ rfl
  | afterLong => exact h _ _ _ rfl

theorem escapeValue_short {a : UInt16} (ha : hexDigit a = none) (b : UInt16) :
    escapeValue a b = none := by
  rw [escapeValue, ha]
  rfl

theorem escapeValue_long {a n b : UInt16} (ha : hexDigit a = some n) (hb : hexDigit b = none) :
    escapeValue a b = none := by
  rw [escapeValue, ha, hb]
  rfl

theorem unescaped_eq_lenient_iff (decodeSpaces : Bool) (s : JSString) :
    unescaped decodeSpaces s = lenient decodeSpaces s ↔ ¬ Swallows decodeSpaces s := by
  fun_induction unescaped decodeSpaces s with
  | case1 =>
    refine iff_of_true (by rw [lenient]) fun h => ?_
    cases h
  | case2 c s hc ih =>
    rw [lenient_plain decodeSpaces hc, List.cons_inj_right, ih, swallows_plain hc]
  | case3 c hc =>
    obtain rfl := not_not.mp hc
    refine iff_of_true ?_ (not_swallows_end (by simp) (by simp))
    rw [lenient_percent decodeSpaces (by simp), lenient]
  | case4 c hc a s ha ih =>
    obtain rfl := not_not.mp hc
    have hpercent : lenient decodeSpaces (percentSign :: a :: s) =
        lowByte percentSign :: lenient decodeSpaces (a :: s) := by
      refine lenient_percent decodeSpaces fun a' b t heq => ?_
      obtain ⟨rfl, -⟩ := List.cons_eq_cons.mp heq
      exact escapeValue_short ha b
    rw [hpercent, List.cons_inj_right, swallowed_iff decodeSpaces a ih, swallows_short ha]
  | case5 c hc a n ha =>
    obtain rfl := not_not.mp hc
    have hdigit : (hexDigit a).isSome := by rw [ha]; rfl
    refine iff_of_true ?_ (not_swallows_end (by simp) (by simpa using hdigit))
    rw [lenient_percent decodeSpaces (by simp), (lenient_digit decodeSpaces hdigit []).1, lenient]
  | case6 c hc a n ha b s m hb ih =>
    obtain rfl := not_not.mp hc
    have ha' : (hexDigit a).isSome := by rw [ha]; rfl
    have hb' : (hexDigit b).isSome := by rw [hb]; rfl
    rw [lenient_escape decodeSpaces ha hb, List.cons_inj_right, ih, swallows_escape ha' hb']
  | case7 c hc a n ha b s hb ih =>
    obtain rfl := not_not.mp hc
    have ha' : (hexDigit a).isSome := by rw [ha]; rfl
    have hpercent : lenient decodeSpaces (percentSign :: a :: b :: s) =
        lowByte percentSign :: lenient decodeSpaces (a :: b :: s) := by
      refine lenient_percent decodeSpaces fun a' b' t heq => ?_
      simp only [List.cons.injEq] at heq
      obtain ⟨rfl, rfl, -⟩ := heq
      exact escapeValue_long ha hb
    rw [hpercent, (lenient_digit decodeSpaces ha' _).1, List.cons_inj_right, List.cons_inj_right,
      swallowed_iff decodeSpaces b ih, swallows_long ha' hb]

/-- The bytes are those of lenient decoding, unless an escape that is not well formed takes an
escape or a space along. -/
theorem unescapeBuffer_lenient_iff {out : Bytes} {s : JSString} (h : out.length = s.length)
    (decodeSpaces : Bool) :
    unescapeBuffer out s decodeSpaces = .ok (lenient decodeSpaces s) ↔
      ¬ Swallows decodeSpaces s := by
  rw [unescapeBuffer_eq h, ← unescaped_eq_lenient_iff]
  exact ⟨fun heq => Except.ok.inj heq, congrArg _⟩

theorem unescapeBuffer_lenient_iff_short :
    unescapeBuffer [7, 7, 7, 7] (js "%zx+") true = .ok (lenient true (js "%zx+")) ↔
      ¬ Swallows true (js "%zx+") :=
  unescapeBuffer_lenient_iff (by decide) true

/-- `%%41` stays as it is. -/
theorem unescapeBuffer_swallows : ¬ ∀ (out : Bytes) (s : JSString) (decodeSpaces : Bool),
    (∀ c ∈ s, c ≤ 0x7f) → out.length = s.length →
      unescapeBuffer out s decodeSpaces = .ok (lenient decodeSpaces s) := by
  intro h
  have hsame := h [0, 0, 0, 0] (js "%%41") false (by decide +kernel) (by decide +kernel)
  rw [unescapeBuffer_eq (by decide +kernel)] at hsame
  exact absurd (congrArg List.length (Except.ok.inj hsame)) (by decide +kernel)

end NodeJS.Querystring
