import Mathlib.Data.Nat.Size
import NodeJS.Buffer.Text
import NodeJS.Lib.Regex

/-! `ReadStream.prototype._emitKey`: the `'keypress'` events for what is typed or pasted. -/
namespace NodeJS.Tty
open Lib Lib.Regex

abbrev esc : UInt16 := 0x1b

structure Key where
  name : Option JSString
  ctrl : Bool
  metaKey : Bool
  shift : Bool
  deriving DecidableEq

def Key.none : Key := ⟨.none, false, false, false⟩

def Key.named (name : String) : Key := { Key.none with name := some (js name) }

/-- `emit('keypress', char, key)` -/
structure Keypress where
  char : Option JSString
  key : Option Key
  deriving DecidableEq

def isDigit (c : UInt16) : Bool := 0x30 ≤ c ∧ c ≤ 0x39

def isUpper (c : UInt16) : Bool := 0x41 ≤ c ∧ c ≤ 0x5a

def isLetter (c : UInt16) : Bool := 0x61 ≤ c ∧ c ≤ 0x7a ∨ isUpper c

/-- `/^(?:\x1b)([a-zA-Z0-9])$/` -/
def metaKeyCodeRe : Regex UInt16 :=
  .seq .start (.seq (lit esc) (.seq (.group 1 (.cls fun c => isLetter c || isDigit c)) .finish))

/-- `(\d+)(?:;(\d+))?([~^$])` -/
def numbered : Regex UInt16 :=
  .seq (.group 2 (.plus true (.cls isDigit)))
    (.seq (.opt (.seq (lit 0x3b) (.group 3 (.plus true (.cls isDigit)))))
      (.group 4 (.cls fun c => c = 0x7e ∨ c = 0x5e ∨ c = 0x24)))

/-- `(?:1;)?(\d+)?([a-zA-Z])` -/
def lettered : Regex UInt16 :=
  .seq (.opt (.seq (lit 0x31) (lit 0x3b)))
    (.seq (.opt (.group 5 (.plus true (.cls isDigit)))) (.group 6 (.cls isLetter)))

/-- `/^(?:\x1b+)(O|N|\[|\[\[)(?:(\d+)(?:;(\d+))?([~^$])|(?:1;)?(\d+)?([a-zA-Z]))/` -/
def functionKeyCodeRe : Regex UInt16 :=
  .seq .start (.seq (.plus true (lit esc))
    (.seq (.group 1 (.alt (lit 0x4f) (.alt (lit 0x4e)
      (.alt (lit 0x5b) (.seq (lit 0x5b) (lit 0x5b)))))) (.alt numbered lettered)))

/-- The double that is next to a natural number. -/
def toDouble (n : ℕ) : ℕ :=
  let ulp := 2 ^ (n.size - 53)
  let q := n / ulp
  let r := n % ulp
  (if ulp < 2 * r ∨ ulp = 2 * r ∧ q % 2 = 1 then q + 1 else q) * ulp

/-- `digits - 1` -/
def lessOne (digits : JSString) : ℤ :=
  match toDouble (digits.foldl (fun n c => 10 * n + (c.toNat - 0x30)) 0) with
  | 0 => -1
  | n + 1 => toDouble n

/-- `!!(modifier & mask)` -/
def bitAnd (modifier : ℤ) (mask : BitVec 32) : Bool := BitVec.ofInt 32 modifier &&& mask ≠ 0

/-- The codes of `switch (code)`, and the names of the keys. -/
def plainCodes : List (String × String) :=
  [("OP", "f1"), ("OQ", "f2"), ("OR", "f3"), ("OS", "f4"),
    ("[11~", "f1"), ("[12~", "f2"), ("[13~", "f3"), ("[14~", "f4"),
    ("[15~", "f5"), ("[17~", "f6"), ("[18~", "f7"), ("[19~", "f8"), ("[20~", "f9"),
    ("[21~", "f10"), ("[23~", "f11"), ("[24~", "f12"),
    ("[A", "up"), ("[B", "down"), ("[C", "right"), ("[D", "left"), ("[E", "clear"),
    ("[F", "end"), ("[H", "home"),
    ("OA", "up"), ("OB", "down"), ("OC", "right"), ("OD", "left"), ("OE", "clear"),
    ("OF", "end"), ("OH", "home"),
    ("[1~", "home"), ("[2~", "insert"), ("[3~", "delete"), ("[4~", "end"), ("[5~", "pageup"),
    ("[6~", "pagedown"),
    ("[[5~", "pageup"), ("[[6~", "pagedown"),
    ("[7~", "home"), ("[8~", "end")]

/-- Those that set `key.shift`. -/
def shiftCodes : List (String × String) :=
  [("[a", "up"), ("[b", "down"), ("[c", "right"), ("[d", "left"), ("[e", "clear"),
    ("[2$", "insert"), ("[3$", "delete"), ("[5$", "pageup"), ("[6$", "pagedown"),
    ("[7$", "home"), ("[8$", "end"),
    ("[Z", "tab")]

/-- Those that set `key.ctrl`. -/
def ctrlCodes : List (String × String) :=
  [("Oa", "up"), ("Ob", "down"), ("Oc", "right"), ("Od", "left"), ("Oe", "clear"),
    ("[2^", "insert"), ("[3^", "delete"), ("[5^", "pageup"), ("[6^", "pagedown"),
    ("[7^", "home"), ("[8^", "end")]

def nameOf (codes : List (String × String)) (code : JSString) : Option JSString :=
  (codes.find? fun x => js x.1 = code).map fun x => js x.2

/-- The key of an escape sequence, from the groups of `functionKeyCodeRe`. -/
def functionKey (parts : ℕ → Option JSString) : Key :=
  let part n := (parts n).getD []
  let code := part 1 ++ part 2 ++ part 4 ++ part 6
  let modifier := ((parts 3).or (parts 5)).elim 0 lessOne
  let key : Key := ⟨.none, bitAnd modifier 4, bitAnd modifier 10, bitAnd modifier 1⟩
  match nameOf plainCodes code with
  | some name => { key with name := some name }
  | .none => match nameOf shiftCodes code with
    | some name => { key with name := some name, shift := true }
    | .none => match nameOf ctrlCodes code with
      | some name => { key with name := some name, ctrl := true }
      | .none => key

/-- The tests of `_emitKey`, as far as the one for a paste. -/
def findKey (s : JSString) : Option Key :=
  if s = js "\r" ∨ s = js "\n" then some (.named "enter")
  else if s = js "\t" then some (.named "tab")
  else if s = [0x08] ∨ s = [0x7f] ∨ s = [esc, 0x7f] ∨ s = [esc, 0x08] then
    some { Key.named "backspace" with metaKey := s.head? = some esc }
  else if s = [esc] ∨ s = [esc, esc] then
    some { Key.named "escape" with metaKey := s.length = 2 }
  else if s = js " " ∨ s = esc :: js " " then
    some { Key.named "space" with metaKey := s.length = 2 }
  else if s ≤ [0x1a] then
    -- `charCodeAt` of an empty string is `NaN`, of which `fromCharCode` makes 0
    some { Key.none with name := some [s.head?.elim 0 fun c => c + 0x61 - 1], ctrl := true }
  else if s.length = 1 ∧ js "a" ≤ s ∧ s ≤ js "z" then some { Key.none with name := some s }
  else if s.length = 1 ∧ js "A" ≤ s ∧ s ≤ js "Z" then
    some { Key.none with name := some (toLowerCase s), shift := true }
  else match metaKeyCodeRe.exec 0 s with
  | some (_, found) =>
    let part := (found.groups 1).getD []
    some ⟨some (toLowerCase part), false, true, part.all isUpper⟩
  | .none => (functionKeyCodeRe.exec 0 s).map fun (_, found) => functionKey found.groups

/-- The end of `_emitKey`. -/
def emitPress (s : JSString) (key : Key) : List Keypress :=
  let key := if key.name = .none then .none else some key
  let char := if s.length = 1 then some s else .none
  if key.isSome || char.isSome then [⟨char, key⟩] else []

/-- `_emitKey` of a string. -/
def emitKey (s : JSString) : List Keypress :=
  match findKey s with
  | some key => emitPress s key
  | .none =>
    if 1 < s.length ∧ s.head? ≠ some esc then s.flatMap fun c => emitKey [c]
    else emitPress s .none
termination_by s.length
decreasing_by exact (‹_ ∧ s.head? ≠ some esc›).1

/-! ### The tests that a paste meets -/

section
variable {s : JSString} (hesc : s.head? ≠ some esc)
include hesc

theorem run_esc (k : At UInt16 → Option (At UInt16)) (groups : ℕ → Option JSString) :
    (lit esc).run k ⟨0, s, groups⟩ = .none := by
  cases s with
  | nil => exact run_cls_nil rfl
  | cons c rest =>
    have hc : ¬ (c == esc) = true := fun heq => hesc (congrArg some (beq_iff_eq.mp heq))
    exact (run_cls_cons rfl).trans (if_neg hc)

/-- Both expressions begin with an escape character. -/
theorem metaKeyCodeRe_exec : metaKeyCodeRe.exec 0 s = .none := by
  rw [metaKeyCodeRe, exec_start, run_seq, run_esc hesc]
  rfl

theorem functionKeyCodeRe_exec : functionKeyCodeRe.exec 0 s = .none := by
  rw [functionKeyCodeRe, exec_start, run_seq, plus, run_seq, run_esc hesc]
  rfl

/-- Of a text, only the test for control characters may take more than one. -/
theorem findKey_of_length (hlength : 1 < s.length) :
    findKey s = if s ≤ [0x1a] then
      some { Key.none with name := some [s.head?.elim 0 fun c => c + 0x61 - 1], ctrl := true }
    else .none := by
  have hone : ∀ t : JSString, t.length = 1 → s ≠ t := by
    rintro t ht rfl
    exact absurd hlength (ht ▸ Nat.lt_irrefl 1)
  have htwo : ∀ t, s ≠ esc :: t := by
    rintro t rfl
    exact hesc rfl
  have hne : ∀ p : Prop, ¬ (s.length = 1 ∧ p) := fun p h => absurd h.1 (Nat.ne_of_gt hlength)
  have henter : ¬ (s = js "\r" ∨ s = js "\n") := not_or.mpr ⟨hone _ rfl, hone _ rfl⟩
  have htab : s ≠ js "\t" := hone _ rfl
  have hspace : ¬ (s = js " " ∨ s = esc :: js " ") := not_or.mpr ⟨hone _ rfl, htwo _⟩
  unfold findKey
  rw [metaKeyCodeRe_exec hesc, functionKeyCodeRe_exec hesc, if_neg henter, if_neg htab,
    if_neg (not_or.mpr ⟨hone _ rfl, not_or.mpr ⟨hone _ rfl, not_or.mpr ⟨htwo _, htwo _⟩⟩⟩),
    if_neg (not_or.mpr ⟨hone _ rfl, htwo _⟩), if_neg hspace, if_neg (hne _), if_neg (hne _)]
  rfl

end

/-- A text comes after that of one character if its first character is not below it. -/
theorem le_control_iff {c d : UInt16} {rest : JSString} :
    c :: d :: rest ≤ [0x1a] ↔ c < 0x1a := by
  rw [List.cons_le_cons_iff]
  simp

/-- One event for one character. -/
theorem length_emitKey (c : UInt16) : (emitKey [c]).length = 1 := by
  have hpress : ∀ key, (emitPress [c] key).length = 1 := by
    intro key
    unfold emitPress
    have hchar : (if [c].length = 1 then some [c] else .none) = some [c] := if_pos rfl
    dsimp only
    rw [hchar, Option.isSome_some, Bool.or_true, if_pos rfl]
    rfl
  rw [emitKey]
  cases findKey [c] with
  | some key => exact hpress key
  | none =>
    dsimp only
    rw [if_neg (fun h : 1 < [c].length ∧ _ => absurd h.1 (Nat.lt_irrefl 1))]
    exact hpress .none

theorem length_singles (s : JSString) :
    (s.flatMap fun c => emitKey [c]).length = s.length := by
  induction s with
  | nil => rfl
  | cons c s ih =>
    rw [List.flatMap_cons, List.length_append, length_emitKey, ih, List.length_cons, Nat.add_comm]

theorem length_emitPress_le (s : JSString) (key : Key) : (emitPress s key).length ≤ 1 := by
  have hite : ∀ (b : Bool) (press : Keypress), (if b then [press] else []).length ≤ 1 := by
    intro b press
    cases b with
    | false => exact Nat.zero_le 1
    | true => exact Nat.le_refl 1
  exact hite _ _

/-- A paste is taken apart, unless it begins with a control character below `'\x1a'`. -/
theorem paste_iff {s : JSString} (hlength : 2 ≤ s.length) (hesc : s.head? ≠ some esc) :
    emitKey s = s.flatMap (fun c => emitKey [c]) ↔ ∀ c ∈ s.head?, 0x1a ≤ c := by
  have hle : s ≤ [0x1a] ↔ ∃ c ∈ s.head?, c < 0x1a := by
    match s, hlength with
    | c :: d :: rest, _ => rw [le_control_iff]; simp
  rw [emitKey, findKey_of_length hesc hlength]
  by_cases hcontrol : s ≤ [0x1a]
  · -- one event, where there should be one for each character
    rw [if_pos hcontrol]
    refine iff_of_false (fun heq => ?_) fun h => ?_
    · have hone := length_emitPress_le s
        { Key.none with name := some [s.head?.elim 0 fun c => c + 0x61 - 1], ctrl := true }
      have hmany := congrArg List.length heq
      rw [length_singles] at hmany
      exact absurd (hmany ▸ hone) (Nat.not_le.mpr hlength)
    · obtain ⟨c, hc, hlt⟩ := hle.mp hcontrol
      exact absurd hlt (UInt16.not_lt.mpr (h c hc))
  · rw [if_neg hcontrol]
    dsimp only
    rw [if_pos ⟨hlength, hesc⟩]
    exact iff_of_true rfl fun c hc =>
      UInt16.not_lt.mp fun hlt => hcontrol (hle.mpr ⟨c, hc, hlt⟩)

theorem paste_iff_ab : emitKey (js "ab") = (js "ab").flatMap (fun c => emitKey [c]) ↔
    ∀ c ∈ (js "ab").head?, 0x1a ≤ c :=
  paste_iff (by decide) (by decide)

/-- A paste of two lines that begins with a line feed is taken for a letter with the control key. -/
theorem not_paste : ¬ ∀ s : JSString, 2 ≤ s.length → s.head? ≠ some esc →
    emitKey s = s.flatMap fun c => emitKey [c] := by
  intro h
  have hlength := congrArg List.length (h (js "\nls") (by decide) (by decide))
  rw [length_singles, emitKey, findKey_of_length (by decide) (by decide),
    if_pos (by decide)] at hlength
  exact absurd (hlength ▸ length_emitPress_le _ _) (by decide)

end NodeJS.Tty
