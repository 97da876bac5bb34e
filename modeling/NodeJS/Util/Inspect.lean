import Mathlib.Data.Fintype.Card
import NodeJS.Lib.Call
import NodeJS.Util.Quote

/-! `format` of `util.inspect`, on objects and arrays that may refer to each other. -/
namespace NodeJS.Util
open Lib Lib.Regex

/-- A number as `'' + value` prints it. -/
structure Numeral where
  text : JSString
  chars : ∀ c ∈ text, c ∈ js "0123456789.e+-InfityNa"

/-- A value that is neither a function nor has a method `inspect`. -/
inductive Value (Ref : Type)
  | undefined
  | null
  | boolean (b : Bool)
  | number (n : Numeral)
  | string (s : JSString)
  | object (r : Ref)

variable {Ref : Type}

def Value.truthy : Value Ref → Bool
  | .undefined | .null => false
  | .boolean b => b
  | .number n => n.text ≠ js "0" ∧ n.text ≠ js "NaN"
  | .string s => s ≠ []
  | .object _ => true

/-- A property holds a value, or has a getter, which returns one, or a setter, or both. -/
inductive Content (Ref : Type)
  | data (value : Value Ref)
  | accessor (getter : Option (Value Ref)) (setter : Bool)

def Content.value : Content Ref → Value Ref
  | .data value => value
  | .accessor getter _ => getter.getD .undefined

structure Property (Ref : Type) where
  name : JSString
  enumerable : Bool
  content : Content Ref

/-- An array, or an object with the prototype `Object.prototype`, and its own properties. -/
structure Object (Ref : Type) where
  isArray : Bool
  properties : List (Property Ref)
  nodup : (properties.map Property.name).Nodup

structure Options where
  showHidden : Bool
  colors : Bool
  /-- `require('readline').columns || 50` -/
  columns : ℕ

/-- `recurseTimes`. What is no number is converted to one. -/
inductive Times
  | null
  | number (n : Float)

def Times.negative : Times → Bool
  | .null => false
  | .number n => n < 0

/-- What `format` is called with for the properties: `undefined`, or `recurseTimes - 1`. -/
def Times.next : Times → Times
  | .null => .number (0 / 0)
  | .number n => .number (n - 1)

/-- A property whose value has been printed: the objects whose properties were being printed, the
text of the value, and `seen` before and after. -/
structure Shown (Ref : Type) where
  enclosing : List Ref
  value : Value Ref
  text : JSString
  before : List Ref
  after : List Ref

structure Inspect (Ref : Type) where
  seen : List Ref
  shown : List (Shown Ref)

/-- A property of an object is called that is no function. -/
inductive TypeError
  | notFunction

namespace Object
variable (o : Object Ref)

def content (key : JSString) : Option (Content Ref) :=
  (o.properties.find? fun p => p.name = key).map Property.content

/-- What `value[key]` reads. -/
def read (key : JSString) : Value Ref := ((o.content key).map Content.value).getD .undefined

/-- `Object.keys` -/
def visibleKeys : List JSString := (o.properties.filter Property.enumerable).map Property.name

def keys (showHidden : Bool) : List JSString :=
  if showHidden then o.properties.map Property.name else o.visibleKeys

/-- What `__lookupGetter__` and `__lookupSetter__` say of a property, if an object has not a value
of its own in their place. -/
def accessorText (key : JSString) : Except TypeError (Option JSString) :=
  match o.content (js "__lookupGetter__") with
  | some c => if c.value.truthy then .error .notFunction else .ok none
  | none =>
    match o.content (js "__lookupSetter__") with
    | some _ => .error .notFunction
    | none =>
      match o.content key with
      | some (.accessor (some _) true) => .ok (some (js "[Getter/Setter]"))
      | some (.accessor (some _) false) => .ok (some (js "[Getter]"))
      | some (.accessor none true) => .ok (some (js "[Setter]"))
      | _ => .ok none

end Object

/-- `seen.indexOf(value) >= 0` -/
def Value.isSeen [DecidableEq Ref] (seen : List Ref) : Value Ref → Bool
  | .object r => r ∈ seen
  | _ => false

abbrev newline : UInt16 := 0x0A

/-- The lines after the first are indented, or all of them, on lines of their own. -/
def indent (isArray : Bool) (str : JSString) : JSString :=
  if newline ∈ str then
    if isArray then
      ((js "\n").intercalate ((str.splitOn newline).map (js "  " ++ ·))).drop 2
    else js "\n" ++ (js "\n").intercalate ((str.splitOn newline).map (js "   " ++ ·))
  else str

/-- `/^\d+$/` -/
def indexRe : Regex UInt16 :=
  .seq .start (.seq (.plus true (.cls fun c => 0x30 ≤ c ∧ c ≤ 0x39)) .finish)

abbrev Graph (Ref : Type) := Ref → Object Ref

section
variable [DecidableEq Ref] (options : Options)

local instance : LawfulBEq JSString := inferInstance

/-- The text of a property, with the name in front unless it is an index of an array. -/
def withName (o : Object Ref) (key str : JSString) : JSString :=
  if key ∉ o.visibleKeys then js "[" ++ key ++ js "]" ++ js ": " ++ str
  else if o.isArray ∧ (indexRe.exec 0 key).isSome then str
  else formatName options.colors key ++ js ": " ++ str

def circular : JSString := stylize options.colors (js "[Circular]") .special

def formatValue (format : Value Ref → Call (Inspect Ref) TypeError JSString) (seen : List Ref)
    (value : Value Ref) : Call (Inspect Ref) TypeError JSString :=
  if value.isSeen seen then pure (circular options) else format value

/-- What is done for a property, where `format` prints its value. -/
def formatProperty (format : Value Ref → Call (Inspect Ref) TypeError JSString) (o : Object Ref)
    (enclosing : List Ref) (key : JSString) : Call (Inspect Ref) TypeError JSString :=
  match o.accessorText key with
  | .error e => Call.throw e
  | .ok (some text) => pure (withName options o key (stylize options.colors text .special))
  | .ok none => do
    let value := o.read key
    let before ← Call.get
    let text ← formatValue options format before.seen value
    Call.modify fun after =>
      { after with shown := after.shown ++ [⟨enclosing, value, text, before.seen, after.seen⟩] }
    pure (withName options o key (indent o.isArray text))

def join (o : Object Ref) (output : List JSString) : JSString :=
  let first := if o.isArray then js "[" else js "\x7b"
  let last := if o.isArray then js "]" else js "\x7d"
  let length := output.foldl (fun prev cur => prev + cur.length + 1) 0
  if length > options.columns then
    first ++ js " " ++ (js ",\n  ").intercalate output ++ js " " ++ last
  else first ++ js " " ++ (js ", ").intercalate output ++ js " " ++ last

/-- `format`, with at most so many calls of it in each other. The objects whose properties are being
printed are `enclosing`. -/
def format (g : Graph Ref) : ℕ → List Ref → Value Ref → Times →
    Call (Inspect Ref) TypeError JSString
  | 0, _, _, _ => Call.cut
  | _ + 1, _, .undefined, _ => pure (stylize options.colors (js "undefined") .undefined)
  | _ + 1, _, .string s, _ => pure (formatString options.colors s)
  | _ + 1, _, .number n, _ => pure (stylize options.colors n.text .number)
  | _ + 1, _, .boolean b, _ =>
    pure (stylize options.colors (if b then js "true" else js "false") .boolean)
  | _ + 1, _, .null, _ => pure (stylize options.colors (js "null") .null)
  | fuel + 1, enclosing, .object r, recurseTimes =>
    let o := g r
    if o.keys options.showHidden = [] then
      pure (if o.isArray then js "[]" else js "\x7b\x7d")
    else if recurseTimes.negative then pure (stylize options.colors (js "[Object]") .special)
    else do
      Call.modify fun s => { s with seen := s.seen ++ [r] }
      let output ← Call.each
        (formatProperty options (fun value => format g fuel (enclosing ++ [r]) value recurseTimes.next)
          o (enclosing ++ [r])) (o.keys options.showHidden)
      Call.modify fun s => { s with seen := s.seen.dropLast }
      pure (join options o output)

/-- `util.inspect`, of which `depth` is left out where it is `none`. -/
def inspect (g : Graph Ref) (fuel : ℕ) (value : Value Ref) (depth : Option Times) :
    Option (Except TypeError JSString × Inspect Ref) :=
  format options g fuel [] value (depth.getD (.number 2)) ⟨[], []⟩

end

/-! ### Texts that are not `[Circular]` -/

section
variable (options : Options)

/-- The codes of the other colours differ from that of `[Circular]` in the fourth character. -/
theorem escapeCode_append_ne {n : ℕ} {c : UInt16} (hn : (escapeCode n)[3]? = some c)
    (hc : c ≠ 0x36) (x y : JSString) : escapeCode n ++ x ≠ escapeCode 36 ++ y := by
  have hspecial : (escapeCode 36)[3]? = some 0x36 := by decide +kernel
  intro h
  have hfourth := congrArg (·[3]?) h
  rw [List.getElem?_append_left (List.getElem?_eq_some_iff.mp hn).1, hn,
    List.getElem?_append_left (List.getElem?_eq_some_iff.mp hspecial).1, hspecial] at hfourth
  exact hc (Option.some.inj hfourth)

theorem stylize_ne_circular {x : JSString} (hx : x ≠ js "[Circular]") {style : Style}
    (hspecial : style ≠ .special) (hname : style ≠ .name) :
    stylize options.colors x style ≠ circular options := by
  unfold circular
  cases options.colors with
  | false => exact hx
  | true =>
    have hcode : ∀ (n m : ℕ) (c : UInt16), (escapeCode n)[3]? = some c → c ≠ 0x36 →
        escapeCode n ++ x ++ escapeCode m ≠ stylize true (js "[Circular]") .special := by
      intro n m c hn hc
      rw [List.append_assoc]
      exact escapeCode_append_ne hn hc _ (js "[Circular]" ++ escapeCode 39)
    cases style with
    | special => exact absurd rfl hspecial
    | name => exact absurd rfl hname
    | number => exact hcode 34 39 0x34 (by decide +kernel) (by decide)
    | boolean => exact hcode 33 39 0x33 (by decide +kernel) (by decide)
    | undefined => exact hcode 90 39 0x30 (by decide +kernel) (by decide)
    | null => exact hcode 1 22 0x6D (by decide +kernel) (by decide)
    | string => exact hcode 32 39 0x32 (by decide +kernel) (by decide)

theorem formatString_ne_circular (s : JSString) :
    formatString options.colors s ≠ circular options := by
  rw [formatString_eq]
  refine stylize_ne_circular options (fun h => ?_) nofun nofun
  have hfirst := congrArg List.head? h
  rw [List.cons_append, List.head?_cons] at hfirst
  exact absurd hfirst (by decide +kernel)

theorem Numeral.text_ne (n : Numeral) : n.text ≠ js "[Circular]" := by
  intro h
  have hbracket := n.chars 0x5B (by rw [h]; decide +kernel)
  exact absurd hbracket (by decide +kernel)

/-- A text in brackets that are not coloured, of which the next character is another. -/
theorem ne_circular {c d : UInt16} {x : JSString} (hc : c ≠ 0x1B) (hd : d ≠ 0x43) :
    c :: d :: x ≠ circular options := by
  unfold circular
  cases options.colors with
  | false =>
    intro h
    have hsecond := congrArg (·[1]?) h
    have hC : (stylize false (js "[Circular]") .special)[1]? = some 0x43 := by decide +kernel
    exact hd (Option.some.inj (hsecond.trans hC))
  | true =>
    intro h
    have hfirst := congrArg (·[0]?) h
    have hescape : (stylize true (js "[Circular]") .special)[0]? = some 0x1B := by decide +kernel
    exact hc (Option.some.inj (hfirst.trans hescape))

theorem object_ne_circular : stylize options.colors (js "[Object]") .special ≠ circular options :=
  fun h => absurd (stylize_inj options.colors h) (by decide +kernel)

theorem join_ne_circular (o : Object Ref) (output : List JSString) :
    join options o output ≠ circular options := by
  have hspace : js " " = [0x20] := by decide +kernel
  have hopening : ∀ x, (if o.isArray then js "[" else js "\x7b") ++ (js " " ++ x) ≠
      circular options := by
    intro x
    have hbracket : js "[" = [0x5B] := by decide +kernel
    have hbrace : js "\x7b" = [0x7B] := by decide +kernel
    rw [hspace]
    split_ifs
    · rw [hbracket]
      exact ne_circular options (by decide) (by decide)
    · rw [hbrace]
      exact ne_circular options (by decide) (by decide)
  unfold join
  dsimp only
  by_cases hlength : output.foldl (fun prev cur => prev + cur.length + 1) 0 > options.columns
  · rw [if_pos hlength]
    simp only [List.append_assoc]
    exact hopening _
  · rw [if_neg hlength]
    simp only [List.append_assoc]
    exact hopening _

end

end NodeJS.Util
