import Mathlib.Data.List.Sort
import NodeJS.Buffer.Utf8
import NodeJS.Tty.EmitKey

/-! `readline.js`: an `Interface` on a terminal, and the code of others that it calls. -/
namespace NodeJS.Readline
open Lib Lib.Regex
open JSString (slice)
open NodeJS.Tty (Key isDigit isLetter)

def kHistorySize : ℕ := 30

/-- A call of a method of `output`. -/
inductive Write
  | write (s : JSString)
  | cursorTo (column : ℤ)
  | moveCursor (dx : ℤ)
  | clearLine

/-- An `Interface` that is enabled. `sigint` and `attemptClose` say whether these events have
listeners, and `completer` whether there is one. -/
structure Interface where
  line : JSString
  cursor : ℤ
  history : List JSString
  historyIndex : ℤ
  prompt : JSString
  promptLength : ℤ
  oldPrompt : JSString
  questionCallback : Option ℕ
  closing : Bool
  closed : Bool
  columns : ℕ
  completer : Bool
  sigint : Bool
  attemptClose : Bool
  output : List Write

/-- What is to be done when the code of others returns: after the listeners of `'line'`, or the
callback of a question, the lines `rest` of a paste are inserted. -/
inductive Frame
  | line (text : JSString) (callback : Option ℕ) (rest : List JSString)
  | complete (leading : JSString)
  | close
  | listener

namespace Interface
variable (rl : Interface)

def write (w : Write) : Interface := { rl with output := rl.output ++ [w] }

/-- The part of a text after its last line break. -/
def lastLine (s : JSString) : JSString :=
  (s.reverse.takeWhile fun c => c ≠ 0x0d ∧ c ≠ 0x0a).reverse

/-- `setPrompt`, where a `length` that is left out is 0. -/
def setPrompt (prompt : JSString) (length : ℕ) : Interface :=
  { rl with
    prompt := prompt
    promptLength := if length ≠ 0 then length else byteLength .utf8 (lastLine prompt) }

def refreshLine : Interface :=
  if rl.closed then rl
  else { rl with
    output := rl.output ++ [.cursorTo 0, .write rl.prompt, .write rl.line, .clearLine,
      .cursorTo (rl.promptLength + rl.cursor)] }

/-- `prompt` -/
def showPrompt : Interface := { rl with cursor := 0 }.refreshLine

/-- `question`. While one is open, another is dropped. -/
def question (query : JSString) (cb : ℕ) : Interface :=
  match rl.questionCallback with
  | some _ => (rl.write (.write (js "\n"))).showPrompt
  | none =>
    let rl := { rl with oldPrompt := rl.prompt }.setPrompt query 0
    ({ rl with questionCallback := some cb }.write (.write (js "\n"))).showPrompt

/-- `_addHistory`, and what it returns. -/
def addHistory : Interface × JSString :=
  if rl.line.length = 0 then (rl, [])
  else
    let history := rl.line :: rl.history
    let history := if history.length > kHistorySize then history.dropLast else history
    ({ rl with history := history, line := [], historyIndex := -1, cursor := 0 }, history.headD [])

/-- `_onLine` as far as the call, which is of a callback or of the listeners. -/
def onLine : Interface × Option ℕ :=
  match rl.questionCallback with
  | some cb => ({ rl with questionCallback := none }.setPrompt rl.oldPrompt 0, some cb)
  | none => (rl, none)

def endLine (rest : List JSString) : Interface × Frame :=
  let (rl, line) := rl.addHistory
  let (rl, callback) := (rl.write (.write (js "\r\n"))).onLine
  (rl, .line line callback rest)

def insertString (c : JSString) : Interface :=
  if rl.cursor < rl.line.length then
    let beg := slice rl.line 0 rl.cursor
    let tail := slice rl.line rl.cursor rl.line.length
    { rl with line := beg ++ c ++ tail, cursor := rl.cursor + c.length }.refreshLine
  else { rl with line := rl.line ++ c, cursor := rl.cursor + c.length }.write (.write c)

/-- `s.split(/\r\n|\n|\r/)` -/
def splitLines : JSString → List JSString
  | [] => [[]]
  | 0x0d :: 0x0a :: s => [] :: splitLines s
  | c :: s =>
    if c = 0x0d ∨ c = 0x0a then [] :: splitLines s
    else match splitLines s with
      | [] => [[c]]
      | l :: rest => (c :: l) :: rest

/-- The loop of `_ttyWrite` over the lines of a paste, as far as the next `_line`. -/
def insertLines : List JSString → Interface × Option Frame
  | [] => (rl, none)
  | [l] => (rl.insertString l, none)
  | l :: rest => ((rl.insertString l).endLine rest).map id some

/-! ### Completion -/

def handleGroup (width maxColumns : ℕ) (group : List JSString) : List Write :=
  if group.length = 0 then []
  else
    let minRows := (group.length + maxColumns - 1) / maxColumns
    ((List.range minRows).flatMap fun row =>
      ((List.range maxColumns).flatMap fun col =>
        match group[row * maxColumns + col]? with
        | some item => .write item ::
          (if col < maxColumns - 1 then List.replicate (width - item.length) (.write (js " "))
          else [])
        | none => []) ++ [.write (js "\r\n")]) ++ [.write (js "\r\n")]

/-- The list of the completions, where an empty one begins another group. -/
def showCompletions (completions : List JSString) : Interface :=
  let width := (completions.map List.length).foldl max 0 + 2
  let maxColumns := if rl.columns / width = 0 then 1 else rl.columns / width
  { rl with
    output := rl.output ++ .write (js "\r\n") ::
      (completions.splitOn []).flatMap (handleGroup width maxColumns) }

/-- The loop of `commonPrefix`. -/
def agree : JSString → JSString → JSString
  | c :: min, d :: max => if c = d then c :: agree min max else []
  | _, _ => []

def commonPrefix (strings : List JSString) : JSString :=
  let sorted := strings.insertionSort (· ≤ ·)
  agree (sorted.headD []) (sorted.getLastD [])

/-- `_tabComplete`, after the completer has returned `[completions, completeOn]`. -/
def applyCompletions (completions : List JSString) (completeOn : JSString) : Interface :=
  match completions with
  | [] => rl
  | [c] => (rl.insertString (slice c completeOn.length c.length)).refreshLine
  | completions =>
    let rl := rl.showCompletions completions
    let common := commonPrefix (completions.filter (· ≠ []))
    (if common.length > completeOn.length then
      rl.insertString (slice common completeOn.length common.length)
    else rl).refreshLine

/-! ### Words -/

def isWord (c : UInt16) : Bool := isLetter c || isDigit c || c = 0x5f

/-- `\s` -/
def isSpace (c : UInt16) : Bool :=
  0x09 ≤ c ∧ c ≤ 0x0d ∨ 0x2000 ≤ c ∧ c ≤ 0x200a ∨
    c ∈ [0x20, 0xa0, 0x1680, 0x180e, 0x2028, 0x2029, 0x202f, 0x205f, 0x3000, 0xfeff]

/-- `/([^\w\s]+|\w+|)\s*$/`. The empty way comes last, as in an optional part. -/
def wordBeforeRe : Regex UInt16 :=
  .seq (.group 1 (.opt (.alt (.plus true (.cls fun c => !isWord c && !isSpace c))
    (.plus true (.cls isWord))))) (.seq (.star true (.cls isSpace)) .finish)

/-- `/^(\s+|\W+|\w+)\s*/` -/
def wordAfterRe : Regex UInt16 :=
  .seq .start (.seq (.group 1 (.alt (.plus true (.cls isSpace))
    (.alt (.plus true (.cls fun c => !isWord c)) (.plus true (.cls isWord)))))
    (.star true (.cls isSpace)))

/-- `s.match(re)[0].length` -/
def matchLength (re : Regex UInt16) (s : JSString) : Option ℕ :=
  (re.exec 0 s).map fun (first, last) => (first.text last).length

def wordLeft : Interface :=
  if rl.cursor > 0 then
    match matchLength wordBeforeRe (slice rl.line 0 rl.cursor) with
    | some n => { rl with cursor := rl.cursor - n }.refreshLine
    | none => rl
  else rl

def wordRight : Interface :=
  if rl.cursor < rl.line.length then
    match matchLength wordAfterRe (slice rl.line rl.cursor rl.line.length) with
    | some n => { rl with cursor := rl.cursor + n }.refreshLine
    | none => rl
  else rl

/-! ### Deletion -/

def deleteLeft : Interface :=
  if rl.cursor > 0 ∧ rl.line.length > 0 then
    { rl with
      line := slice rl.line 0 (rl.cursor - 1) ++ slice rl.line rl.cursor rl.line.length
      cursor := rl.cursor - 1 }.refreshLine
  else rl

def deleteRight : Interface :=
  { rl with
    line := slice rl.line 0 rl.cursor ++
      slice rl.line (rl.cursor + 1) rl.line.length }.refreshLine

def deleteWordLeft : Interface :=
  if rl.cursor > 0 then
    let leading := slice rl.line 0 rl.cursor
    match matchLength wordBeforeRe leading with
    | some n =>
      let leading := slice leading 0 (leading.length - n)
      { rl with
        line := leading ++ slice rl.line rl.cursor rl.line.length
        cursor := leading.length }.refreshLine
    | none => rl
  else rl

def deleteWordRight : Interface :=
  if rl.cursor < rl.line.length then
    let trailing := slice rl.line rl.cursor rl.line.length
    match matchLength wordAfterRe trailing with
    | some n =>
      { rl with line := slice rl.line 0 rl.cursor ++ slice trailing n trailing.length }.refreshLine
    | none => rl
  else rl

def deleteLineLeft : Interface :=
  { rl with line := slice rl.line rl.cursor rl.line.length, cursor := 0 }.refreshLine

def deleteLineRight : Interface := { rl with line := slice rl.line 0 rl.cursor }.refreshLine

/-! ### The history -/

/-- `this.history[i]`, which is there for the indices that are used. -/
def entry (i : ℤ) : JSString := rl.history.getD i.toNat []

def historyNext : Interface :=
  if rl.historyIndex > 0 then
    let line := rl.entry (rl.historyIndex - 1)
    { rl with historyIndex := rl.historyIndex - 1, line := line, cursor := line.length }.refreshLine
  else if rl.historyIndex = 0 then
    { rl with historyIndex := -1, cursor := 0, line := [] }.refreshLine
  else rl

def historyPrev : Interface :=
  if rl.historyIndex + 1 < rl.history.length then
    let line := rl.entry (rl.historyIndex + 1)
    { rl with historyIndex := rl.historyIndex + 1, line := line, cursor := line.length }.refreshLine
  else rl

/-! ### The end -/

/-- `close` as far as the listeners of `'close'`. -/
def close : Interface × Option Frame :=
  if rl.closing then (rl, none) else ({ rl with closing := true }, some .close)

/-- `_attemptClose` -/
def tryClose : Interface × Option Frame :=
  if rl.attemptClose then (rl, some .listener) else rl.close

/-! ### Keys -/

abbrev Command := Interface → Interface × Option Frame

def edit (f : Interface → Interface) : Command := fun rl => (f rl, none)

/-- The row of the table for the name of a key, if there is one. -/
def choose (table : List (String × Command)) (default : Command) (name : Option JSString) :
    Command :=
  ((table.find? fun x => name = some (js x.1)).map (·.2)).getD default

def idle : Command := edit id

def ctrlShiftKeys : List (String × Command) :=
  [("backspace", edit deleteLineLeft), ("delete", edit deleteLineRight)]

/-- Control key pressed. `'z'` stops the process. -/
def ctrlKeys : List (String × Command) :=
  [("c", fun rl => if rl.sigint then (rl, some .listener) else rl.tryClose),
    ("h", edit deleteLeft),
    ("d", fun rl =>
      if rl.cursor = 0 ∧ rl.line.length = 0 then rl.tryClose
      else if rl.cursor < rl.line.length then edit deleteRight rl else idle rl),
    ("u", edit fun rl => { rl with cursor := 0, line := [] }.refreshLine),
    ("k", edit deleteLineRight),
    ("a", edit fun rl => { rl with cursor := 0 }.refreshLine),
    ("e", edit fun rl => { rl with cursor := rl.line.length }.refreshLine),
    ("b", edit fun rl =>
      if rl.cursor > 0 then { rl with cursor := rl.cursor - 1 }.refreshLine else rl),
    ("f", edit fun rl =>
      if rl.cursor ≠ rl.line.length then { rl with cursor := rl.cursor + 1 }.refreshLine else rl),
    ("n", edit historyNext),
    ("p", edit historyPrev),
    ("z", idle),
    ("w", edit deleteWordLeft),
    ("backspace", edit deleteWordLeft),
    ("delete", edit deleteWordRight),
    ("left", edit wordLeft),
    ("right", edit wordRight)]

def metaKeys : List (String × Command) :=
  [("b", edit wordLeft),
    ("f", edit wordRight),
    ("d", edit deleteWordRight),
    ("delete", edit deleteWordRight),
    ("backspace", edit deleteWordLeft)]

def plainKeys : List (String × Command) :=
  [("enter", fun rl => (rl.endLine []).map id some),
    ("backspace", edit deleteLeft),
    ("delete", edit deleteRight),
    ("tab", fun rl =>
      if rl.completer then (rl, some (.complete (slice rl.line 0 rl.cursor))) else (rl, none)),
    ("left", edit fun rl =>
      if rl.cursor > 0 then { rl with cursor := rl.cursor - 1 }.write (.moveCursor (-1)) else rl),
    ("right", edit fun rl =>
      if rl.cursor ≠ rl.line.length then { rl with cursor := rl.cursor + 1 }.write (.moveCursor 1)
      else rl),
    ("home", edit fun rl => { rl with cursor := 0 }.refreshLine),
    ("end", edit fun rl => { rl with cursor := rl.line.length }.refreshLine),
    ("up", edit historyPrev),
    ("down", edit historyNext)]

/-- What is typed, pasted or written: `none` for what is falsy, `other` for what has no `split`. -/
inductive Data
  | none
  | text (s : JSString)
  | buffer (bytes : Bytes)
  | other

/-- The text that is inserted. For `other`, `s.split` throws before anything is changed. -/
def Data.text? : Data → JSString
  | .text s => s
  | .buffer bytes => utf8Slice bytes
  | _ => []

def insertData (s : Data) : Command := fun rl =>
  if s.text? = [] then idle rl else rl.insertLines (splitLines s.text?)

def ttyWrite (s : Data) (key : Option Key) : Interface × Option Frame :=
  let key := key.getD .none
  if key.ctrl && key.shift then choose ctrlShiftKeys idle key.name rl
  else if key.ctrl then choose ctrlKeys idle key.name rl
  else if key.metaKey then choose metaKeys idle key.name rl
  else choose plainKeys (insertData s) key.name rl

end Interface

/-! ### The code of others -/

/-- An `Interface`, and the calls that have not returned. -/
structure Session where
  rl : Interface
  stack : List Frame

/-- A key that is pressed, a call of a method, a terminal of another width, and listeners that come
or go. -/
inductive Call
  | key (s : Interface.Data) (key : Option Key)
  | write (d : Interface.Data) (key : Option Key)
  | prompt
  | setPrompt (prompt : JSString) (length : ℕ)
  | question (query : JSString) (cb : ℕ)
  | close
  | resize (columns : ℕ)
  | listen (sigint attemptClose : Bool)

def Interface.call (rl : Interface) : Call → Interface × Option Frame
  | .key s key => rl.ttyWrite s key
  | .write d key => if rl.closed then (rl, none) else rl.ttyWrite d key
  | .prompt => (rl.showPrompt, none)
  | .setPrompt prompt length => (rl.setPrompt prompt length, none)
  | .question query cb => (rl.question query cb, none)
  | .close => rl.close
  | .resize columns => ({ rl with columns := columns }, none)
  | .listen sigint attemptClose =>
    ({ rl with sigint := sigint, attemptClose := attemptClose }, none)

/-- The code that runs calls, returns or throws; the completer returns its completions. -/
inductive Action
  | call (c : Call)
  | ret
  | completes (completions : List JSString) (completeOn : JSString)
  | throws

namespace Session

/-- `new Interface` on a terminal. -/
def new (columns : ℕ) (completer sigint attemptClose : Bool) : Session where
  rl := Interface.setPrompt
    { line := []
      cursor := 0
      history := []
      historyIndex := -1
      prompt := []
      promptLength := 0
      oldPrompt := []
      questionCallback := none
      closing := false
      closed := false
      columns := columns
      completer := completer
      sigint := sigint
      attemptClose := attemptClose
      output := [] } (js "> ") 0
  stack := []

/-- The call that ends, or calls the code of others. -/
def after (stack : List Frame) (r : Interface × Option Frame) : Session :=
  ⟨r.1, r.2.toList ++ stack⟩

def step (m : Session) : Action → Option Session
  | .call c => some (after m.stack (m.rl.call c))
  | .ret => match m.stack with
    | .line _ _ rest :: stack => some (after stack (m.rl.insertLines rest))
    | .close :: stack => some ⟨{ m.rl with closed := true }, stack⟩
    | .listener :: stack => some ⟨m.rl, stack⟩
    | _ => none
  | .completes completions completeOn => match m.stack with
    | .complete _ :: stack => some ⟨m.rl.applyCompletions completions completeOn, stack⟩
    | _ => none
  | .throws => match m.stack with
    | _ :: stack => some ⟨m.rl, stack⟩
    | [] => none

end Session

end NodeJS.Readline
