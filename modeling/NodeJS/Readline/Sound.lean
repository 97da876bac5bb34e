import NodeJS.Lib.Reach
import NodeJS.Readline.Interface

/-! The cursor of an `Interface` stays in the line, and the index in the history. -/
namespace NodeJS.Readline
open Lib Lib.Regex
open JSString (slice slice_nat)

structure Sound (rl : Interface) : Prop where
  cursor_nonneg : 0 ≤ rl.cursor
  cursor_le : rl.cursor ≤ rl.line.length
  index_ge : -1 ≤ rl.historyIndex
  index_lt : rl.historyIndex < rl.history.length
  history_le : rl.history.length ≤ kHistorySize
  nonempty : ∀ entry ∈ rl.history, entry ≠ []

theorem length_slice (s : JSString) {a b : ℤ} (ha : 0 ≤ a) (hb : 0 ≤ b) :
    ((slice s a b).length : ℤ) = max 0 (min b s.length - a) := by
  obtain ⟨a, rfl⟩ := Int.eq_ofNat_of_zero_le ha
  obtain ⟨b, rfl⟩ := Int.eq_ofNat_of_zero_le hb
  rw [slice_nat, List.length_drop, List.length_take]
  omega

theorem matchLength_le {re : Regex UInt16} {s : JSString} {n : ℕ}
    (h : Interface.matchLength re s = some n) : n ≤ s.length := by
  obtain ⟨found, hexec, rfl⟩ := Option.map_eq_some_iff.mp h
  exact exec_text_le re hexec

/-- There is always a word before the cursor, if only an empty one. -/
theorem matchLength_wordBefore (s : JSString) :
    (Interface.matchLength Interface.wordBeforeRe s).isSome := by
  have hend : ∀ before, (Interface.wordBeforeRe.run some ⟨before, [], fun _ => none⟩).isSome := by
    intro before
    unfold Interface.wordBeforeRe
    rw [run_seq, run_group]
    refine isSome_run_opt ?_
    rw [run_seq, run_star_nil rfl]
    rfl
  have hexec : ∀ before, (Interface.wordBeforeRe.exec before s).isSome := by
    induction s with
    | nil =>
      intro before
      rw [exec, Option.isSome_map]
      exact hend before
    | cons c s ih =>
      intro before
      rw [exec]
      split
      · rfl
      · exact ih (before + 1)
  unfold Interface.matchLength
  rw [Option.isSome_map]
  exact hexec 0

/-- There is always a word after the cursor, unless it is at the end. -/
theorem matchLength_wordAfter {s : JSString} (hs : s ≠ []) :
    (Interface.matchLength Interface.wordAfterRe s).isSome := by
  obtain ⟨c, rest, rfl⟩ := List.exists_cons_of_ne_nil hs
  have hplus : ∀ (p : UInt16 → Bool) (k : At UInt16 → Option (At UInt16)), p c = true →
      (∀ t, (k t).isSome) → ((plus true (.cls p)).run k ⟨0, c :: rest, fun _ => none⟩).isSome := by
    intro p k hc hk
    rw [plus, run_seq, run_cls_cons rfl, if_pos hc]
    exact isSome_run_star (.zero p _) (hk _)
  unfold Interface.matchLength Interface.wordAfterRe
  rw [Option.isSome_map, exec_start, Option.isSome_map, run_seq, run_group, run_alt, run_alt,
    Option.isSome_or, Option.isSome_or, Bool.or_eq_true, Bool.or_eq_true]
  have hspaces : ∀ t : At UInt16, ((star true (.cls Interface.isSpace)).run some t).isSome :=
    fun t => isSome_run_star (.zero _ t) rfl
  by_cases hc : Interface.isWord c = true
  · exact .inr (.inr (hplus _ _ hc fun t => hspaces _))
  · exact .inr (.inl (hplus _ _ (by simpa using hc) fun t => hspaces _))

namespace Sound
variable {rl rl' : Interface} (h : Sound rl)
include h

/-- The four fields are what counts. -/
theorem congr (hline : rl'.line = rl.line) (hcursor : rl'.cursor = rl.cursor)
    (hhistory : rl'.history = rl.history) (hindex : rl'.historyIndex = rl.historyIndex) :
    Sound rl' := by
  refine ⟨?_, ?_, ?_, ?_, ?_, ?_⟩
  · exact hcursor ▸ h.cursor_nonneg
  · exact hcursor ▸ hline ▸ h.cursor_le
  · exact hindex ▸ h.index_ge
  · exact hindex ▸ hhistory ▸ h.index_lt
  · exact hhistory ▸ h.history_le
  · exact hhistory ▸ h.nonempty

theorem write (w : Write) : Sound (rl.write w) := h.congr rfl rfl rfl rfl

theorem setPrompt (prompt : JSString) (length : ℕ) : Sound (rl.setPrompt prompt length) :=
  h.congr rfl rfl rfl rfl

theorem refreshLine : Sound rl.refreshLine := by
  unfold Interface.refreshLine
  split_ifs
  · exact h
  · exact h.congr rfl rfl rfl rfl

/-- Another line, and a cursor in it. -/
theorem edit {line : JSString} {cursor : ℤ} (hnonneg : 0 ≤ cursor) (hle : cursor ≤ line.length) :
    Sound { rl with line := line, cursor := cursor } :=
  ⟨hnonneg, hle, h.index_ge, h.index_lt, h.history_le, h.nonempty⟩

theorem move {cursor : ℤ} (hnonneg : 0 ≤ cursor) (hle : cursor ≤ rl.line.length) :
    Sound { rl with cursor := cursor } := h.edit hnonneg hle

theorem home : Sound { rl with cursor := 0 } := h.move (le_refl 0) (Nat.cast_nonneg _)

theorem back (hcursor : rl.cursor > 0) : Sound { rl with cursor := rl.cursor - 1 } :=
  h.move (Int.le_sub_one_of_lt hcursor) (le_trans (sub_le_self _ (by decide)) h.cursor_le)

theorem forward (hcursor : rl.cursor ≠ rl.line.length) :
    Sound { rl with cursor := rl.cursor + 1 } :=
  h.move (Int.le_add_one h.cursor_nonneg)
    (Int.add_one_le_of_lt (lt_of_le_of_ne h.cursor_le hcursor))

theorem toEnd : Sound { rl with cursor := rl.line.length } :=
  h.move (Nat.cast_nonneg _) (le_refl _)

theorem clear : Sound { rl with cursor := 0, line := [] } :=
  h.edit (le_refl 0) (Nat.cast_nonneg _)

/-- What is before the cursor. -/
theorem length_before : ((slice rl.line 0 rl.cursor).length : ℤ) = rl.cursor := by
  have hnonneg := h.cursor_nonneg
  have hle := h.cursor_le
  rw [length_slice _ (le_refl 0) hnonneg]
  omega

/-- What is after the cursor. -/
theorem length_after :
    ((slice rl.line rl.cursor rl.line.length).length : ℤ) = rl.line.length - rl.cursor := by
  have hnonneg := h.cursor_nonneg
  have hle := h.cursor_le
  rw [length_slice _ hnonneg (Nat.cast_nonneg _)]
  omega

theorem after_ne_nil (hcursor : rl.cursor < rl.line.length) :
    slice rl.line rl.cursor rl.line.length ≠ [] := by
  intro hnil
  have hafter := h.length_after
  rw [hnil, List.length_nil] at hafter
  omega

theorem showPrompt : Sound rl.showPrompt := h.home.refreshLine

theorem question (query : JSString) (cb : ℕ) : Sound (rl.question query cb) := by
  unfold Interface.question
  split
  · exact (h.write _).showPrompt
  · refine Sound.showPrompt (Sound.write ?_ _)
    exact h.congr rfl rfl rfl rfl

theorem addHistory : Sound rl.addHistory.1 := by
  unfold Interface.addHistory
  split_ifs with hline
  · exact h
  · have hnew : ∀ entry ∈ rl.line :: rl.history, entry ≠ [] := by
      refine List.forall_mem_cons.mpr ⟨fun hnil => hline ?_, h.nonempty⟩
      rw [hnil]
      rfl
    have hlength := h.history_le
    dsimp only
    split_ifs with hlong
    · refine ⟨le_refl 0, Nat.cast_nonneg _, le_refl _, ?_, ?_, fun entry hentry => ?_⟩
      · exact lt_of_lt_of_le (by decide : (-1 : ℤ) < 0) (Nat.cast_nonneg _)
      · show (rl.line :: rl.history).dropLast.length ≤ kHistorySize
        rw [List.length_dropLast, List.length_cons]
        exact hlength
      · exact hnew entry (List.dropLast_subset _ hentry)
    · refine ⟨le_refl 0, Nat.cast_nonneg _, le_refl _, ?_, Nat.not_lt.mp hlong, hnew⟩
      exact lt_of_lt_of_le (by decide : (-1 : ℤ) < 0) (Nat.cast_nonneg _)

theorem onLine : Sound rl.onLine.1 := by
  unfold Interface.onLine
  split
  · exact h.congr rfl rfl rfl rfl
  · exact h

theorem endLine (rest : List JSString) : Sound (rl.endLine rest).1 :=
  (h.addHistory.write _).onLine

theorem insertString (c : JSString) : Sound (rl.insertString c) := by
  have hnonneg := h.cursor_nonneg
  have hle := h.cursor_le
  have hbefore := h.length_before
  unfold Interface.insertString
  split_ifs with hinside
  · refine (h.edit (by omega) ?_).refreshLine
    simp only [List.length_append, Nat.cast_add]
    omega
  · refine (h.edit (by omega) ?_).write _
    simp only [List.length_append, Nat.cast_add]
    omega

theorem insertLines (lines : List JSString) : Sound (rl.insertLines lines).1 := by
  match lines with
  | [] => exact h
  | [l] => exact h.insertString l
  | l :: l' :: rest => exact (h.insertString l).endLine (l' :: rest)

theorem applyCompletions (completions : List JSString) (completeOn : JSString) :
    Sound (rl.applyCompletions completions completeOn) := by
  unfold Interface.applyCompletions
  split
  · exact h
  · exact (h.insertString _).refreshLine
  · have hshown : Sound (rl.showCompletions completions) := h.congr rfl rfl rfl rfl
    dsimp only
    split_ifs
    · exact (hshown.insertString _).refreshLine
    · exact hshown.refreshLine

/-! ### Words and deletion -/

theorem wordLeft : Sound rl.wordLeft := by
  unfold Interface.wordLeft
  split_ifs with hcursor
  · obtain ⟨n, hmatch⟩ := Option.isSome_iff_exists.mp
      (matchLength_wordBefore (slice rl.line 0 rl.cursor))
    have hn := matchLength_le hmatch
    have hbefore := h.length_before
    have hle := h.cursor_le
    rw [hmatch]
    exact (h.move (by omega) (by omega)).refreshLine
  · exact h

theorem wordRight : Sound rl.wordRight := by
  unfold Interface.wordRight
  split_ifs with hcursor
  · obtain ⟨n, hmatch⟩ := Option.isSome_iff_exists.mp
      (matchLength_wordAfter (h.after_ne_nil hcursor))
    have hn := matchLength_le hmatch
    have hafter := h.length_after
    have hnonneg := h.cursor_nonneg
    rw [hmatch]
    exact (h.move (by omega) (by omega)).refreshLine
  · exact h

theorem deleteLeft : Sound rl.deleteLeft := by
  unfold Interface.deleteLeft
  split_ifs with hcursor
  · have hle := h.cursor_le
    have hnonneg : 0 ≤ rl.cursor - 1 := Int.le_sub_one_of_lt hcursor.1
    have hbefore := length_slice rl.line (le_refl 0) hnonneg
    have hafter := h.length_after
    refine (h.edit hnonneg ?_).refreshLine
    rw [List.length_append, Nat.cast_add]
    omega
  · exact h

theorem deleteRight : Sound rl.deleteRight := by
  have hbefore := h.length_before
  refine (h.edit h.cursor_nonneg ?_).refreshLine
  rw [List.length_append, Nat.cast_add]
  omega

theorem deleteWordLeft : Sound rl.deleteWordLeft := by
  unfold Interface.deleteWordLeft
  split_ifs with hcursor
  · obtain ⟨n, hmatch⟩ := Option.isSome_iff_exists.mp
      (matchLength_wordBefore (slice rl.line 0 rl.cursor))
    dsimp only
    rw [hmatch]
    refine (h.edit (Nat.cast_nonneg _) ?_).refreshLine
    rw [List.length_append, Nat.cast_add]
    omega
  · exact h

theorem deleteWordRight : Sound rl.deleteWordRight := by
  unfold Interface.deleteWordRight
  split_ifs with hcursor
  · obtain ⟨n, hmatch⟩ := Option.isSome_iff_exists.mp
      (matchLength_wordAfter (h.after_ne_nil hcursor))
    have hbefore := h.length_before
    dsimp only
    rw [hmatch]
    refine (h.edit h.cursor_nonneg ?_).refreshLine
    rw [List.length_append, Nat.cast_add]
    omega
  · exact h

theorem deleteLineLeft : Sound rl.deleteLineLeft :=
  (h.edit (le_refl 0) (Nat.cast_nonneg _)).refreshLine

theorem deleteLineRight : Sound rl.deleteLineRight :=
  (h.edit h.cursor_nonneg (le_of_eq h.length_before.symm)).refreshLine

/-! ### The history -/

/-- Another entry is shown, with the cursor at its end. -/
theorem show_entry {i : ℤ} (hge : -1 ≤ i) (hlt : i < rl.history.length) (line : JSString) :
    Sound { rl with historyIndex := i, line := line, cursor := line.length } :=
  ⟨Nat.cast_nonneg _, le_refl _, hge, hlt, h.history_le, h.nonempty⟩

theorem historyNext : Sound rl.historyNext := by
  have hlt := h.index_lt
  unfold Interface.historyNext
  split_ifs with hpos hzero
  · exact (h.show_entry (by omega) (by omega) _).refreshLine
  · exact (h.show_entry (i := -1) (le_refl _) (by omega) []).refreshLine
  · exact h

theorem historyPrev : Sound rl.historyPrev := by
  have hge := h.index_ge
  unfold Interface.historyPrev
  split_ifs with hprev
  · exact (h.show_entry (by omega) hprev _).refreshLine
  · exact h

theorem close : Sound rl.close.1 := by
  unfold Interface.close
  split_ifs
  · exact h
  · exact h.congr rfl rfl rfl rfl

theorem tryClose : Sound rl.tryClose.1 := by
  unfold Interface.tryClose
  split_ifs
  · exact h
  · exact h.close

end Sound

/-! ### Keys -/

/-- The command keeps the cursor in the line and the index in the history. -/
def Keeps (c : Interface.Command) : Prop := ∀ rl, Sound rl → Sound (c rl).1

theorem keeps_edit {f : Interface → Interface} (h : ∀ {rl}, Sound rl → Sound (f rl)) :
    Keeps (Interface.edit f) := fun _ hrl => h hrl

theorem keeps_idle : Keeps Interface.idle := fun _ hrl => hrl

theorem keeps_choose {table : List (String × Interface.Command)} {default : Interface.Command}
    (htable : ∀ x ∈ table, Keeps x.2) (hdefault : Keeps default) (name : Option JSString) :
    Keeps (Interface.choose table default name) := by
  intro rl hrl
  unfold Interface.choose
  cases hfind : table.find? fun x => name = some (js x.1) with
  | none => exact hdefault rl hrl
  | some x => exact htable x (List.mem_of_find?_eq_some hfind) rl hrl

theorem keeps_ctrlShiftKeys : ∀ x ∈ Interface.ctrlShiftKeys, Keeps x.2 := by
  unfold Interface.ctrlShiftKeys
  simp only [List.forall_mem_cons, List.not_mem_nil, false_imp_iff, implies_true, and_true]
  exact ⟨keeps_edit .deleteLineLeft, keeps_edit .deleteLineRight⟩

theorem keeps_ctrlKeys : ∀ x ∈ Interface.ctrlKeys, Keeps x.2 := by
  have hinterrupt : Keeps fun rl => if rl.sigint then (rl, some .listener) else rl.tryClose := by
    intro rl hrl
    dsimp only
    split_ifs
    · exact hrl
    · exact hrl.tryClose
  have hdelete : Keeps fun rl =>
      if rl.cursor = 0 ∧ rl.line.length = 0 then rl.tryClose
      else if rl.cursor < rl.line.length then Interface.edit Interface.deleteRight rl
      else Interface.idle rl := by
    intro rl hrl
    dsimp only
    split_ifs
    · exact hrl.tryClose
    · exact hrl.deleteRight
    · exact hrl
  have hback : Keeps (Interface.edit fun rl =>
      if rl.cursor > 0 then { rl with cursor := rl.cursor - 1 }.refreshLine else rl) := by
    refine keeps_edit fun hrl => ?_
    split_ifs with hcursor
    · exact (hrl.back hcursor).refreshLine
    · exact hrl
  have hforward : Keeps (Interface.edit fun rl =>
      if rl.cursor ≠ rl.line.length then { rl with cursor := rl.cursor + 1 }.refreshLine
      else rl) := by
    refine keeps_edit fun hrl => ?_
    split_ifs with hcursor
    · exact (hrl.forward hcursor).refreshLine
    · exact hrl
  unfold Interface.ctrlKeys
  simp only [List.forall_mem_cons, List.not_mem_nil, false_imp_iff, implies_true, and_true]
  exact ⟨hinterrupt, keeps_edit .deleteLeft, hdelete, keeps_edit fun h => h.clear.refreshLine,
    keeps_edit .deleteLineRight, keeps_edit fun h => h.home.refreshLine,
    keeps_edit fun h => h.toEnd.refreshLine, hback, hforward, keeps_edit .historyNext,
    keeps_edit .historyPrev, keeps_idle, keeps_edit .deleteWordLeft, keeps_edit .deleteWordLeft,
    keeps_edit .deleteWordRight, keeps_edit .wordLeft, keeps_edit .wordRight⟩

theorem keeps_metaKeys : ∀ x ∈ Interface.metaKeys, Keeps x.2 := by
  unfold Interface.metaKeys
  simp only [List.forall_mem_cons, List.not_mem_nil, false_imp_iff, implies_true, and_true]
  exact ⟨keeps_edit .wordLeft, keeps_edit .wordRight, keeps_edit .deleteWordRight,
    keeps_edit .deleteWordRight, keeps_edit .deleteWordLeft⟩

theorem keeps_plainKeys : ∀ x ∈ Interface.plainKeys, Keeps x.2 := by
  have henter : Keeps fun rl => (rl.endLine []).map id some := fun rl hrl => hrl.endLine []
  have htab : Keeps fun rl =>
      if rl.completer then (rl, some (.complete (slice rl.line 0 rl.cursor))) else (rl, none) := by
    intro rl hrl
    dsimp only
    split_ifs <;> exact hrl
  have hleft : Keeps (Interface.edit fun rl =>
      if rl.cursor > 0 then { rl with cursor := rl.cursor - 1 }.write (.moveCursor (-1))
      else rl) := by
    refine keeps_edit fun hrl => ?_
    split_ifs with hcursor
    · exact (hrl.back hcursor).write _
    · exact hrl
  have hright : Keeps (Interface.edit fun rl =>
      if rl.cursor ≠ rl.line.length then { rl with cursor := rl.cursor + 1 }.write (.moveCursor 1)
      else rl) := by
    refine keeps_edit fun hrl => ?_
    split_ifs with hcursor
    · exact (hrl.forward hcursor).write _
    · exact hrl
  unfold Interface.plainKeys
  simp only [List.forall_mem_cons, List.not_mem_nil, false_imp_iff, implies_true, and_true]
  exact ⟨henter, keeps_edit .deleteLeft, keeps_edit .deleteRight, htab, hleft, hright,
    keeps_edit fun h => h.home.refreshLine, keeps_edit fun h => h.toEnd.refreshLine,
    keeps_edit .historyPrev, keeps_edit .historyNext⟩

theorem keeps_insertData (s : Interface.Data) : Keeps (Interface.insertData s) := by
  intro rl hrl
  unfold Interface.insertData
  split_ifs
  · exact hrl
  · exact hrl.insertLines _

theorem Sound.ttyWrite {rl : Interface} (h : Sound rl) (s : Interface.Data) (key : Option Tty.Key) :
    Sound (rl.ttyWrite s key).1 := by
  unfold Interface.ttyWrite
  dsimp only
  split_ifs
  · exact keeps_choose keeps_ctrlShiftKeys keeps_idle _ rl h
  · exact keeps_choose keeps_ctrlKeys keeps_idle _ rl h
  · exact keeps_choose keeps_metaKeys keeps_idle _ rl h
  · exact keeps_choose keeps_plainKeys (keeps_insertData s) _ rl h

/-! ### Sessions -/

theorem Sound.call {rl : Interface} (h : Sound rl) (c : Call) : Sound (rl.call c).1 := by
  cases c with
  | key s key => exact h.ttyWrite s key
  | write d key =>
    unfold Interface.call
    dsimp only
    split_ifs
    · exact h
    · exact h.ttyWrite d key
  | prompt => exact h.showPrompt
  | setPrompt prompt length => exact h.setPrompt prompt length
  | question query cb => exact h.question query cb
  | close => exact h.close
  | resize columns => exact h.congr rfl rfl rfl rfl
  | listen sigint attemptClose => exact h.congr rfl rfl rfl rfl

theorem sound_new (columns : ℕ) (completer sigint attemptClose : Bool) :
    Sound (Session.new columns completer sigint attemptClose).rl :=
  ⟨le_refl 0, le_refl 0, le_refl (-1), show (-1 : ℤ) < 0 by decide, Nat.zero_le _, nofun⟩

theorem sound_step {m m' : Session} {a : Action} (h : Sound m.rl) (hstep : m.step a = some m') :
    Sound m'.rl := by
  obtain ⟨rl, stack⟩ := m
  cases a with
  | call c =>
    obtain rfl := Option.some.inj hstep
    exact h.call c
  | ret =>
    match stack with
    | .line _ _ rest :: stack =>
      obtain rfl := Option.some.inj hstep
      exact h.insertLines rest
    | .close :: stack =>
      obtain rfl := Option.some.inj hstep
      exact h.congr rfl rfl rfl rfl
    | .listener :: stack =>
      obtain rfl := Option.some.inj hstep
      exact h
  | completes completions completeOn =>
    match stack with
    | .complete _ :: stack =>
      obtain rfl := Option.some.inj hstep
      exact h.applyCompletions completions completeOn
  | throws =>
    match stack with
    | _ :: stack =>
      obtain rfl := Option.some.inj hstep
      exact h

/-- Whatever is typed, pasted, completed or called, by whichever code and in whichever listener:
the cursor is in the line, the index is in the history, and the history has at most `kHistorySize`
entries, none of which is empty. -/
theorem readline_sound {columns : ℕ} {completer sigint attemptClose : Bool} {m : Session}
    (h : Reach Session.step (fun _ _ => True) (.new columns completer sigint attemptClose) m) :
    (0 ≤ m.rl.cursor ∧ m.rl.cursor ≤ m.rl.line.length) ∧
    (-1 ≤ m.rl.historyIndex ∧ m.rl.historyIndex < m.rl.history.length) ∧
    m.rl.history.length ≤ kHistorySize ∧ ∀ entry ∈ m.rl.history, entry ≠ [] := by
  have hsound : Sound m.rl :=
    h.invariant (P := fun m => Sound m.rl) (sound_new ..) fun _ _ _ hm _ hstep =>
      sound_step hm hstep
  exact ⟨⟨hsound.cursor_nonneg, hsound.cursor_le⟩, ⟨hsound.index_ge, hsound.index_lt⟩,
    hsound.history_le, hsound.nonempty⟩

/-- Two lines are pasted, and the listeners of the first one write a third. -/
def pasted : List Action :=
  [.call (.key (.text (js "ls\nps")) none), .call (.write (.text (js "w\n")) none), .ret, .ret]

theorem readline_sound_pasted : ∃ m, run Session.step (.new 80 true false false) pasted = some m ∧
    (0 ≤ m.rl.cursor ∧ m.rl.cursor ≤ m.rl.line.length) ∧
    (-1 ≤ m.rl.historyIndex ∧ m.rl.historyIndex < m.rl.history.length) ∧
    m.rl.history.length ≤ kHistorySize ∧ ∀ entry ∈ m.rl.history, entry ≠ [] := by
  have hrun : (run Session.step (.new 80 true false false) pasted).isSome = true := by
    decide +kernel
  obtain ⟨m, hm⟩ := Option.isSome_iff_exists.mp hrun
  exact ⟨m, hm, readline_sound (reach_of_run hm fun _ _ => trivial)⟩

example : (run Session.step (.new 80 true false false) pasted).map
    (fun m => (m.rl.line, m.rl.history)) = some (js "ps", [js "w", js "ls"]) := by decide +kernel

end NodeJS.Readline
