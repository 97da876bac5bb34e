import NodeJS.Http.Wire
import Mathlib.Data.List.Nodup
import Mathlib.Data.List.Perm.Basic

/-! Headers set one by one and then overridden by `writeHead`: which of them are sent. -/
namespace NodeJS.Http

/-! ### The headers one would expect -/

inductive HeaderCall
  | set (name : JSString) (value : Value)
  | remove (name : JSString)

def HeaderCall.key : HeaderCall → JSString
  | .set name _ => toLowerCase name
  | .remove name => toLowerCase name

def HeaderCall.isSet : HeaderCall → Bool
  | .set _ _ => true
  | .remove _ => false

/-- The headers that a sequence of calls leaves set. A call counts unless a later one is about the
same name. -/
def progressive : List HeaderCall → Headers
  | [] => []
  | .set name value :: later =>
    if later.any (·.key = toLowerCase name) then progressive later
    else (name, value) :: progressive later
  | .remove _ :: later => progressive later

theorem progressive_set (name : JSString) (value : Value) (later : List HeaderCall) :
    progressive (.set name value :: later) =
      if later.any (·.key = toLowerCase name) then progressive later
      else (name, value) :: progressive later := rfl

theorem progressive_remove (name : JSString) (later : List HeaderCall) :
    progressive (.remove name :: later) = progressive later := rfl

/-- Whether `writeHead` gives a header of the same name in any letter case. -/
def overridden (obj : Headers) (h : JSString × Value) : Bool :=
  obj.any fun a => toLowerCase a.1 = toLowerCase h.1

/-- The progressive headers overridden name by name. -/
def expectedHeaders (calls : List HeaderCall) : Option HeadersArg → Headers
  | none => progressive calls
  | some obj => (progressive calls).filter (!overridden obj.headers ·) ++ obj.headers

/-- The keys of an object are distinct, and none is `__proto__`. -/
def HeadersArg.WellFormed : HeadersArg → Prop
  | .object obj => (obj.map (·.1)).Nodup ∧ js "__proto__" ∉ obj.map (·.1)
  | .array _ => True

/-- Whether `writeHead` assigns to the property of a header. -/
def assigned (obj : Headers) (h : JSString × Value) : Bool :=
  obj.any fun a => a.1 ≠ [] && a.1 = h.1

/-- A header that `setHeader` makes no entry for. -/
def unkept (h : JSString × Value) : Bool := toLowerCase h.1 = js "__proto__"

/-- When the right headers are sent. A header without lines, one whose value is an empty array,
does not matter. -/
def Kept (calls : List HeaderCall) : Option HeadersArg → Prop
  | none => ∀ h ∈ progressive calls, unkept h = true → h.2.lines h.1 = []
  | some (.object obj) => calls.any (·.isSet) = true →
    (∀ h ∈ progressive calls, h.1 ≠ [] → h.2.lines h.1 ≠ [] →
      if unkept h then overridden obj h = true
      else overridden obj h = true → assigned obj h = true) ∧
    (Headers.lines ((progressive calls).filter fun h => h.1 = [] && overridden obj h)).Perm
      (Headers.lines (obj.filter (·.1 = [])))
  | some (.array obj) => calls.any (·.isSet) = true →
    (∀ h ∈ progressive calls, h.2.lines h.1 ≠ [] → overridden obj h = true) ∧
    ∀ a ∈ obj, ∀ v, Headers.property ((progressive calls).filter (!unkept ·)) a.1 = some v →
      v.lines a.1 = []

/-! ### Objects -/

section
variable {β : Type}

/-- An assignment replaces the entry of the key, or makes one. -/
theorem setKey_perm {l : List (JSString × β)} (h : (l.map (·.1)).Nodup) {key : JSString}
    (hp : key ≠ js "__proto__") (value : β) :
    (setKey l key value).Perm ((key, value) :: l.filter (·.1 ≠ key)) := by
  unfold setKey
  rw [if_neg hp]
  by_cases hany : l.any (·.1 = key) = true
  · rw [if_pos hany]
    induction l with
    | nil => cases hany
    | cons e l ih =>
      rw [List.map_cons, List.nodup_cons] at h
      by_cases he : e.1 = key
      · have hout : ∀ x ∈ l, x.1 ≠ key := fun x hx hk => h.1 (List.mem_map.mpr ⟨x, hx, hk.trans he.symm⟩)
        have hmap : l.map (fun x => if x.1 = key then (key, value) else x) = l := by
          refine (List.map_congr_left fun x hx => ?_).trans (List.map_id l)
          rw [if_neg (hout x hx)]
          rfl
        have hfilter : l.filter (·.1 ≠ key) = l := by
          simpa using hout
        rw [List.map_cons, if_pos he, hmap, List.filter_cons_of_neg (by simp [he]), hfilter]
      · have hany' : l.any (·.1 = key) = true := by simpa [he] using hany
        rw [List.map_cons, if_neg he, List.filter_cons_of_pos (by simp [he])]
        exact ((ih h.2 hany').cons e).trans (List.Perm.swap ..)
  · rw [if_neg hany]
    have hfilter : l.filter (·.1 ≠ key) = l := by
      rw [List.filter_eq_self]
      intro x hx
      simpa using fun hk => hany (List.any_eq_true.mpr ⟨x, hx, by simpa using hk⟩)
    rw [hfilter]
    exact List.perm_append_singleton ..

theorem setKey_nodup {l : List (JSString × β)} (h : (l.map (·.1)).Nodup) {key : JSString}
    (hp : key ≠ js "__proto__") (value : β) : ((setKey l key value).map (·.1)).Nodup := by
  rw [((setKey_perm h hp value).map (·.1)).nodup_iff, List.map_cons, List.nodup_cons]
  refine ⟨?_, h.sublist (List.filter_sublist.map _)⟩
  simp

end

/-! ### The calls -/

section
variable {σ : Type}

def HeaderCall.perform : HeaderCall → M σ Unit
  | .set name value => setHeader name value
  | .remove name => removeHeader name

def performAll : List HeaderCall → M σ Unit
  | [] => pure ()
  | c :: calls => do
    c.perform
    performAll calls

/-- What a call does to the entries of `_headers` and `_headerNames`. -/
def HeaderCall.store (l : List (JSString × JSString × Value)) :
    HeaderCall → List (JSString × JSString × Value)
  | .set name value => setKey l (toLowerCase name) (name, value)
  | .remove name => l.filter (·.1 ≠ toLowerCase name)

theorem performAll_eq (calls : List HeaderCall) {s : Endpoint σ} (hs : s.msg.header = none) :
    ∃ headers, performAll calls s = .ok () { s with msg := { s.msg with headers := headers } } ∧
      headers.getD [] = calls.foldl HeaderCall.store (s.msg.headers.getD []) ∧
      headers.isSome = (s.msg.headers.isSome || calls.any (·.isSet)) := by
  induction calls generalizing s with
  | nil => exact ⟨s.msg.headers, rfl, rfl, by simp⟩
  | cons c calls ih =>
    obtain ⟨headers₁, h₁, hget, hsome⟩ : ∃ headers,
        c.perform s = .ok () { s with msg := { s.msg with headers := headers } } ∧
        headers.getD [] = c.store (s.msg.headers.getD []) ∧
        headers.isSome = (s.msg.headers.isSome || c.isSet) := by
      have hnone : s.msg.header.isSome = false := by simp [hs]
      cases c with
      | set name value =>
        refine ⟨some (setKey (s.msg.headers.getD []) (toLowerCase name) (name, value)), ?_, rfl,
          by simp [HeaderCall.isSet]⟩
        simp only [HeaderCall.perform, setHeader, getMsg, bind, EStateM.bind, hnone]
        rfl
      | remove name =>
        refine ⟨s.msg.headers.map fun l => l.filter (·.1 ≠ toLowerCase name), ?_, ?_, ?_⟩
        · simp only [HeaderCall.perform, removeHeader, getMsg, bind, EStateM.bind, hnone]
          rfl
        · cases s.msg.headers with
          | none => rfl
          | some l => rfl
        · simp [HeaderCall.isSet]
    obtain ⟨headers₂, h₂, hget₂, hsome₂⟩ :=
      ih (s := { s with msg := { s.msg with headers := headers₁ } }) hs
    refine ⟨headers₂, ?_, ?_, ?_⟩
    · simp only [performAll, bind, EStateM.bind, h₁]
      exact h₂
    · rw [hget₂, hget, List.foldl_cons]
    · rw [hsome₂, hsome, List.any_cons, Bool.or_assoc]

end

/-- The entries of `_headers` and `_headerNames`. -/
structure Keyed (l : List (JSString × JSString × Value)) : Prop where
  key : ∀ e ∈ l, e.1 = toLowerCase e.2.1
  proto : ∀ e ∈ l, e.1 ≠ js "__proto__"
  nodup : (l.map (·.1)).Nodup

/-- The headers of the entries are those that no later call is about, and those the calls set. -/
theorem Keyed.calls {l : List (JSString × JSString × Value)} (h : Keyed l)
    (calls : List HeaderCall) :
    Keyed (calls.foldl HeaderCall.store l) ∧
      ((calls.foldl HeaderCall.store l).map (·.2)).Perm
        ((l.filter fun e => !calls.any (·.key = e.1)).map (·.2) ++
          (progressive calls).filter (!unkept ·)) := by
  induction calls generalizing l with
  | nil => exact ⟨h, by simp [progressive]⟩
  | cons c calls ih =>
    rw [List.foldl_cons]
    cases c with
    | remove name =>
      have h₁ : Keyed (HeaderCall.store l (.remove name)) :=
        ⟨fun e he => h.key e (List.mem_of_mem_filter he),
          fun e he => h.proto e (List.mem_of_mem_filter he),
          h.nodup.sublist (List.filter_sublist.map _)⟩
      refine ⟨(ih h₁).1, (ih h₁).2.trans (List.Perm.of_eq ?_)⟩
      rw [progressive_remove]
      congr 2
      rw [HeaderCall.store, List.filter_filter]
      refine List.filter_congr fun e _ => ?_
      simp [HeaderCall.key, Bool.and_comm, eq_comm]
    | set name value =>
      by_cases hp : toLowerCase name = js "__proto__"
      · have hsame : HeaderCall.store l (.set name value) = l := by simp [HeaderCall.store, setKey, hp]
        rw [hsame]
        refine ⟨(ih h).1, (ih h).2.trans (List.Perm.of_eq ?_)⟩
        congr 1
        · congr 1
          refine List.filter_congr fun e he => ?_
          have hne : js "__proto__" ≠ e.1 := (h.proto e he).symm
          simp [HeaderCall.key, hp, hne]
        · rw [progressive_set]
          split_ifs
          · rfl
          · rw [List.filter_cons_of_neg (by simp [unkept, hp])]
      · have h₁ : Keyed (HeaderCall.store l (.set name value)) := by
          have hperm := setKey_perm h.nodup hp (name, value)
          refine ⟨fun e he => ?_, fun e he => ?_, setKey_nodup h.nodup hp _⟩
          · rcases List.mem_cons.mp (hperm.subset he) with rfl | he
            · rfl
            · exact h.key e (List.mem_of_mem_filter he)
          · rcases List.mem_cons.mp (hperm.subset he) with rfl | he
            · exact hp
            · exact h.proto e (List.mem_of_mem_filter he)
        refine ⟨(ih h₁).1, (ih h₁).2.trans ?_⟩
        have hrest : (l.filter (·.1 ≠ toLowerCase name)).filter
            (fun e => !calls.any (·.key = e.1)) =
              l.filter fun e => !(HeaderCall.set name value :: calls).any (·.key = e.1) := by
          rw [List.filter_filter]
          refine List.filter_congr fun e _ => ?_
          simp [HeaderCall.key, Bool.and_comm, eq_comm]
        have hfilter := (setKey_perm h.nodup hp (name, value)).filter
          fun e => !calls.any (·.key = e.1)
        rw [progressive_set]
        by_cases hlater : (calls.any (·.key = toLowerCase name)) = true
        · rw [List.filter_cons_of_neg (by simp [hlater]), hrest] at hfilter
          rw [if_pos hlater]
          exact (hfilter.map _).append_right _
        · rw [List.filter_cons_of_pos (by simp [hlater]), hrest] at hfilter
          rw [if_neg hlater, List.filter_cons_of_pos (by simp [unkept, hp])]
          exact ((hfilter.map _).append_right _).trans List.perm_middle.symm

/-! ### Lines -/

theorem lines_perm {a b : Headers} (h : a.Perm b) : a.lines.Perm b.lines := h.flatMap_right _

theorem lines_append (a b : Headers) : Headers.lines (a ++ b) = a.lines ++ b.lines :=
  List.flatMap_append

theorem lines_eq_nil {a : Headers} : a.lines = [] ↔ ∀ h ∈ a, h.2.lines h.1 = [] :=
  List.flatMap_eq_nil_iff

theorem field_of_mem_lines {a : Headers} {line : Line} (h : line ∈ a.lines) :
    ∃ e ∈ a, e.1 = line.1 := by
  obtain ⟨e, he, hline⟩ := List.mem_flatMap.mp h
  refine ⟨e, he, ?_⟩
  cases hv : e.2 with
  | one s =>
    rw [hv] at hline
    rw [List.mem_singleton.mp hline]
  | many l =>
    rw [hv] at hline
    obtain ⟨s, _, rfl⟩ := List.mem_map.mp hline
    rfl

theorem lines_eq_nil_of_subset {a b : Headers} (h : ∀ x ∈ a, ∀ y ∈ b, x.1 ≠ y.1)
    (hs : ∀ line ∈ a.lines, line ∈ b.lines) : a.lines = [] := by
  rw [List.eq_nil_iff_forall_not_mem]
  intro line hline
  obtain ⟨x, hx, hxl⟩ := field_of_mem_lines hline
  obtain ⟨y, hy, hyl⟩ := field_of_mem_lines (hs line hline)
  exact h x hx y hy (hxl.trans hyl.symm)

/-- Lines that cannot be the same are none. -/
theorem lines_perm_iff {a b : Headers} (h : ∀ x ∈ a, ∀ y ∈ b, x.1 ≠ y.1) :
    a.lines.Perm b.lines ↔ a.lines = [] ∧ b.lines = [] := by
  constructor
  · intro hp
    have ha : a.lines = [] := lines_eq_nil_of_subset h fun _ hl => hp.subset hl
    exact ⟨ha, List.nil_perm.mp (ha ▸ hp)⟩
  · rintro ⟨ha, hb⟩
    rw [ha, hb]

/-- The lines of two parts against those of two others, which only the second ones can match. -/
theorem lines_append_perm_iff {a a' b b' : Headers} (ha : ∀ x ∈ a, ∀ y ∈ b ++ b', x.1 ≠ y.1)
    (hb : ∀ y ∈ b, ∀ x ∈ a ++ a', y.1 ≠ x.1) :
    (a.lines ++ a'.lines).Perm (b.lines ++ b'.lines) ↔
      a.lines = [] ∧ b.lines = [] ∧ a'.lines.Perm b'.lines := by
  constructor
  · intro hp
    have hna : a.lines = [] := by
      refine lines_eq_nil_of_subset ha fun line hl => ?_
      rw [lines_append]
      exact hp.subset (List.mem_append_left _ hl)
    have hnb : b.lines = [] := by
      refine lines_eq_nil_of_subset hb fun line hl => ?_
      rw [lines_append]
      exact hp.symm.subset (List.mem_append_left _ hl)
    rw [hna, hnb] at hp
    exact ⟨hna, hnb, hp⟩
  · rintro ⟨hna, hnb, hp⟩
    rw [hna, hnb]
    exact hp

/-- A list of headers split in two. -/
theorem lines_split (p : JSString × Value → Bool) (a : Headers) :
    a.lines.Perm (Headers.lines (a.filter p) ++ Headers.lines (a.filter fun h => !p h)) := by
  rw [← lines_append]
  exact lines_perm (List.filter_append_perm p a).symm

/-! ### Merging -/

/-- Entries assigned one by one, except one with an empty name, which is skipped. -/
theorem mergeObject_perm {obj headers : Headers} (hobj : (obj.map (·.1)).Nodup)
    (hproto : js "__proto__" ∉ obj.map (·.1)) (hh : (headers.map (·.1)).Nodup) :
    (mergeHeaders headers (.object obj)).Perm
      (headers.filter (!assigned obj ·) ++ obj.filter (·.1 ≠ [])) := by
  unfold mergeHeaders
  dsimp only
  induction obj generalizing headers with
  | nil => simp [assigned]
  | cons e obj ih =>
    rw [List.map_cons, List.nodup_cons] at hobj
    rw [List.map_cons, List.mem_cons, not_or] at hproto
    rw [List.foldl_cons]
    by_cases he : e.1 = []
    · rw [if_pos he, List.filter_cons_of_neg (by simp [he])]
      have hsame : assigned (e :: obj) = assigned obj := by
        funext h
        simp [assigned, he]
      rw [hsame]
      exact ih hobj.2 hproto.2 hh
    · have hp : e.1 ≠ js "__proto__" := fun hp => hproto.1 hp.symm
      have hout : assigned obj e = false := by
        unfold assigned
        rw [List.any_eq_false]
        intro x hx hk
        rw [Bool.and_eq_true, decide_eq_true_eq, decide_eq_true_eq] at hk
        exact hobj.1 (List.mem_map.mpr ⟨x, hx, hk.2⟩)
      have hfilter := (setKey_perm hh hp e.2).filter (!assigned obj ·)
      rw [List.filter_cons_of_pos (by rw [hout]; rfl), List.filter_filter] at hfilter
      rw [if_neg he, List.filter_cons_of_pos (by simp [he])]
      refine (ih hobj.2 hproto.2 (setKey_nodup hh hp e.2)).trans ?_
      refine ((hfilter.append_right _).trans ?_).trans List.perm_middle.symm
      refine List.Perm.of_eq (congrArg (e :: · ++ _) (List.filter_congr fun x _ => ?_))
      simp [assigned, he, Bool.and_comm, eq_comm]

theorem find?_of_mem {l : Headers} (h : (l.map (·.1)).Nodup) {e : JSString × Value}
    (he : e ∈ l) : l.find? (·.1 = e.1) = some e := by
  induction l with
  | nil => cases he
  | cons x l ih =>
    rw [List.map_cons, List.nodup_cons] at h
    rcases List.mem_cons.mp he with rfl | he
    · simp
    · have hne : x.1 ≠ e.1 := fun hx => h.1 (List.mem_map.mpr ⟨e, he, hx.symm⟩)
      rw [List.find?_cons_of_neg (by simpa using hne)]
      exact ih h.2 he

/-- What a property is does not depend on the order of the entries. -/
theorem property_perm {l l' : Headers} (h : l.Perm l') (hn : (l.map (·.1)).Nodup)
    (field : JSString) : l.property field = l'.property field := by
  have hfind : l.find? (·.1 = field) = l'.find? (·.1 = field) := by
    cases hl : l.find? (·.1 = field) with
    | none =>
      rw [List.find?_eq_none] at hl
      rw [eq_comm, List.find?_eq_none]
      exact fun x hx => hl x (h.symm.subset hx)
    | some e =>
      obtain rfl : e.1 = field := by simpa using List.find?_some hl
      have hn' : (l'.map (·.1)).Nodup := (h.map _).nodup_iff.mp hn
      exact (find?_of_mem hn' (h.subset (List.mem_of_find?_eq_some hl))).symm
  unfold Headers.property
  rw [hfind]

theorem overridden_of_mem {obj : Headers} {a h : JSString × Value} (ha : a ∈ obj)
    (hah : a.1 = h.1) : overridden obj h = true :=
  List.any_eq_true.mpr ⟨a, ha, by simp [hah]⟩

theorem overridden_of_assigned {obj : Headers} {h : JSString × Value}
    (ha : assigned obj h = true) : overridden obj h = true := by
  obtain ⟨a, hmem, ha⟩ := List.any_eq_true.mp ha
  rw [Bool.and_eq_true, decide_eq_true_eq, decide_eq_true_eq] at ha
  exact overridden_of_mem hmem ha.2

theorem not_unkept_of_nil {h : JSString × Value} (hh : h.1 = []) : unkept h = false := by
  unfold unkept
  rw [hh]
  decide

theorem assigned_of_nil (obj : Headers) {h : JSString × Value} (hh : h.1 = []) :
    assigned obj h = false := by
  unfold assigned
  rw [List.any_eq_false]
  simp [hh]

/-- Headers with a name that stay although they are overridden. -/
def stale (P obj : Headers) : Headers :=
  P.filter fun h => !unkept h && !assigned obj h && overridden obj h && h.1 ≠ []

def nameless (P obj : Headers) : Headers := P.filter fun h => h.1 = [] && overridden obj h

def lost (P obj : Headers) : Headers := P.filter fun h => unkept h && !overridden obj h

def staying (P obj : Headers) : Headers := P.filter fun h => !unkept h && !overridden obj h

theorem remaining_perm (P obj : Headers) :
    (Headers.lines ((P.filter (!unkept ·)).filter (!assigned obj ·))).Perm
      ((stale P obj).lines ++ (nameless P obj).lines ++ (staying P obj).lines) := by
  have hstale : (((P.filter (!unkept ·)).filter (!assigned obj ·)).filter (overridden obj)).filter
      (fun h => h.1 ≠ []) = stale P obj := by
    unfold stale
    simp only [List.filter_filter]
    refine List.filter_congr fun h _ => ?_
    simp only [Bool.and_comm, Bool.and_left_comm]
  have hnameless : (((P.filter (!unkept ·)).filter (!assigned obj ·)).filter (overridden obj)).filter
      (fun h => !decide (h.1 ≠ [])) = nameless P obj := by
    unfold nameless
    simp only [List.filter_filter]
    refine List.filter_congr fun h _ => ?_
    by_cases hh : h.1 = []
    · simp [hh, not_unkept_of_nil hh, assigned_of_nil obj hh]
    · simp [hh]
  have hstaying : ((P.filter (!unkept ·)).filter (!assigned obj ·)).filter (!overridden obj ·) =
      staying P obj := by
    unfold staying
    simp only [List.filter_filter]
    refine List.filter_congr fun h _ => ?_
    cases ha : assigned obj h with
    | true => simp [overridden_of_assigned ha]
    | false => simp [Bool.and_comm]
  refine (lines_split (overridden obj) _).trans ?_
  rw [hstaying, ← hstale, ← hnameless]
  exact (lines_split _ _).append_right _

theorem untouched_perm (P obj : Headers) :
    (Headers.lines (P.filter (!overridden obj ·))).Perm
      ((lost P obj).lines ++ (staying P obj).lines) := by
  refine (lines_split unkept _).trans (List.Perm.of_eq ?_)
  rw [List.filter_filter, List.filter_filter]
  rfl

theorem object_lines_perm (obj : Headers) :
    obj.lines.Perm
      (Headers.lines (obj.filter (·.1 = [])) ++ Headers.lines (obj.filter (·.1 ≠ []))) := by
  refine (lines_split (fun h => h.1 = []) _).trans (List.Perm.of_eq ?_)
  simp

/-- What two lists of lines share may be left out. -/
theorem perm_cancel {A R N U E : List Line} :
    (A ++ R ++ N).Perm (U ++ R ++ (E ++ N)) ↔ A.Perm (U ++ E) := by
  have h : (U ++ R ++ (E ++ N)).Perm (U ++ E ++ (R ++ N)) := by
    simp only [List.append_assoc]
    refine List.Perm.append_left _ ?_
    rw [← List.append_assoc, ← List.append_assoc]
    exact List.perm_append_comm.append_right _
  refine Iff.trans ?_ (List.perm_append_right_iff (R ++ N))
  rw [List.append_assoc A]
  exact ⟨fun hp => hp.trans h, fun hp => hp.trans h.symm⟩

theorem name_ne_of_unkept {x y : JSString × Value} (hx : unkept x = false) (hy : unkept y = true) :
    x.1 ≠ y.1 := by
  intro hxy
  rw [unkept, hxy] at hx
  rw [unkept, hx] at hy
  cases hy

theorem of_mem_stale {P obj : Headers} {h : JSString × Value} (hh : h ∈ stale P obj) :
    unkept h = false ∧ h.1 ≠ [] := by
  have hmem := (List.mem_filter.mp hh).2
  simp only [Bool.and_eq_true, Bool.not_eq_true', decide_eq_true_eq] at hmem
  exact ⟨hmem.1.1.1, hmem.2⟩

theorem of_mem_nameless {P obj : Headers} {h : JSString × Value} (hh : h ∈ nameless P obj) :
    h.1 = [] := by
  have hmem := (List.mem_filter.mp hh).2
  simp only [Bool.and_eq_true, decide_eq_true_eq] at hmem
  exact hmem.1

theorem of_mem_lost {P obj : Headers} {h : JSString × Value} (hh : h ∈ lost P obj) :
    unkept h = true := by
  have hmem := (List.mem_filter.mp hh).2
  simp only [Bool.and_eq_true] at hmem
  exact hmem.1

/-- No header with lines is stale or lost. -/
theorem stale_lost_iff (P obj : Headers) :
    ((stale P obj).lines = [] ∧ (lost P obj).lines = []) ↔
      ∀ h ∈ P, h.1 ≠ [] → h.2.lines h.1 ≠ [] →
        if unkept h then overridden obj h = true
        else overridden obj h = true → assigned obj h = true := by
  unfold stale lost
  rw [lines_eq_nil, lines_eq_nil]
  simp only [List.mem_filter, Bool.and_eq_true, Bool.not_eq_true', decide_eq_true_eq]
  constructor
  · rintro ⟨h₁, h₂⟩ h hh hname hlines
    split_ifs with hk
    · by_contra hover
      exact hlines (h₂ h ⟨hh, hk, by simpa using hover⟩)
    · intro hover
      by_contra has
      exact hlines (h₁ h ⟨hh, ⟨⟨by simpa using hk, by simpa using has⟩, hover⟩, hname⟩)
  · intro hall
    constructor
    · rintro h ⟨hh, ⟨⟨hk, has⟩, hover⟩, hname⟩
      by_contra hlines
      have hassigned := hall h hh hname hlines
      rw [hk, if_neg Bool.false_ne_true] at hassigned
      rw [hassigned hover] at has
      cases has
    · rintro h ⟨hh, hk, hover⟩
      by_contra hlines
      have hname : h.1 ≠ [] := by
        intro hname
        rw [not_unkept_of_nil hname] at hk
        cases hk
      have htrue := hall h hh hname hlines
      rw [if_pos hk, hover] at htrue
      cases htrue

/-- What an object leaves of the headers, against what it should. -/
theorem object_perm_iff (P obj : Headers) :
    (Headers.lines ((P.filter (!unkept ·)).filter (!assigned obj ·)) ++
        Headers.lines (obj.filter (·.1 ≠ []))).Perm
      (Headers.lines (P.filter (!overridden obj ·)) ++ obj.lines) ↔
    (∀ h ∈ P, h.1 ≠ [] → h.2.lines h.1 ≠ [] →
      if unkept h then overridden obj h = true
      else overridden obj h = true → assigned obj h = true) ∧
    (Headers.lines (P.filter fun h => h.1 = [] && overridden obj h)).Perm
      (Headers.lines (obj.filter (·.1 = []))) := by
  let E : Headers := obj.filter (·.1 = [])
  let N : Headers := obj.filter (·.1 ≠ [])
  have hE : ∀ h ∈ E, h.1 = [] := fun h hh => by simpa using (List.mem_filter.mp hh).2
  calc _ ↔ ((stale P obj).lines ++ (nameless P obj).lines ++ (staying P obj).lines ++ N.lines).Perm
        ((lost P obj).lines ++ (staying P obj).lines ++ (E.lines ++ N.lines)) := by
        have h := (remaining_perm P obj).append_right N.lines
        have h' := (untouched_perm P obj).append (object_lines_perm obj)
        exact ⟨fun hp => (h.symm.trans hp).trans h', fun hp => (h.trans hp).trans h'.symm⟩
    _ ↔ ((stale P obj).lines ++ (nameless P obj).lines).Perm ((lost P obj).lines ++ E.lines) :=
        perm_cancel
    _ ↔ (stale P obj).lines = [] ∧ (lost P obj).lines = [] ∧ (nameless P obj).lines.Perm E.lines := by
        refine lines_append_perm_iff (fun x hx y hy => ?_) fun y hy x hx => ?_
        · rcases List.mem_append.mp hy with hy | hy
          · exact name_ne_of_unkept (of_mem_stale hx).1 (of_mem_lost hy)
          · exact fun hxy => (of_mem_stale hx).2 (hxy.trans (hE y hy))
        · rcases List.mem_append.mp hx with hx | hx
          · exact (name_ne_of_unkept (of_mem_stale hx).1 (of_mem_lost hy)).symm
          · exact (name_ne_of_unkept (not_unkept_of_nil (of_mem_nameless hx)) (of_mem_lost hy)).symm
    _ ↔ _ := by
        rw [← and_assoc, stale_lost_iff]
        rfl

/-- What an array leaves of the headers, against what it should. -/
theorem array_perm_iff (P obj : Headers) :
    (Headers.lines (mergeHeaders (P.filter (!unkept ·)) (.array obj))).Perm
      (Headers.lines (P.filter (!overridden obj ·)) ++ obj.lines) ↔
    (∀ h ∈ P, h.2.lines h.1 ≠ [] → overridden obj h = true) ∧
    ∀ a ∈ obj, ∀ v, Headers.property (P.filter (!unkept ·)) a.1 = some v →
      v.lines a.1 = [] := by
  let X : Headers := obj.filterMap fun e =>
    (Headers.property (P.filter (!unkept ·)) e.1).map fun v => (e.1, v)
  let L : Headers := P.filter (!overridden obj ·)
  have hX : ∀ x ∈ X, ∀ y ∈ L, x.1 ≠ y.1 := by
    intro x hx y hy hxy
    obtain ⟨a, ha, hax⟩ := List.mem_filterMap.mp hx
    obtain ⟨v, _, rfl⟩ := Option.map_eq_some_iff.mp hax
    have hover : overridden obj y = true := overridden_of_mem ha hxy
    have hnot := (List.mem_filter.mp hy).2
    rw [hover] at hnot
    cases hnot
  have hmerge : (mergeHeaders (P.filter (!unkept ·)) (.array obj)).lines = obj.lines ++ X.lines :=
    lines_append obj X
  calc _ ↔ (obj.lines ++ X.lines).Perm (obj.lines ++ L.lines) := by
        rw [hmerge]
        exact ⟨fun h => h.trans List.perm_append_comm, fun h => h.trans List.perm_append_comm⟩
    _ ↔ X.lines.Perm L.lines := List.perm_append_left_iff _
    _ ↔ X.lines = [] ∧ L.lines = [] := lines_perm_iff hX
    _ ↔ _ := by
        rw [and_comm, lines_eq_nil, lines_eq_nil]
        refine and_congr ?_ ?_
        · simp only [L, List.mem_filter, Bool.not_eq_true', and_imp]
          refine forall₂_congr fun h _ => ?_
          cases overridden obj h with
          | true => simp
          | false => simp
        · constructor
          · intro hall a ha v hv
            exact hall (a.1, v) (List.mem_filterMap.mpr ⟨a, ha, by rw [hv]; rfl⟩)
          · intro hall x hx
            obtain ⟨a, ha, hax⟩ := List.mem_filterMap.mp hx
            obtain ⟨v, hv, rfl⟩ := Option.map_eq_some_iff.mp hax
            exact hall a ha v hv

/-- Without an argument of `writeHead` all headers are sent that there are entries for. -/
theorem none_perm_iff (P : Headers) :
    (Headers.lines (P.filter (!unkept ·))).Perm P.lines ↔
      ∀ h ∈ P, unkept h = true → h.2.lines h.1 = [] := by
  have hsplit := lines_split unkept P
  calc _ ↔ ([] ++ Headers.lines (P.filter (!unkept ·))).Perm
        (Headers.lines (P.filter unkept) ++ Headers.lines (P.filter (!unkept ·))) :=
        ⟨fun h => h.trans hsplit, fun h => h.trans hsplit.symm⟩
    _ ↔ [].Perm (Headers.lines (P.filter unkept)) := List.perm_append_right_iff _
    _ ↔ _ := by
        rw [List.nil_perm, lines_eq_nil]
        simp

/-! ### `writeHead` -/

/-- The lines the user gave come first. -/
theorem storeLines_lines (m : Outgoing) (lines : List Line) :
    ∃ added, (storeLines m lines).lines = lines ++ added := by
  obtain ⟨auto, last, _, _, hst⟩ := storeConnection_looped m lines
  have hstore : storeLines m lines = storeFraming (storeConnection (looped m lines)) := rfl
  rw [hstore, hst]
  unfold storeFraming
  split_ifs
  · exact ⟨auto ++ [(js "Transfer-Encoding", js "chunked")], List.append_assoc ..⟩
  · exact ⟨auto, rfl⟩
  · exact ⟨auto, rfl⟩
  · exact ⟨auto, rfl⟩

/-- What the header block of `writeHead` is rendered from. -/
theorem headTo_lines (s : Endpoint Log) (firstLine : JSString) (lines : List Line) :
    ∃ added, (headTo s firstLine lines).msg.header = some (render firstLine (lines ++ added)) := by
  obtain ⟨added, hadded⟩ := storeLines_lines s.msg lines
  refine ⟨added, ?_⟩
  rw [headTo_header]
  exact congrArg (fun l => some (render firstLine l)) hadded

theorem progressive_eq_nil {calls : List HeaderCall} (h : calls.any (·.isSet) = false) :
    progressive calls = [] := by
  induction calls with
  | nil => rfl
  | cons c calls ih =>
    rw [List.any_cons, Bool.or_eq_false_iff] at h
    cases c with
    | set name value => cases h.1
    | remove name => exact ih h.2

/-- The names of the entries differ as their keys do. -/
theorem Keyed.names_nodup {l : List (JSString × JSString × Value)} (h : Keyed l) :
    ((l.map (·.2)).map (·.1)).Nodup := by
  have hkeys : l.map (·.1) = ((l.map (·.2)).map (·.1)).map toLowerCase := by
    rw [List.map_map, List.map_map]
    exact List.map_congr_left h.key
  exact List.Nodup.of_map toLowerCase (hkeys ▸ h.nodup)

/-- The headers of `writeHead` against the expected ones, from the entries that the calls made. -/
theorem given_perm_iff {m : Outgoing} {calls : List HeaderCall}
    (hget : m.headers.getD [] = calls.foldl HeaderCall.store [])
    (hsome : m.headers.isSome = calls.any (·.isSet)) {obj : Option HeadersArg}
    (hobj : ∀ o, obj = some o → o.WellFormed) :
    (headersFor m obj).lines.Perm (expectedHeaders calls obj).lines ↔ Kept calls obj := by
  obtain ⟨hkeyed, hperm⟩ := Keyed.calls (l := []) ⟨by simp, by simp, List.nodup_nil⟩ calls
  rw [← hget, List.filter_nil, List.map_nil, List.nil_append] at hperm
  rw [← hget] at hkeyed
  have hnodup := hkeyed.names_nodup
  cases obj with
  | none =>
    have hlines := lines_perm hperm
    refine Iff.trans ?_ (none_perm_iff (progressive calls))
    exact ⟨fun h => hlines.symm.trans h, fun h => hlines.trans h⟩
  | some o =>
    unfold headersFor expectedHeaders
    cases hm : m.headers with
    | none =>
      have hset : calls.any (·.isSet) = false := by rw [← hsome, hm]; rfl
      rw [progressive_eq_nil hset]
      cases o with
      | object obj => simp [Kept, hset]
      | array obj => simp [Kept, hset]
    | some l =>
      have hset : calls.any (·.isSet) = true := by rw [← hsome, hm]; rfl
      rw [hm, Option.getD_some] at hperm hnodup
      dsimp only
      rw [lines_append]
      cases o with
      | object obj =>
        obtain ⟨hobj, hproto⟩ := hobj _ rfl
        have hmerge := (mergeObject_perm hobj hproto hnodup).trans
          ((hperm.filter (!assigned obj ·)).append_right _)
        have hlines := lines_perm hmerge
        rw [lines_append] at hlines
        refine Iff.trans ?_ ((object_perm_iff (progressive calls) obj).trans ?_)
        · exact ⟨fun h => hlines.symm.trans h, fun h => hlines.trans h⟩
        · simp [Kept, hset]
      | array obj =>
        have hmerge : mergeHeaders (l.map (·.2)) (.array obj) =
            mergeHeaders ((progressive calls).filter (!unkept ·)) (.array obj) := by
          unfold mergeHeaders
          simp only [property_perm hperm hnodup]
        rw [hmerge]
        refine (array_perm_iff (progressive calls) obj).trans ?_
        simp [Kept, hset]

/-- Exactly when `writeHead` sends the headers set before, overridden name by name by its own. -/
theorem headers_kept_iff (s : Endpoint Log) (hheader : s.msg.header = none)
    (hheaders : s.msg.headers = none) (calls : List HeaderCall) (obj : Option HeadersArg)
    (hobj : ∀ o, obj = some o → o.WellFormed) (statusCode : ℕ) (reasonPhrase : Option JSString) :
    let given := (headersFor (after (performAll calls) s).msg obj).lines
    (∃ added, (after (performAll calls >>= fun _ => writeHead statusCode reasonPhrase obj)
      s).msg.header = some (render (statusLine statusCode reasonPhrase) (given ++ added))) ∧
    (given.Perm (expectedHeaders calls obj).lines ↔ Kept calls obj) := by
  obtain ⟨headers, hrun, hget, hsome⟩ := performAll_eq calls hheader
  have hafter : after (performAll calls) s = { s with msg := { s.msg with headers := headers } } := by
    rw [after, hrun]
  rw [hheaders] at hget hsome
  dsimp only
  constructor
  · rw [after, bind_ok hrun, writeHead_log, if_neg (by simp [headFails, hheader])]
    dsimp only
    unfold writeHeadTo
    rw [if_neg (by simp [headFails, hheader]), hafter]
    exact headTo_lines _ _ _
  · rw [hafter]
    exact given_perm_iff hget hsome hobj

theorem headers_kept_iff_same_case :
    let calls : List HeaderCall :=
      [.set (js "X-Foo") (.one (js "a")), .set (js "X-Bar") (.one (js "b"))]
    let obj : Option HeadersArg := some (.object [(js "X-Foo", .one (js "c"))])
    let s : Endpoint Log := ⟨ServerResponse.new false true, ⟨[]⟩⟩
    (headersFor (after (performAll calls) s).msg obj).lines.Perm (expectedHeaders calls obj).lines := by
  refine (headers_kept_iff _ rfl rfl _ _ ?_ 200 none).2.mpr ?_
  · rintro _ ⟨⟩
    exact ⟨by decide, by decide⟩
  · intro _
    constructor
    · decide
    · decide

/-- A header set as `X-Foo` is sent along with the `x-foo` of `writeHead`. -/
theorem headers_not_kept :
    let calls : List HeaderCall := [.set (js "X-Foo") (.one (js "a"))]
    let obj : HeadersArg := .object [(js "x-foo", .one (js "b"))]
    let s : Endpoint Log := ⟨ServerResponse.new false true, ⟨[]⟩⟩
    obj.WellFormed ∧
    (headersFor (after (performAll calls) s).msg (some obj)).lines =
      [(js "X-Foo", js "a"), (js "x-foo", js "b")] ∧
    ¬ (headersFor (after (performAll calls) s).msg (some obj)).lines.Perm
      (expectedHeaders calls (some obj)).lines := by
  refine ⟨⟨by decide, by decide⟩, by decide, ?_⟩
  intro h
  exact absurd h.length_eq (by decide)

end NodeJS.Http
