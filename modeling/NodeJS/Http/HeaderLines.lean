import NodeJS.Http.Incoming

/-! What `_addHeaderLine` makes of a list of header lines, against what its comment promises. -/
namespace NodeJS.Http

/-- The own property `field`. -/
def Headers.get (dest : Headers) (field : JSString) : Option Value :=
  (dest.find? (·.1 = field)).map (·.2)

def Incoming.dest (m : Incoming) : Headers := if m.complete then m.trailers else m.headers

/-- Values of a field, in the order of its lines. -/
def valuesOf (lines : List Line) (field : JSString) : List JSString :=
  (lines.filter (·.1 = field)).map (·.2)

/-- What the comment at `_addHeaderLine` says the values of a field are made into. -/
def promise (field : JSString) (values : List JSString) : Value :=
  if field = js "set-cookie" then .many values
  else if commaFields.contains field ∨ field.take 2 = js "x-" then
    .one ((js ", ").intercalate values)
  else .one (values.headD [])

theorem intercalate_snoc (sep value : JSString) {values : List JSString} (h : values ≠ []) :
    sep.intercalate (values ++ [value]) = sep.intercalate values ++ sep ++ value := by
  induction values with
  | nil => exact absurd rfl h
  | cons v vs ih =>
    cases vs with
    | nil => simp
    | cons v' vs =>
      rw [List.cons_append, List.cons_append, List.intercalate_cons_cons,
        List.intercalate_cons_cons, ← List.cons_append, ih (by simp)]
      simp

/-- One more line of a field that is there. -/
theorem promise_snoc (field value : JSString) {values : List JSString} (h : values ≠ []) :
    promise field (values ++ [value]) =
      if field = js "set-cookie" then (promise field values).push value
      else if field ∈ commaFields ∨ field.take 2 = js "x-" then (promise field values).join value
      else promise field values := by
  unfold promise
  simp only [List.contains_iff_mem]
  split_ifs
  · rfl
  · rw [intercalate_snoc _ _ h]
    rfl
  · obtain ⟨v, vs, rfl⟩ := List.exists_cons_of_ne_nil h
    rfl

theorem promise_singleton (field value : JSString) :
    promise field [value] = if field = js "set-cookie" then .many [value] else .one value := by
  unfold promise
  split_ifs
  · rfl
  · simp
  · rfl

/-! ### One line -/

section
variable {dest : Headers} {field : JSString}

/-- What is in an object can be read from it, and nothing else but inherited properties. -/
theorem Headers.has_eq (dest : Headers) (field : JSString) :
    dest.has field = (inherited field || (dest.get field).isSome) := by
  unfold Headers.has Headers.get
  rw [Option.isSome_map, List.isSome_find?]

theorem Headers.get_append_self (h : dest.get field = none) (v : Value) :
    Headers.get (dest ++ [(field, v)]) field = some v := by
  unfold Headers.get at h ⊢
  rw [Option.map_eq_none_iff] at h
  rw [List.find?_append, h]
  simp

theorem Headers.get_append_of_ne {name : JSString} (h : name ≠ field) (v : Value) :
    Headers.get (dest ++ [(name, v)]) field = dest.get field := by
  unfold Headers.get
  rw [List.find?_append]
  simp [h]

theorem Headers.get_modifyField_self (f : Value → Value) :
    (dest.modifyField field f).get field = (dest.get field).map f := by
  induction dest with
  | nil => rfl
  | cons e dest ih =>
    unfold Headers.get Headers.modifyField at ih ⊢
    by_cases he : e.1 = field
    · simp [he]
    · simpa [he] using ih

theorem Headers.get_modifyField_of_ne {name : JSString} (h : name ≠ field) (f : Value → Value) :
    (dest.modifyField name f).get field = dest.get field := by
  induction dest with
  | nil => rfl
  | cons e dest ih =>
    unfold Headers.get Headers.modifyField at ih ⊢
    by_cases he : e.1 = name
    · simpa [he, h] using ih
    · by_cases hf : e.1 = field
      · simp [hf, Ne.symm h]
      · simpa [he, hf] using ih

/-- A line changes no other field. -/
theorem Headers.get_addLine_of_ne {line : Line} (h : line.1 ≠ field) :
    (dest.addLine line).get field = dest.get field := by
  unfold addLine
  dsimp only
  split_ifs
  · exact get_modifyField_of_ne h _
  · exact get_append_of_ne h _
  · exact get_modifyField_of_ne h _
  · exact get_append_of_ne h _
  · rfl
  · exact get_append_of_ne h _

/-- A line of a field that no object inherits. -/
theorem Headers.get_addLine_self (hi : inherited field = false) (value : JSString) :
    (dest.addLine (field, value)).get field = some (match dest.get field with
      | none => promise field [value]
      | some v =>
        if field = js "set-cookie" then v.push value
        else if field ∈ commaFields ∨ field.take 2 = js "x-" then v.join value
        else v) := by
  have hhas := dest.has_eq field
  rw [hi, Bool.false_or] at hhas
  unfold addLine
  dsimp only
  rw [hhas, promise_singleton]
  cases hget : dest.get field with
  | none =>
    simp only [Option.isSome_none, Bool.false_eq_true, not_false_eq_true, if_true, if_false]
    split_ifs
    · exact get_append_self hget _
    · exact get_append_self hget _
    · exact get_append_self hget _
  | some v =>
    simp only [Option.isSome_some, not_true_eq_false, if_true, if_false]
    split_ifs
    · rw [get_modifyField_self, hget, Option.map_some]
    · rw [get_modifyField_self, hget, Option.map_some]
    · exact hget

/-- A line of an inherited field is dropped. -/
theorem Headers.addLine_inherited {line : Line} (hi : inherited line.1 = true) :
    dest.addLine line = dest := by
  obtain ⟨hcookie, hjoin⟩ := inherited_dropsDuplicates hi
  unfold addLine
  dsimp only
  rw [if_neg hcookie, if_neg hjoin, dest.has_eq, hi]
  simp

end

/-! ### All lines -/

theorem valuesOf_snoc (lines : List Line) (line : Line) (field : JSString) :
    valuesOf (lines ++ [line]) field =
      if line.1 = field then valuesOf lines field ++ [line.2] else valuesOf lines field := by
  unfold valuesOf
  split_ifs with h
  · simp [h]
  · simp [h]

theorem valuesOf_eq_nil {lines : List Line} {field : JSString} :
    valuesOf lines field = [] ↔ ∀ line ∈ lines, line.1 ≠ field := by
  simp [valuesOf]

/-- The fold of the lines has every field that occurs and is not inherited, as promised. -/
theorem get_fold (lines : List Line) (field : JSString) :
    (lines.foldl Headers.addLine []).get field =
      if inherited field = true ∨ valuesOf lines field = [] then none
      else some (promise field (valuesOf lines field)) := by
  induction lines using List.reverseRecOn with
  | nil => simp [valuesOf, Headers.get]
  | append_singleton lines line ih =>
    rw [List.foldl_append, List.foldl_cons, List.foldl_nil, valuesOf_snoc]
    by_cases hi : inherited field = true
    · rw [if_pos (Or.inl hi)] at ih ⊢
      by_cases hf : line.1 = field
      · rw [Headers.addLine_inherited (hf ▸ hi), ih]
      · rw [Headers.get_addLine_of_ne hf, ih]
    · by_cases hf : line.1 = field
      · obtain ⟨name, value⟩ := line
        obtain rfl : name = field := hf
        have hsnoc : ¬ (inherited name = true ∨ valuesOf lines name ++ [value] = []) := by
          simp [hi]
        rw [Headers.get_addLine_self (by simpa using hi), ih, if_pos rfl, if_neg hsnoc]
        by_cases hnil : valuesOf lines name = []
        · rw [if_pos (Or.inr hnil), hnil]
          rfl
        · rw [if_neg (not_or.mpr ⟨hi, hnil⟩), promise_snoc _ _ hnil]
      · rw [Headers.get_addLine_of_ne hf, ih, if_neg hf]

def Incoming.addHeaderLines (m : Incoming) (lines : List Line) : Option Incoming :=
  lines.foldlM (fun m line => m.addHeaderLine (some line.1) line.2) m

theorem addHeaderLines_eq (m : Incoming) (lines : List Line) :
    m.addHeaderLines lines = some (if m.complete then
      { m with trailers := lines.foldl Headers.addLine m.trailers }
      else { m with headers := lines.foldl Headers.addLine m.headers }) := by
  unfold Incoming.addHeaderLines
  induction lines generalizing m with
  | nil =>
    obtain ⟨complete, headers, trailers⟩ := m
    cases complete with
    | true => rfl
    | false => rfl
  | cons line lines ih =>
    obtain ⟨complete, headers, trailers⟩ := m
    cases complete with
    | true => exact ih ⟨true, headers, trailers.addLine line⟩
    | false => exact ih ⟨false, headers.addLine line, trailers⟩

/-- Exactly when the object built from the lines has every field that occurs as promised. -/
theorem promised_iff (m : Incoming) (hm : m.dest = []) (lines : List Line) :
    ∃ m', m.addHeaderLines lines = some m' ∧
      ((∀ line ∈ lines, m'.dest.get line.1 = some (promise line.1 (valuesOf lines line.1))) ↔
        ∀ line ∈ lines, inherited line.1 = false) := by
  refine ⟨_, addHeaderLines_eq m lines, ?_⟩
  have hdest : (if m.complete then { m with trailers := lines.foldl Headers.addLine m.trailers }
      else { m with headers := lines.foldl Headers.addLine m.headers } : Incoming).dest =
        lines.foldl Headers.addLine [] := by
    unfold Incoming.dest at hm ⊢
    cases hc : m.complete with
    | true => simp_all
    | false => simp_all
  rw [hdest]
  refine forall₂_congr fun line hline => ?_
  have hne : valuesOf lines line.1 ≠ [] := fun hnil => valuesOf_eq_nil.mp hnil line hline rfl
  rw [get_fold]
  simp [hne]

theorem promised_iff_repeated :
    ∃ m', Incoming.new.addHeaderLines [(js "a", js "1"), (js "a", js "2")] = some m' ∧
      ((∀ line ∈ [(js "a", js "1"), (js "a", js "2")], m'.dest.get line.1 =
          some (promise line.1 (valuesOf [(js "a", js "1"), (js "a", js "2")] line.1))) ↔
        ∀ line ∈ [(js "a", js "1"), (js "a", js "2")], inherited line.1 = false) :=
  promised_iff Incoming.new rfl _

/-- A header named `constructor` is not kept: every object has a property of that name. -/
theorem not_promised :
    ¬ ∀ (m : Incoming) (lines : List Line), m.dest = [] →
      (∀ line ∈ lines, toLowerCase line.1 = line.1) →
        ∃ m', m.addHeaderLines lines = some m' ∧
          ∀ line ∈ lines, m'.dest.get line.1 = some (promise line.1 (valuesOf lines line.1)) := by
  intro h
  obtain ⟨m', hm', hall⟩ := h Incoming.new [(js "constructor", js "1")] rfl (by decide)
  obtain rfl := Option.some.inj ((addHeaderLines_eq ..).symm.trans hm')
  have hget : (List.foldl Headers.addLine [] [(js "constructor", js "1")]).get
      (js "constructor") = some _ := hall _ (List.mem_singleton_self _)
  rw [get_fold, if_pos (Or.inl (by decide))] at hget
  cases hget

end NodeJS.Http
