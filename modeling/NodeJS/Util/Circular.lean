import Mathlib.Logic.Function.Iterate
import NodeJS.Lib.Walk
import NodeJS.Util.Inspect

/-! When `format` returns, and which properties it prints as `[Circular]`. -/
namespace NodeJS.Util
open Lib

variable {Ref : Type}

/-! ### What is promised -/

/-- The object has a value of its own where `format` calls `__lookupGetter__` or
`__lookupSetter__`. -/
def Object.Shadows (o : Object Ref) : Prop :=
  match o.content (js "__lookupGetter__") with
  | some c => c.value.truthy = true
  | none => (o.content (js "__lookupSetter__")).isSome

/-- A property of `r` is printed with its value, which is `r'`. -/
def Leads (options : Options) (g : Graph Ref) (r r' : Ref) : Prop :=
  ∃ key ∈ (g r).keys options.showHidden,
    (g r).accessorText key = .ok none ∧ (g r).read key = .object r'

/-- Not deeper than `recurseTimes` there is an object whose properties are to be printed and that
shadows the methods called on it. On the way to it there is none of the objects `seen`. -/
def Trapped (options : Options) (g : Graph Ref) (seen : List Ref) (value : Value Ref)
    (recurseTimes : Times) : Prop :=
  ∃ r r' n, value = .object r ∧ Walk (Leads options g) seen r r' n ∧
    (g r').keys options.showHidden ≠ [] ∧ (g r').Shadows ∧
    ∀ i ≤ n, (Times.next^[i] recurseTimes).negative = false

/-- The property is printed as `[Circular]` if and only if its value is one of the objects around
it, and these are `seen`, before and after. -/
structure Shown.Right (options : Options) (p : Shown Ref) : Prop where
  circular : p.text = Util.circular options ↔ ∃ r ∈ p.enclosing, p.value = .object r
  before : p.before = p.enclosing
  after : p.after = p.enclosing

/-- The objects around the property are `enclosing`. -/
structure Inspect.Right (options : Options) (enclosing : List Ref) (s : Inspect Ref) : Prop where
  seen : s.seen = enclosing
  shown : ∀ p ∈ s.shown, p.Right options

/-! ### The methods called -/

theorem accessorText_error {o : Object Ref} {key : JSString} {e : TypeError}
    (h : o.accessorText key = .error e) : o.Shadows := by
  unfold Object.accessorText at h
  unfold Object.Shadows
  cases hgetter : o.content (js "__lookupGetter__") with
  | some c =>
    rw [hgetter] at h
    dsimp only at h
    split_ifs at h with htruthy
    exact htruthy
  | none =>
    rw [hgetter] at h
    dsimp only at h
    cases hsetter : o.content (js "__lookupSetter__") with
    | some c => rfl
    | none =>
      rw [hsetter] at h
      dsimp only at h
      split at h <;> cases h

theorem accessorText_of_shadows {o : Object Ref} (h : o.Shadows) (key : JSString) :
    o.accessorText key = .error .notFunction := by
  unfold Object.accessorText
  unfold Object.Shadows at h
  cases hgetter : o.content (js "__lookupGetter__") with
  | some c =>
    rw [hgetter] at h
    exact if_pos h
  | none =>
    rw [hgetter] at h
    obtain ⟨c, hsetter⟩ := Option.isSome_iff_exists.mp h
    rw [hsetter]

/-! ### Walks -/

section
variable {options : Options} {g : Graph Ref} {seen : List Ref} {r r' : Ref} {t : Times}

theorem Trapped.here (hr : r ∉ seen) (ht : t.negative = false)
    (hkeys : (g r).keys options.showHidden ≠ []) (h : (g r).Shadows) :
    Trapped options g seen (.object r) t := by
  refine ⟨r, r, 0, rfl, .here hr, hkeys, h, fun i hi => ?_⟩
  rw [Nat.le_zero.mp hi]
  exact ht

theorem Trapped.step (hr : r ∉ seen) (ht : t.negative = false) (hleads : Leads options g r r')
    (h : Trapped options g (seen ++ [r]) (.object r') t.next) :
    Trapped options g seen (.object r) t := by
  obtain ⟨a, b, n, hvalue, hwalk, hkeys, hshadows, hdepth⟩ := h
  obtain rfl := Value.object.inj hvalue
  refine ⟨r, b, n + 1, rfl, .step hr hleads hwalk.of_append, hkeys, hshadows, fun i hi => ?_⟩
  cases i with
  | zero => exact ht
  | succ i => exact hdepth i (Nat.le_of_succ_le_succ hi)

theorem Trapped.cases (h : Trapped options g seen (.object r) t) :
    t.negative = false ∧ (g r).keys options.showHidden ≠ [] ∧ ((g r).Shadows ∨
      ∃ r', Leads options g r r' ∧ Trapped options g (seen ++ [r]) (.object r') t.next) := by
  obtain ⟨a, b, n, hvalue, hwalk, hkeys, hshadows, hdepth⟩ := h
  obtain rfl := Value.object.inj hvalue
  refine ⟨hdepth 0 (Nat.zero_le n), ?_⟩
  rcases hwalk.leave with rfl | ⟨c, m, hleads, hrest, hm⟩
  · exact ⟨hkeys, .inl hshadows⟩
  · have hdepth' : ∀ i ≤ m, (Times.next^[i] t.next).negative = false :=
      fun i hi => hdepth (i + 1) (by omega)
    refine ⟨?_, .inr ⟨c, hleads, c, b, m, rfl, hrest, hkeys, hshadows, hdepth'⟩⟩
    obtain ⟨key, hkey, -⟩ := hleads
    exact List.ne_nil_of_mem hkey

end

/-! ### One call -/

section
variable [DecidableEq Ref] {options : Options} {g : Graph Ref} {enclosing : List Ref}
  {s : Inspect Ref} {E : Prop}

theorem Value.isSeen_iff {seen : List Ref} {v : Value Ref} :
    v.isSeen seen = true ↔ ∃ r ∈ seen, v = .object r := by
  cases v with
  | object r =>
    refine (decide_eq_true_iff (p := r ∈ seen)).trans ⟨fun h => ⟨r, h, rfl⟩, ?_⟩
    rintro ⟨r', h, heq⟩
    rwa [Value.object.inj heq]
  | _ => exact iff_of_false Bool.false_ne_true fun ⟨r, _, heq⟩ => by cases heq

/-- The calls of `format` for the values that are not seen do what they are to do. -/
theorem total_formatProperty {format : Value Ref → Call (Inspect Ref) TypeError JSString}
    {o : Object Ref} {key : JSString} (hthrow : ∀ e, o.accessorText key = .error e → E)
    (hformat : o.accessorText key = .ok none → (∀ r, o.read key = .object r → r ∉ enclosing) →
      ∀ s : Inspect Ref, s.Right options enclosing → (format (o.read key)).Total s
        (fun text s' => text ≠ circular options ∧ s'.Right options enclosing) E)
    (hs : s.Right options enclosing) :
    (formatProperty options format o enclosing key).Total s
      (fun _ s' => s'.Right options enclosing) E := by
  unfold formatProperty
  cases haccessor : o.accessorText key with
  | error e => exact Call.total_throw (hthrow e haccessor)
  | ok text =>
    cases text with
    | some text => exact Call.total_pure hs
    | none =>
      refine Call.Total.bind (Call.total_get (Q := fun a s' => s = a ∧ s = s') ⟨rfl, rfl⟩) ?_
      rintro _ _ ⟨rfl, rfl⟩
      have htext : (formatValue options format s.seen (o.read key)).Total s
          (fun text s' => s'.Right options enclosing ∧
            (text = circular options ↔ ∃ r ∈ enclosing, o.read key = .object r)) E := by
        unfold formatValue
        split_ifs with hseen
        · rw [hs.seen, Value.isSeen_iff] at hseen
          exact Call.total_pure ⟨hs, iff_of_true rfl hseen⟩
        · rw [hs.seen, Value.isSeen_iff] at hseen
          have hfresh : ∀ r, o.read key = .object r → r ∉ enclosing :=
            fun r hr hmem => hseen ⟨r, hmem, hr⟩
          refine (hformat haccessor hfresh s hs).mono (fun text s' h => ?_) id
          exact ⟨h.2, iff_of_false h.1 hseen⟩
      refine htext.bind fun text after h => ?_
      refine Call.Total.bind (Call.total_modify (Q := fun _ s' => s'.Right options enclosing) ?_)
        fun _ _ h => Call.total_pure h
      refine ⟨h.1.seen, fun p hp => ?_⟩
      rcases List.mem_append.mp hp with hp | hp
      · exact h.1.shown p hp
      · rw [List.mem_singleton.mp hp]
        exact ⟨h.2, hs.seen, h.1.seen⟩

/-- The call of `format` for the value does not return. -/
theorem not_returns_formatProperty {format : Value Ref → Call (Inspect Ref) TypeError JSString}
    {o : Object Ref} {key : JSString} {r : Ref} (haccessor : o.accessorText key = .ok none)
    (hread : o.read key = .object r) (hr : r ∉ enclosing) (hs : s.seen = enclosing)
    (hformat : (format (.object r)).Total s (fun _ _ => False) E) :
    (formatProperty options format o enclosing key).Total s (fun _ _ => False) E := by
  unfold formatProperty
  rw [haccessor]
  dsimp only
  refine Call.Total.bind (Call.total_get (Q := fun a s' => s = a ∧ s = s') ⟨rfl, rfl⟩) ?_
  rintro _ _ ⟨rfl, rfl⟩
  have hseen : ¬ (o.read key).isSeen s.seen = true := by
    rw [Value.isSeen_iff, hs]
    rintro ⟨r', hmem, heq⟩
    rw [Value.object.inj (hread.symm.trans heq)] at hr
    exact hr hmem
  have hvalue : (formatValue options format s.seen (o.read key)).Total s (fun _ _ => False) E := by
    rw [formatValue, if_neg hseen, hread]
    exact hformat
  exact hvalue.bind fun _ _ hfalse => hfalse.elim

/-! ### `format` -/

/-- The call that prints the properties of `r`. -/
abbrev formatInner (options : Options) (g : Graph Ref) (fuel : ℕ) (enclosing : List Ref) (r : Ref)
    (t : Times) (value : Value Ref) : Call (Inspect Ref) TypeError JSString :=
  format options g fuel (enclosing ++ [r]) value t.next

/-- An object whose properties are printed. With `K` false, one of them is not. -/
theorem total_format_object {fuel : ℕ} {r : Ref} {t : Times} {K : Prop}
    (hkeys : (g r).keys options.showHidden ≠ []) (ht : t.negative = false)
    (heach : ∀ s : Inspect Ref, s.Right options (enclosing ++ [r]) → (Call.each
      (formatProperty options (formatInner options g fuel enclosing r t) (g r) (enclosing ++ [r]))
        ((g r).keys options.showHidden)).Total s
          (fun _ s' => K ∧ s'.Right options (enclosing ++ [r])) E)
    (hs : s.Right options enclosing) :
    (format options g (fuel + 1) enclosing (.object r) t).Total s
      (fun text s' => K ∧ text ≠ circular options ∧ s'.Right options enclosing) E := by
  unfold format
  dsimp only
  rw [if_neg hkeys, if_neg (by rw [ht]; exact Bool.false_ne_true)]
  have hpush : Inspect.Right options (enclosing ++ [r]) { s with seen := s.seen ++ [r] } :=
    ⟨congrArg (· ++ [r]) hs.seen, hs.shown⟩
  refine Call.Total.bind
    (Call.total_modify (Q := fun _ s' => s'.Right options (enclosing ++ [r])) hpush) ?_
  intro _ s' hs'
  refine (heach s' hs').bind fun output s'' h => ?_
  have hpop : Inspect.Right options enclosing { s'' with seen := s''.seen.dropLast } := by
    refine ⟨?_, h.2.shown⟩
    dsimp only
    rw [h.2.seen, List.dropLast_concat]
  refine Call.Total.bind
    (Call.total_modify (Q := fun _ s' => s'.Right options enclosing) hpop) ?_
  exact fun _ _ hs => Call.total_pure ⟨h.1, join_ne_circular options (g r) output, hs⟩

variable [Fintype Ref]

/-- Every call comes to its end. It returns what it should, unless it is trapped. -/
theorem total_format {fuel : ℕ} {v : Value Ref} {t : Times}
    (hfuel : remaining enclosing < fuel) (hv : ∀ r, v = .object r → r ∉ enclosing)
    (hs : s.Right options enclosing) :
    (format options g fuel enclosing v t).Total s
      (fun text s' => text ≠ circular options ∧ s'.Right options enclosing)
      (Trapped options g enclosing v t) := by
  induction fuel generalizing enclosing v t s with
  | zero => exact absurd hfuel (Nat.not_lt_zero _)
  | succ fuel ih =>
    cases v with
    | undefined =>
      exact Call.total_pure ⟨stylize_ne_circular options (by decide +kernel) nofun nofun, hs⟩
    | null => exact Call.total_pure ⟨stylize_ne_circular options (by decide +kernel) nofun nofun, hs⟩
    | boolean b =>
      refine Call.total_pure ⟨stylize_ne_circular options ?_ nofun nofun, hs⟩
      cases b <;> decide +kernel
    | number n => exact Call.total_pure ⟨stylize_ne_circular options n.text_ne nofun nofun, hs⟩
    | string x => exact Call.total_pure ⟨formatString_ne_circular options x, hs⟩
    | object r =>
      have hr : r ∉ enclosing := hv r rfl
      by_cases hkeys : (g r).keys options.showHidden = []
      · unfold format
        dsimp only
        rw [if_pos hkeys]
        refine Call.total_pure ⟨?_, hs⟩
        split_ifs
        · exact ne_circular options (by decide) (by decide)
        · exact ne_circular options (by decide) (by decide)
      cases ht : t.negative with
      | true =>
        unfold format
        dsimp only
        rw [if_neg hkeys, if_pos ht]
        exact Call.total_pure ⟨object_ne_circular options, hs⟩
      | false =>
        refine (total_format_object (K := True) hkeys ht (fun s hs => ?_) hs).mono
          (fun _ _ h => h.2) id
        refine (Call.total_each (fun key hkey s hs => ?_) hs).mono (fun _ _ h => ⟨trivial, h⟩) id
        refine total_formatProperty (fun e he => ?_) (fun haccessor hfresh s hs => ?_) hs
        · exact .here hr ht hkeys (accessorText_error he)
        · have hlt : remaining (enclosing ++ [r]) < fuel :=
            Nat.lt_of_lt_of_le (remaining_append_lt hr) (Nat.le_of_lt_succ hfuel)
          refine (ih hlt hfresh hs).mono (fun _ _ h => h) fun h => ?_
          obtain ⟨r', _, _, hvalue, -⟩ := id h
          rw [hvalue] at h
          exact .step hr ht ⟨key, hkey, haccessor, hvalue⟩ h

/-- A call that is trapped throws. -/
theorem throws_format {fuel : ℕ} {v : Value Ref} {t : Times} (hfuel : remaining enclosing < fuel)
    (hs : s.Right options enclosing) (h : Trapped options g enclosing v t) :
    (format options g fuel enclosing v t).Total s (fun _ _ => False) True := by
  induction fuel generalizing enclosing v t s with
  | zero => exact absurd hfuel (Nat.not_lt_zero _)
  | succ fuel ih =>
    obtain ⟨r, _, _, rfl, hwalk, -⟩ := id h
    have hr := hwalk.not_mem
    have hlt : remaining (enclosing ++ [r]) < fuel :=
      Nat.lt_of_lt_of_le (remaining_append_lt hr) (Nat.le_of_lt_succ hfuel)
    obtain ⟨ht, hkeys, hcases⟩ := h.cases
    have hall : ∀ key ∈ (g r).keys options.showHidden, ∀ s : Inspect Ref,
        s.Right options (enclosing ++ [r]) →
          (formatProperty options (formatInner options g fuel enclosing r t) (g r)
            (enclosing ++ [r]) key).Total s (fun _ s' => s'.Right options (enclosing ++ [r]))
              True := by
      intro key _ s hs
      refine total_formatProperty (fun _ _ => trivial) (fun _ hfresh s hs => ?_) hs
      exact (total_format hlt hfresh hs).mono (fun _ _ h => h) fun _ => trivial
    have hone : ∃ key ∈ (g r).keys options.showHidden, ∀ s : Inspect Ref,
        s.Right options (enclosing ++ [r]) →
          (formatProperty options (formatInner options g fuel enclosing r t) (g r)
            (enclosing ++ [r]) key).Total s (fun _ _ => False) True := by
      rcases hcases with hshadows | ⟨r', ⟨key, hkey, haccessor, hread⟩, htrapped⟩
      · obtain ⟨key, hkey⟩ := List.exists_mem_of_ne_nil _ hkeys
        refine ⟨key, hkey, fun s _ => ?_⟩
        unfold formatProperty
        rw [accessorText_of_shadows hshadows]
        exact Call.total_throw trivial
      · refine ⟨key, hkey, fun s hs => ?_⟩
        obtain ⟨a, _, _, hvalue, hwalk', -⟩ := id htrapped
        obtain rfl := Value.object.inj hvalue
        exact not_returns_formatProperty haccessor hread hwalk'.not_mem hs.seen
          (ih hlt hs htrapped)
    obtain ⟨key, hkey, hthrow⟩ := hone
    refine (total_format_object (K := False) hkeys ht (fun s hs => ?_) hs).mono
      (fun _ _ h => h.1) id
    exact (Call.total_each_of_mem hall hs hkey hthrow).mono (fun _ _ h => h.elim) id

omit [Fintype Ref] in
theorem le_formatProperty {format format' : Value Ref → Call (Inspect Ref) TypeError JSString}
    (h : ∀ v, Call.Le (format v) (format' v)) (o : Object Ref) (key : JSString) :
    Call.Le (formatProperty options format o enclosing key)
      (formatProperty options format' o enclosing key) := by
  unfold formatProperty
  cases o.accessorText key with
  | error e => exact .refl _
  | ok text =>
    cases text with
    | some text => exact .refl _
    | none =>
      refine .bind (.refl _) fun before => .bind ?_ fun _ => .refl _
      unfold formatValue
      split_ifs
      · exact .refl _
      · exact h _

omit [Fintype Ref] in
/-- More calls in each other change nothing but that a call is not cut short. -/
theorem le_format {fuel fuel' : ℕ} (hle : fuel ≤ fuel') (v : Value Ref) (t : Times) :
    Call.Le (format options g fuel enclosing v t) (format options g fuel' enclosing v t) := by
  induction fuel generalizing fuel' enclosing v t with
  | zero => exact fun _ _ h => by cases h
  | succ fuel ih =>
    cases fuel' with
    | zero => exact absurd hle (Nat.not_succ_le_zero _)
    | succ fuel' =>
      cases v with
      | object r =>
        unfold format
        dsimp only
        by_cases hkeys : (g r).keys options.showHidden = []
        · rw [if_pos hkeys, if_pos hkeys]
          exact .refl _
        rw [if_neg hkeys, if_neg hkeys]
        split_ifs
        · exact .refl _
        · refine .bind (.refl _) fun _ => .bind (.each (fun key => ?_) _) fun _ => .refl _
          exact le_formatProperty (fun v => ih (Nat.le_of_succ_le_succ hle) v t.next) _ key
      | _ => exact .refl _

/-- `util.inspect` returns if and only if it is not trapped, and then prints `[Circular]` exactly for
the properties whose value is one of the objects around them. -/
theorem inspect_iff (options : Options) (g : Graph Ref) (value : Value Ref) (depth : Option Times) :
    (∃ n text s, (∀ fuel, n ≤ fuel → inspect options g fuel value depth = some (.ok text, s)) ∧
      s.Right options []) ↔ ¬ Trapped options g [] value (depth.getD (.number 2)) := by
  have hnew : Inspect.Right options ([] : List Ref) ⟨[], []⟩ := ⟨rfl, nofun⟩
  constructor
  · rintro ⟨n, text, s, hreturns, -⟩ h
    have hfuel : remaining ([] : List Ref) < max n (remaining ([] : List Ref) + 1) := by omega
    exact (throws_format hfuel hnew h).not_ok text s (hreturns _ (Nat.le_max_left _ _))
  · intro h
    have htotal := total_format (g := g) (t := depth.getD (.number 2))
      (Nat.lt_succ_self _) (fun r (_ : value = .object r) => List.not_mem_nil) hnew
    obtain ⟨text, s, hreturns, -, hright⟩ := (htotal.mono (fun _ _ h => h) h).returns
    exact ⟨_, text, s, fun fuel hle => le_format hle _ _ _ _ hreturns, hright⟩

/-- The property `__lookupGetter__` of an object is called. -/
def hostile : Object Unit :=
  ⟨false, [⟨js "__lookupGetter__", true, .data (.boolean true)⟩], List.nodup_singleton _⟩

theorem not_inspect :
    ¬ ∀ (Ref : Type) [Fintype Ref] [DecidableEq Ref] (options : Options) (g : Graph Ref)
      (value : Value Ref) (depth : Option Times), ∃ n text s,
        (∀ fuel, n ≤ fuel → inspect options g fuel value depth = some (.ok text, s)) ∧
          s.Right options [] := by
  intro h
  obtain ⟨n, text, s, hreturns, -⟩ :=
    h Unit ⟨false, false, 50⟩ (fun _ => hostile) (.object ()) (some .null)
  have hnew : Inspect.Right ⟨false, false, 50⟩ ([] : List Unit) ⟨[], []⟩ := ⟨rfl, nofun⟩
  have hcontent : hostile.content (js "__lookupGetter__") = some (.data (.boolean true)) := by
    simp [hostile, Object.content]
  have hshadows : hostile.Shadows := by
    unfold Object.Shadows
    rw [hcontent]
    rfl
  have htrapped : Trapped ⟨false, false, 50⟩ (fun _ => hostile) [] (.object ()) .null :=
    .here List.not_mem_nil rfl (List.cons_ne_nil _ _) hshadows
  have hfuel : remaining ([] : List Unit) < max n (remaining ([] : List Unit) + 1) := by omega
  exact (throws_format hfuel hnew htrapped).not_ok text s (hreturns _ (Nat.le_max_left _ _))

end

end NodeJS.Util
