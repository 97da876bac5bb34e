import NodeJS.Buffer.Utf8
import NodeJS.Querystring.Unescape
import Mathlib.Data.List.Nodup

/-! `stringify` and `parse` of lib/querystring.js, which undo each other. -/
namespace NodeJS.Querystring
open NodeJS.Url (percentSign isAlnum hexUnit percent isUnescaped isHighSurrogate isLowSurrogate
  encodeOctets encodePair encodeURIComponent)

/-! ### Objects -/

/-- What a value of an object can be, as far as `stringifyPrimitive` looks at it; a number comes
with its text. -/
inductive Primitive
  | string (s : JSString)
  | boolean (v : Bool)
  | number (text : JSString) (isFinite : Bool)
  | other
  deriving DecidableEq

inductive Value
  | primitive (v : Primitive)
  | array (vs : List Primitive)
  deriving DecidableEq

/-- The own properties of an object, in the order of `Object.keys`. -/
@[ext] structure Obj where
  props : List (JSString × Value)
  nodup : (props.map Prod.fst).Nodup
  deriving DecidableEq

def Obj.empty : Obj := ⟨[], List.nodup_nil⟩

local instance : LawfulBEq JSString := inferInstance

/-- `obj[k] = v`, for a key other than `__proto__`. -/
def Obj.set (obj : Obj) (k : JSString) (v : Value) : Obj :=
  if h : k ∈ obj.props.map Prod.fst then
    ⟨obj.props.map fun p => if p.1 = k then (k, v) else p, by
      have hkeys : (obj.props.map fun p => if p.1 = k then (k, v) else p).map Prod.fst =
          obj.props.map Prod.fst := by
        rw [List.map_map]
        refine List.map_congr_left fun p _ => ?_
        rw [Function.comp_apply]
        split_ifs with hk
        · exact hk.symm
        · rfl
      rw [hkeys]
      exact obj.nodup⟩
  else
    ⟨obj.props ++ [(k, v)], by
      rw [List.map_append, List.map_singleton]
      refine List.nodup_append.mpr ⟨obj.nodup, List.nodup_singleton k, fun a ha b hb => ?_⟩
      obtain rfl := List.mem_singleton.mp hb
      exact fun heq => h (heq ▸ ha)⟩

/-! ### `stringify` -/

def stringifyPrimitive : Primitive → JSString
  | .string s => s
  | .boolean v => if v then js "true" else js "false"
  | .number text isFinite => if isFinite then text else []
  | .other => []

/-- A separator, or what there is without one. -/
def separator (given : Option JSString) (default : JSString) : JSString :=
  (given.filter (· ≠ [])).getD default

/-- `escape(k) + eq + escape(v)` -/
def stringifyPair (eq k : JSString) (v : Primitive) : Option JSString := do
  let k ← encodeURIComponent k
  let v ← encodeURIComponent (stringifyPrimitive v)
  return k ++ eq ++ v

/-- `QueryString.stringify` of an object; it throws where `encodeURIComponent` does. -/
def stringify (obj : Obj) (sep eq : Option JSString) : Option JSString := do
  let sep := separator sep (js "&")
  let eq := separator eq (js "=")
  let pieces ← obj.props.mapM fun (k, v) =>
    match v with
    | .array vs => return sep.intercalate (← vs.mapM (stringifyPair eq k))
    | .primitive v => stringifyPair eq k v
  return sep.intercalate pieces

/-! ### `parse` -/

def unescape (s : JSString) (decodeSpaces : Bool) : Except SliceFailure JSString :=
  (unescapeBuffer (List.replicate s.length 0) s decodeSpaces).map utf8Slice

/-- `split` at a string that is not empty; of one that has begun, `skip` characters are left. -/
def splitFrom (sep : JSString) : ℕ → JSString → List JSString
  | _, [] => [[]]
  | skip + 1, _ :: s => splitFrom sep skip s
  | 0, c :: s =>
    if sep.isPrefixOf (c :: s) then [] :: splitFrom sep (sep.length - 1) s
    else match splitFrom sep 0 s with
      | [] => [[c]]
      | part :: parts => (c :: part) :: parts

/-- `s.split(sep)` -/
def split (sep s : JSString) : List JSString := splitFrom sep 0 s

/-- A key that is there already gets one more value. -/
def Obj.add (obj : Obj) (k v : JSString) : Obj :=
  match obj.props.lookup k with
  | none => obj.set k (.primitive (.string v))
  | some (.primitive old) => obj.set k (.array [old, .string v])
  | some (.array vs) => obj.set k (.array (vs ++ [.string v]))

def parsePair (eq : JSString) (obj : Obj) (kvp : JSString) : Except SliceFailure Obj := do
  let x := split eq kvp
  let k ← unescape (x.headD []) true
  let v ← unescape (eq.intercalate (x.drop 1)) true
  return obj.add k v

/-- `QueryString.parse` of a string. -/
def parse (qs : JSString) (sep eq : Option JSString) : Except SliceFailure Obj :=
  let sep := separator sep (js "&")
  let eq := separator eq (js "=")
  if qs.length = 0 then .ok .empty else (split sep qs).foldlM (parsePair eq) .empty

/-! ### What is escaped is read back -/

/-- No surrogates. -/
def IsPlane (s : JSString) : Prop :=
  ∀ c ∈ s, isHighSurrogate c = false ∧ isLowSurrogate c = false

instance (s : JSString) : Decidable (IsPlane s) := inferInstanceAs (Decidable (∀ c ∈ s, _ ∧ _))

def escapeUnit (c : UInt16) : JSString :=
  if isUnescaped c then [c] else encodeOctets (utf8Unit c)

theorem encodeURIComponent_eq {s : JSString} (h : IsPlane s) :
    encodeURIComponent s = some (s.flatMap escapeUnit) := by
  induction s with
  | nil => rfl
  | cons c s ih =>
    obtain ⟨⟨hhigh, hlow⟩, hs⟩ := List.forall_mem_cons.mp h
    rw [Url.encodeURIComponent.eq_def]
    dsimp only
    rw [hhigh, hlow, ih hs, List.flatMap_cons, escapeUnit]
    cases isUnescaped c with
    | true => rfl
    | false => rfl

/-- An octet is read back from its digits. -/
theorem hexDigit_percent (b : UInt8) :
    ∃ a d n m, percent b.toUInt16 = [percentSign, a, d] ∧ hexDigit a = some n ∧
      hexDigit d = some m ∧ lowByte (16 * n + m) = b := by
  have hvalue : (hexDigit (hexUnit (b.toUInt16.toNat / 16 % 16))).bind (fun n =>
      (hexDigit (hexUnit (b.toUInt16.toNat % 16))).map fun m => lowByte (16 * n + m)) =
      some b := by
    revert b
    exact forall_byte (by decide +kernel)
  obtain ⟨n, hn, hrest⟩ := Option.bind_eq_some_iff.mp hvalue
  obtain ⟨m, hm, hbyte⟩ := Option.map_eq_some_iff.mp hrest
  exact ⟨_, _, n, m, rfl, hn, hm, hbyte⟩

theorem unescaped_percent (decodeSpaces : Bool) (b : UInt8) (s : JSString) :
    unescaped decodeSpaces (percent b.toUInt16 ++ s) = b :: unescaped decodeSpaces s := by
  obtain ⟨a, d, n, m, hpercent, hn, hm, hbyte⟩ := hexDigit_percent b
  rw [hpercent, ← hbyte]
  exact unescaped_escape decodeSpaces hn hm s

theorem unescaped_octets (decodeSpaces : Bool) (octets : Bytes) (s : JSString) :
    unescaped decodeSpaces (encodeOctets octets ++ s) = octets ++ unescaped decodeSpaces s := by
  induction octets with
  | nil => rfl
  | cons b octets ih =>
    have hcons : encodeOctets (b :: octets) = percent b.toUInt16 ++ encodeOctets octets :=
      List.flatMap_cons
    rw [hcons, List.append_assoc, unescaped_percent, ih, List.cons_append]

/-- A character that stands for itself is neither a percent nor a plus sign. -/
theorem isUnescaped_plain {c : UInt16} (h : isUnescaped c = true) :
    c < 0x80 ∧ c ≠ percentSign ∧ c ≠ plusSign := by
  refine ⟨?_, ?_, ?_⟩
  · unfold isUnescaped isAlnum at h
    simp only [Bool.or_eq_true, Bool.and_eq_true, decide_eq_true_eq, List.contains_iff_mem,
      UInt16.le_iff_toNat_le, UInt16.reduceToNat] at h
    rcases h with h | h
    · rw [UInt16.lt_iff_toNat_lt]
      show c.toNat < 0x80
      omega
    · exact (by decide +kernel : ∀ c ∈ js "!'()*-._~", c < 0x80) c h
  · rintro rfl
    exact absurd h (by decide +kernel)
  · rintro rfl
    exact absurd h (by decide +kernel)

theorem unescaped_unit (decodeSpaces : Bool) (c : UInt16) (s : JSString) :
    unescaped decodeSpaces (escapeUnit c ++ s) = utf8Unit c ++ unescaped decodeSpaces s := by
  unfold escapeUnit
  split_ifs with h
  · obtain ⟨hascii, hpercent, hplus⟩ := isUnescaped_plain h
    rw [List.singleton_append, unescaped_plain decodeSpaces hpercent, plainByte,
      if_neg fun h => hplus h.1, utf8Unit_ascii hascii, List.singleton_append]
  · exact unescaped_octets decodeSpaces _ s

/-- An escaped text is read back. -/
theorem unescape_escape (s : JSString) (decodeSpaces : Bool) :
    unescape (s.flatMap escapeUnit) decodeSpaces = .ok s := by
  have hbytes : unescaped decodeSpaces (s.flatMap escapeUnit) = s.flatMap utf8Unit := by
    induction s with
    | nil => rfl
    | cons c s ih => rw [List.flatMap_cons, unescaped_unit, ih, List.flatMap_cons]
  rw [unescape, unescapeBuffer_eq List.length_replicate, hbytes]
  exact congrArg Except.ok (utf8Slice_encode s)

/-! ### Separators -/

/-- What no escaped text contains. -/
def Separates (c : UInt16) : Prop := isUnescaped c = false ∧ c ≠ percentSign

instance (c : UInt16) : Decidable (Separates c) := inferInstanceAs (Decidable (_ ∧ _))

/-- Two separators of one character each, which the escaped texts do not contain. -/
def Separate (sep eq : Option JSString) : Prop :=
  ∃ a b, separator sep (js "&") = [a] ∧ separator eq (js "=") = [b] ∧ a ≠ b ∧ Separates a ∧
    Separates b

/-- Splitting at a character. -/
theorem split_char (a : UInt16) (s : JSString) : split [a] s = s.splitOn a := by
  unfold split
  induction s with
  | nil => rfl
  | cons c s ih =>
    rw [splitFrom, List.splitOn_cons_eq_if_modifyHead, ← ih]
    by_cases hc : c = a
    · subst hc
      rw [if_pos (by simp), if_pos (by simp)]
      rfl
    · rw [if_neg (by simpa using Ne.symm hc), if_neg (by simpa using hc)]
      cases hsplit : splitFrom [a] 0 s with
      | nil =>
        rw [ih] at hsplit
        exact absurd hsplit (List.splitOn_ne_nil a s)
      | cons part parts => rfl

theorem isUnescaped_percent {b : UInt8} {c : UInt16} (h : c ∈ percent b.toUInt16) :
    c = percentSign ∨ isUnescaped c = true := by
  have hall : ∀ b : UInt8, isUnescaped (hexUnit (b.toUInt16.toNat / 16 % 16)) = true ∧
      isUnescaped (hexUnit (b.toUInt16.toNat % 16)) = true := by
    exact forall_byte (by decide +kernel)
  have hdigits := hall b
  simp only [percent, List.mem_cons, List.not_mem_nil, or_false] at h
  rcases h with rfl | rfl | rfl
  · exact .inl rfl
  · exact .inr hdigits.1
  · exact .inr hdigits.2

theorem not_mem_escape {a : UInt16} (ha : Separates a) (s : JSString) :
    a ∉ s.flatMap escapeUnit := by
  intro h
  obtain ⟨hfalse, hne⟩ := ha
  obtain ⟨c, -, hc⟩ := List.mem_flatMap.mp h
  unfold escapeUnit at hc
  split_ifs at hc with hunescaped
  · rw [List.mem_singleton.mp hc, hunescaped] at hfalse
    cases hfalse
  · obtain ⟨b, -, hb⟩ := List.mem_flatMap.mp hc
    rcases isUnescaped_percent hb with heq | htrue
    · exact hne heq
    · rw [htrue] at hfalse
      cases hfalse

/-! ### Pairs -/

def pairText (eq : JSString) (k v : JSString) : JSString :=
  k.flatMap escapeUnit ++ eq ++ v.flatMap escapeUnit

theorem stringifyPair_eq (eq : JSString) {k : JSString} {v : Primitive} (hk : IsPlane k)
    (hv : IsPlane (stringifyPrimitive v)) :
    stringifyPair eq k v = some (pairText eq k (stringifyPrimitive v)) := by
  rw [stringifyPair, encodeURIComponent_eq hk, encodeURIComponent_eq hv]
  rfl

theorem parsePair_pairText {b : UInt16} (hb : Separates b) (obj : Obj) (k v : JSString) :
    parsePair [b] obj (pairText [b] k v) = .ok (obj.add k v) := by
  have hsplit : split [b] (pairText [b] k v) =
      [k.flatMap escapeUnit, v.flatMap escapeUnit] := by
    have hjoin : pairText [b] k v =
        [b].intercalate [k.flatMap escapeUnit, v.flatMap escapeUnit] := by
      rw [List.intercalate_cons_cons, List.intercalate_singleton]
      rfl
    rw [split_char, hjoin, List.splitOn_intercalate b _ (by simp)]
    intro part hpart
    simp only [List.mem_cons, List.not_mem_nil, or_false] at hpart
    rcases hpart with rfl | rfl
    · exact not_mem_escape hb k
    · exact not_mem_escape hb v
  have hvalue : [b].intercalate [v.flatMap escapeUnit] = v.flatMap escapeUnit :=
    List.intercalate_singleton
  rw [parsePair, hsplit]
  show (do
    let k ← unescape (k.flatMap escapeUnit) true
    let v ← unescape ([b].intercalate [v.flatMap escapeUnit]) true
    return obj.add k v) = _
  rw [hvalue, unescape_escape, unescape_escape]
  rfl

/-! ### Adding to an object -/

section
variable {obj : Obj} {done : List (JSString × Value)} {k : JSString}

theorem Obj.set_new (h : k ∉ obj.props.map Prod.fst) (v : Value) :
    (obj.set k v).props = obj.props ++ [(k, v)] := by
  rw [Obj.set, dif_neg h]

theorem Obj.set_last {old : Value} (h : obj.props = done ++ [(k, old)]) (v : Value) :
    (obj.set k v).props = done ++ [(k, v)] := by
  have hnodup := obj.nodup
  rw [h, List.map_append, List.nodup_append] at hnodup
  have hmem : k ∈ obj.props.map Prod.fst := by simp [h]
  have hdone : done.map (fun p => if p.1 = k then (k, v) else p) = done := by
    rw [List.map_congr_left (g := id), List.map_id]
    intro p hp
    have hne := hnodup.2.2 p.1 (List.mem_map_of_mem hp) k (by simp)
    rw [if_neg hne]
    rfl
  rw [Obj.set, dif_pos hmem]
  dsimp only
  rw [h, List.map_append, hdone, List.map_singleton, if_pos rfl]

theorem Obj.lookup_last {old : Value} (h : obj.props = done ++ [(k, old)]) :
    obj.props.lookup k = some old := by
  have hnodup := obj.nodup
  rw [h, List.map_append, List.nodup_append] at hnodup
  have hdone : done.lookup k = none := by
    rw [List.lookup_eq_none_iff]
    intro p hp
    have hne := hnodup.2.2 p.1 (List.mem_map_of_mem hp) k (by simp)
    simpa using Ne.symm hne
  rw [h, List.lookup_append, hdone, Option.none_or, List.lookup_cons_self]

theorem Obj.add_new (h : k ∉ obj.props.map Prod.fst) (v : JSString) :
    (obj.add k v).props = obj.props ++ [(k, .primitive (.string v))] := by
  have hnone : obj.props.lookup k = none := by
    rw [List.lookup_eq_none_iff]
    intro p hp
    have hne : k ≠ p.1 := fun heq => h (heq ▸ List.mem_map_of_mem hp)
    simpa using hne
  rw [Obj.add, hnone]
  exact Obj.set_new h _

theorem Obj.add_array {vs : List Primitive} (h : obj.props = done ++ [(k, .array vs)])
    (v : JSString) : (obj.add k v).props = done ++ [(k, .array (vs ++ [.string v]))] := by
  rw [Obj.add, Obj.lookup_last h]
  exact Obj.set_last h _

theorem Obj.add_second {old : Primitive} (h : obj.props = done ++ [(k, .primitive old)])
    (v : JSString) : (obj.add k v).props = done ++ [(k, .array [old, .string v])] := by
  rw [Obj.add, Obj.lookup_last h]
  exact Obj.set_last h _

theorem Obj.add_rest (ws : List JSString) {vs : List Primitive}
    (h : obj.props = done ++ [(k, .array vs)]) :
    (ws.foldl (fun obj v => obj.add k v) obj).props =
      done ++ [(k, .array (vs ++ ws.map .string))] := by
  induction ws generalizing obj vs with
  | nil => rw [List.foldl_nil, List.map_nil, List.append_nil, h]
  | cons w ws ih =>
    rw [List.foldl_cons, ih (Obj.add_array h w), List.append_assoc, List.map_cons]
    rfl

end

/-! ### Objects that are read back -/

/-- A string, or an array of at least two. -/
def Value.Plain : Value → Prop
  | .primitive v => ∃ s, v = .string s ∧ IsPlane s
  | .array vs => 2 ≤ vs.length ∧ ∀ v ∈ vs, ∃ s, v = .string s ∧ IsPlane s

/-- Keys and strings are without surrogates. -/
def Obj.Plain (obj : Obj) : Prop :=
  ∀ p ∈ obj.props, p.1 ≠ js "__proto__" ∧ IsPlane p.1 ∧ p.2.Plain

def Value.texts : Value → List JSString
  | .primitive v => [stringifyPrimitive v]
  | .array vs => vs.map stringifyPrimitive

theorem map_string {vs : List Primitive} (h : ∀ v ∈ vs, ∃ s, v = .string s ∧ IsPlane s) :
    (vs.map stringifyPrimitive).map .string = vs ∧
      ∀ v ∈ vs, IsPlane (stringifyPrimitive v) := by
  constructor
  · rw [List.map_map]
    refine (List.map_congr_left fun v hv => ?_).trans (List.map_id vs)
    obtain ⟨s, rfl, -⟩ := h v hv
    rfl
  · intro v hv
    obtain ⟨s, rfl, hs⟩ := h v hv
    exact hs

theorem Value.Plain.texts {v : Value} (h : v.Plain) :
    v.texts ≠ [] ∧ ∀ s ∈ v.texts, IsPlane s := by
  cases v with
  | primitive v =>
    obtain ⟨s, rfl, hs⟩ := h
    exact ⟨List.cons_ne_nil _ _, List.forall_mem_singleton.mpr hs⟩
  | array vs =>
    obtain ⟨hlength, hvs⟩ := h
    refine ⟨fun hnil => ?_, fun s hs => ?_⟩
    · rw [Value.texts, List.map_eq_nil_iff] at hnil
      rw [hnil] at hlength
      exact absurd hlength (by decide)
    · obtain ⟨v, hv, rfl⟩ := List.mem_map.mp hs
      exact (map_string hvs).2 v hv

/-- The texts of a property, one after the other, make the property. -/
theorem Obj.add_texts {obj : Obj} {k : JSString} (hk : k ∉ obj.props.map Prod.fst) {v : Value}
    (h : v.Plain) :
    (v.texts.foldl (fun obj s => obj.add k s) obj).props = obj.props ++ [(k, v)] := by
  cases v with
  | primitive v =>
    obtain ⟨s, rfl, -⟩ := h
    exact Obj.add_new hk s
  | array vs =>
    obtain ⟨hlength, hvs⟩ := h
    have hstrings := (map_string hvs).1
    rw [Value.texts]
    generalize vs.map stringifyPrimitive = texts at hstrings
    match texts, hstrings with
    | [], hstrings | [_], hstrings =>
      rw [← hstrings] at hlength
      exact absurd hlength (by simp)
    | first :: second :: texts, hstrings =>
      rw [List.foldl_cons, List.foldl_cons,
        Obj.add_rest texts (Obj.add_second (Obj.add_new hk first) second), ← hstrings]
      rfl

/-! ### Writing and reading an object -/

theorem mapM_some {α β : Type*} {f : α → Option β} {g : α → β} {l : List α}
    (h : ∀ x ∈ l, f x = some (g x)) : l.mapM f = some (l.map g) := by
  induction l with
  | nil => rfl
  | cons x l ih =>
    obtain ⟨hx, hl⟩ := List.forall_mem_cons.mp h
    rw [List.mapM_cons, hx, ih hl]
    rfl

theorem intercalate_append {sep : JSString} {xs ys : List JSString} (hx : xs ≠ []) (hy : ys ≠ []) :
    sep.intercalate (xs ++ ys) = sep.intercalate xs ++ sep ++ sep.intercalate ys := by
  induction xs with
  | nil => exact absurd rfl hx
  | cons x xs ih =>
    by_cases hnil : xs = []
    · subst hnil
      rw [List.singleton_append, List.intercalate_cons_of_ne_nil hy, List.intercalate_singleton]
    · rw [List.cons_append, List.intercalate_cons_of_ne_nil (by simp [hy]), ih hnil,
        List.intercalate_cons_of_ne_nil hnil]
      simp only [List.append_assoc]

theorem intercalate_flatten (sep : JSString) {ls : List (List JSString)} (h : ∀ l ∈ ls, l ≠ []) :
    sep.intercalate (ls.map fun l => sep.intercalate l) = sep.intercalate ls.flatten := by
  induction ls with
  | nil => rfl
  | cons l ls ih =>
    obtain ⟨hl, hls⟩ := List.forall_mem_cons.mp h
    by_cases hnil : ls = []
    · subst hnil
      rw [List.map_singleton, List.intercalate_singleton, List.flatten_singleton]
    · have hmap : ls.map (fun l => sep.intercalate l) ≠ [] := by simpa using hnil
      obtain ⟨l', hl'⟩ := List.exists_mem_of_ne_nil ls hnil
      have hflatten : ls.flatten ≠ [] := by
        intro hempty
        exact hls l' hl' (List.flatten_eq_nil_iff.mp hempty l' hl')
      rw [List.map_cons, List.intercalate_cons_of_ne_nil hmap, ih hls, List.flatten_cons,
        intercalate_append hl hflatten]

def Obj.pairs (props : List (JSString × Value)) : List (JSString × JSString) :=
  props.flatMap fun p => p.2.texts.map fun s => (p.1, s)

theorem stringify_eq {obj : Obj} (h : obj.Plain) (sep eq : Option JSString) :
    stringify obj sep eq = some ((separator sep (js "&")).intercalate
      ((Obj.pairs obj.props).map fun p => pairText (separator eq (js "=")) p.1 p.2)) := by
  generalize hs : separator sep (js "&") = sep'
  generalize he : separator eq (js "=") = eq'
  have hpiece : ∀ p ∈ obj.props, (match p.2 with
      | .array vs => (vs.mapM (stringifyPair eq' p.1)).bind fun texts =>
        some (sep'.intercalate texts)
      | .primitive v => stringifyPair eq' p.1 v) =
      some (sep'.intercalate (p.2.texts.map (pairText eq' p.1))) := by
    intro p hp
    obtain ⟨-, hk, hv⟩ := h p hp
    obtain ⟨k, v⟩ := p
    cases v with
    | primitive v =>
      obtain ⟨s, rfl, hs⟩ := hv
      exact (stringifyPair_eq eq' hk (v := .string s) hs).trans
        (congrArg some List.intercalate_singleton.symm)
    | array vs =>
      have hvs := (map_string hv.2).2
      dsimp only [Value.texts]
      rw [mapM_some fun v hv => stringifyPair_eq eq' hk (hvs v hv), Option.bind_some, List.map_map]
      rfl
  have hflat : (Obj.pairs obj.props).map (fun p => pairText eq' p.1 p.2) =
      (obj.props.map fun p => p.2.texts.map (pairText eq' p.1)).flatten := by
    rw [Obj.pairs, List.map_flatMap, List.flatten_eq_flatMap, List.flatMap_map]
    simp only [List.map_map, id]
    rfl
  rw [hflat, ← intercalate_flatten, List.map_map]
  · unfold stringify
    rw [hs, he]
    refine (congrArg (Option.bind · _) (mapM_some hpiece)).trans ?_
    rfl
  · intro l hl
    obtain ⟨p, hp, rfl⟩ := List.mem_map.mp hl
    rw [ne_eq, List.map_eq_nil_iff]
    exact (h p hp).2.2.texts.1

theorem foldlM_pairText {b : UInt16} (hb : Separates b) (pairs : List (JSString × JSString))
    (obj : Obj) :
    (pairs.map fun p => pairText [b] p.1 p.2).foldlM (parsePair [b]) obj =
      .ok (pairs.foldl (fun obj p => obj.add p.1 p.2) obj) := by
  induction pairs generalizing obj with
  | nil => rfl
  | cons p pairs ih =>
    rw [List.map_cons, List.foldlM_cons, parsePair_pairText hb]
    exact ih _

/-- Property by property the object is made again. -/
theorem foldl_pairs {obj : Obj} (h : obj.Plain) {start : Obj} {rest : List (JSString × Value)}
    (hrest : start.props ++ rest = obj.props) :
    ((Obj.pairs rest).foldl (fun obj p => obj.add p.1 p.2) start).props = obj.props := by
  induction rest generalizing start with
  | nil => rw [← hrest, List.append_nil]; rfl
  | cons p rest ih =>
    have hmem : p ∈ obj.props := by rw [← hrest]; simp
    have hnew : p.1 ∉ start.props.map Prod.fst := by
      have hnodup := obj.nodup
      rw [← hrest, List.map_append, List.nodup_append] at hnodup
      exact fun hin => hnodup.2.2 p.1 hin p.1 (by simp) rfl
    rw [Obj.pairs, List.flatMap_cons, List.foldl_append, List.foldl_map]
    refine ih ?_
    rw [Obj.add_texts hnew (h p hmem).2.2, List.append_assoc]
    exact hrest

/-- An object is read back from its query string. -/
theorem parse_stringify {obj : Obj} (h : obj.Plain) {sep eq : Option JSString}
    (hsep : Separate sep eq) :
    ∃ qs, stringify obj sep eq = some qs ∧ parse qs sep eq = .ok obj := by
  refine ⟨_, stringify_eq h sep eq, ?_⟩
  obtain ⟨a, b, ha, hb, hne, hsa, hsb⟩ := hsep
  have hobj := @foldl_pairs _ h .empty _ rfl
  unfold parse
  rw [ha, hb]
  dsimp only
  by_cases hempty : obj.props = []
  · rw [hempty]
    exact (if_pos rfl).trans (congrArg Except.ok (Obj.ext hempty.symm))
  obtain ⟨p, hp⟩ := List.exists_mem_of_ne_nil _ hempty
  obtain ⟨s, hs⟩ := List.exists_mem_of_ne_nil _ (h p hp).2.2.texts.1
  have hpair : (p.1, s) ∈ Obj.pairs obj.props :=
    List.mem_flatMap.mpr ⟨p, hp, List.mem_map.mpr ⟨s, hs, rfl⟩⟩
  have hpieces : ((Obj.pairs obj.props).map fun p => pairText [b] p.1 p.2) ≠ [] :=
    List.ne_nil_of_mem (List.mem_map_of_mem hpair)
  have hsplit : ([a].intercalate ((Obj.pairs obj.props).map fun p =>
      pairText [b] p.1 p.2)).splitOn a =
      (Obj.pairs obj.props).map fun p => pairText [b] p.1 p.2 := by
    refine List.splitOn_intercalate a (fun piece hpiece hmem => ?_) hpieces
    obtain ⟨q, -, rfl⟩ := List.mem_map.mp hpiece
    simp only [pairText, List.mem_append, List.mem_singleton] at hmem
    rcases hmem with (hk | heq) | hv
    · exact not_mem_escape hsa _ hk
    · exact hne heq
    · exact not_mem_escape hsa _ hv
  rw [if_neg, split_char, hsplit, foldlM_pairText hsb]
  · exact congrArg Except.ok (Obj.ext hobj)
  · intro hnil
    rw [List.length_eq_zero_iff] at hnil
    rw [hnil, List.splitOn_nil] at hsplit
    have hmem := List.mem_map_of_mem (f := fun p => pairText [b] p.1 p.2) hpair
    rw [← hsplit, List.mem_singleton] at hmem
    simp [pairText] at hmem

/-- `{'a b': '%+&', c: ['', 'ä']}` with `;` and `:` -/
theorem parse_stringify_colon :
    ∃ qs, stringify ⟨[(js "a b", .primitive (.string (js "%+&"))),
        (js "c", .array [.string [], .string [0xE4]])], by decide +kernel⟩
        (some (js ";")) (some (js ":")) = some qs ∧
      parse qs (some (js ";")) (some (js ":")) =
        .ok ⟨[(js "a b", .primitive (.string (js "%+&"))),
          (js "c", .array [.string [], .string [0xE4]])], by decide +kernel⟩ := by
  refine parse_stringify ?_ ⟨0x3B, 0x3A, rfl, rfl, by decide, by decide +kernel, by decide +kernel⟩
  intro p hp
  simp only [List.mem_cons, List.not_mem_nil, or_false] at hp
  rcases hp with rfl | rfl
  · exact ⟨by decide +kernel, by decide +kernel, _, rfl, by decide +kernel⟩
  · refine ⟨by decide +kernel, by decide +kernel, by decide, fun v hv => ?_⟩
    simp only [List.mem_cons, List.not_mem_nil, or_false] at hv
    rcases hv with rfl | rfl
    · exact ⟨_, rfl, by decide⟩
    · exact ⟨_, rfl, by decide⟩

end NodeJS.Querystring
