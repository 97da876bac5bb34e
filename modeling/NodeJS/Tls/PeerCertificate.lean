import Mathlib.Logic.Function.Basic
import NodeJS.Fs.Path

/-! `parseCertString`, and which names of a certificate it reads as they are. -/
namespace NodeJS.Tls
open NodeJS.Path (slash slash_not_mem_splitOn)

abbrev equalsSign : UInt16 := 0x3D

/-- The own properties of an object that holds strings. -/
abbrev Properties := JSString → Option JSString

/-- `out[key] = value`. The prototype of an object is no string, and is left as it is. -/
def setProperty (out : Properties) (key value : JSString) : Properties :=
  if key = js "__proto__" then out else Function.update out key (some value)

def parsePart (out : Properties) (part : JSString) : Properties :=
  match part.findIdx? (· = equalsSign) with
  | some (n + 1) => setProperty out (part.take (n + 1)) (part.drop (n + 2))
  | _ => out

def parseCertString (s : JSString) : Properties :=
  ((s.splitOn slash).drop 1).foldl parsePart fun _ => none

abbrev Attribute := JSString × JSString

def Attribute.text (a : Attribute) : JSString := a.1 ++ equalsSign :: a.2

/-- The form `/k1=v1/k2=v2...` that `X509_NAME_oneline` gives a name. -/
def oneline (attributes : List Attribute) : JSString :=
  attributes.flatMap fun a => slash :: a.text

def valueOf (attributes : List Attribute) : Properties :=
  fun key => (attributes.find? fun a => a.1 = key).map Prod.snd

/-! ### What is read of an attribute -/

theorem parsePart_text (out : Properties) {a : Attribute} (hne : a.1 ≠ [])
    (hkey : equalsSign ∉ a.1) : parsePart out a.text = setProperty out a.1 a.2 := by
  have hnone : a.1.findIdx? (· = equalsSign) = none := by
    refine List.findIdx?_eq_none_iff.mpr fun c hc => decide_eq_false ?_
    rintro rfl
    exact hkey hc
  have hindex : a.text.findIdx? (· = equalsSign) = some a.1.length := by
    rw [Attribute.text, List.findIdx?_append, hnone, List.findIdx?_cons]
    simp
  obtain ⟨n, hn⟩ := Nat.exists_eq_succ_of_ne_zero (mt List.length_eq_zero_iff.mp hne)
  have hdrop : a.text.drop (n + 2) = a.2 := by
    have hlength : n + 2 = (a.1 ++ [equalsSign]).length := by
      rw [List.length_append, hn]
      rfl
    rw [Attribute.text, List.append_cons, hlength]
    exact List.drop_left
  have htake : a.text.take (n + 1) = a.1 := by
    rw [← Nat.succ_eq_add_one, ← hn]
    exact List.take_left
  unfold parsePart
  rw [hindex, hn]
  dsimp only
  rw [htake, hdrop]

/-- Attributes that are set one after the other. -/
theorem foldl_setProperty {attributes : List Attribute} (hnodup : (attributes.map Prod.fst).Nodup)
    (hproto : ∀ a ∈ attributes, a.1 ≠ js "__proto__") (out : Properties) :
    attributes.foldl (fun out a => setProperty out a.1 a.2) out =
      fun key => (valueOf attributes key).or (out key) := by
  induction attributes generalizing out with
  | nil => rfl
  | cons a attributes ih =>
    rw [List.map_cons, List.nodup_cons] at hnodup
    rw [List.forall_mem_cons] at hproto
    rw [List.foldl_cons, ih hnodup.2 hproto.2]
    funext key
    rw [setProperty, if_neg hproto.1]
    by_cases hkey : key = a.1
    · have hnone : valueOf attributes key = none := by
        rw [valueOf, List.find?_eq_none.mpr fun b hb => ?_]
        · rfl
        · rw [decide_eq_true_iff]
          rintro rfl
          exact hnodup.1 (hkey ▸ List.mem_map_of_mem hb)
      have hsome : valueOf (a :: attributes) key = some a.2 := by
        rw [valueOf, List.find?_cons_of_pos (by simpa using hkey.symm)]
        rfl
      rw [hnone, hsome, hkey, Function.update_self]
      rfl
    · have hrest : valueOf (a :: attributes) key = valueOf attributes key := by
        rw [valueOf, List.find?_cons_of_neg (by simpa using Ne.symm hkey), valueOf]
      rw [hrest, Function.update_of_ne hkey]

theorem splitOn_oneline {attributes : List Attribute} (h : ∀ a ∈ attributes, slash ∉ a.text) :
    (oneline attributes).splitOn slash = [] :: attributes.map Attribute.text := by
  suffices hfront : ∀ x : JSString, slash ∉ x →
      (x ++ oneline attributes).splitOn slash = x :: attributes.map Attribute.text from
    hfront [] List.not_mem_nil
  induction attributes with
  | nil =>
    intro x hx
    rw [oneline, List.flatMap_nil, List.append_nil]
    exact List.splitOn_eq_singleton hx
  | cons a attributes ih =>
    intro x hx
    rw [List.forall_mem_cons] at h
    rw [oneline, List.flatMap_cons, List.cons_append, List.splitOn_append_cons_self,
      List.splitOn_eq_singleton hx, List.map_cons, ← ih h.2 a.text h.1]
    rfl

/-! ### What is never read -/

/-- Neither a key nor a value has a slash in it, and there is no key `__proto__`. -/
def Clean (out : Properties) : Prop :=
  ∀ key value, out key = some value → slash ∉ key ∧ slash ∉ value ∧ key ≠ js "__proto__"

theorem Clean.parsePart {out : Properties} (h : Clean out) {part : JSString}
    (hpart : slash ∉ part) : Clean (parsePart out part) := by
  unfold Tls.parsePart
  split
  · unfold setProperty
    split_ifs with hproto
    · exact h
    · intro key value hvalue
      rename_i n _
      by_cases hkey : key = part.take (n + 1)
      · rw [hkey, Function.update_self] at hvalue
        rw [hkey, ← Option.some.inj hvalue]
        exact ⟨fun hmem => hpart (List.mem_of_mem_take hmem),
          fun hmem => hpart (List.mem_of_mem_drop hmem), hproto⟩
      · rw [Function.update_of_ne hkey] at hvalue
        exact h key value hvalue
  · exact h

theorem clean_parseCertString (s : JSString) : Clean (parseCertString s) := by
  have hparts : ∀ part ∈ (s.splitOn slash).drop 1, slash ∉ part :=
    fun part hpart => slash_not_mem_splitOn s part (List.mem_of_mem_drop hpart)
  exact List.foldlRecOn _ _ nofun fun out hout part hpart => hout.parsePart (hparts part hpart)

/-! ### The names that are read as they are -/

theorem valueOf_of_mem {attributes : List Attribute} (hnodup : (attributes.map Prod.fst).Nodup)
    {a : Attribute} (ha : a ∈ attributes) : valueOf attributes a.1 = some a.2 := by
  induction attributes with
  | nil => cases ha
  | cons b attributes ih =>
    rw [List.map_cons, List.nodup_cons] at hnodup
    rcases List.mem_cons.mp ha with rfl | ha
    · rw [valueOf, List.find?_cons_of_pos (by simp)]
      rfl
    · have hne : b.1 ≠ a.1 := fun heq => hnodup.1 (heq ▸ List.mem_map_of_mem ha)
      rw [valueOf, List.find?_cons_of_neg (by simpa using hne)]
      exact ih hnodup.2 ha

/-- The attributes of a name are read as they are if and only if there is no slash in them and no
key is `__proto__`. -/
theorem parseCertString_oneline_iff {attributes : List Attribute}
    (hnodup : (attributes.map Prod.fst).Nodup)
    (hkeys : ∀ a ∈ attributes, a.1 ≠ [] ∧ equalsSign ∉ a.1) :
    parseCertString (oneline attributes) = valueOf attributes ↔
      ∀ a ∈ attributes, slash ∉ a.1 ∧ slash ∉ a.2 ∧ a.1 ≠ js "__proto__" := by
  constructor
  · intro h a ha
    exact clean_parseCertString (oneline attributes) a.1 a.2
      ((congrFun h a.1).trans (valueOf_of_mem hnodup ha))
  · intro h
    have htexts : ∀ a ∈ attributes, slash ∉ a.text := by
      intro a ha hmem
      rcases List.mem_append.mp hmem with hmem | hmem
      · exact (h a ha).1 hmem
      · rcases List.mem_cons.mp hmem with heq | hmem
        · cases heq
        · exact (h a ha).2.1 hmem
    have hfold : ∀ out, (attributes.map Attribute.text).foldl parsePart out =
        attributes.foldl (fun out a => setProperty out a.1 a.2) out := by
      intro out
      rw [List.foldl_map]
      refine List.foldl_ext _ _ _ fun out a ha => ?_
      exact parsePart_text out (hkeys a ha).1 (hkeys a ha).2
    rw [parseCertString, splitOn_oneline htexts, List.drop_one, List.tail_cons, hfold,
      foldl_setProperty hnodup fun a ha => (h a ha).2.2]
    funext key
    exact Option.or_none

theorem parseCertString_oneline_ca :
    parseCertString (oneline [(js "C", js "US"), (js "CN", js "ca1")]) =
      valueOf [(js "C", js "US"), (js "CN", js "ca1")] :=
  (parseCertString_oneline_iff (by decide +kernel) (by decide +kernel)).mpr (by decide +kernel)

/-- The value of one attribute takes the place of another. -/
theorem parseCertString_forged :
    ¬ ∀ attributes : List Attribute, (attributes.map Prod.fst).Nodup →
      (∀ a ∈ attributes, a.1 ≠ [] ∧ equalsSign ∉ a.1) →
        parseCertString (oneline attributes) = valueOf attributes := by
  intro h
  have hread := h [(js "CN", js "evil"), (js "OU", js "x/CN=good")] (by decide +kernel)
    (by decide +kernel)
  have hevil : valueOf [(js "CN", js "evil"), (js "OU", js "x/CN=good")] (js "CN") =
      some (js "evil") := by decide +kernel
  have hgood : parseCertString (oneline [(js "CN", js "evil"), (js "OU", js "x/CN=good")])
      (js "CN") = some (js "good") := by decide +kernel
  exact absurd ((hgood.symm.trans (congrFun hread _)).trans hevil) (by decide +kernel)

end NodeJS.Tls
