import NodeJS.Buffer.Window
import NodeJS.Lib.Memory

/-! `Buffer.prototype.copy`, which checks the windows, and `Buffer::Copy` under it, which checks the
memory they are cut from. -/
namespace NodeJS
open Base64 Lib

/-- A `Buffer` and the number of its parent. -/
structure Held extends Buffer where
  parent : ℕ

inductive BufferCopyError
  | sourceEndBeforeStart
  | targetStartOutOfBounds
  | sourceStartOutOfBounds
  | sourceEndOutOfBounds
  deriving DecidableEq

/-- `Buffer::Copy`. Only a third argument that is not an `int32_t` stands for the length. -/
def slowCopy (mem : Memory ℕ UInt8) (source sourceLength target targetLength : ℕ)
    (targetStart sourceStart sourceEnd : ℤ) : Except BufferCopyError ℤ × Memory ℕ UInt8 :=
  let targetStart := int32Value targetStart
  let sourceStart := int32Value sourceStart
  let sourceEnd := if IsInt32 sourceEnd then int32Value sourceEnd else sourceLength
  if sourceEnd < sourceStart then (.error .sourceEndBeforeStart, mem)
  else if sourceEnd = sourceStart then (.ok 0, mem)
  else if targetStart < 0 ∨ targetStart ≥ targetLength then (.error .targetStartOutOfBounds, mem)
  else if sourceStart < 0 ∨ sourceStart ≥ sourceLength then (.error .sourceStartOutOfBounds, mem)
  else if sourceEnd < 0 ∨ sourceEnd > sourceLength then (.error .sourceEndOutOfBounds, mem)
  else
    let toCopy := min (min (sourceEnd - sourceStart) (targetLength - targetStart))
      (sourceLength - sourceStart)
    -- memmove: all of the source is read before anything is stored
    (.ok toCopy, mem.store target targetStart.toNat
      (mem.read source sourceStart.toNat toCopy.toNat))

/-- `x || (x = value)` of a number. -/
def orElse (x : Option ℤ) (value : ℤ) : ℤ := (x.filter (· ≠ 0)).getD value

def Held.copy (mem : Memory ℕ UInt8) (source target : Held) (targetStart start stop : Option ℤ) :
    Except BufferCopyError ℤ × Memory ℕ UInt8 :=
  let start := orElse start 0
  let stop := orElse stop source.length
  let targetStart := orElse targetStart 0
  if stop < start then (.error .sourceEndBeforeStart, mem)
  -- Copy 0 bytes; we're done
  else if stop = start then (.ok 0, mem)
  else if target.length = 0 ∨ source.length = 0 then (.ok 0, mem)
  else if targetStart < 0 ∨ targetStart ≥ target.length then (.error .targetStartOutOfBounds, mem)
  else if start < 0 ∨ start ≥ source.length then (.error .sourceStartOutOfBounds, mem)
  else if stop < 0 ∨ stop > source.length then (.error .sourceEndOutOfBounds, mem)
  else
    -- Are we oob?
    let stop := if stop > source.length then source.length else stop
    let stop := if target.length - targetStart < stop - start
      then target.length - targetStart + start else stop
    slowCopy mem source.parent source.parentLength target.parent target.parentLength
      (targetStart + target.offset) (start + source.offset) (stop + source.offset)

/-- The bytes from `start` of the source on are where `targetStart` of the target begins, `count` of
them, and no other byte of any parent has changed. -/
structure Copied (mem mem' : Memory ℕ UInt8) (source target : Held) (targetStart start count : ℤ) :
    Prop where
  copied : ∀ i : ℕ, i < count → mem' target.parent (target.offset + targetStart + i).toNat =
    mem source.parent (source.offset + start + i).toNat
  frame : ∀ (id i : ℕ), (id = target.parent → i < target.offset + targetStart ∨
    target.offset + targetStart + count ≤ i) → mem' id i = mem id i

theorem Copied.nothing (mem : Memory ℕ UInt8) (source target : Held) (targetStart start : ℤ) :
    Copied mem mem source target targetStart start 0 :=
  ⟨fun i hi => absurd hi (by omega), fun _ _ _ => rfl⟩

theorem int32Value_of_nonneg {x : ℤ} (h : 0 ≤ x) (hle : x ≤ kMaxLength) : int32Value x = x := by
  unfold kMaxLength at hle
  unfold int32Value
  omega

/-- Inside both parents the native code copies what both ranges have room for. -/
theorem slowCopy_ok (mem : Memory ℕ UInt8) (source target : ℕ) {sourceLength targetLength : ℕ}
    {targetStart sourceStart sourceEnd : ℤ} (hs : 0 ≤ sourceStart) (hse : sourceStart < sourceEnd)
    (he : sourceEnd ≤ sourceLength) (hsource : sourceLength ≤ kMaxLength) (ht : 0 ≤ targetStart)
    (htl : targetStart < targetLength) (htarget : targetLength ≤ kMaxLength) :
    slowCopy mem source sourceLength target targetLength targetStart sourceStart sourceEnd =
      (.ok (min (sourceEnd - sourceStart) (targetLength - targetStart)),
        mem.store target targetStart.toNat (mem.read source sourceStart.toNat
          (min (sourceEnd - sourceStart) (targetLength - targetStart)).toNat)) := by
  have hint : IsInt32 sourceEnd := by
    unfold kMaxLength at hsource
    unfold IsInt32
    omega
  unfold slowCopy
  dsimp only
  rw [if_pos hint, int32Value_of_nonneg ht (by omega), int32Value_of_nonneg hs (by omega),
    int32Value_of_nonneg (by omega) (by omega), if_neg (by omega), if_neg (by omega),
    if_neg (by omega), if_neg (by omega), if_neg (by omega), min_eq_left (by omega)]

section
variable (mem : Memory ℕ UInt8) (source target : Held) {targetStart start stop : ℤ}

/-- What is stored is the source as it was. -/
theorem copied_store (htarget : 0 ≤ target.offset + targetStart)
    (hsource : 0 ≤ source.offset + start) {count : ℤ} (hcount : 0 ≤ count) :
    Copied mem (mem.store target.parent (targetStart + target.offset).toNat
      (mem.read source.parent (start + source.offset).toNat count.toNat)) source target targetStart
      start count := by
  have hlength := mem.length_read source.parent (start + source.offset).toNat count.toNat
  constructor
  · intro i hi
    have hi' : i < (mem.read source.parent (start + source.offset).toNat count.toNat).length := by
      omega
    have hstored := mem.store_inside target.parent (targetStart + target.offset).toNat _ hi'
    rw [Memory.getElem_read] at hstored
    convert hstored using 2
    · omega
    · omega
  · intro id i hframe
    by_cases hid : id = target.parent
    · subst hid
      refine mem.store_outside _ _ _ ?_
      rw [hlength]
      have := hframe rfl
      omega
    · exact mem.store_other _ _ _ hid i

/-- A range of the source that is not empty, and a place in the target. -/
theorem copy_range (hs : 0 ≤ start) (hse : start < stop) (he : stop ≤ source.length)
    (ht : 0 ≤ targetStart) (htl : targetStart < target.length) {x y z : Option ℤ}
    (hx : orElse x 0 = targetStart) (hy : orElse y 0 = start)
    (hz : orElse z source.length = stop) :
    ∃ mem', source.copy mem target x y z =
        (.ok (min (stop - start) (target.length - targetStart)), mem') ∧
      Copied mem mem' source target targetStart start
        (min (stop - start) (target.length - targetStart)) := by
  obtain ⟨hso, hsn, hsp, hsk⟩ := source.inside
  obtain ⟨hto, htn, htp, htk⟩ := target.inside
  have hclip : (if stop > source.length then source.length else stop) = stop := if_neg (by omega)
  have hlimit : (if target.length - targetStart < stop - start
      then target.length - targetStart + start else stop) =
      start + min (stop - start) (target.length - targetStart) := by
    split_ifs <;> omega
  have hcount : start + min (stop - start) (target.length - targetStart) + source.offset -
      (start + source.offset) = min (stop - start) (target.length - targetStart) := by omega
  refine ⟨_, ?_, copied_store mem source target (by omega) (by omega) (by omega)⟩
  unfold Held.copy
  dsimp only
  rw [hx, hy, hz, if_neg (by omega), if_neg (by omega), if_neg (by omega), if_neg (by omega),
    if_neg (by omega), if_neg (by omega), hclip, hlimit,
    slowCopy_ok _ _ _ (by omega) (by omega) (by omega) hsk (by omega) (by omega) htk, hcount,
    min_eq_left (by omega)]

end

theorem orElse_zero (x : ℤ) : orElse (some x) 0 = x := by
  by_cases hx : x = 0 <;> simp [orElse, Option.filter, hx]

/-! ### The bytes alone -/

def Held.bytes (b : Held) (mem : Memory ℕ UInt8) : Bytes :=
  mem.read b.parent b.offset.toNat b.length.toNat

/-- What the target has after a `copy` of these bytes to these. -/
def bufferCopy (source target : Bytes) (targetStart start stop : ℕ) :
    Except BufferCopyError Bytes :=
  let stop := if stop = 0 then source.length else stop
  if stop < start then .error .sourceEndBeforeStart
  else if stop = start then .ok target
  else if target.length = 0 ∨ source.length = 0 then .ok target
  else if targetStart ≥ target.length then .error .targetStartOutOfBounds
  else if start ≥ source.length then .error .sourceStartOutOfBounds
  else if stop > source.length then .error .sourceEndOutOfBounds
  else
    let stop := if target.length - targetStart < stop - start
      then target.length - targetStart + start else stop
    .ok (target.take targetStart ++ (source.drop start).take (stop - start) ++
      target.drop (targetStart + (stop - start)))

section
variable (mem : Memory ℕ UInt8) (source target : Held)

theorem Held.length_bytes (b : Held) : ((b.bytes mem).length : ℤ) = b.length := by
  have hn := b.inside.length_nonneg
  rw [Held.bytes, Memory.length_read]
  omega

/-- What was copied is in its place, between the bytes that stay. -/
theorem Copied.bytes {mem mem' : Memory ℕ UInt8} {source target : Held}
    {targetStart start count : ℕ} (h : Copied mem mem' source target targetStart start count)
    (hs : start + count ≤ (source.bytes mem).length)
    (ht : targetStart + count ≤ (target.bytes mem).length) :
    target.bytes mem' = (target.bytes mem).take targetStart ++
      ((source.bytes mem).drop start).take count ++
        (target.bytes mem).drop (targetStart + count) := by
  have hso := source.inside.offset_nonneg
  have hto := target.inside.offset_nonneg
  have hlength : (target.bytes mem').length = (target.bytes mem).length := by
    rw [Held.bytes, Held.bytes, Memory.length_read, Memory.length_read]
  refine List.ext_getElem ?_ fun i hi hi' => ?_
  · simp only [List.length_append, List.length_take, List.length_drop]
    omega
  · have hget : ∀ (mem : Memory ℕ UInt8) (b : Held) {j : ℕ} (hj : j < (b.bytes mem).length),
        (b.bytes mem)[j] = mem b.parent (b.offset.toNat + j) :=
      fun mem b _ hj => mem.getElem_read hj
    simp only [List.getElem_append, List.getElem_take, List.getElem_drop, List.length_take,
      List.length_append, List.length_drop, hget]
    by_cases hbefore : i < targetStart
    · rw [dif_pos (by omega), dif_pos (by omega)]
      exact h.frame _ _ fun _ => by omega
    · by_cases hinside : i < targetStart + count
      · rw [dif_pos (by omega), dif_neg (by omega)]
        have hcopied := h.copied (i - targetStart) (by omega)
        convert hcopied using 2
        · omega
        · omega
      · rw [dif_neg (by omega), h.frame _ _ fun _ => by omega]
        congr 1
        omega

/-- `copy` on windows does to the bytes of the target what it does to bytes. -/
theorem Held.copy_bytes (targetStart start stop : ℕ) :
    (source.copy mem target (some targetStart) (some start) (some stop)).1.map (fun _ =>
      target.bytes (source.copy mem target (some targetStart) (some start) (some stop)).2) =
      bufferCopy (source.bytes mem) (target.bytes mem) targetStart start stop := by
  have hsource := source.length_bytes mem
  have htarget := target.length_bytes mem
  have hstop : orElse (some (stop : ℤ)) source.length =
      ((if stop = 0 then (source.bytes mem).length else stop : ℕ) : ℤ) := by
    split_ifs with h
    · rw [h, hsource]
      rfl
    · simp [orElse, Option.filter, h]
  unfold bufferCopy
  dsimp only
  generalize (if stop = 0 then (source.bytes mem).length else stop) = last at hstop ⊢
  by_cases hfits : start < last ∧ last ≤ (source.bytes mem).length ∧
      targetStart < (target.bytes mem).length
  · obtain ⟨hlt, hle, hroom⟩ := hfits
    obtain ⟨mem', hcopy, hcopied⟩ := copy_range mem source target (Int.natCast_nonneg start)
      (show (start : ℤ) < last by omega) (by omega) (Int.natCast_nonneg targetStart) (by omega)
      (orElse_zero targetStart) (orElse_zero start) hstop
    have hcount : min ((last : ℤ) - start) (target.length - targetStart) =
        ((min (last - start) ((target.bytes mem).length - targetStart) : ℕ) : ℤ) := by omega
    rw [hcount] at hcopied
    have hlimit : (if (target.bytes mem).length - targetStart < last - start
        then (target.bytes mem).length - targetStart + start else last) - start =
        min (last - start) ((target.bytes mem).length - targetStart) := by
      split_ifs <;> omega
    rw [hcopy, if_neg (by omega), if_neg (by omega), if_neg (by omega), if_neg (by omega),
      if_neg (by omega), if_neg (by omega), hlimit]
    exact congrArg Except.ok (hcopied.bytes (by omega) (by omega))
  · unfold Held.copy
    dsimp only
    rw [orElse_zero, orElse_zero, hstop]
    by_cases hbefore : last < start
    · rw [if_pos (by omega), if_pos hbefore]
      rfl
    rw [if_neg (by omega), if_neg hbefore]
    by_cases hnothing : last = start
    · rw [if_pos (by omega), if_pos hnothing]
      rfl
    rw [if_neg (by omega), if_neg hnothing]
    by_cases hempty : (target.bytes mem).length = 0 ∨ (source.bytes mem).length = 0
    · rw [if_pos (by omega), if_pos hempty]
      rfl
    rw [if_neg (by omega), if_neg hempty]
    by_cases htargetStart : targetStart ≥ (target.bytes mem).length
    · rw [if_pos (by omega), if_pos htargetStart]
      rfl
    rw [if_neg (by omega), if_neg htargetStart]
    by_cases hstart : start ≥ (source.bytes mem).length
    · rw [if_pos (by omega), if_pos hstart]
      rfl
    rw [if_neg (by omega), if_neg hstart, if_pos (by omega), if_pos (by omega)]
    rfl
end

/-- `copy` does as it is told, unless it is told to copy nothing from the start of a Buffer that has
bytes: an end of 0 is taken for none. -/
theorem Held.copy_iff (mem : Memory ℕ UInt8) (source target : Held) {targetStart start stop : ℤ}
    (hs : 0 ≤ start) (hse : start ≤ stop) (he : stop ≤ source.length) (ht : 0 ≤ targetStart)
    (htl : targetStart < target.length) :
    (∃ mem', source.copy mem target (some targetStart) (some start) (some stop) =
        (.ok (min (stop - start) (target.length - targetStart)), mem') ∧
      Copied mem mem' source target targetStart start
        (min (stop - start) (target.length - targetStart))) ↔
      ¬ (stop = 0 ∧ source.length ≠ 0) := by
  by_cases hstop : stop = 0
  · obtain rfl : start = 0 := by omega
    subst hstop
    have hwhole : orElse (some 0) source.length = source.length := by simp [orElse, Option.filter]
    by_cases hlength : source.length = 0
    · refine iff_of_true ⟨mem, ?_, ?_⟩ (by simp [hlength])
      · have hcopy : source.copy mem target (some targetStart) (some 0) (some 0) = (.ok 0, mem) := by
          unfold Held.copy
          dsimp only
          rw [orElse_zero, hwhole, hlength, if_neg (by omega), if_pos rfl]
        rw [hcopy, min_eq_left (by omega), sub_zero]
      · rw [min_eq_left (by omega), sub_zero]
        exact .nothing mem source target _ _
    · refine iff_of_false ?_ (by simp [hlength])
      rintro ⟨mem', heq, -⟩
      have hpos := source.inside.length_nonneg
      obtain ⟨mem'', hall, -⟩ := copy_range mem source target (le_refl 0)
        (show 0 < source.length by omega) (le_refl _) ht htl (orElse_zero targetStart)
        (orElse_zero 0)
        hwhole
      have hcount := Except.ok.inj (Prod.mk.inj (heq.symm.trans hall)).1
      omega
  · have hz : orElse (some stop) source.length = stop := by simp [orElse, Option.filter, hstop]
    refine iff_of_true ?_ fun h => hstop h.1
    by_cases heq : start = stop
    · subst heq
      have hcopy : source.copy mem target (some targetStart) (some start) (some start) =
          (.ok 0, mem) := by
        unfold Held.copy
        dsimp only
        rw [orElse_zero start, hz, if_neg (lt_irrefl _), if_pos rfl]
      rw [hcopy, sub_self, min_eq_left (by omega)]
      exact ⟨mem, rfl, .nothing mem source target _ _⟩
    · exact copy_range mem source target hs (by omega) he ht htl (orElse_zero targetStart)
        (orElse_zero start) hz

def fourBytes : Held := ⟨⟨⟨4, 0, 4⟩, by decide, by decide, by decide, by decide⟩, 0⟩

theorem Held.copy_iff_overlap :
    (∃ mem', fourBytes.copy (fun _ i => i.toUInt8) fourBytes (some 1) (some 0) (some 3) =
        (.ok (min (3 - 0) (fourBytes.length - 1)), mem') ∧
      Copied (fun _ i => i.toUInt8) mem' fourBytes fourBytes 1 0
        (min (3 - 0) (fourBytes.length - 1))) ↔ ¬ ((3 : ℤ) = 0 ∧ fourBytes.length ≠ 0) :=
  Held.copy_iff (fun _ i => i.toUInt8) fourBytes fourBytes (by decide) (by decide) (by decide)
    (by decide) (by decide)

/-- `copy(target, 0, 0, 0)` of four bytes copies all four. -/
theorem Held.copy_zero : ¬ ∀ (mem : Memory ℕ UInt8) (source target : Held)
    (targetStart start stop : ℤ), 0 ≤ start → start ≤ stop → stop ≤ source.length →
      0 ≤ targetStart → targetStart < target.length →
      ∃ mem', source.copy mem target (some targetStart) (some start) (some stop) =
          (.ok (min (stop - start) (target.length - targetStart)), mem') ∧
        Copied mem mem' source target targetStart start
          (min (stop - start) (target.length - targetStart)) := by
  intro h
  have hfour : (fourBytes.copy (fun _ i => i.toUInt8) ⟨fourBytes.toBuffer, 1⟩ (some 0) (some 0)
      (some 0)).1 = .ok 4 := rfl
  obtain ⟨mem', hcopy, -⟩ := h (fun _ i => i.toUInt8) fourBytes ⟨fourBytes.toBuffer, 1⟩ 0 0 0
    (le_refl _) (le_refl _) (by decide) (le_refl _) (by decide)
  rw [hcopy] at hfour
  exact absurd (Except.ok.inj hfour) (by decide)

end NodeJS
