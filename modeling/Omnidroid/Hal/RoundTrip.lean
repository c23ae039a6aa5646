/-
Parcels read again (`omni-linux/src/hal/parcel.rs`): the reader on what the writer wrote.
- `read_enc`: where a value's bytes are next, and its lengths fit, the matching read gives it and goes past it.
- `fits_of_read`: a read that gives the value written found its lengths to fit.
- `round_trip_iff`: the values of a parcel come back, with nothing left, exactly when every length fits.
- `round_trip_long`: they do not when one does not.
-/
import Omnidroid.Hal.Wire

namespace Omnidroid.Hal

open Bytes

variable {F : Type}

namespace Reader

/-! ## Words -/

def skip (r : Reader F) (n : ℕ) : Reader F := { r with pos := r.pos + n }

/-- the bytes at the position -/
def Next (r : Reader F) (b : Bytes) : Prop := Holds r.data r.pos b

@[simp] theorem skip_skip (r : Reader F) (n m : ℕ) : (r.skip n).skip m = r.skip (n + m) := by
  simp [skip, Nat.add_assoc]

theorem ok_bind {α β : Type} (a : α) (f : α → Except Malformed β) : (Except.ok a >>= f) = f a := rfl

theorem next_append {r : Reader F} {b c : Bytes} : r.Next (b ++ c) ↔ r.Next b ∧ (r.skip b.length).Next c := holds_append

theorem take_next {r : Reader F} {b : Bytes} {n : ℕ} (h : r.Next b) (hn : b.length = n) : r.take n = .ok (b, r.skip n) := by
  subst hn
  rw [take, show get? r.data r.pos b.length = some b from h]
  rfl

theorem ofNat_leNat (n v w : ℕ) (h : v < 2 ^ w) (hw : 2 ^ w = 256 ^ n) : leNat (leBytes n v) = v := by
  rw [leNat_leBytes, ← hw]
  exact Nat.mod_eq_of_lt h

theorem i32_next {r : Reader F} {v : BitVec 32} (h : r.Next (word v)) : r.i32 = .ok (v, r.skip 4) := by
  rw [i32, take_next h (length_word v), ok_bind]
  simp only [word, ofNat_leNat 4 _ 32 v.isLt rfl, BitVec.ofNat_toNat, BitVec.setWidth_eq]
  rfl

theorem i64_next {r : Reader F} {v : BitVec 64} (h : r.Next (longBytes v)) : r.i64 = .ok (v, r.skip 8) := by
  rw [i64, take_next h (length_longBytes v), ok_bind]
  simp only [longBytes, ofNat_leNat 8 _ 64 v.isLt rfl, BitVec.ofNat_toNat, BitVec.setWidth_eq]
  rfl

theorem i8_next {r : Reader F} {v : BitVec 8} (h : r.Next (word (v.signExtend 32))) : r.i8 = .ok (v, r.skip 4) := by
  rw [i8, i32_next h, ok_bind]
  have hv : (v.signExtend 32).setWidth 8 = v := by
    refine BitVec.eq_of_getLsbD_eq fun i hi => ?_
    rw [BitVec.getLsbD_setWidth, BitVec.getLsbD_signExtend]
    simp [hi, show i < 32 by omega]
  simp only [hv]
  rfl

theorem boolWord_ne (b : Bool) : decide ((if b then 1 else 0 : BitVec 32) ≠ 0) = b := by cases b <;> decide

theorem bool_next {r : Reader F} {v : Bool} (h : r.Next (boolWord v)) : r.bool = .ok (v, r.skip 4) := by
  rw [bool, i32_next h, ok_bind]
  simp only [boolWord_ne]
  rfl

theorem marker_next {r : Reader F} {v : Bool} (h : r.Next (boolWord v)) : r.marker = .ok (v, r.skip 4) := bool_next h

theorem char16_word (v : BitVec 16) : (v.setWidth 32).setWidth 16 = v := by
  ext i hi
  simp

theorem char16_next {r : Reader F} {v : BitVec 16} (h : r.Next (charWord v)) : r.char16 = .ok (v, r.skip 4) := by
  rw [char16, i32_next h, ok_bind]
  simp only [char16_word]
  rfl

/-! ## Texts and arrays -/

theorem asI32_ne {n : ℕ} (h : n < 2 ^ 31) : Writer.asI32 n ≠ -1 := by
  intro he
  have := congrArg BitVec.toNat he
  rw [Writer.asI32, BitVec.toNat_ofNat, Nat.mod_eq_of_lt (by omega)] at this
  simp at this
  omega

theorem asLen_asI32 {n : ℕ} (h : n < 2 ^ 31) (what : String) : asLen (Writer.asI32 n) what = .ok n := by
  have hn : (Writer.asI32 n).toNat = n := by
    rw [Writer.asI32, BitVec.toNat_ofNat, Nat.mod_eq_of_lt (by omega)]
  rw [asLen, hn, if_pos h]

theorem asLen_lt {v : BitVec 32} {what : String} {n : ℕ} (h : asLen v what = .ok n) : n < 2 ^ 31 := by
  unfold asLen at h
  split_ifs at h with hv
  cases h; exact hv

theorem length_chunks (size : ℕ) (b : Bytes) : (chunks size b).length = b.length / size := by simp [chunks]

theorem chunks_flatMap {α : Type} {f : α → Bytes} {size : ℕ} (hs : 0 < size) (hf : ∀ x, (f x).length = size)
    (v : List α) : chunks size (v.flatMap f) = v.map f := by
  induction v with
  | nil => simp [chunks]
  | cons x v ih =>
    have hlen : ((x :: v).flatMap f).length / size = (v.flatMap f).length / size + 1 := by
      rw [List.flatMap_cons, List.length_append, hf, Nat.add_comm, Nat.add_div_right _ hs]
    rw [chunks, hlen, List.range_succ_eq_map, List.map_cons, List.map_cons, List.map_map, ← ih, chunks]
    congr 1
    · simp [slice, ← hf x]
    · refine List.map_congr_left fun i _ => ?_
      have hi : (i + 1) * size = (f x).length + i * size := by rw [hf]; ring
      simp only [Function.comp, slice, List.flatMap_cons, Nat.succ_eq_add_one]
      rw [hi, List.drop_append, List.drop_eq_nil_of_le (by omega), List.nil_append, Nat.add_sub_cancel_left]

theorem arrayLen_next {r : Reader F} {n minBytes : ℕ} (h : r.Next (word (Writer.asI32 n))) (hn : n < 2 ^ 31)
    (hroom : n * max minBytes 1 ≤ (r.skip 4).remaining) : r.arrayLen minBytes = .ok (some n, r.skip 4) := by
  rw [arrayLen, i32_next h, ok_bind]
  simp only [if_neg (asI32_ne hn), asLen_asI32 hn, ok_bind, if_neg (Nat.not_lt.2 hroom)]
  rfl

theorem remaining_next {r : Reader F} {b : Bytes} (h : r.Next b) : b.length ≤ r.remaining := by
  have := Holds.le h
  rw [remaining]
  omega

theorem null_next {r : Reader F} (h : r.Next (word (-1))) :
    r.string16 = .ok (none, r.skip 4) ∧ r.byteArray = .ok (none, r.skip 4) ∧
      ∀ {α : Type} (size : ℕ) (f : Bytes → α), r.arrayOf size f = .ok (none, r.skip 4) := by
  have hlen : ∀ n, r.arrayLen n = .ok (none, r.skip 4) := fun n => by
    rw [arrayLen, i32_next h, ok_bind]
    rfl
  refine ⟨?_, ?_, fun size f => ?_⟩
  · rw [string16, i32_next h, ok_bind]
    rfl
  · rw [byteArray, hlen, ok_bind]
    rfl
  · rw [arrayOf, hlen, ok_bind]
    rfl

theorem arrayOf_next {α : Type} {r : Reader F} {f : α → Bytes} {g : Bytes → α} {size : ℕ} (hs : 0 < size)
    (hf : ∀ x, (f x).length = size) (hg : ∀ x, g (f x) = x) {v : List α} (h : r.Next (encArray f v))
    (hv : v.length < 2 ^ 31) : r.arrayOf size g = .ok (some v, r.skip (encArray f v).length) := by
  obtain ⟨h1, h2⟩ := next_append.1 h
  rw [length_word] at h2
  have hlen : (v.flatMap f).length = v.length * size := length_array hf v
  have hroom : v.length * max size 1 ≤ (r.skip 4).remaining := by
    have := remaining_next h2
    rwa [hlen, ← max_eq_left (show 1 ≤ size from hs)] at this
  rw [arrayOf, arrayLen_next h1 hv hroom, ok_bind]
  simp only [take_next h2 hlen, ok_bind, chunks_flatMap hs hf, List.map_map, skip_skip, length_encArray hf]
  have hmap : v.map (g ∘ f) = v := by
    rw [show g ∘ f = id from funext hg, List.map_id]
  rw [hmap]
  rfl

theorem byteArray_next {r : Reader F} {v : Bytes} (h : r.Next (encBytes v)) (ha : r.pos % 4 = 0)
    (hv : v.length < 2 ^ 31) : r.byteArray = .ok (some v, r.skip (encBytes v).length) := by
  rw [encBytes, List.append_assoc] at h
  obtain ⟨h1, h2⟩ := next_append.1 h
  rw [length_word] at h2
  have h3 := (next_append.1 h2).1
  have hroom : v.length * max 1 1 ≤ (r.skip 4).remaining := by simpa using remaining_next h3
  rw [byteArray, arrayLen_next h1 hv hroom, ok_bind]
  simp only [take_next h3 rfl, ok_bind, skip_skip, length_encBytes]
  have hpos : ((r.skip (4 + v.length)).align : Reader F) = r.skip (align4 (4 + v.length)) := by
    simp only [align, skip]
    congr 1
    unfold align4
    omega
  rw [hpos]
  rfl

theorem unit_unitBytes (u : BitVec 16) : BitVec.ofNat 16 (leNat (unitBytes u)) = u := by
  rw [unitBytes, ofNat_leNat 2 _ 16 u.isLt rfl, BitVec.ofNat_toNat, BitVec.setWidth_eq]

theorem string16_next {r : Reader F} {s : List Char} (h : r.Next (encText s)) (ha : r.pos % 4 = 0)
    (hs : (Utf16.encode s).length < 2 ^ 31) : r.string16 = .ok (some s, r.skip (encText s).length) := by
  have hu : ((Utf16.encode s ++ [0]).flatMap unitBytes).length = (Utf16.encode s).length * 2 + 2 := by
    rw [length_array length_unitBytes, List.length_append, List.length_singleton]
    ring
  have htake : ((Utf16.encode s ++ [0]).flatMap unitBytes).take ((Utf16.encode s).length * 2) =
      (Utf16.encode s).flatMap unitBytes := by
    rw [List.flatMap_append, List.take_left' (length_array length_unitBytes _)]
  rw [encText] at h
  obtain ⟨h1, h2⟩ := next_append.1 (next_append.1 h).1
  rw [length_word] at h2
  rw [string16, i32_next h1, ok_bind]
  simp only [if_neg (asI32_ne hs), asLen_asI32 hs, ok_bind, take_next h2 hu, htake,
    chunks_flatMap (show 0 < 2 by omega) length_unitBytes, List.map_map, length_encText, skip_skip]
  have hunits : (Utf16.encode s).map ((fun c => BitVec.ofNat 16 (leNat c)) ∘ unitBytes) = Utf16.encode s := by
    rw [show (fun c => BitVec.ofNat 16 (leNat c)) ∘ unitBytes = id from funext unit_unitBytes, List.map_id]
  have hpos : ((r.skip (4 + ((Utf16.encode s).length * 2 + 2))).align : Reader F) =
      r.skip (align4 (6 + 2 * (Utf16.encode s).length)) := by
    simp only [align, skip]
    congr 1
    unfold align4
    omega
  rw [hunits, Utf16.decode_encode, hpos]
  rfl

theorem word_back (v : BitVec 32) : BitVec.ofNat 32 (leNat (word v)) = v := by
  rw [word, ofNat_leNat 4 _ 32 v.isLt rfl, BitVec.ofNat_toNat, BitVec.setWidth_eq]

theorem long_back (v : BitVec 64) : BitVec.ofNat 64 (leNat (longBytes v)) = v := by
  rw [longBytes, ofNat_leNat 8 _ 64 v.isLt rfl, BitVec.ofNat_toNat, BitVec.setWidth_eq]

theorem bool_back (b : Bool) : decide (BitVec.ofNat 32 (leNat (boolWord b)) ≠ 0) = b := by
  rw [boolWord, word_back]
  exact boolWord_ne b

theorem char_back (u : BitVec 16) : (BitVec.ofNat 32 (leNat (charWord u))).setWidth 16 = u := by
  rw [charWord, word_back, char16_word]

/-! ## Objects -/

/-- the objects the transaction listed, and their files -/
structure Listed (r : Reader F) (o : List (ℕ × Option F)) : Prop where
  offsets : r.offsets = o.map (·.1)
  fds : r.fds = o.filterMap (·.2)
  sorted : o.Pairwise fun x y => x.1 < y.1
  typed : ∀ x ∈ o, r.typeAt x.1 = some (typeOf x)

theorem Listed.skip {r : Reader F} {o : List (ℕ × Option F)} (h : r.Listed o) (n : ℕ) : (r.skip n).Listed o :=
  ⟨h.offsets, h.fds, h.sorted, h.typed⟩

theorem Listed.mem {r : Reader F} {o : List (ℕ × Option F)} (h : r.Listed o) {x : ℕ × Option F} (hx : x ∈ o) :
    r.listed x.1 = true := by
  rw [Reader.listed, h.offsets, List.contains_iff_mem]
  exact List.mem_map_of_mem hx

/-- the file objects among some, counted by their types -/
theorem count_files {r : Reader F} {l : List (ℕ × Option F)} (h : ∀ y ∈ l, r.typeAt y.1 = some (typeOf y)) :
    ((l.map (·.1)).filter fun p => r.typeAt p = some TYPE_FD).length = (l.filterMap (·.2)).length := by
  induction l with
  | nil => rfl
  | cons y l ih =>
    obtain ⟨p, f⟩ := y
    have hy : r.typeAt p = some (typeOf (p, f)) := h (p, f) List.mem_cons_self
    have ih := ih fun y hy => h y (List.mem_cons_of_mem _ hy)
    rw [List.map_cons, List.filter_cons, hy]
    cases f with
    | none => simpa [typeOf, TYPE_FD, TYPE_HANDLE] using ih
    | some f => simpa [typeOf] using ih

/-- a file object's place among the file objects is its file's among the files -/
theorem Listed.file {r : Reader F} {o : List (ℕ × Option F)} (h : r.Listed o) {at_ : ℕ} {f : F} (hx : (at_, some f) ∈ o) :
    r.fds[((r.offsets.takeWhile (· ≠ at_)).filter fun p => r.typeAt p = some TYPE_FD).length]? = some f := by
  obtain ⟨pre, post, rfl⟩ := List.append_of_mem hx
  have hpre : ∀ y ∈ pre, y.1 < at_ := fun y hy =>
    (List.pairwise_append.1 h.sorted).2.2 y hy _ List.mem_cons_self
  have hwhile : (r.offsets.takeWhile (· ≠ at_)) = pre.map (·.1) := by
    rw [h.offsets, List.map_append, List.takeWhile_append_of_pos]
    · simp
    · intro p hp
      obtain ⟨y, hy, rfl⟩ := List.mem_map.1 hp
      simpa using (hpre y hy).ne
  rw [hwhile, count_files fun y hy => h.typed y (List.mem_append_left _ hy), h.fds, List.filterMap_append,
    List.getElem?_append_right le_rfl, Nat.sub_self]
  rfl

/-- the object at the position -/
theorem object_next {r : Reader F} {b : Bytes} (h : r.Next b) (hb : b.length = OBJECT_SIZE) :
    r.object = .ok ((r.pos, leNat (slice b 0 4), leNat (slice b 8 8)), r.skip 24) := by
  rw [object, take_next h hb, ok_bind]
  rfl

theorem fdObject_next {r : Reader F} {o : List (ℕ × Option F)} {f : F} (h : r.Next fdBytes) (hl : r.Listed o)
    (hx : (r.pos, some f) ∈ o) : r.fdObject = .ok (f, r.skip 24) := by
  have hkind : leNat (slice fdBytes 0 4) = TYPE_FD := by decide
  rw [fdObject, object_next h length_fdBytes, ok_bind]
  simp only [hkind, ne_eq, not_true_eq_false, if_false, (hl.skip 24).mem hx, Bool.not_true, Bool.false_eq_true]
  have hfile := (hl.skip 24).file hx
  simp only [hfile]
  rfl

theorem file_next {r : Reader F} {o : List (ℕ × Option F)} {f : F} (h : r.Next (word 1 ++ (word 0 ++ fdBytes)))
    (hl : r.Listed o) (hx : (r.pos + 8, some f) ∈ o) : r.file = .ok (some f, r.skip 32) := by
  obtain ⟨h1, h2⟩ := next_append.1 h
  obtain ⟨h3, h4⟩ := next_append.1 h2
  rw [length_word] at h3 h4
  rw [length_word, skip_skip] at h4
  have hf := fdObject_next h4 (hl.skip 8) hx
  have hm : r.marker = .ok (true, r.skip 4) := marker_next (v := true) h1
  rw [file, hm, ok_bind]
  simp only [Bool.not_true, Bool.false_eq_true, if_false, i32_next h3, ok_bind, skip_skip, hf,
    ne_eq, not_true_eq_false]
  rfl

theorem noFile_next {r : Reader F} (h : r.Next (word 0)) : r.file = .ok (none, r.skip 4) := by
  have hm : r.marker = .ok (false, r.skip 4) := marker_next (v := false) h
  rw [file, hm, ok_bind]
  rfl

theorem handle_next {r : Reader F} {o : List (ℕ × Option F)} {h st : BitVec 32}
    (hn : r.Next (handleBytes h ++ word st)) (hl : r.Listed o) (hx : (r.pos, (none : Option F)) ∈ o) :
    r.binder = .ok (some h, r.skip 28) := by
  obtain ⟨h1, h2⟩ := next_append.1 hn
  rw [length_handleBytes] at h2
  have hkind : leNat (slice (handleBytes h) 0 4) = TYPE_HANDLE := by
    simp [handleBytes, slice, leBytes, leNat, TYPE_HANDLE]
  have hvalue : leNat (slice (handleBytes h) 8 8) = h.toNat := by
    have hs : slice (handleBytes h) 8 8 = leBytes 8 h.toNat := by
      rw [handleBytes, slice, List.append_assoc, List.drop_left' (by simp), List.take_left' (length_leBytes 8 _)]
    rw [hs]
    exact ofNat_leNat 8 _ 64 (by have := h.isLt; omega) rfl
  rw [binder, object_next h1 (length_handleBytes h), ok_bind]
  have hlisted : (r.skip 24).listed r.pos = true := (hl.skip 24).mem hx
  have hof : (r.skip 24).handleOf r.pos TYPE_HANDLE h.toNat = .ok (some h) := by
    rw [handleOf, if_neg (by simp [TYPE_HANDLE, TYPE_BINDER, TYPE_WEAK_BINDER]), if_pos (by decide), hlisted, if_pos rfl, BitVec.ofNat_toNat, BitVec.setWidth_eq]
  simp only [hkind, hvalue, hof, ok_bind, i32_next h2, skip_skip]
  rfl

theorem nullBinder_next {r : Reader F} (hn : r.Next (nullBytes ++ word 0)) : r.binder = .ok (none, r.skip 28) := by
  obtain ⟨h1, h2⟩ := next_append.1 hn
  rw [length_nullBytes] at h2
  have hkind : leNat (slice nullBytes 0 4) = TYPE_BINDER := by decide
  have hvalue : leNat (slice nullBytes 8 8) = 0 := by decide
  rw [binder, object_next h1 length_nullBytes, ok_bind]
  have hof : (r.skip 24).handleOf r.pos TYPE_BINDER 0 = .ok none := if_pos (by decide)
  simp only [hkind, hvalue, hof, ok_bind, i32_next h2, skip_skip]
  rfl

/-! ## Parcelables -/

/-- one level deeper, past the size of a parcelable -/
def inside (r : Reader F) : Reader F := { r.skip 4 with depth := r.depth + 1 }

/-- a parcelable's fields are next, one level deeper; past them is its end -/
theorem parcelableBody_next {r : Reader F} {b : Bytes} (h : r.Next (word (Writer.asI32 (4 + b.length)) ++ b))
    (hs : 4 + b.length < 2 ^ 31) (hd : r.depth < MAX_DEPTH) :
    r.parcelableBody = .ok (r.pos + (4 + b.length), r.inside) := by
  have hle := Holds.le h
  rw [List.length_append, length_word] at hle
  rw [parcelableBody, i32_next (next_append.1 h).1, ok_bind]
  simp only [asLen_asI32 hs, ok_bind]
  rw [if_neg (by omega), if_neg (by simp only [skip]; omega), enter, if_neg (by simp only [skip]; omega), ok_bind]
  rfl

theorem parcelableStart_next {r : Reader F} {b : Bytes} (h : r.Next (word 1 ++ b)) :
    r.parcelableStart = (r.skip 4).parcelableBody := by
  rw [parcelableStart, i32_next (next_append.1 h).1, ok_bind]
  simp

/-- past the fields, back at the level they were entered from -/
theorem parcelableEnd_inside (r : Reader F) (n : ℕ) :
    (r.inside.skip n).parcelableEnd (r.pos + (4 + n)) = .ok (r.skip (4 + n)) := by
  rw [parcelableEnd, if_neg (by simp only [inside, skip]; omega)]
  simp [inside, skip]

end Reader

open Reader

/-! ## Values -/

theorem asValue_ok {α : Type} {f : α → Value F} {a : α} {r : Reader F} {x : Except Malformed (α × Reader F)}
    (h : x = .ok (a, r)) : asValue f x = .ok (f a, r) := by
  rw [h]
  rfl

theorem text_next {r : Reader F} {v : Option (List Char)} (h : r.Next (orNull encText v)) (ha : r.pos % 4 = 0)
    (hf : ∀ s ∈ v, (Utf16.encode s).length < 2 ^ 31) : r.string16 = .ok (v, r.skip (orNull encText v).length) := by
  cases v with
  | none => exact (null_next h).1
  | some s => exact string16_next h ha (hf s rfl)

theorem bytes_next {r : Reader F} {v : Option Bytes} (h : r.Next (orNull encBytes v)) (ha : r.pos % 4 = 0)
    (hf : ∀ l ∈ v, l.length < 2 ^ 31) : r.byteArray = .ok (v, r.skip (orNull encBytes v).length) := by
  cases v with
  | none => exact (null_next h).2.1
  | some l => exact byteArray_next h ha (hf l rfl)

theorem array_next {α : Type} {r : Reader F} {f : α → Bytes} {g : Bytes → α} {size : ℕ} (hs : 0 < size)
    (hsize : ∀ x, (f x).length = size) (hg : ∀ x, g (f x) = x) {v : Option (List α)} (h : r.Next (orNull (encArray f) v))
    (hf : ∀ l ∈ v, l.length < 2 ^ 31) : r.arrayOf size g = .ok (v, r.skip (orNull (encArray f) v).length) := by
  cases v with
  | none => exact (null_next h).2.2 size g
  | some l => exact arrayOf_next hs hsize hg h (hf l rfl)

/-- a parcelable's fields read, and its end come to -/
theorem body_read {r : Reader F} {fields : List (Value F)} {n : ℕ} (c : List (Value F) → Value F)
    (hb : r.parcelableBody = .ok (r.pos + (4 + n), r.inside))
    (hr : r.inside.readAll (shapes fields) = .ok (fields, r.inside.skip n)) :
    (do
      let (end_, r) ← r.parcelableBody
      let (vs, r) ← r.readAll (shapes fields)
      let r ← r.parcelableEnd end_
      return (c vs, r) : Except Malformed (Value F × Reader F)) = .ok (c fields, r.skip (4 + n)) := by
  rw [hb, ok_bind]
  simp only [hr, ok_bind, parcelableEnd_inside]
  rfl

mutual

/-- a value's bytes next, its lengths fitting and its objects listed, the matching read gives it and goes past them -/
theorem read_enc : ∀ (v : Value F) (r : Reader F) (o : List (ℕ × Option F)), r.Next (enc v) → r.pos % 4 = 0 → Fits v →
    r.depth + depth v ≤ MAX_DEPTH → r.Listed o → objs r.pos v ⊆ o → r.read v.shape = .ok (v, r.skip (enc v).length)
  | .i32 v, r, o, h, _, _, _, _, _ => by
    simp only [Value.shape, Reader.read, enc, length_word] at h ⊢
    exact asValue_ok (i32_next h)
  | .i64 v, r, o, h, _, _, _, _, _ => by
    simp only [Value.shape, Reader.read, enc, length_longBytes] at h ⊢
    exact asValue_ok (i64_next h)
  | .i8 v, r, o, h, _, _, _, _, _ => by
    simp only [Value.shape, Reader.read, enc, length_word] at h ⊢
    exact asValue_ok (i8_next h)
  | .bool v, r, o, h, _, _, _, _, _ => by
    simp only [Value.shape, Reader.read, enc, length_boolWord] at h ⊢
    exact asValue_ok (bool_next h)
  | .char16 v, r, o, h, _, _, _, _, _ => by
    simp only [Value.shape, Reader.read, enc, length_charWord] at h ⊢
    exact asValue_ok (char16_next h)
  | .marker v, r, o, h, _, _, _, _, _ => by
    simp only [Value.shape, Reader.read, enc, length_boolWord] at h ⊢
    exact asValue_ok (marker_next h)
  | .string s, r, o, h, ha, hf, _, _, _ => by
    simp only [Value.shape, Reader.read, enc, Fits] at h hf ⊢
    exact asValue_ok (text_next h ha hf)
  | .bytes v, r, o, h, ha, hf, _, _, _ => by
    simp only [Value.shape, Reader.read, enc, Fits] at h hf ⊢
    exact asValue_ok (bytes_next h ha hf)
  | .i32s v, r, o, h, _, hf, _, _, _ => by
    simp only [Value.shape, Reader.read, enc, Fits] at h hf ⊢
    exact asValue_ok (array_next (g := fun b => BitVec.ofNat 32 (leNat b)) (show 0 < 4 by omega) length_word word_back h hf)
  | .i64s v, r, o, h, _, hf, _, _, _ => by
    simp only [Value.shape, Reader.read, enc, Fits] at h hf ⊢
    exact asValue_ok (array_next (g := fun b => BitVec.ofNat 64 (leNat b)) (show 0 < 8 by omega) length_longBytes long_back h hf)
  | .bools v, r, o, h, _, hf, _, _, _ => by
    simp only [Value.shape, Reader.read, enc, Fits] at h hf ⊢
    exact asValue_ok (array_next (g := fun b => decide (BitVec.ofNat 32 (leNat b) ≠ 0)) (show 0 < 4 by omega) length_boolWord bool_back h hf)
  | .char16s v, r, o, h, _, hf, _, _, _ => by
    simp only [Value.shape, Reader.read, enc, Fits] at h hf ⊢
    exact asValue_ok (array_next (g := fun b => (BitVec.ofNat 32 (leNat b)).setWidth 16) (show 0 < 4 by omega) length_charWord char_back h hf)
  | .parcelable fields, r, o, h, ha, hf, hd, hl, ho => by
    simp only [Value.shape, Reader.read, enc, Fits, depth, objs] at h hf hd ho ⊢
    have hb := (next_append.1 h).2
    rw [length_word] at hb
    have hfields := (next_append.1 hb).2
    rw [length_word] at hfields
    have hr := readAll_enc fields (r.skip 4).inside o hfields (by simp only [inside, skip]; omega) hf.1
      (by simp only [inside, skip]; omega) ⟨hl.offsets, hl.fds, hl.sorted, hl.typed⟩ ho
    rw [parcelableStart_next h, body_read Value.parcelable (parcelableBody_next hb hf.2 (by simp only [skip]; omega)) hr]
    simp only [skip_skip, List.length_append, length_word]
  | .body fields, r, o, h, ha, hf, hd, hl, ho => by
    simp only [Value.shape, Reader.read, enc, Fits, depth, objs] at h hf hd ho ⊢
    have hfields := (next_append.1 h).2
    rw [length_word] at hfields
    have hr := readAll_enc fields r.inside o hfields (by simp only [inside, skip]; omega) hf.1
      (by simp only [inside, skip]; omega) ⟨hl.offsets, hl.fds, hl.sorted, hl.typed⟩ ho
    rw [body_read Value.body (parcelableBody_next h hf.2 (by omega)) hr]
    simp only [List.length_append, length_word]
  | .file none, r, o, h, _, _, _, _, _ => by
    simp only [Value.shape, Reader.read, enc, length_word] at h ⊢
    exact asValue_ok (noFile_next h)
  | .file (some f), r, o, h, _, _, _, hl, ho => by
    simp only [Value.shape, Reader.read, enc, objs, List.length_append, length_word, length_fdBytes] at h ho ⊢
    exact asValue_ok (file_next h hl (ho List.mem_cons_self))
  | .handle hd st, r, o, h, _, _, _, hl, ho => by
    simp only [Value.shape, Reader.read, enc, objs, List.length_append, length_word, length_handleBytes] at h ho ⊢
    exact asValue_ok (handle_next h hl (ho List.mem_cons_self))
  | .nullBinder, r, o, h, _, _, _, _, _ => by
    simp only [Value.shape, Reader.read, enc, List.length_append, length_word, length_nullBytes] at h ⊢
    exact asValue_ok (a := none) (nullBinder_next h)

theorem readAll_enc : ∀ (vs : List (Value F)) (r : Reader F) (o : List (ℕ × Option F)), r.Next (encAll vs) →
    r.pos % 4 = 0 → FitAll vs → r.depth + depthAll vs ≤ MAX_DEPTH → r.Listed o → objsAll r.pos vs ⊆ o →
    r.readAll (shapes vs) = .ok (vs, r.skip (encAll vs).length)
  | [], r, o, _, _, _, _, _, _ => rfl
  | v :: vs, r, o, h, ha, hf, hd, hl, ho => by
    simp only [encAll, FitAll, depthAll, objsAll, List.append_subset, shapes] at h hf hd ho ⊢
    obtain ⟨h1, h2⟩ := next_append.1 h
    have hv := enc_aligned v
    rw [Reader.readAll, read_enc v r o h1 ha hf.1 (by omega) hl ho.1, ok_bind]
    simp only [readAll_enc vs (r.skip (enc v).length) o h2 (by simp only [skip]; omega) hf.2 (by simp only [skip]; omega)
      (hl.skip _) ho.2, ok_bind, skip_skip, List.length_append]
    rfl

end

/-! ## Lengths that do not fit -/

theorem bind_ok {α β : Type} {x : Except Malformed α} {f : α → Except Malformed β} {b : β} (h : (x >>= f) = .ok b) :
    ∃ a, x = .ok a ∧ f a = .ok b := by
  cases x with
  | error e => cases h
  | ok a => exact ⟨a, rfl, h⟩

theorem asValue_eq {α : Type} {f : α → Value F} {x : Except Malformed (α × Reader F)} {v : Value F} {r : Reader F}
    (h : asValue f x = .ok (v, r)) : ∃ a, x = .ok (a, r) ∧ f a = v := by
  cases x with
  | error e => cases h
  | ok y => cases h; exact ⟨y.1, rfl, rfl⟩

/-- no array read is longer than its `i32` says -/
theorem arrayLen_lt {r r' : Reader F} {n len : ℕ} (h : r.arrayLen n = .ok (some len, r')) : len < 2 ^ 31 := by
  obtain ⟨⟨v, r1⟩, -, h⟩ := bind_ok h
  simp only at h
  split_ifs at h
  · cases h
  · obtain ⟨len', hl, h⟩ := bind_ok h
    split_ifs at h
    cases h
    exact asLen_lt hl

theorem arrayOf_lt {α : Type} {r r' : Reader F} {size : ℕ} {f : Bytes → α} {l : List α} (hs : 0 < size)
    (h : r.arrayOf size f = .ok (some l, r')) : l.length < 2 ^ 31 := by
  obtain ⟨⟨len, r1⟩, hlen, h⟩ := bind_ok h
  cases len with
  | none => cases h
  | some len =>
    obtain ⟨⟨b, r2⟩, hb, h⟩ := bind_ok h
    cases h
    have hblen : b.length = len * size := by
      unfold Reader.take at hb
      split at hb
      · rename_i c hc
        cases hb
        obtain ⟨hle, rfl⟩ := get?_eq_some.1 hc
        exact length_slice hle
      · cases hb
    rw [List.length_map, length_chunks, hblen, Nat.mul_div_cancel _ hs]
    exact arrayLen_lt hlen

theorem take_length {r r' : Reader F} {n : ℕ} {b : Bytes} (h : r.take n = .ok (b, r')) : b.length = n := by
  unfold Reader.take at h
  split at h
  · rename_i c hc
    cases h
    obtain ⟨hle, rfl⟩ := get?_eq_some.1 hc
    exact length_slice hle
  · cases h

theorem byteArray_lt {r r' : Reader F} {l : Bytes} (h : r.byteArray = .ok (some l, r')) : l.length < 2 ^ 31 := by
  obtain ⟨⟨len, r1⟩, hlen, h⟩ := bind_ok h
  cases len with
  | none => cases h
  | some len =>
    obtain ⟨⟨b, r2⟩, hb, h⟩ := bind_ok h
    cases h
    rw [take_length hb]
    exact arrayLen_lt hlen

/-- a text takes as many units again as it was read from -/
theorem string16_lt {r r' : Reader F} {s : List Char} (h : r.string16 = .ok (some s, r')) :
    (Utf16.encode s).length < 2 ^ 31 := by
  obtain ⟨⟨v, r1⟩, -, h⟩ := bind_ok h
  simp only at h
  split_ifs at h
  · cases h
  · obtain ⟨len, hl, h⟩ := bind_ok h
    obtain ⟨⟨b, r2⟩, hb, h⟩ := bind_ok h
    cases h
    have hlt := asLen_lt hl
    have hblen : b.length = len * 2 + 2 := take_length hb
    rw [Utf16.length_encode_decode, List.length_map, length_chunks, List.length_take, hblen]
    omega

/-- a parcelable read ends no further than its `i32` says -/
theorem body_fits {r r' : Reader F} {fields : List (Value F)} {c : List (Value F) → Value F}
    (hc : Function.Injective c) (hn : r.Next (word (Writer.asI32 (4 + (encAll fields).length)) ++ encAll fields))
    (h : (do
      let (end_, r) ← r.parcelableBody
      let (vs, r) ← r.readAll (shapes fields)
      let r ← r.parcelableEnd end_
      return (c vs, r) : Except Malformed (Value F × Reader F)) = .ok (c fields, r'))
    (hfit : ∀ r', r.inside.readAll (shapes fields) = .ok (fields, r') →
      FitAll fields ∧ r' = r.inside.skip (encAll fields).length) :
    FitAll fields ∧ 4 + (encAll fields).length < 2 ^ 31 := by
  obtain ⟨⟨end_, r1⟩, hb, h⟩ := bind_ok h
  obtain ⟨⟨vs, r2⟩, hr, h⟩ := bind_ok h
  obtain ⟨r3, he, h⟩ := bind_ok h
  cases hc (Prod.mk.inj (Except.ok.inj h)).1
  have hbody : ∃ size < 2 ^ 31, end_ = r.pos + size ∧ r1 = r.inside := by
    rw [parcelableBody, i32_next (next_append.1 hn).1, ok_bind] at hb
    obtain ⟨size, hsize, hb⟩ := bind_ok hb
    split_ifs at hb
    obtain ⟨r1', hent, hb⟩ := bind_ok hb
    unfold Reader.enter at hent
    split_ifs at hent
    cases hent; cases hb
    exact ⟨size, asLen_lt hsize, rfl, rfl⟩
  obtain ⟨size, hsize, rfl, rfl⟩ := hbody
  obtain ⟨hfits, rfl⟩ := hfit r2 hr
  refine ⟨hfits, ?_⟩
  unfold Reader.parcelableEnd at he
  split_ifs at he with hend
  simp only [inside, skip] at hend
  omega

mutual

/-- a read that gives the value written found its lengths to fit -/
theorem fits_of_read : ∀ (v : Value F) (r r' : Reader F) (o : List (ℕ × Option F)), r.Next (enc v) → r.pos % 4 = 0 →
    r.depth + depth v ≤ MAX_DEPTH → r.Listed o → objs r.pos v ⊆ o → r.read v.shape = .ok (v, r') → Fits v
  | .string s, r, r', o, _, _, _, _, _, h => by
    simp only [Value.shape, Reader.read] at h
    obtain ⟨a, ha, heq⟩ := asValue_eq h
    cases heq
    simp only [Fits]
    rintro l rfl
    exact string16_lt ha
  | .bytes v, r, r', o, _, _, _, _, _, h => by
    simp only [Value.shape, Reader.read] at h
    obtain ⟨a, ha, heq⟩ := asValue_eq h
    cases heq
    simp only [Fits]
    rintro l rfl
    exact byteArray_lt ha
  | .i32s v, r, r', o, _, _, _, _, _, h => by
    simp only [Value.shape, Reader.read] at h
    obtain ⟨a, ha, heq⟩ := asValue_eq h
    cases heq
    simp only [Fits]
    rintro l rfl
    exact arrayOf_lt (show 0 < 4 by omega) ha
  | .i64s v, r, r', o, _, _, _, _, _, h => by
    simp only [Value.shape, Reader.read] at h
    obtain ⟨a, ha, heq⟩ := asValue_eq h
    cases heq
    simp only [Fits]
    rintro l rfl
    exact arrayOf_lt (show 0 < 8 by omega) ha
  | .bools v, r, r', o, _, _, _, _, _, h => by
    simp only [Value.shape, Reader.read] at h
    obtain ⟨a, ha, heq⟩ := asValue_eq h
    cases heq
    simp only [Fits]
    rintro l rfl
    exact arrayOf_lt (show 0 < 4 by omega) ha
  | .char16s v, r, r', o, _, _, _, _, _, h => by
    simp only [Value.shape, Reader.read] at h
    obtain ⟨a, ha, heq⟩ := asValue_eq h
    cases heq
    simp only [Fits]
    rintro l rfl
    exact arrayOf_lt (show 0 < 4 by omega) ha
  | .parcelable fields, r, r', o, hn, ha, hd, hl, ho, h => by
    simp only [Value.shape, Reader.read, enc, depth, objs] at hn hd ho h
    rw [parcelableStart_next hn] at h
    have hb := (next_append.1 hn).2
    rw [length_word] at hb
    have hfields := (next_append.1 hb).2
    rw [length_word] at hfields
    simp only [Fits]
    refine body_fits (c := Value.parcelable) (fun _ _ h => Value.parcelable.inj h) hb h fun r2 hr => ?_
    have hfit := fitAll_of_read fields (r.skip 4).inside r2 o hfields (by simp only [inside, skip]; omega)
      (by simp only [inside, skip]; omega) ⟨hl.offsets, hl.fds, hl.sorted, hl.typed⟩ ho hr
    have := readAll_enc fields (r.skip 4).inside o hfields (by simp only [inside, skip]; omega) hfit
      (by simp only [inside, skip]; omega) ⟨hl.offsets, hl.fds, hl.sorted, hl.typed⟩ ho
    rw [hr] at this
    cases this
    exact ⟨hfit, rfl⟩
  | .body fields, r, r', o, hn, ha, hd, hl, ho, h => by
    simp only [Value.shape, Reader.read, enc, depth, objs] at hn hd ho h
    have hfields := (next_append.1 hn).2
    rw [length_word] at hfields
    simp only [Fits]
    refine body_fits (c := Value.body) (fun _ _ h => Value.body.inj h) hn h fun r2 hr => ?_
    have hfit := fitAll_of_read fields r.inside r2 o hfields (by simp only [inside, skip]; omega)
      (by simp only [inside, skip]; omega) ⟨hl.offsets, hl.fds, hl.sorted, hl.typed⟩ ho hr
    have := readAll_enc fields r.inside o hfields (by simp only [inside, skip]; omega) hfit
      (by simp only [inside, skip]; omega) ⟨hl.offsets, hl.fds, hl.sorted, hl.typed⟩ ho
    rw [hr] at this
    cases this
    exact ⟨hfit, rfl⟩
  | .i32 _, _, _, _, _, _, _, _, _, _ | .i64 _, _, _, _, _, _, _, _, _, _ | .i8 _, _, _, _, _, _, _, _, _, _
  | .bool _, _, _, _, _, _, _, _, _, _ | .char16 _, _, _, _, _, _, _, _, _, _ | .marker _, _, _, _, _, _, _, _, _, _
  | .file _, _, _, _, _, _, _, _, _, _ | .handle _ _, _, _, _, _, _, _, _, _, _
  | .nullBinder, _, _, _, _, _, _, _, _, _ => by simp only [Fits]

theorem fitAll_of_read : ∀ (vs : List (Value F)) (r r' : Reader F) (o : List (ℕ × Option F)), r.Next (encAll vs) →
    r.pos % 4 = 0 → r.depth + depthAll vs ≤ MAX_DEPTH → r.Listed o → objsAll r.pos vs ⊆ o →
    r.readAll (shapes vs) = .ok (vs, r') → FitAll vs
  | [], _, _, _, _, _, _, _, _, _ => by simp only [FitAll]
  | v :: vs, r, r', o, hn, ha, hd, hl, ho, h => by
    simp only [encAll, depthAll, objsAll, List.append_subset, shapes, Reader.readAll] at hn hd ho h
    obtain ⟨h1, h2⟩ := next_append.1 hn
    obtain ⟨⟨v1, r1⟩, hv, h⟩ := bind_ok h
    obtain ⟨⟨vs1, r2⟩, hvs, h⟩ := bind_ok h
    obtain ⟨heq, heqs⟩ := List.cons.inj (Prod.mk.inj (Except.ok.inj h)).1
    simp only at heq heqs hvs
    rw [heq] at hv
    rw [heqs] at hvs
    have hfit := fits_of_read v r r1 o h1 ha (by omega) hl ho.1 hv
    have := read_enc v r o h1 ha hfit (by omega) hl ho.1
    rw [hv] at this
    cases this
    have hal := enc_aligned v
    simp only [FitAll]
    exact ⟨hfit, fitAll_of_read vs (r.skip (enc v).length) r2 o h2 (by simp only [skip]; omega) (by simp only [skip]; omega)
      (hl.skip _) ho.2 hvs⟩

end

/-! ## Whole parcels -/

/-- the parcel written, and its objects -/
theorem written_eq (vs : List (Value F)) : written vs = Writer.put {} (encAll vs) (objsAll 0 vs) :=
  writeAll_put vs {} rfl

/-- the offsets recorded, in order, are the objects' -/
theorem offsets_eq (vs : List (Value F)) : (written vs).offsets = (objsAll 0 vs).map (·.1) := by
  have ho := (objects_encAll vs 0).sorted
  rw [written_eq]
  unfold Writer.offsets
  simp only [Writer.put, List.nil_append]
  generalize objsAll 0 vs = o at ho
  have hperm : ((o.filterMap fun x => x.2.map fun f => (x.1, f)).map (·.1) ++
      o.filterMap fun x => if x.2.isNone then some x.1 else none).Perm (o.map (·.1)) := by
    clear ho
    induction o with
    | nil => exact .refl _
    | cons x o ih =>
      obtain ⟨p, f⟩ := x
      cases f with
      | some f => simpa using ih
      | none => simpa using List.perm_middle.trans (ih.cons p)
  have hsorted : (o.map (·.1)).Pairwise (· ≤ ·) := List.pairwise_map.2 (ho.imp fun h => h.le)
  exact ((List.perm_insertionSort _ _).trans hperm).eq_of_pairwise' (List.pairwise_insertionSort _ _) hsorted

/-- the reader of a parcel written has its bytes next, and its objects listed -/
theorem reader_written (vs : List (Value F)) :
    (written vs).reader.Next (encAll vs) ∧ (written vs).reader.Listed (objsAll 0 vs) := by
  have hdata : (written vs).data = encAll vs := by rw [written_eq]; rfl
  have hfds : (written vs).fds.map (·.2) = (objsAll 0 vs).filterMap (·.2) := by
    rw [written_eq]
    simp only [Writer.put, List.nil_append, List.map_filterMap]
    congr 1
    funext x
    cases x.2 <;> rfl
  refine ⟨?_, offsets_eq vs, hfds, (objects_encAll vs 0).sorted, fun x hx => ?_⟩
  · show Holds (written vs).data 0 (encAll vs)
    rw [hdata]
    exact holds_self _
  · obtain ⟨c, hc, hlen, htype⟩ := (objects_encAll vs 0).typed _ (holds_self _) x hx
    rw [Reader.typeAt, ← htype]
    show (get? (written vs).data x.1 4).map leNat = _
    rw [hdata, ← hlen, show get? (encAll vs) x.1 c.length = some c from hc]
    rfl

theorem fitAll_of_roundTrips {vs : List (Value F)} (hd : depthAll vs ≤ MAX_DEPTH) (h : RoundTrips vs) : FitAll vs := by
  obtain ⟨r, hr, -⟩ := h
  obtain ⟨hn, hl⟩ := reader_written vs
  exact fitAll_of_read vs _ r _ hn rfl (by rw [show (written vs).reader.depth = 0 from rfl]; omega) hl (List.Subset.refl _) hr

/-- **What is written is read again, exactly where every length fits.** Values nested no deeper than a reader goes come
back from their parcel, with nothing left, if and only if no text, array or parcelable is as long as 2 ^ 31. -/
theorem round_trip_iff (vs : List (Value F)) (hd : depthAll vs ≤ MAX_DEPTH) : RoundTrips vs ↔ FitAll vs := by
  refine ⟨fitAll_of_roundTrips hd, fun hf => ?_⟩
  obtain ⟨hn, hl⟩ := reader_written vs
  have hr := readAll_enc vs _ _ hn rfl hf (by rw [show (written vs).reader.depth = 0 from rfl]; omega) hl
    (List.Subset.refl _)
  refine ⟨_, hr, ?_⟩
  have hdata : (written vs).data = encAll vs := by rw [written_eq]; rfl
  show (written vs).data.length - (0 + (encAll vs).length) = 0
  rw [hdata]
  omega

/-- one of each kind that nests or has objects -/
def sample : List (Value ℕ) :=
  [.string (some ['h', 'i']), .parcelable [.handle 7 3, .file (some 42), .body [.file (some 43), .i64s (some [1, 2])]],
    .nullBinder, .file none, .bytes (some [1, 2, 3]), .bools none, .i8 200]

theorem round_trip_sample : RoundTrips sample :=
  (round_trip_iff sample (by decide)).2 (by simp [sample, FitAll, Fits, encAll, enc, encArray, orNull, Utf16.encode,
    Utf16.encodeChar])

/-- an array of `n` bytes -/
def longArray (n : ℕ) : List (Value ℕ) := [.bytes (some (List.replicate n 0))]

theorem longArray_lt {n : ℕ} (h : RoundTrips (longArray n)) : n < 2 ^ 31 := by
  have hf := fitAll_of_roundTrips (by simp [longArray, depthAll, depth]) h
  simp only [longArray, FitAll, Fits, and_true] at hf
  simpa using hf _ rfl

/-- **An array of 2 ^ 31 bytes is lost**: its length is written as a negative number. -/
theorem round_trip_long : ¬RoundTrips (longArray (2 ^ 31)) := fun h => absurd (longArray_lt h) (lt_irrefl _)

end Omnidroid.Hal
