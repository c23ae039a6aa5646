/-
The wire form of a parcel's values (`omni-linux/src/hal/parcel.rs`): the bytes of each, and where its objects are.
- `enc`, `objs`: the form; `write_put`: it is what the writer puts after what it has.
- `Objects`: they come in order, each with its type at its place (`objects_enc`).
- `Fits`: every length the form counts in an `i32` is one.
-/
import Omnidroid.Hal.Parcel

namespace Omnidroid.Hal

open Bytes

variable {F : Type}

/-! ## The form -/

def word (v : BitVec 32) : Bytes := leBytes 4 v.toNat

def unitBytes (u : BitVec 16) : Bytes := leBytes 2 u.toNat
def longBytes (x : BitVec 64) : Bytes := leBytes 8 x.toNat
def boolWord (b : Bool) : Bytes := word (if b then 1 else 0)
def charWord (u : BitVec 16) : Bytes := word (u.setWidth 32)

def padding (n : ℕ) : Bytes := List.replicate (align4 n - n) 0

def encText (s : List Char) : Bytes :=
  let b := word (Writer.asI32 (Utf16.encode s).length) ++ (Utf16.encode s ++ [0]).flatMap unitBytes
  b ++ padding b.length

def encBytes (v : Bytes) : Bytes := word (Writer.asI32 v.length) ++ v ++ padding (4 + v.length)

def encArray {α : Type} (f : α → Bytes) (v : List α) : Bytes := word (Writer.asI32 v.length) ++ v.flatMap f

def orNull {α : Type} (f : α → Bytes) : Option α → Bytes
  | some v => f v
  | none => word (-1)

def fdBytes : Bytes := leBytes 4 TYPE_FD ++ leBytes 4 0x7f ++ leBytes 8 (2 ^ 64 - 1) ++ leBytes 8 1
def handleBytes (h : BitVec 32) : Bytes := leBytes 4 TYPE_HANDLE ++ leBytes 4 0 ++ leBytes 8 h.toNat ++ leBytes 8 0
def nullBytes : Bytes := leBytes 4 TYPE_BINDER ++ leBytes 4 0 ++ leBytes 8 0 ++ leBytes 8 0

mutual

def enc : Value F → Bytes
  | .i32 v => word v
  | .i64 v => longBytes v
  | .i8 v => word (v.signExtend 32)
  | .bool v => boolWord v
  | .char16 v => charWord v
  | .string s => orNull encText s
  | .bytes v => orNull encBytes v
  | .i32s v => orNull (encArray word) v
  | .i64s v => orNull (encArray longBytes) v
  | .bools v => orNull (encArray boolWord) v
  | .char16s v => orNull (encArray charWord) v
  | .marker present => boolWord present
  | .parcelable fields => word 1 ++ (word (Writer.asI32 (4 + (encAll fields).length)) ++ encAll fields)
  | .body fields => word (Writer.asI32 (4 + (encAll fields).length)) ++ encAll fields
  | .file none => word 0
  | .file (some _) => word 1 ++ (word 0 ++ fdBytes)
  | .handle h stability => handleBytes h ++ word stability
  | .nullBinder => nullBytes ++ word 0

def encAll : List (Value F) → Bytes
  | [] => []
  | v :: vs => enc v ++ encAll vs

end

mutual

/-- the objects of a value at `p`: where each is, and its file, or none for a handle -/
def objs (p : ℕ) : Value F → List (ℕ × Option F)
  | .parcelable fields => objsAll (p + 8) fields
  | .body fields => objsAll (p + 4) fields
  | .file (some f) => [(p + 8, some f)]
  | .handle _ _ => [(p, none)]
  | _ => []

def objsAll (p : ℕ) : List (Value F) → List (ℕ × Option F)
  | [] => []
  | v :: vs => objs p v ++ objsAll (p + (enc v).length) vs

end

mutual

/-- every length counted in an `i32` is below 2 ^ 31 -/
def Fits : Value F → Prop
  | .string s => ∀ t ∈ s, (Utf16.encode t).length < 2 ^ 31
  | .bytes v => ∀ l ∈ v, l.length < 2 ^ 31
  | .i32s v => ∀ l ∈ v, l.length < 2 ^ 31
  | .i64s v => ∀ l ∈ v, l.length < 2 ^ 31
  | .bools v => ∀ l ∈ v, l.length < 2 ^ 31
  | .char16s v => ∀ l ∈ v, l.length < 2 ^ 31
  | .parcelable fields => FitAll fields ∧ 4 + (encAll fields).length < 2 ^ 31
  | .body fields => FitAll fields ∧ 4 + (encAll fields).length < 2 ^ 31
  | _ => True

def FitAll : List (Value F) → Prop
  | [] => True
  | v :: vs => Fits v ∧ FitAll vs

end

mutual

/-- how deep parcelables nest in a value -/
def depth : Value F → ℕ
  | .parcelable fields => depthAll fields + 1
  | .body fields => depthAll fields + 1
  | _ => 0

def depthAll : List (Value F) → ℕ
  | [] => 0
  | v :: vs => max (depth v) (depthAll vs)

end

/-! ## What the writer puts -/

/-- bytes and objects after those a writer has -/
def Writer.put (w : Writer F) (b : Bytes) (o : List (ℕ × Option F)) : Writer F :=
  { data := w.data ++ b
    fds := w.fds ++ o.filterMap fun x => x.2.map fun f => (x.1, f)
    binders := w.binders ++ o.filterMap fun x => if x.2.isNone then some x.1 else none }

theorem put_put (w : Writer F) (b b' : Bytes) (o o' : List (ℕ × Option F)) :
    (w.put b o).put b' o' = w.put (b ++ b') (o ++ o') := by
  simp [Writer.put]

theorem put_nil (w : Writer F) : w.put [] [] = w := by simp [Writer.put]

theorem extend_eq (w : Writer F) (b : Bytes) : w.extend b = w.put b [] := by simp [Writer.put, Writer.extend]

theorem i32_eq (w : Writer F) (v : BitVec 32) : w.i32 v = w.put (word v) [] := extend_eq w _

@[simp] theorem length_word (v : BitVec 32) : (word v).length = 4 := length_leBytes 4 _

@[simp] theorem length_boolWord (b : Bool) : (boolWord b).length = 4 := length_word _

@[simp] theorem length_charWord (u : BitVec 16) : (charWord u).length = 4 := length_word _
@[simp] theorem length_longBytes (x : BitVec 64) : (longBytes x).length = 8 := length_leBytes 8 _
@[simp] theorem length_unitBytes (u : BitVec 16) : (unitBytes u).length = 2 := length_leBytes 2 _

theorem unit_eq (w : Writer F) (u : BitVec 16) : w.unit u = w.put (unitBytes u) [] := extend_eq w _
theorem i64_eq (w : Writer F) (v : BitVec 64) : w.i64 v = w.put (longBytes v) [] := extend_eq w _
theorem bool_eq (w : Writer F) (v : Bool) : w.bool v = w.put (boolWord v) [] := i32_eq w _
theorem char16_eq (w : Writer F) (v : BitVec 16) : w.char16 v = w.put (charWord v) [] := i32_eq w _

@[simp] theorem length_put (w : Writer F) (b : Bytes) (o : List (ℕ × Option F)) :
    (w.put b o).data.length = w.data.length + b.length := by simp [Writer.put]

theorem foldl_put {α : Type} {op : Writer F → α → Writer F} {f : α → Bytes} (h : ∀ w x, op w x = w.put (f x) [])
    (v : List α) (w : Writer F) : v.foldl op w = w.put (v.flatMap f) [] := by
  induction v generalizing w with
  | nil => exact (put_nil w).symm
  | cons x v ih => rw [List.foldl_cons, ih, h, put_put, List.flatMap_cons, List.append_nil]

theorem pad_put {w : Writer F} (h : w.data.length % 4 = 0) (b : Bytes) (o : List (ℕ × Option F)) :
    (w.put b o).pad = w.put (b ++ padding b.length) o := by
  rw [Writer.pad, extend_eq, put_put, List.append_nil, length_put, padding]
  congr 3
  unfold align4
  omega

theorem length_padding (n : ℕ) : n + (padding n).length = align4 n := by
  rw [padding, List.length_replicate]
  unfold align4
  omega

theorem align4_mod (n : ℕ) : align4 n % 4 = 0 := by unfold align4; omega

/-- the size goes over its placeholder -/
theorem parcelableEnd_put (w : Writer F) (b : Bytes) (o : List (ℕ × Option F)) :
    (w.put (word 0 ++ b) o).parcelableEnd w.data.length = w.put (word (Writer.asI32 (4 + b.length)) ++ b) o := by
  have hlen : (w.put (word 0 ++ b) o).data.length - w.data.length = 4 + b.length := by
    simp
  rw [Writer.parcelableEnd, hlen]
  have hdata : patch (w.put (word 0 ++ b) o).data w.data.length (leBytes 4 (Writer.asI32 (4 + b.length)).toNat) =
      w.data ++ (word (Writer.asI32 (4 + b.length)) ++ b) := by
    simp only [Writer.put, patch, word, length_leBytes]
    rw [List.take_left' rfl, ← List.append_assoc w.data, List.drop_left' (by simp), List.append_assoc]
  rw [hdata]
  rfl

theorem length_array {α : Type} {f : α → Bytes} {size : ℕ} (hf : ∀ x, (f x).length = size) (v : List α) :
    (v.flatMap f).length = v.length * size := by
  induction v with
  | nil => simp
  | cons x v ih => rw [List.flatMap_cons, List.length_append, ih, hf, List.length_cons, Nat.succ_mul, Nat.add_comm]

theorem length_encArray {α : Type} {f : α → Bytes} {size : ℕ} (hf : ∀ x, (f x).length = size) (v : List α) :
    (encArray f v).length = 4 + v.length * size := by
  rw [encArray, List.length_append, length_word, length_array hf]

theorem length_encText (s : List Char) : (encText s).length = align4 (6 + 2 * (Utf16.encode s).length) := by
  have h := length_padding (6 + 2 * (Utf16.encode s).length)
  have hb : (word (Writer.asI32 (Utf16.encode s).length) ++
      (Utf16.encode s ++ [0]).flatMap unitBytes).length = 6 + 2 * (Utf16.encode s).length := by
    rw [List.length_append, length_word, length_array length_unitBytes]
    simp only [List.length_append, List.length_singleton]
    omega
  rw [encText, List.length_append, hb, h]

theorem length_encBytes (v : Bytes) : (encBytes v).length = align4 (4 + v.length) := by
  rw [encBytes, List.length_append, List.length_append, length_word, length_padding]

theorem orNull_aligned {α : Type} {f : α → Bytes} (h : ∀ v, (f v).length % 4 = 0) (v : Option α) :
    (orNull f v).length % 4 = 0 := by
  cases v with
  | none => rw [orNull, length_word]
  | some v => exact h v

theorem encArray_aligned {α : Type} {f : α → Bytes} {size : ℕ} (hf : ∀ x, (f x).length = size) (hs : size % 4 = 0)
    (v : List α) : (encArray f v).length % 4 = 0 := by
  rw [length_encArray hf, Nat.add_mod, Nat.mul_mod, hs]
  simp

@[simp] theorem length_fdBytes : fdBytes.length = 24 := by simp [fdBytes]
@[simp] theorem length_handleBytes (h : BitVec 32) : (handleBytes h).length = 24 := by simp [handleBytes]
@[simp] theorem length_nullBytes : nullBytes.length = 24 := by simp [nullBytes]

mutual

theorem enc_aligned : ∀ v : Value F, (enc v).length % 4 = 0
  | .i32 _ => by simp [enc]
  | .i64 _ => by simp [enc]
  | .i8 _ => by simp [enc]
  | .bool _ => by simp [enc]
  | .char16 _ => by simp [enc]
  | .string s => by rw [enc]; exact orNull_aligned (fun t => by rw [length_encText, align4_mod]) s
  | .bytes v => by rw [enc]; exact orNull_aligned (fun t => by rw [length_encBytes, align4_mod]) v
  | .i32s v => by rw [enc]; exact orNull_aligned (encArray_aligned length_word (by rfl)) v
  | .i64s v => by rw [enc]; exact orNull_aligned (encArray_aligned length_longBytes (by rfl)) v
  | .bools v => by rw [enc]; exact orNull_aligned (encArray_aligned length_boolWord (by rfl)) v
  | .char16s v => by rw [enc]; exact orNull_aligned (encArray_aligned length_charWord (by rfl)) v
  | .marker _ => by simp [enc]
  | .parcelable fields => by
    have := encAll_aligned fields
    simp only [enc, List.length_append, length_word]; omega
  | .body fields => by
    have := encAll_aligned fields
    simp only [enc, List.length_append, length_word]; omega
  | .file none => by simp [enc]
  | .file (some _) => by simp [enc]
  | .handle _ _ => by simp [enc]
  | .nullBinder => by simp [enc]

theorem encAll_aligned : ∀ vs : List (Value F), (encAll vs).length % 4 = 0
  | [] => rfl
  | v :: vs => by
    have := enc_aligned v
    have := encAll_aligned vs
    rw [encAll, List.length_append]; omega

end

theorem orNull_put {α : Type} {w : Writer F} {write : Writer F → α → Writer F} {f : α → Bytes}
    (h : ∀ v, write w v = w.put (f v) []) (v : Option α) : w.orNull write v = w.put (orNull f v) [] := by
  cases v with
  | none => exact i32_eq w _
  | some v => exact h v

theorem array_put {α : Type} {op : Writer F → α → Writer F} {f : α → Bytes} (h : ∀ w x, op w x = w.put (f x) [])
    (w : Writer F) (v : List α) : v.foldl op (w.i32 (Writer.asI32 v.length)) = w.put (encArray f v) [] := by
  rw [foldl_put h, i32_eq, put_put, List.append_nil, encArray]

theorem string16_put {w : Writer F} (h : w.data.length % 4 = 0) (s : List Char) :
    w.string16 s = w.put (encText s) [] := by
  rw [Writer.string16, foldl_put unit_eq, i32_eq, put_put, pad_put h,
    encText, List.append_nil]

theorem byteArray_put {w : Writer F} (h : w.data.length % 4 = 0) (v : Bytes) :
    w.byteArray v = w.put (encBytes v) [] := by
  rw [Writer.byteArray, i32_eq, extend_eq, put_put, pad_put h, encBytes, List.append_nil, List.length_append, length_word]

mutual

/-- a value is written after what there is -/
theorem write_put : ∀ (v : Value F) (w : Writer F), w.data.length % 4 = 0 →
    w.write v = w.put (enc v) (objs w.data.length v)
  | .i32 v, w, _ => by simp only [Writer.write, enc, objs]; exact i32_eq w v
  | .i64 v, w, _ => by simp only [Writer.write, enc, objs]; exact i64_eq w v
  | .i8 v, w, _ => by simp only [Writer.write, enc, objs]; exact i32_eq w _
  | .bool v, w, _ => by simp only [Writer.write, enc, objs]; exact i32_eq w _
  | .char16 v, w, _ => by simp only [Writer.write, enc, objs]; exact i32_eq w _
  | .string s, w, h => by simp only [Writer.write, enc, objs]; exact orNull_put (string16_put h) s
  | .bytes v, w, h => by simp only [Writer.write, enc, objs]; exact orNull_put (byteArray_put h) v
  | .i32s v, w, _ => by simp only [Writer.write, enc, objs]; exact orNull_put (array_put i32_eq w) v
  | .i64s v, w, _ => by simp only [Writer.write, enc, objs]; exact orNull_put (array_put i64_eq w) v
  | .bools v, w, _ => by simp only [Writer.write, enc, objs]; exact orNull_put (array_put bool_eq w) v
  | .char16s v, w, _ => by simp only [Writer.write, enc, objs]; exact orNull_put (array_put char16_eq w) v
  | .marker present, w, _ => by simp only [Writer.write, enc, objs]; exact i32_eq w _
  | .parcelable fields, w, h => by
    simp only [Writer.write, Writer.parcelableStart, Writer.parcelableBodyStart, enc, objs]
    have ih := writeAll_put fields ((w.i32 1).i32 0) (by simp only [i32_eq, length_put, length_word]; omega)
    rw [ih]
    simp only [i32_eq, length_put, length_word, put_put, List.append_assoc, List.nil_append]
    have hend := parcelableEnd_put (w.put (word 1) []) (encAll fields) (objsAll (w.data.length + 8) fields)
    simp only [put_put, length_put, length_word, List.nil_append] at hend
    simp only [List.length_append, length_word]
    exact hend
  | .body fields, w, h => by
    simp only [Writer.write, Writer.parcelableBodyStart, enc, objs]
    have ih := writeAll_put fields (w.i32 0) (by simp only [i32_eq, length_put, length_word]; omega)
    rw [ih]
    simp only [i32_eq, length_put, length_word, put_put, List.nil_append]
    rw [parcelableEnd_put]
  | .file none, w, _ => by simp only [Writer.write, enc, objs]; exact i32_eq w _
  | .file (some f), w, _ => by
    simp only [Writer.write, Writer.nullableFile, Writer.file, enc, objs, i32_eq, extend_eq, put_put, length_put, length_word,
      List.length_append]
    simp [Writer.put, fdBytes]
  | .handle h stability, w, _ => by
    simp only [Writer.write, Writer.handle, enc, objs, i32_eq, extend_eq, put_put]
    simp [Writer.put, handleBytes]
  | .nullBinder, w, _ => by
    simp only [Writer.write, Writer.nullBinder, enc, objs, i32_eq, extend_eq, put_put, nullBytes, List.nil_append]

theorem writeAll_put : ∀ (vs : List (Value F)) (w : Writer F), w.data.length % 4 = 0 →
    w.writeAll vs = w.put (encAll vs) (objsAll w.data.length vs)
  | [], w, _ => by simp only [Writer.writeAll, encAll, objsAll]; exact (put_nil w).symm
  | v :: vs, w, h => by
    have ha := enc_aligned v
    rw [Writer.writeAll, write_put v w h, writeAll_put vs _ (by rw [length_put]; omega), put_put, length_put, encAll, objsAll]

end

/-! ## Objects -/

/-- the type of an object -/
def typeOf (x : ℕ × Option F) : ℕ := if x.2.isSome then TYPE_FD else TYPE_HANDLE

/-- the objects `o` of the bytes `b` at `p`: inside them, in order, each with its type at its place -/
structure Objects (b : Bytes) (p : ℕ) (o : List (ℕ × Option F)) : Prop where
  within : ∀ x ∈ o, p ≤ x.1 ∧ x.1 < p + b.length
  sorted : o.Pairwise fun x y => x.1 < y.1
  typed : ∀ d, Holds d p b → ∀ x ∈ o, ∃ c, Holds d x.1 c ∧ c.length = 4 ∧ leNat c = typeOf x

theorem Objects.nil (b : Bytes) (p : ℕ) : Objects b p ([] : List (ℕ × Option F)) :=
  ⟨fun _ hx => (by cases hx), .nil, fun _ _ _ hx => (by cases hx)⟩

theorem Objects.append {b b' : Bytes} {p : ℕ} {o o' : List (ℕ × Option F)} (h : Objects b p o)
    (h' : Objects b' (p + b.length) o') : Objects (b ++ b') p (o ++ o') where
  within x hx := by
    rw [List.length_append]
    rcases List.mem_append.1 hx with hx | hx
    · have := h.within x hx; omega
    · have := h'.within x hx; omega
  sorted := List.pairwise_append.2 ⟨h.sorted, h'.sorted, fun x hx y hy => by
    have := h.within x hx
    have := h'.within y hy
    omega⟩
  typed d hd x hx := by
    obtain ⟨h1, h2⟩ := holds_append.1 hd
    rcases List.mem_append.1 hx with hx | hx
    · exact h.typed d h1 x hx
    · exact h'.typed d h2 x hx

/-- bytes without objects before them -/
theorem Objects.after {b : Bytes} {p : ℕ} {o : List (ℕ × Option F)} (a : Bytes) (h : Objects b (p + a.length) o) :
    Objects (a ++ b) p o := (Objects.nil a p).append h

/-- one object -/
theorem Objects.one {p t : ℕ} (x : Option F) (b : Bytes) (ht : typeOf (p, x) = t) (hlt : t < 2 ^ 32) :
    Objects (leBytes 4 t ++ b) p [(p, x)] where
  within y hy := by
    cases List.mem_singleton.1 hy
    simp
  sorted := List.pairwise_singleton _ _
  typed d hd y hy := by
    cases List.mem_singleton.1 hy
    refine ⟨_, (holds_append.1 hd).1, length_leBytes 4 t, ?_⟩
    rw [leNat_leBytes, ht]
    exact Nat.mod_eq_of_lt hlt

theorem objects_fd (p : ℕ) (f : F) : Objects fdBytes p [(p, some f)] := by
  rw [fdBytes, List.append_assoc, List.append_assoc]
  exact .one _ _ rfl (by decide)

theorem objects_handle (p : ℕ) (h : BitVec 32) (b : Bytes) :
    Objects (handleBytes h ++ b) p [(p, (none : Option F))] := by
  rw [handleBytes, List.append_assoc, List.append_assoc, List.append_assoc]
  exact .one _ _ rfl (by decide)

mutual

theorem objects_enc : ∀ (v : Value F) (p : ℕ), Objects (enc v) p (objs p v)
  | .parcelable fields, p => by
    simp only [enc, objs]
    exact .after (word 1) (.after _ (by simpa only [length_word] using objects_encAll fields (p + 4 + 4)))
  | .body fields, p => by
    simp only [enc, objs]
    exact .after _ (by simpa only [length_word] using objects_encAll fields (p + 4))
  | .file (some f), p => by
    simp only [enc, objs]
    exact .after (word 1) (.after (word 0) (by simpa only [length_word] using objects_fd (p + 4 + 4) f))
  | .handle h stability, p => by simp only [enc, objs]; exact objects_handle p h _
  | .i32 _, p | .i64 _, p | .i8 _, p | .bool _, p | .char16 _, p | .string _, p | .bytes _, p | .i32s _, p
  | .i64s _, p | .bools _, p | .char16s _, p | .marker _, p | .file none, p | .nullBinder, p => by
    simp only [objs]; exact .nil _ p

theorem objects_encAll : ∀ (vs : List (Value F)) (p : ℕ), Objects (encAll vs) p (objsAll p vs)
  | [], p => .nil _ p
  | v :: vs, p => by rw [encAll, objsAll]; exact (objects_enc v p).append (objects_encAll vs _)

end

end Omnidroid.Hal
