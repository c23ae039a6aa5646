/-
Where reading a manifest ends (`omni-apk/src/manifest.rs`).

- `Sure`, `Fine`: a part of the reading that does not panic, and takes no more turns than that. Every read of a file's number is: they
  are of 16 and 32 bits, and what is reckoned from them stays far below 2^64.
- `Reader.Fine`: what the loop over the chunks asks of a reader; both have it.
- `Idle`: a chunk without a byte, of a kind that the reader passes over. The loop does not leave it.
- `ends_iff`: a reading ends, within as many turns as the document has bytes, exactly when it comes to no such chunk.
-/
import Omnidroid.Apk.Manifest

namespace Omnidroid.Apk.Manifest

/-! ## Without a panic -/

def Sure {α : Type} (x : Except Stop α) : Prop := x ≠ .error .panic

section
variable {α β : Type} {x : Except Stop α} {f : α → Except Stop β}

theorem sure_ok (a : α) : Sure (.ok a : Except Stop α) := by
  intro h
  cases h

theorem sure_bad (b : Bad) : Sure (.error (.bad b) : Except Stop α) := by
  intro h
  cases h

theorem Sure.bind (hx : Sure x) (hf : ∀ a, x = .ok a → Sure (f a)) : Sure (x >>= f) := by
  cases x with
  | ok a => exact hf a rfl
  | error e => exact fun h => hx (by cases e with
    | panic => rfl
    | bad b => cases h)

theorem Sure.map (hx : Sure x) (g : α → β) : Sure (x.map g) := by
  cases x with
  | ok a => exact sure_ok _
  | error e => exact fun h => hx (by cases e with
    | panic => rfl
    | bad b => cases h)

end

section
variable {bytes : Bytes} {a n : ℕ} {detail : Bad}

theorem getAt_sure (h : a + n < 2 ^ 64) : Sure (getAt bytes a n detail) := by
  unfold getAt
  rw [if_neg (by omega)]
  split
  · exact sure_ok _
  · exact sure_bad _

theorem getAt_ok {b : Bytes} (h : getAt bytes a n detail = .ok b) : a + n ≤ bytes.length := by
  unfold getAt at h
  split_ifs at h
  split at h
  · rename_i hget
    exact (Bytes.get?_eq_some.mp hget).1
  · cases h

theorem byteAt_sure (h : a + 1 < 2 ^ 64) : Sure (byteAt bytes a detail) := (getAt_sure h).bind fun _ _ => sure_ok _

theorem u16At_sure (h : a + 2 < 2 ^ 64) : Sure (u16At bytes a) := (getAt_sure h).bind fun _ _ => sure_ok _

theorem u32At_sure (h : a + 4 < 2 ^ 64) : Sure (u32At bytes a) := (getAt_sure h).bind fun _ _ => sure_ok _

theorem bind_eq_ok {α β : Type} {x : Except Stop α} {f : α → Except Stop β} {b : β} (h : x >>= f = .ok b) :
    ∃ a, x = .ok a ∧ f a = .ok b := by
  cases x with
  | ok a => exact ⟨a, rfl, h⟩
  | error e => cases h

theorem u16At_ok {v : UInt16} (h : u16At bytes a = .ok v) : a + 2 ≤ bytes.length := by
  obtain ⟨b, hb, _⟩ := bind_eq_ok h
  exact getAt_ok hb

theorem u32At_ok {v : UInt32} (h : u32At bytes a = .ok v) : a + 4 ≤ bytes.length := by
  obtain ⟨b, hb, _⟩ := bind_eq_ok h
  exact getAt_ok hb

end

theorem resourceId_sure (ids : Bytes) (index : UInt32) : Sure (resourceId ids index) := by
  have hindex := index.toNat_lt
  have hget : Sure (getAt ids (index.toNat * 4) 4 .noElement) := getAt_sure (by omega)
  unfold resourceId
  split
  · exact sure_ok _
  · rename_i hpanic
    exact absurd hpanic hget
  · exact sure_ok _

/-! ## Strings -/

theorem StringPool.new_sure (chunk : Bytes) : Sure (StringPool.new chunk) :=
  (u32At_sure (by norm_num)).bind fun _ _ => (u32At_sure (by norm_num)).bind fun _ _ => (u32At_sure (by norm_num)).bind fun _ _ =>
    (u16At_sure (by norm_num)).bind fun _ _ => sure_ok _

theorem utf8Length_sure (chunk : Bytes) {a : ℕ} (h : a + 2 < 2 ^ 64) : Sure (utf8Length chunk a) := by
  refine (byteAt_sure (by omega)).bind fun first _ => ?_
  split_ifs
  · exact sure_ok _
  · exact (byteAt_sure (by omega)).bind fun _ _ => sure_ok _

theorem utf8Length_ok {chunk : Bytes} {a : ℕ} {l : Length} (h : utf8Length chunk a = .ok l) : l.len < 2 ^ 16 ∧ l.after ≤ a + 2 := by
  obtain ⟨first, _, h⟩ := bind_eq_ok h
  have hfirst := first.toNat_lt
  split_ifs at h
  · cases h
    exact ⟨by dsimp only; omega, by dsimp only; omega⟩
  · obtain ⟨second, _, h⟩ := bind_eq_ok h
    cases h
    refine ⟨Nat.or_lt_two_pow ?_ (second.toNat_lt.trans (by norm_num)), le_rfl⟩
    have := (first &&& 0x7f).toNat_lt
    rw [Nat.shiftLeft_eq]
    omega

theorem utf16Length_sure (chunk : Bytes) {a : ℕ} (h : a + 4 < 2 ^ 64) : Sure (utf16Length chunk a) := by
  refine (u16At_sure (by omega)).bind fun first _ => ?_
  split_ifs
  · exact sure_ok _
  · exact (u16At_sure (by omega)).bind fun _ _ => sure_ok _

theorem utf16Length_ok {chunk : Bytes} {a : ℕ} {l : Length} (h : utf16Length chunk a = .ok l) : l.len < 2 ^ 32 ∧ l.after ≤ a + 4 := by
  obtain ⟨first, _, h⟩ := bind_eq_ok h
  have hfirst := first.toNat_lt
  split_ifs at h
  · cases h
    exact ⟨by dsimp only; omega, by dsimp only; omega⟩
  · obtain ⟨second, _, h⟩ := bind_eq_ok h
    cases h
    refine ⟨Nat.or_lt_two_pow ?_ (second.toNat_lt.trans (by norm_num)), le_rfl⟩
    have := (first &&& 0x7fff).toNat_lt
    rw [Nat.shiftLeft_eq]
    omega

/-- the offset of a string, and where its lengths end, are sums of a few numbers of 32 bits -/
theorem StringPool.get_sure (p : StringPool) (index : UInt32) : Sure (p.get index) := by
  have hindex := index.toNat_lt
  have hoffsets := p.offsetsAt.toNat_lt
  have hstart := p.stringsStart.toNat_lt
  unfold StringPool.get
  split_ifs
  · exact sure_bad _
  · refine (u32At_sure (by omega)).bind fun offset _ => ?_
    have hoffset := offset.toNat_lt
    refine (utf8Length_sure _ (by omega)).bind fun u hu => ?_
    obtain ⟨_, hu⟩ := utf8Length_ok hu
    refine (utf8Length_sure _ (by omega)).bind fun l hl => ?_
    obtain ⟨hlen, hl⟩ := utf8Length_ok hl
    refine (getAt_sure (by omega)).bind fun bytes _ => ?_
    split
    · exact sure_ok _
    · exact sure_bad _
  · refine (u32At_sure (by omega)).bind fun offset _ => ?_
    have hoffset := offset.toNat_lt
    refine (utf16Length_sure _ (by omega)).bind fun l hl => ?_
    obtain ⟨hlen, hl⟩ := utf16Length_ok hl
    refine (getAt_sure (by omega)).bind fun bytes _ => ?_
    split
    · exact sure_ok _
    · exact sure_bad _

/-! ## Turns -/

/-- without a panic, and within so many turns -/
structure Fine {α : Type} (n : ℕ) (p : Parse α) : Prop where
  sure : Sure p.out
  turns : p.turns ≤ n

section
variable {α β : Type}

theorem fine_pure (a : α) : Fine 0 (pure a : Parse α) := ⟨sure_ok a, le_rfl⟩

theorem fine_bad (b : Bad) : Fine 0 (⟨.error (.bad b), 0⟩ : Parse α) := ⟨sure_bad b, le_rfl⟩

theorem Sure.lift {x : Except Stop α} (h : Sure x) : Fine 0 (liftM x : Parse α) := ⟨h, le_rfl⟩

theorem Fine.mono {m n : ℕ} {p : Parse α} (h : Fine m p) (hle : m ≤ n) : Fine n p := ⟨h.sure, h.turns.trans hle⟩

theorem Fine.bind {m n : ℕ} {p : Parse α} {f : α → Parse β} (hp : Fine m p) (hf : ∀ a, p.out = .ok a → Fine n (f a)) :
    Fine (m + n) (p >>= f) := by
  obtain ⟨out, turns⟩ := p
  cases out with
  | error e =>
    refine ⟨fun h => hp.sure ?_, hp.turns.trans (Nat.le_add_right m n)⟩
    cases e with
    | panic => rfl
    | bad b => cases h
  | ok a =>
    have hfa := hf a rfl
    exact ⟨hfa.sure, Nat.add_le_add hp.turns hfa.turns⟩

theorem Sure.before {n : ℕ} {x : Except Stop α} {f : α → Parse β} (hx : Sure x) (hf : ∀ a, x = .ok a → Fine n (f a)) :
    Fine n ((liftM x : Parse α) >>= f) :=
  (hx.lift.bind hf).mono (by omega)

theorem out_bind {p : Parse α} {f : α → Parse β} {b : β} (h : (p >>= f).out = .ok b) : ∃ a, p.out = .ok a ∧ (f a).out = .ok b := by
  obtain ⟨out, turns⟩ := p
  cases out with
  | ok a => exact ⟨a, rfl, h⟩
  | error e => cases h

theorem bind_lift_ok (a : α) (f : α → Parse β) : ((liftM (.ok a : Except Stop α) : Parse α) >>= f) = f a := by
  change (⟨(f a).out, 0 + (f a).turns⟩ : Parse β) = f a
  rw [Nat.zero_add]

/-- nothing comes after what has no result -/
theorem bind_not_ok {p : Parse α} (hp : ∀ a, p.out ≠ .ok a) (f : α → Parse β) (b : β) : (p >>= f).out ≠ .ok b := by
  intro h
  obtain ⟨a, ha, _⟩ := out_bind h
  exact hp a ha

/-- a loop over attributes comes no further than they reach into the element, each 20 bytes or more after the one before -/
theorem forRange_fine {σ ρ : Type} {body : ℕ → σ → Except Stop (σ ⊕ ρ)} {L bound : ℕ} (hsure : ∀ i s, i < bound → Sure (body i s))
    (hgoes : ∀ i s s', body i s = .ok (.inl s') → 20 * i + 8 ≤ L) {count i : ℕ} (hcount : i + count ≤ bound) (s : σ) :
    Sure (forRange body count i s).out ∧
      ((forRange body count i s).turns ≤ 1 ∨ 20 * (i + (forRange body count i s).turns) ≤ L + 32) := by
  induction count generalizing i s with
  | zero => exact ⟨sure_ok _, .inl (Nat.zero_le 1)⟩
  | succ count ih =>
    rw [forRange]
    cases hbody : body i s with
    | error e =>
      have := hsure i s (by omega)
      rw [hbody] at this
      exact ⟨fun h => this (by injection h with h; rw [h]), .inl le_rfl⟩
    | ok out =>
      cases out with
      | inr r => exact ⟨sure_ok _, .inl le_rfl⟩
      | inl s' =>
        obtain ⟨hrest, hturns⟩ := ih (i := i + 1) (by omega) s'
        refine ⟨hrest, .inr ?_⟩
        have := hgoes i s s' hbody
        dsimp only
        omega

end

/-! ## Elements -/

/-- an element whose attributes are where 16-bit numbers say -/
structure Element.Small (e : Element) : Prop where
  first : e.first < 2 ^ 17
  size : e.size < 2 ^ 16
  wide : 20 ≤ e.size
  count : e.count < 2 ^ 16
  length : 14 ≤ e.chunk.length

theorem Element.new_sure (chunk : Bytes) (header : UInt16) (strings : StringPool) (ids : Bytes) :
    Sure (Element.new chunk header strings ids) := by
  have hheader := header.toNat_lt
  refine (u32At_sure (by omega)).bind fun index _ => (strings.get_sure index).bind fun name _ =>
    (u16At_sure (by omega)).bind fun size _ => ?_
  split_ifs
  · exact sure_bad _
  · exact (u16At_sure (by omega)).bind fun start _ => (u16At_sure (by omega)).bind fun count _ => sure_ok _

theorem Element.new_ok {chunk : Bytes} {header : UInt16} {strings : StringPool} {ids : Bytes} {e : Element}
    (h : Element.new chunk header strings ids = .ok e) : e.chunk = chunk ∧ e.Small := by
  obtain ⟨index, _, h⟩ := bind_eq_ok h
  obtain ⟨name, _, h⟩ := bind_eq_ok h
  obtain ⟨size, _, h⟩ := bind_eq_ok h
  split_ifs at h with hsize
  obtain ⟨start, _, h⟩ := bind_eq_ok h
  obtain ⟨count, hcount, h⟩ := bind_eq_ok h
  have hlength := u16At_ok hcount
  have hheader := header.toNat_lt
  have hstart := start.toNat_lt
  cases h
  exact ⟨rfl, by dsimp only; omega, size.toNat_lt, not_lt.mp hsize, count.toNat_lt, by dsimp only; omega⟩

theorem isOkAnd_sure {x : Except Stop Text} (h : Sure x) (name : Text) : Sure (isOkAnd x name) := by
  unfold isOkAnd
  split
  · exact sure_ok _
  · exact absurd rfl h
  · exact sure_ok _

theorem Element.isNamed_sure (e : Element) (name : Text) (id : Option UInt32) (nameIndex : UInt32) (rid : Option UInt32) :
    Sure (e.isNamed name id nameIndex rid) := by
  unfold Element.isNamed
  split_ifs
  · exact sure_ok _
  · exact isOkAnd_sure (e.strings.get_sure _) _

theorem Element.stringOf_sure (e : Element) (a : Option Attribute) : Sure (e.stringOf a) := by
  cases a with
  | none => exact sure_ok _
  | some a =>
    unfold Element.stringOf
    dsimp only
    split_ifs
    · exact (e.strings.get_sure _).map _
    · exact sure_ok _
    · exact (e.strings.get_sure _).map _

theorem Element.intOf_sure (e : Element) (a : Option Attribute) : Sure (e.intOf a) := by
  cases a with
  | none => exact sure_ok _
  | some a =>
    unfold Element.intOf
    dsimp only
    split_ifs
    · exact sure_ok _
    · exact (e.strings.get_sure _).map _
    · exact sure_ok _

/-- so many turns that three loops of them, and one turn more, are no more than the element has bytes -/
def Element.budget (e : Element) : ℕ := (e.chunk.length - 1) / 3

section
variable {e : Element} (h : e.Small)
include h

theorem Element.Small.at_lt {i : ℕ} (hi : i < 2 ^ 16) : e.first + i * e.size < 2 ^ 33 := by
  have := Nat.mul_lt_mul'' hi h.size
  have := h.first
  omega

theorem Element.Small.findTurn_sure (name : Text) (id : Option UInt32) {i : ℕ} (hi : i < 2 ^ 16) (u : Unit) : Sure (e.findTurn name id i u) := by
  have hat := h.at_lt hi
  refine (u32At_sure (by omega)).bind fun nameIndex _ => (resourceId_sure _ _).bind fun rid _ => ?_
  refine (e.isNamed_sure name id nameIndex rid).bind fun named _ => ?_
  split_ifs
  · exact (u32At_sure (by omega)).bind fun _ _ => (byteAt_sure (by omega)).bind fun _ _ =>
      (u32At_sure (by omega)).bind fun _ _ => sure_ok _
  · exact sure_ok _

theorem Element.Small.findTurn_goes {name : Text} {id : Option UInt32} {i : ℕ} {u u' : Unit} (hgo : e.findTurn name id i u = .ok (.inl u')) :
    20 * i + 8 ≤ e.chunk.length := by
  obtain ⟨nameIndex, hread, _⟩ := bind_eq_ok hgo
  have hle := u32At_ok hread
  have hwide := Nat.mul_le_mul_left i h.wide
  omega

theorem Element.Small.find_fine (name : Text) (id : Option UInt32) : Fine e.budget (e.find name id) := by
  obtain ⟨hsure, hturns⟩ := @forRange_fine _ _ (e.findTurn name id) _ _ (fun i u hi => h.findTurn_sure name id hi u)
    (fun i u u' => h.findTurn_goes) _ _ (show 0 + e.count ≤ 2 ^ 16 by have := h.count; omega) ()
  refine Fine.bind (m := e.budget) (n := 0) ⟨hsure, ?_⟩ fun _ _ => fine_pure _
  have := h.length
  unfold Element.budget
  omega

theorem Element.Small.string_fine (name : Text) (id : Option UInt32) : Fine e.budget (e.string name id) :=
  (h.find_fine name id).bind fun a _ => (e.stringOf_sure a).lift

theorem Element.Small.int_fine (name : Text) (id : UInt32) : Fine e.budget (e.int name id) :=
  (h.find_fine name (some id)).bind fun a _ => (e.intOf_sure a).lift

theorem Element.Small.boolean_fine (name : Text) (id : UInt32) : Fine e.budget (e.boolean name id) :=
  (h.find_fine name (some id)).bind fun _ _ => fine_pure _

theorem Launch.startElement_fine (s : Launch) : Fine (3 * e.budget) (s.startElement e) := by
  have hstring : ∀ name id (f : Option Text → Launch), Fine (3 * e.budget) (do let t ← e.string name id; pure (f t)) :=
    fun name id f => ((h.string_fine name id).bind fun _ _ => fine_pure _).mono (by omega)
  have hpure : ∀ s : Launch, Fine (3 * e.budget) (pure s) := fun s => (fine_pure s).mono (Nat.zero_le _)
  unfold Launch.startElement
  split_ifs
  · refine ((h.string_fine _ _).bind fun package _ => (h.int_fine _ _).bind fun versionCode _ =>
      (h.string_fine _ _).bind fun split _ => fine_pure _).mono (by omega)
  · exact ((h.string_fine _ _).bind fun name _ => (h.boolean_fine _ _).bind fun enabled _ => fine_pure _).mono (by omega)
  · refine ((h.string_fine _ _).bind (n := e.budget) fun name _ => ?_).mono (by omega)
    split_ifs
    · exact (h.string_fine _ _).bind fun value _ => fine_pure _
    · exact (fine_pure _).mono (Nat.zero_le _)
  · exact hpure _
  · exact hpure _
  · exact hstring _ _ _
  · exact hstring _ _ _
  · exact hpure _

end

/-! ## The root element -/

theorem rootText_sure (strings : StringPool) (name : Text) (a : Attribute) : Sure (rootText strings name a) := by
  unfold rootText
  split_ifs
  · exact strings.get_sure _
  · exact sure_bad _
  · exact sure_bad _
  · exact strings.get_sure _

theorem rootTurn_sure {chunk : Bytes} (strings : StringPool) (ids : Bytes) {first size i : ℕ} (hat : first + i * size < 2 ^ 33) (root : Root) :
    Sure (rootTurn chunk strings ids first size i root) := by
  refine (u32At_sure (by omega)).bind fun nameIndex _ => (u32At_sure (by omega)).bind fun raw _ =>
    (byteAt_sure (by omega)).bind fun dataType _ => (u32At_sure (by omega)).bind fun data _ =>
    (strings.get_sure nameIndex).bind fun name _ => (resourceId_sure ids nameIndex).bind fun id _ => ?_
  have htext := rootText_sure strings name ⟨raw, dataType, data⟩
  dsimp only
  split_ifs
  · exact htext.bind fun _ _ => sure_ok _
  · exact htext.bind fun _ _ => sure_ok _
  · exact sure_ok _
  · refine htext.bind fun t _ => ?_
    split
    · exact sure_ok _
    · exact sure_bad _
  · exact sure_ok _

theorem rootTurn_goes {chunk : Bytes} {strings : StringPool} {ids : Bytes} {first size i : ℕ} (hsize : 20 ≤ size) {root root' : Root}
    (hgo : rootTurn chunk strings ids first size i root = .ok (.inl root')) : 20 * i + 8 ≤ chunk.length := by
  obtain ⟨nameIndex, hread, _⟩ := bind_eq_ok hgo
  have hle := u32At_ok hread
  have hwide := Nat.mul_le_mul_left i hsize
  omega

theorem Root.made_sure (root : Root) : Sure root.made := by
  unfold Root.made
  split
  · exact sure_bad _
  · exact sure_bad _
  · exact sure_bad _
  · exact sure_ok _

/-! ## The readers -/

/-- what the loop asks of a reader: an element's turns are less than its bytes, and an empty element is an error -/
structure Reader.Fine {σ ρ : Type} (r : Reader σ ρ) : Prop where
  start : ∀ chunk header strings ids kept, Manifest.Fine (chunk.length - 1) (r.start chunk header strings ids kept)
  startEmpty : ∀ header strings ids kept out, (r.start [] header strings ids kept).out ≠ .ok out
  ends : ∀ f ∈ r.ends, ∀ chunk header strings kept, Sure (f chunk header strings kept)
  endsEmpty : ∀ f ∈ r.ends, ∀ header strings kept out, f [] header strings kept ≠ .ok out
  finish : ∀ kept, Sure (r.finish kept)

theorem rootElement_fine (chunk : Bytes) (header : UInt16) (strings : StringPool) (ids : Bytes) :
    Fine (chunk.length - 1) (rootElement chunk header strings ids) := by
  have hheader := header.toNat_lt
  have hzero : ∀ {α : Type} {p : Parse α}, Fine 0 p → Fine (chunk.length - 1) p := fun h => h.mono (Nat.zero_le _)
  unfold rootElement
  dsimp only
  refine (u32At_sure (by omega)).before fun index _ => (strings.get_sure index).before fun element _ => ?_
  split_ifs
  · exact hzero (fine_bad _)
  refine (u16At_sure (by omega)).before fun start _ => (u16At_sure (by omega)).before fun size _ =>
    (u16At_sure (by omega)).before fun count hcount => ?_
  split_ifs with hsize
  · exact hzero (fine_bad _)
  have hstart := start.toNat_lt
  have hsize' := size.toNat_lt
  have hcount' := count.toNat_lt
  have hlength : header.toNat + 12 + 2 ≤ chunk.length := u16At_ok hcount
  obtain ⟨hsure, hturns⟩ := @forRange_fine _ _ (rootTurn chunk strings ids (header.toNat + start.toNat) size.toNat) _ (2 ^ 16)
    (fun i root hi => rootTurn_sure strings ids (by have := Nat.mul_lt_mul'' hi hsize'; omega) root)
    (fun i root root' => rootTurn_goes (not_lt.mp hsize)) count.toNat 0 (by omega) {}
  exact Fine.bind (m := chunk.length - 1) (n := 0) ⟨hsure, by omega⟩ fun root _ => (Root.made_sure _).lift

theorem u32At_nil (a : ℕ) (v : UInt32) : u32At [] a ≠ .ok v := by
  intro h
  have := u32At_ok h
  rw [List.length_nil] at this
  omega

theorem appManifest_fine : AppManifest.reader.Fine where
  start chunk header strings ids _ := (rootElement_fine chunk header strings ids).bind fun _ _ => fine_pure _
  startEmpty header strings ids _ := bind_not_ok (bind_not_ok (u32At_nil _) _) _
  ends _ hf := by cases hf
  endsEmpty _ hf := by cases hf
  finish _ := sure_bad _

theorem launchInfo_fine : LaunchInfo.reader.Fine where
  start chunk header strings ids s := by
    refine (Element.new_sure chunk header strings ids).before fun e he => ?_
    obtain ⟨hchunk, hsmall⟩ := Element.new_ok he
    have hlength := hsmall.length
    refine ((Launch.startElement_fine hsmall s).bind fun _ _ => fine_pure _).mono ?_
    rw [← hchunk]
    unfold Element.budget
    omega
  startEmpty header strings ids s := by
    refine bind_not_ok (fun e he => ?_) _
    obtain ⟨hchunk, hsmall⟩ := Element.new_ok he
    have hlength := hsmall.length
    rw [hchunk, List.length_nil] at hlength
    omega
  ends f hf chunk header strings s := by
    have hheader := header.toNat_lt
    cases hf
    exact (u32At_sure (by omega)).bind fun index _ => (strings.get_sure index).bind fun _ _ => sure_ok _
  endsEmpty f hf header strings s out := by
    cases hf
    intro h
    obtain ⟨index, hread, _⟩ := bind_eq_ok h
    exact u32At_nil _ _ hread
  finish s := by
    change Sure s.made
    unfold Launch.made
    split
    · exact sure_bad _
    · exact sure_ok _

/-! ## The loop -/

section
variable {σ ρ : Type} {r : Reader σ ρ}

theorem endsOf_some {kind : UInt16} {f : (chunk : Bytes) → (header : UInt16) → StringPool → σ → Except Stop σ}
    (h : r.endsOf kind = some f) : f ∈ r.ends := by
  unfold Reader.endsOf at h
  split_ifs at h
  exact h

/-- where the loop goes on, it does after the chunk -/
theorem chunk_next {w w' : Walk σ} {h : ChunkHeader} {chunk : Bytes} (hout : (r.chunk w h chunk).out = .ok (.inl w')) :
    w'.at_ = w.at_ + h.size.toNat := by
  unfold Reader.chunk at hout
  dsimp only at hout
  split_ifs at hout
  · obtain ⟨_, _, hout⟩ := out_bind hout
    cases hout
    rfl
  · obtain ⟨_, _, hout⟩ := out_bind hout
    cases hout
    rfl
  · split at hout
    · cases hout
    · obtain ⟨out, _, hout⟩ := out_bind hout
      cases out with
      | inl kept =>
        cases hout
        rfl
      | inr x => cases hout
  · split at hout
    · cases hout
      rfl
    · split at hout
      · cases hout
      · obtain ⟨_, _, hout⟩ := out_bind hout
        cases hout
        rfl

variable (hr : r.Fine)
include hr

/-- a chunk's turns are less than its bytes, and the loop goes on after it -/
theorem chunk_fine (w : Walk σ) {h : ChunkHeader} {chunk : Bytes} (hheader : h.header.toNat ≤ chunk.length) :
    Fine (chunk.length - 1) (r.chunk w h chunk) := by
  have hzero : ∀ {α : Type} {p : Parse α}, Fine 0 p → Fine (chunk.length - 1) p := fun h => h.mono (Nat.zero_le _)
  unfold Reader.chunk
  dsimp only
  split_ifs
  · exact (StringPool.new_sure chunk).before fun _ _ => hzero (fine_pure _)
  · refine Sure.before ?_ fun _ _ => hzero (fine_pure _)
    unfold cut
    rw [Bytes.get?, if_pos (by omega)]
    exact sure_ok _
  · split
    · exact hzero (fine_bad _)
    · exact (hr.start _ _ _ _ _).bind fun _ _ => fine_pure _
  · split
    · exact hzero (fine_pure _)
    · rename_i ends hends
      split
      · exact hzero (fine_bad _)
      · exact (hr.ends _ (endsOf_some hends) _ _ _ _).before fun _ _ => hzero (fine_pure _)

/-- an empty chunk that the loop goes on after is of a kind that the reader passes over -/
theorem chunk_empty (w : Walk σ) {h : ChunkHeader} {out : Walk σ ⊕ ρ} (hout : (r.chunk w h []).out = .ok out) :
    h.kind ≠ RES_STRING_POOL_TYPE ∧ h.kind ≠ RES_XML_START_ELEMENT_TYPE ∧ r.endsOf h.kind = none := by
  unfold Reader.chunk at hout
  dsimp only at hout
  split_ifs at hout with hpool hmap hstart
  · refine absurd hout (bind_not_ok (fun p hp => ?_) _ _)
    have hnew : StringPool.new [] = .ok p := hp
    obtain ⟨count, hread, _⟩ := bind_eq_ok hnew
    exact u32At_nil _ _ hread
  · refine ⟨hpool, by rw [hmap]; decide, ?_⟩
    rw [hmap]
    rfl
  · split at hout
    · cases hout
    · exact absurd hout (bind_not_ok (hr.startEmpty _ _ _ _) _ _)
  · refine ⟨hpool, hstart, ?_⟩
    split at hout
    · assumption
    · rename_i ends hends
      split at hout
      · cases hout
      · exact absurd hout (bind_not_ok (hr.endsEmpty _ (endsOf_some hends) _ _ _) _ _)

variable {axml : Bytes} {end_ : ℕ} {w : Walk σ}

/-- a chunk without a byte, of a kind that the reader passes over -/
def Idle (axml : Bytes) (r : Reader σ ρ) (end_ : ℕ) (w : Walk σ) : Prop :=
  w.at_ + 8 ≤ end_ ∧ ∃ kind, chunkHeader axml w.at_ = .ok ⟨kind, 0, 0⟩ ∧ kind ≠ RES_STRING_POOL_TYPE ∧
    kind ≠ RES_XML_START_ELEMENT_TYPE ∧ r.endsOf kind = none

omit hr in
theorem cut_ok {bytes : Bytes} {a n : ℕ} (h : a + n ≤ bytes.length) : cut bytes a n = .ok (Bytes.slice bytes a n) := by
  rw [cut, Bytes.get?, if_pos h]

omit hr in
/-- the body's chunk is inside the document, or it is an error at once -/
theorem body_cases (hat : w.at_ + 8 < 2 ^ 64) (hend : end_ ≤ axml.length) :
    (∃ b, r.body axml end_ w = ⟨.error (.bad b), 0⟩) ∨
      ∃ h, chunkHeader axml w.at_ = .ok h ∧ h.header.toNat ≤ h.size.toNat ∧ w.at_ + h.size.toNat ≤ end_ ∧
        r.body axml end_ w = r.chunk w h (Bytes.slice axml w.at_ h.size.toNat) := by
  have hsure : Sure (chunkHeader axml w.at_) := (u16At_sure (by omega)).bind fun _ _ => (u16At_sure (by omega)).bind fun _ _ =>
    (u32At_sure (by omega)).bind fun _ _ => sure_ok _
  cases hheader : chunkHeader axml w.at_ with
  | error e =>
    cases e with
    | panic => exact absurd hheader hsure
    | bad b => exact .inl ⟨b, by rw [Reader.body, hheader]; rfl⟩
  | ok h =>
    by_cases hpast : h.size.toNat < h.header.toNat ∨ end_ < w.at_ + h.size.toNat
    · refine .inl ⟨.pastDocument w.at_, ?_⟩
      rw [Reader.body, hheader, bind_lift_ok, if_pos hpast]
    · obtain ⟨hsize, hin⟩ := not_or.mp hpast
      refine .inr ⟨h, rfl, not_lt.mp hsize, not_lt.mp hin, ?_⟩
      rw [Reader.body, hheader, bind_lift_ok, if_neg hpast, cut_ok (by omega), bind_lift_ok]

omit hr in
theorem turn_eq (hat : w.at_ + 8 ≤ end_) (hend : end_ < 2 ^ 64) :
    r.turn axml end_ w = (goesOn (r.body axml end_ w).out, (r.body axml end_ w).turns + 1) := by
  rw [Reader.turn, if_neg (by omega), if_neg (by omega)]

omit hr in
theorem goesOn_inl {out : Except Stop (Walk σ ⊕ ρ)} {w' : Walk σ} (h : goesOn out = .inl w') : out = .ok (.inl w') := by
  rcases out with e | w'' | x
  · cases h
  · cases h
    rfl
  · cases h

omit hr in
theorem goesOn_inr {out : Except Stop (Walk σ ⊕ ρ)} {x : Except Stop ρ} (h : goesOn out = .inr x) (hout : Sure out) : Sure x := by
  rcases out with e | w'' | x'
  · cases h
    intro hpanic
    cases hpanic
    exact hout rfl
  · cases h
  · cases h
    exact sure_ok _

variable (hend : end_ ≤ axml.length) (hlength : axml.length < 2 ^ 63)
include hend hlength

/-- a turn inside the document: its steps are no more than the chunk's bytes, which the loop has passed if it goes on -/
theorem turn_fine (hat : w.at_ + 8 ≤ end_) : Sure (r.body axml end_ w).out ∧ (r.turn axml end_ w).2 ≤ end_ - w.at_ ∧
    ∀ w', Loop.Goes (r.turn axml end_) w w' → w'.at_ ≤ end_ ∧ w.at_ ≤ w'.at_ ∧ (r.turn axml end_ w).2 + (end_ - w'.at_) ≤ end_ - w.at_ ∨
      Idle axml r end_ w := by
  rw [turn_eq hat (by omega)]
  rcases body_cases (r := r) (w := w) (by omega) hend with ⟨b, hbody⟩ | ⟨h, hheader, hsize, hin, hbody⟩
  · rw [hbody]
    refine ⟨sure_bad _, by dsimp only; omega, fun w' hgo => ?_⟩
    rw [Loop.Goes, turn_eq hat (by omega), hbody] at hgo
    cases hgo
  · have hchunk : (Bytes.slice axml w.at_ h.size.toNat).length = h.size.toNat := Bytes.length_slice (by omega)
    have hfine := chunk_fine hr w (show h.header.toNat ≤ (Bytes.slice axml w.at_ h.size.toNat).length by omega)
    have hturns := hfine.turns
    rw [hbody]
    refine ⟨hfine.sure, by dsimp only; omega, fun w' hgo => ?_⟩
    rw [Loop.Goes, turn_eq hat (by omega), hbody] at hgo
    have hnext := goesOn_inl hgo
    have hat' := chunk_next hnext
    by_cases hzero : h.size.toNat = 0
    · right
      have hempty : Bytes.slice axml w.at_ h.size.toNat = [] := List.length_eq_zero_iff.mp (hchunk.trans hzero)
      rw [hempty] at hnext
      refine ⟨hat, h.kind, ?_, chunk_empty hr w hnext⟩
      rw [hheader]
      obtain ⟨kind, header, size⟩ := h
      obtain rfl : size = 0 := UInt32.toNat_inj.mp hzero
      obtain rfl : header = 0 := UInt16.toNat_inj.mp (by dsimp only at hsize; rw [UInt32.toNat_zero] at hsize; exact Nat.le_zero.mp hsize)
      rfl
    · left
      dsimp only
      omega

omit hr in
/-- an empty chunk that the reader passes over is there again -/
theorem idle_stays (hidle : Idle axml r end_ w) : ∃ w', Loop.Goes (r.turn axml end_) w w' ∧ Idle axml r end_ w' := by
  obtain ⟨hat, kind, hheader, hpool, hstart, hends⟩ := hidle
  have hsame : ∀ w' : Walk σ, w'.at_ = w.at_ + 0 → Idle axml r end_ w' := fun w' h => by
    rw [Nat.add_zero] at h
    exact ⟨by rwa [h], kind, by rwa [h], hpool, hstart, hends⟩
  have hbody : r.body axml end_ w = r.chunk w ⟨kind, 0, 0⟩ [] := by
    have hin : ¬((0 : UInt32).toNat < (0 : UInt16).toNat ∨ end_ < w.at_ + (0 : UInt32).toNat) := by
      rw [UInt32.toNat_zero, UInt16.toNat_zero]
      omega
    rw [Reader.body, hheader, bind_lift_ok, if_neg hin, cut_ok (by rw [UInt32.toNat_zero]; omega), bind_lift_ok]
    rfl
  have hgo : ∀ w', (r.chunk w ⟨kind, 0, 0⟩ []).out = .ok (.inl w') → Loop.Goes (r.turn axml end_) w w' := fun w' h => by
    rw [Loop.Goes, turn_eq hat (by omega), hbody, h]
    rfl
  by_cases hmap : kind = RES_XML_RESOURCE_MAP_TYPE
  · refine ⟨⟨w.at_ + 0, w.strings, [], w.kept⟩, hgo _ ?_, hsame _ rfl⟩
    rw [Reader.chunk, if_neg hpool, if_pos hmap, cut_ok (Nat.le_refl 0)]
    rfl
  · refine ⟨{ w with at_ := w.at_ + 0 }, hgo _ ?_, hsame _ rfl⟩
    rw [Reader.chunk, if_neg hpool, if_neg hmap, if_neg hstart, hends]
    rfl

end

/-! ## Where it ends -/

section
variable {σ ρ : Type}

/-- a reading ends, with a result or an error, within as many turns as the document has bytes -/
def Ends (axml : Bytes) (r : Reader σ ρ) (kept : σ) : Prop :=
  ∃ n out, r.parse axml kept n = some out ∧ out.2 ≤ axml.length ∧ Sure out.1

/-- the loop comes to no idle chunk -/
def Busy (axml : Bytes) (r : Reader σ ρ) (kept : σ) : Prop :=
  ∀ start, begins axml kept = .ok start → ∀ w, Relation.ReflTransGen (Loop.Goes (r.turn axml start.1)) start.2 w → ¬Idle axml r start.1 w

theorem begins_sure (axml : Bytes) (kept : σ) : Sure (begins axml kept) := by
  refine Sure.bind ((u16At_sure (by norm_num)).bind fun _ _ => (u16At_sure (by norm_num)).bind fun _ _ =>
    (u32At_sure (by norm_num)).bind fun _ _ => sure_ok _) fun h _ => ?_
  split_ifs
  · exact sure_bad _
  · exact sure_ok _

theorem begins_ok {axml : Bytes} {kept : σ} {start : ℕ × Walk σ} (h : begins axml kept = .ok start) :
    start.1 ≤ axml.length ∧ start.2.at_ < 2 ^ 16 := by
  obtain ⟨header, _, h⟩ := bind_eq_ok h
  split_ifs at h
  cases h
  exact ⟨Nat.min_le_right _ _, header.header.toNat_lt⟩

theorem ends_iff {r : Reader σ ρ} (hr : r.Fine) {axml : Bytes} (hlength : axml.length < 2 ^ 63) (kept : σ) :
    Ends axml r kept ↔ Busy axml r kept := by
  constructor
  · rintro ⟨n, out, hrun, _, _⟩ start hbegins w hgoes
    rw [Reader.parse, hbegins] at hrun
    exact Loop.not_stuck (fun w hidle => idle_stays (begins_ok hbegins).1 hlength hidle) hgoes hrun
  · intro hbusy
    cases hbegins : begins axml kept with
    | error e =>
      refine ⟨0, (.error e, 0), by rw [Reader.parse, hbegins], Nat.zero_le _, fun h => ?_⟩
      obtain rfl : e = .panic := Except.error.inj h
      exact begins_sure axml kept hbegins
    | ok start =>
      obtain ⟨hend, hat⟩ := begins_ok hbegins
      let Ahead : Walk σ → Prop := fun w =>
        w.at_ < 2 ^ 63 ∧ ∀ w', Relation.ReflTransGen (Loop.Goes (r.turn axml start.1)) w w' → ¬Idle axml r start.1 w'
      -- the bytes that are left pay for the turns
      have hgoes : ∀ w w', Ahead w → Loop.Goes (r.turn axml start.1) w w' →
          Ahead w' ∧ 0 < (r.turn axml start.1 w).2 ∧ (r.turn axml start.1 w).2 + (start.1 - w'.at_) ≤ start.1 - w.at_ := by
        intro w w' ⟨hlow, hnever⟩ hgo
        by_cases hat : w.at_ + 8 ≤ start.1
        · rcases (turn_fine hr hend hlength hat).2.2 w' hgo with ⟨hle, _, hpaid⟩ | hidle
          · refine ⟨⟨by omega, fun v hv => hnever v (.head hgo hv)⟩, ?_, hpaid⟩
            rw [turn_eq hat (by omega)]
            exact Nat.succ_pos _
          · exact absurd hidle (hnever w .refl)
        · rw [Loop.Goes, Reader.turn, if_neg (by omega), if_pos (by omega)] at hgo
          cases hgo
      have hends : ∀ w x, Ahead w → (r.turn axml start.1 w).1 = .inr x → (r.turn axml start.1 w).2 ≤ start.1 - w.at_ ∧ Sure x := by
        intro w x ⟨hlow, _⟩ hx
        by_cases hat : w.at_ + 8 ≤ start.1
        · obtain ⟨hsure, hturns, _⟩ := turn_fine hr hend hlength hat
          rw [turn_eq hat (by omega)] at hx
          exact ⟨hturns, goesOn_inr hx hsure⟩
        · rw [Reader.turn, if_neg (by omega), if_pos (by omega)] at hx ⊢
          cases hx
          exact ⟨Nat.zero_le _, hr.finish _⟩
      obtain ⟨n, out, hrun, hturns, hsure⟩ := Loop.run_ends hgoes hends ⟨by omega, hbusy start hbegins⟩
      exact ⟨n, out, by rw [Reader.parse, hbegins]; exact hrun, hturns.trans ((Nat.sub_le _ _).trans hend), hsure⟩

end

/-- **Reading a manifest ends inside the document**, both readings, exactly when they come to no chunk without a byte of a kind that
they pass over. -/
theorem manifest_ends (axml : Bytes) (hlength : axml.length < 2 ^ 63) :
    (Ends axml AppManifest.reader () ↔ Busy axml AppManifest.reader ()) ∧ (Ends axml LaunchInfo.reader {} ↔ Busy axml LaunchInfo.reader {}) :=
  ⟨ends_iff appManifest_fine hlength (), ends_iff launchInfo_fine hlength {}⟩

/-- a document of one empty chunk -/
def emptyChunk : Bytes := [3, 0, 8, 0, 16, 0, 0, 0, 0, 0, 0, 0, 0, 0, 0, 0]

theorem manifest_ends_empty : emptyChunk.length < 2 ^ 63 ∧ (Ends emptyChunk AppManifest.reader () ↔ Busy emptyChunk AppManifest.reader ()) :=
  ⟨by decide, (manifest_ends emptyChunk (by decide)).1⟩

/-- neither reading of it ends -/
theorem empty_chunk_loops : ¬∀ axml : Bytes, axml.length < 2 ^ 63 → Ends axml AppManifest.reader () ∧ Ends axml LaunchInfo.reader {} := by
  intro h
  have hbusy := (ends_iff appManifest_fine (by decide) ()).mp (h emptyChunk (by decide)).1
  exact hbusy (16, ⟨8, none, [], ()⟩) rfl _ .refl ⟨by decide, 0, by decide, by decide, by decide, by decide⟩

end Omnidroid.Apk.Manifest
