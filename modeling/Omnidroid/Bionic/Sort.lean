/-
`qsort` and `bsearch` over guest memory (`omni-bionic/src/sort.rs`): a heapsort in place that swaps elements in pieces of 256
bytes, a bisection, and a comparator that is the guest's own: it may keep a state, read memory, answer anything and fault.

- `swapElems`, `siftDown`, `qsort`, `bsearch`: the code. `elems`: memory as the elements of the array.
- `swapElems_ensures`: the pieces together swap the elements, and nothing else.
- `siftDown_ensures`, `heapify_ensures`, `extract_ensures`: what each does to the elements, whatever the comparator answers,
  and to a heap where it is of one mind.
- `sort_and_search`: `qsort` permutes the elements and leaves the rest of memory alone, also where the comparator is not
  consistent or faults, and sorts them where it orders them; `bsearch` finds an element that is equal where there is one.
-/
import Omnidroid.Bionic.Memory
import Omnidroid.Lib.Answers
import Omnidroid.Lib.Heap

namespace Omnidroid.Bionic.Sort

open Heap GuestMemory

/-! ## The comparator -/

/-- the guest's comparator: its answer or the address where it faulted, and its state after -/
structure GuestCompare (σ : Type) where
  compare : σ → GuestMemory → ℕ → ℕ → Except ℕ ℤ × σ

structure World (σ : Type) where
  mem : GuestMemory
  comparator : σ
  /-- history: what was compared -/
  compared : List (ℕ × ℕ) := []

abbrev M (σ : Type) := EStateM BionicError (World σ)

section Code

variable {σ : Type}

def read (addr len : ℕ) : M σ (List UInt8) := fun w =>
  if ∀ i, i < len → w.mem.mapped (addr + i) = true then .ok (w.mem.at' addr len) w else .error (.fault addr) w

def write (addr : ℕ) (buf : List UInt8) : M σ Unit := fun w =>
  if ∀ i, i < buf.length → w.mem.mapped (addr + i) = true then .ok () { w with mem := w.mem.put addr buf }
  else .error (.fault addr) w

def compare (cmp : GuestCompare σ) (a b : ℕ) : M σ ℤ := fun w =>
  match cmp.compare w.comparator w.mem a b with
  | (.ok c, comparator) => .ok c { w with comparator, compared := (a, b) :: w.compared }
  | (.error addr, comparator) => .error (.fault addr) { w with comparator, compared := (a, b) :: w.compared }

def checkedRange (addr len : ℕ) : M σ Unit :=
  if len = 0 then pure ()
  else if addr = 0 then throw (.fault 0)
  else if addr + (len - 1) < 2 ^ 64 then pure ()
  else throw (.fault addr)

/-! ## `qsort` -/

def swapFrom (a b size done : ℕ) : M σ Unit :=
  if done < size then do
    let chunk := min (size - done) 256
    let bufA ← read (a + done) chunk
    let bufB ← read (b + done) chunk
    write (a + done) bufB
    write (b + done) bufA
    swapFrom a b size (done + chunk)
  else pure ()
termination_by size - done

def swapElems (a b size : ℕ) : M σ Unit := swapFrom a b size 0

variable (cmp : GuestCompare σ) (base size : ℕ)

/-- the address of an element: no sum of these passes 64 bits where the range of the array does not -/
def elem (base size i : ℕ) : ℕ := base + i * size

/-- whether the right child is the larger -/
def rightLarger (child n : ℕ) : M σ Bool :=
  if child + 1 < n then do
    let c ← compare cmp (elem base size child) (elem base size (child + 1))
    pure (decide (c < 0))
  else pure false

def siftDown (root n : ℕ) : M σ Unit :=
  if 2 ^ 64 ≤ 2 * root + 1 then throw .overflow
  else if n ≤ 2 * root + 1 then pure ()
  else do
    let right ← rightLarger cmp base size (2 * root + 1) n
    let c ← compare cmp (elem base size root) (elem base size (2 * root + 1 + right.toNat))
    if 0 ≤ c then pure ()
    else do
      swapElems (elem base size root) (elem base size (2 * root + 1 + right.toNat)) size
      siftDown (2 * root + 1 + right.toNat) n
termination_by n - root
decreasing_by omega

/-- bottom-up, from below `i` -/
def heapify (n : ℕ) : ℕ → M σ Unit
  | 0 => pure ()
  | i + 1 => do
    siftDown cmp base size i n
    heapify n i

/-- the largest of the first `end` to their end, one after another -/
def extract : ℕ → M σ Unit
  | 0 => pure ()
  | 1 => pure ()
  | last + 2 => do
    swapElems base (elem base size (last + 1)) size
    siftDown cmp base size 0 (last + 1)
    extract (last + 1)

def qsort (nmemb : ℕ) : M σ Unit :=
  if nmemb = 0 then pure ()
  else if size = 0 then throw (.invalidArgument "qsort: zero element size")
  else if 2 ^ 64 ≤ nmemb * size then throw (.fault base)
  else do
    checkedRange base (nmemb * size)
    if nmemb = 1 then pure ()
    else do
      heapify cmp base size nmemb (nmemb / 2)
      extract cmp base size nmemb

/-! ## `bsearch` -/

def bisect (key lo hi : ℕ) : M σ ℕ :=
  if lo < hi then do
    let mid := lo + (hi - lo) / 2
    let c ← compare cmp key (elem base size mid)
    if c = 0 then pure (elem base size mid)
    else if c < 0 then bisect key lo mid
    else bisect key (mid + 1) hi
  else pure 0
termination_by hi - lo

def bsearch (key nmemb : ℕ) : M σ ℕ :=
  if nmemb = 0 then pure 0
  else if size = 0 then throw (.invalidArgument "bsearch: zero element size")
  else if 2 ^ 64 ≤ nmemb * size then throw (.fault base)
  else do
    checkedRange base (nmemb * size)
    bisect cmp base size key 0 nmemb

end Code

/-! ## A swap -/

section Swap

variable {σ : Type} {w : World σ} {m : GuestMemory} {a b len n size done i j x : ℕ} {E : BionicError → World σ → Prop}

theorem read_ensures {Q : List UInt8 → World σ → Prop} (hm : ∀ i, i < len → w.mem.mapped (a + i) = true)
    (h : Q (w.mem.at' a len) w) : Ensures (read a len) w Q E := by
  have heq : read a len w = .ok (w.mem.at' a len) w := if_pos hm
  constructor
  · intro buf w' hr
    rw [heq] at hr
    cases hr
    exact h
  · intro e w' hr
    rw [heq] at hr
    cases hr

theorem write_ensures {Q : Unit → World σ → Prop} {buf : List UInt8}
    (hm : ∀ i, i < buf.length → w.mem.mapped (a + i) = true) (h : Q () { w with mem := w.mem.put a buf }) :
    Ensures (write a buf) w Q E := by
  have heq : write a buf w = .ok () { w with mem := w.mem.put a buf } := if_pos hm
  constructor
  · intro _ w' hr
    rw [heq] at hr
    cases hr
    exact h
  · intro e w' hr
    rw [heq] at hr
    cases hr

theorem swapFrom_ensures (done : ℕ) (hab : a + size ≤ b ∨ b + size ≤ a) (hma : ∀ i, i < size → w.mem.mapped (a + i) = true)
    (hmb : ∀ i, i < size → w.mem.mapped (b + i) = true) :
    Ensures (swapFrom a b size done) w
      (fun _ w' => w' = { w with mem := w.mem.exchange (a + done) (b + done) (size - done) }) E := by
  induction hk : size - done using Nat.strong_induction_on generalizing done w with
  | _ k ih =>
    unfold swapFrom
    split
    · rename_i hlt
      have hchunk : min (size - done) 256 ≤ size - done := min_le_left _ _
      have hpos : 0 < min (size - done) 256 := by omega
      generalize hc : min (size - done) 256 = chunk at hchunk hpos ⊢
      refine .bind (read_ensures (fun i hi => ?_) (.bind (read_ensures (fun i hi => ?_) ?_)))
      · rw [Nat.add_assoc]
        exact hma _ (by omega)
      · rw [Nat.add_assoc]
        exact hmb _ (by omega)
      refine .bind (write_ensures (fun i hi => ?_) (.bind (write_ensures (fun i hi => ?_) ?_)))
      · rw [length_at] at hi
        rw [Nat.add_assoc]
        exact hma _ (by omega)
      · rw [length_at] at hi
        show w.mem.mapped (b + done + i) = true
        rw [Nat.add_assoc]
        exact hmb _ (by omega)
      simp only []
      rw [put_put (by omega)]
      have hrest := ih (size - (done + chunk)) (by omega)
        (w := { w with mem := w.mem.exchange (a + done) (b + done) chunk }) (done + chunk) hma hmb rfl
      refine hrest.post fun _ w' hw' => ?_
      rw [hw', World.mk.injEq]
      refine ⟨?_, rfl, rfl⟩
      show (w.mem.exchange (a + done) (b + done) chunk).exchange (a + (done + chunk)) (b + (done + chunk))
        (size - (done + chunk)) = _
      rw [← Nat.add_assoc, ← Nat.add_assoc, exchange_exchange (by omega)]
      congr 1
      omega
    · rename_i hge
      refine .pure ?_
      rw [show k = 0 by omega, exchange_zero]

theorem swapElems_ensures (hab : a + size ≤ b ∨ b + size ≤ a) (hma : ∀ i, i < size → w.mem.mapped (a + i) = true)
    (hmb : ∀ i, i < size → w.mem.mapped (b + i) = true) :
    Ensures (swapElems a b size) w (fun _ w' => w' = { w with mem := w.mem.exchange a b size }) E :=
  swapFrom_ensures 0 hab hma hmb

end Swap

/-! ## The elements of the array -/

/-- memory as the elements of an array, as far as it goes -/
def elems (base size : ℕ) (m : GuestMemory) (i : ℕ) : List UInt8 := m.at' (elem base size i) size

section Elements

variable {m : GuestMemory} {base size n i j k x t : ℕ}

/-- an element ends where the next begins, or before -/
theorem elem_lt (base size : ℕ) (hij : i < j) : elem base size i + size ≤ elem base size j := by
  have h : (i + 1) * size ≤ j * size := Nat.mul_le_mul_right _ hij
  rw [Nat.add_mul, Nat.one_mul] at h
  simp only [elem]
  omega

theorem elem_end (base size : ℕ) (hi : i < n) : elem base size i + size ≤ base + n * size := elem_lt base size hi

theorem elem_start (base size i : ℕ) : base ≤ elem base size i := Nat.le_add_right _ _

theorem elem_mapped (hm : ∀ x, base ≤ x → x < base + n * size → m.mapped x = true) (hi : i < n) (t : ℕ) (ht : t < size) :
    m.mapped (elem base size i + t) = true := by
  have h₁ := elem_start base size i
  have h₂ := elem_end base size hi
  exact hm _ (by omega) (by omega)

/-- exchanging two elements of memory swaps them in the array -/
theorem elems_exchange (base size : ℕ) (m : GuestMemory) (hij : i ≠ j) :
    elems base size (m.exchange (elem base size i) (elem base size j) size) = elems base size m ∘ Equiv.swap i j := by
  funext k
  rw [Function.comp_apply]
  simp only [elems, GuestMemory.at']
  refine List.map_congr_left fun t ht => ?_
  rw [List.mem_range] at ht
  simp only [GuestMemory.exchange]
  rcases eq_or_ne k i with rfl | hki
  · rw [if_pos (by omega), Equiv.swap_apply_left]
    congr 1
    omega
  · have hi : ¬(elem base size i ≤ elem base size k + t ∧ elem base size k + t < elem base size i + size) := by
      rcases Nat.lt_or_gt_of_ne hki with h | h
      · have := elem_lt base size h
        omega
      · have := elem_lt base size h
        omega
    rw [if_neg hi]
    rcases eq_or_ne k j with rfl | hkj
    · rw [if_pos (by omega), Equiv.swap_apply_right]
      congr 1
      omega
    · have hj : ¬(elem base size j ≤ elem base size k + t ∧ elem base size k + t < elem base size j + size) := by
        rcases Nat.lt_or_gt_of_ne hkj with h | h
        · have := elem_lt base size h
          omega
        · have := elem_lt base size h
          omega
      rw [if_neg hj, Equiv.swap_apply_of_ne_of_ne hki hkj]

theorem exchange_outside (hi : i < n) (hj : j < n) (hx : ¬(base ≤ x ∧ x < base + n * size)) :
    (m.exchange (elem base size i) (elem base size j) size).bytes x = m.bytes x := by
  have h₁ := elem_start base size i
  have h₂ := elem_end base size hi
  have h₃ := elem_start base size j
  have h₄ := elem_end base size hj
  simp only [GuestMemory.exchange]
  rw [if_neg (by omega), if_neg (by omega)]

end Elements

/-! ## What a run does to the array -/

section Runs

variable {σ : Type}

/-- only the array has changed, by a permutation of its first `k` elements, and only its elements were compared -/
structure Kept (base size n k : ℕ) (w w' : World σ) : Prop where
  mapped : w'.mem.mapped = w.mem.mapped
  outside : ∀ x, ¬(base ≤ x ∧ x < base + n * size) → w'.mem.bytes x = w.mem.bytes x
  moved : Rearranged (elems base size w.mem) (elems base size w'.mem) k
  compared : ∀ p ∈ w'.compared, p ∈ w.compared ∨ ∃ i j, i < n ∧ j < n ∧ p = (elem base size i, elem base size j)

/-- memory as the comparator may find it: as it was but for the array -/
def Around (base size n : ℕ) (m m' : GuestMemory) : Prop :=
  m'.mapped = m.mapped ∧ ∀ x, ¬(base ≤ x ∧ x < base + n * size) → m'.bytes x = m.bytes x

/-- the comparator's answers about the elements are the order `le` of their bytes -/
def Orders (cmp : GuestCompare σ) (le : List UInt8 → List UInt8 → Prop) (base size n : ℕ) (m : GuestMemory) : Prop :=
  ∀ s m' i j, Around base size n m m' → i < n → j < n →
    ∃ c s', cmp.compare s m' (elem base size i) (elem base size j) = (.ok c, s') ∧
      (c ≤ 0 ↔ le (elems base size m' i) (elems base size m' j)) ∧
      (0 ≤ c ↔ le (elems base size m' j) (elems base size m' i))

/-- a fault of the comparator's own, about two of the elements -/
def Faulted (cmp : GuestCompare σ) (base size n : ℕ) (m : GuestMemory) (addr : ℕ) : Prop :=
  ∃ s m' i j s', Around base size n m m' ∧ i < n ∧ j < n ∧
    cmp.compare s m' (elem base size i) (elem base size j) = (.error addr, s')

variable {cmp : GuestCompare σ} {le : List UInt8 → List UInt8 → Prop} {base size n k l i j root lo count : ℕ}
variable {w w₀ w₁ w₂ : World σ}

theorem Kept.refl (w : World σ) : Kept base size n k w w := ⟨rfl, fun _ _ => rfl, .refl _ _, fun _ h => .inl h⟩

theorem Kept.trans (h : Kept base size n k w w₁) (h' : Kept base size n k w₁ w₂) : Kept base size n k w w₂ where
  mapped := h'.mapped.trans h.mapped
  outside x hx := (h'.outside x hx).trans (h.outside x hx)
  moved := h.moved.trans h'.moved
  compared p hp := (h'.compared p hp).elim (h.compared p) .inr

theorem Kept.mono (h : Kept base size n k w w₁) (hkl : k ≤ l) : Kept base size n l w w₁ :=
  { h with moved := h.moved.mono hkl }

theorem Kept.around (h : Kept base size n k w w₁) : Around base size n w.mem w₁.mem := ⟨h.mapped, h.outside⟩

/-- how a step of the sort can fail: the comparator faulted, and the array is no worse for it -/
def Fails (cmp : GuestCompare σ) (base size n : ℕ) (w₀ : World σ) (e : BionicError) (w' : World σ) : Prop :=
  Kept base size n n w₀ w' ∧ ∃ addr, e = .fault addr ∧ Faulted cmp base size n w₀.mem addr

theorem compare_ensures {a b : ℕ} {Q : ℤ → World σ → Prop} {E : BionicError → World σ → Prop}
    (hok : ∀ c s, cmp.compare w.comparator w.mem a b = (.ok c, s) → Q c ⟨w.mem, s, (a, b) :: w.compared⟩)
    (herror : ∀ addr s, cmp.compare w.comparator w.mem a b = (.error addr, s) →
      E (.fault addr) ⟨w.mem, s, (a, b) :: w.compared⟩) : Ensures (compare cmp a b) w Q E := by
  constructor
  · intro c w' h
    unfold compare at h
    split at h
    · rename_i c' s hcmp
      cases h
      exact hok _ _ hcmp
    · cases h
  · intro e w' h
    unfold compare at h
    split at h
    · cases h
    · rename_i addr s hcmp
      cases h
      exact herror _ _ hcmp

theorem compareElems_ensures (h₀ : Kept base size n n w₀ w) (hi : i < n) (hj : j < n) :
    Ensures (compare cmp (elem base size i) (elem base size j)) w
      (fun c w' => w'.mem = w.mem ∧ Kept base size n n w₀ w' ∧ (∀ k, Kept base size n k w w') ∧
        ∀ le, Orders cmp le base size n w₀.mem →
          (c ≤ 0 ↔ le (elems base size w.mem i) (elems base size w.mem j)) ∧
            (0 ≤ c ↔ le (elems base size w.mem j) (elems base size w.mem i)))
      (Fails cmp base size n w₀) := by
  have hkept : ∀ s k, Kept base size n k w ⟨w.mem, s, (elem base size i, elem base size j) :: w.compared⟩ := by
    intro s k
    refine ⟨rfl, fun _ _ => rfl, .refl _ _, fun p hp => ?_⟩
    rcases List.mem_cons.1 hp with rfl | hp
    · exact .inr ⟨i, j, hi, hj, rfl⟩
    · exact .inl hp
  refine compare_ensures (fun c s hcmp => ?_) fun addr s hcmp => ?_
  · refine ⟨rfl, h₀.trans (hkept s n), hkept s, fun le hle => ?_⟩
    obtain ⟨c', s', hc, hspec⟩ := hle w.comparator w.mem i j h₀.around hi hj
    rw [hcmp] at hc
    cases hc
    exact hspec
  · exact ⟨h₀.trans (hkept s n), addr, rfl, w.comparator, w.mem, i, j, s, h₀.around, hi, hj, hcmp⟩

/-- the larger of the children there are -/
theorem rightLarger_ensures (h₀ : Kept base size n n w₀ w) (hchild : 2 * root + 1 < count) (hcount : count ≤ n) :
    Ensures (rightLarger cmp base size (2 * root + 1) count) w
      (fun right w' => w'.mem = w.mem ∧ Kept base size n n w₀ w' ∧ (∀ k, Kept base size n k w w') ∧
        2 * root + 1 + right.toNat < count ∧ ∀ le, TotalPreorder le → Orders cmp le base size n w₀.mem →
          ∀ d, Child root d → d < count →
            le (elems base size w.mem d) (elems base size w.mem (2 * root + 1 + right.toNat)))
      (Fails cmp base size n w₀) := by
  unfold rightLarger
  split
  · rename_i hright
    refine .bind ((compareElems_ensures h₀ (by omega) (by omega)).post fun c w' ⟨hmem, h₀', hk, hord⟩ => .pure ?_)
    refine ⟨hmem, h₀', hk, ?_, fun le hle hcmp d hd hdn => ?_⟩
    · cases decide (c < 0) <;> simp only [Bool.toNat_true, Bool.toNat_false] <;> omega
    · obtain ⟨hneg, hpos⟩ := hord le hcmp
      rcases em (c < 0) with hc | hc
      · rw [decide_eq_true hc]
        rcases hd with rfl | rfl
        · exact hneg.1 hc.le
        · exact hle.refl _
      · rw [decide_eq_false hc]
        rcases hd with rfl | rfl
        · exact hle.refl _
        · exact hpos.1 (not_lt.1 hc)
  · rename_i hright
    refine .pure ⟨rfl, h₀, fun k => .refl w, hchild, fun le hle _ d hd hdn => ?_⟩
    rcases hd with rfl | rfl
    · exact hle.refl _
    · exact absurd hdn hright

/-- the array lies in mapped memory -/
abbrev Mapped (base size n : ℕ) (m : GuestMemory) : Prop := ∀ x, base ≤ x → x < base + n * size → m.mapped x = true

theorem swap_ensures (cmp : GuestCompare σ) (h₀ : Kept base size n n w₀ w) (hm : Mapped base size n w₀.mem) (hi : i < k) (hj : j < k)
    (hk : k ≤ n) (hij : i ≠ j) :
    Ensures (swapElems (elem base size i) (elem base size j) size) w
      (fun _ w' => Kept base size n n w₀ w' ∧ Kept base size n k w w' ∧
        elems base size w'.mem = elems base size w.mem ∘ Equiv.swap i j)
      (Fails cmp base size n w₀) := by
  have hapart : elem base size i + size ≤ elem base size j ∨ elem base size j + size ≤ elem base size i :=
    (Nat.lt_or_gt_of_ne hij).imp (elem_lt base size) (elem_lt base size)
  have hmapped : ∀ i, i < n → ∀ t, t < size → w.mem.mapped (elem base size i + t) = true := by
    intro i hi t ht
    rw [h₀.mapped]
    exact elem_mapped hm hi t ht
  refine (swapElems_ensures hapart (hmapped i (by omega)) (hmapped j (by omega))).post fun _ w' hw' => ?_
  subst hw'
  have hswap := elems_exchange base size w.mem hij
  have hkept : Kept base size n k w { w with mem := w.mem.exchange (elem base size i) (elem base size j) size } := by
    refine ⟨rfl, fun x hx => exchange_outside (by omega) (by omega) hx, ?_, fun _ h => .inl h⟩
    rw [hswap]
    exact rearranged_swap _ hi hj
  exact ⟨h₀.trans (hkept.mono hk), hkept, hswap⟩

/-- the elements of an array that lies in mapped memory can be numbered twice over -/
theorem count_lt (hm : Mapped base size n w₀.mem) (hsize : 0 < size) (hn : 0 < n) : n ≤ 2 ^ 63 := by
  have hle : n * 1 ≤ n * size := Nat.mul_le_mul_left _ hsize
  have hpos : 0 < n * size := Nat.mul_pos hn hsize
  have := w₀.mem.user _ (hm (base + (n * size - 1)) (by omega) (by omega))
  omega

theorem siftDown_ensures (h₀ : Kept base size n n w₀ w) (hm : Mapped base size n w₀.mem) (hsize : 0 < size)
    (hroot : root < n) (hcount : count ≤ n) :
    Ensures (siftDown cmp base size root count) w
      (fun _ w' => Kept base size n n w₀ w' ∧ Kept base size n count w w' ∧
        ∀ le lo, TotalPreorder le → Orders cmp le base size n w₀.mem → lo ≤ root →
          Sifting le (elems base size w.mem) lo count root → Heaped le (elems base size w'.mem) lo count)
      (Fails cmp base size n w₀) := by
  induction hk : count - root using Nat.strong_induction_on generalizing root w with
  | _ k ih =>
    have hbound := count_lt hm hsize (by omega)
    unfold siftDown
    rw [if_neg (by omega)]
    split
    · rename_i hleaf
      refine .pure ⟨h₀, .refl w, fun le lo _ _ _ hs => hs.heaped fun d hd hdn => ?_⟩
      rcases hd with rfl | rfl <;> omega
    · rename_i hchild
      refine .bind ((rightLarger_ensures h₀ (by omega) hcount).post fun right w₁ ⟨hmem₁, h₁, hk₁, hlt, hbig⟩ => ?_)
      have hchild' : Child root (2 * root + 1 + right.toNat) := by
        cases right
        · exact .inl rfl
        · exact .inr rfl
      generalize hs : 2 * root + 1 + right.toNat = swap at hlt hbig hchild' ⊢
      refine .bind ((compareElems_ensures h₁ hroot (by omega)).post fun c w₂ ⟨hmem₂, h₂, hk₂, hord⟩ => ?_)
      rw [hmem₁] at hmem₂ hord
      split
      · rename_i hc
        -- the element stays
        refine .pure ⟨h₂, (hk₁ count).trans (hk₂ count), fun le lo hle hcmp hlo hsift => ?_⟩
        rw [hmem₂]
        refine hsift.heaped fun d hd hdn => hle.trans _ _ _ (hbig le hle hcmp d hd hdn) ?_
        exact ((hord le hcmp).2).1 hc
      · rename_i hc
        have hrs := hchild'.lt
        refine .bind ((swap_ensures cmp h₂ hm (by omega) hlt hcount (by omega)).post fun _ w₃ ⟨h₃, hk₃, hswap⟩ => ?_)
        refine (ih (count - swap) (by omega) h₃ (by omega) rfl).post fun _ w₄ ⟨h₄, hk₄, hheap⟩ => ?_
        refine ⟨h₄, (((hk₁ count).trans (hk₂ count)).trans hk₃).trans hk₄, fun le lo hle hcmp hlo hsift => ?_⟩
        refine hheap le lo hle hcmp (hlo.trans hrs.le) ?_
        rw [hswap, hmem₂]
        exact hsift.down hlo hchild' hlt (((hord le hcmp).1).1 (not_le.1 hc).le) (hbig le hle hcmp)

theorem heapify_ensures (h₀ : Kept base size n n w₀ w) (hm : Mapped base size n w₀.mem) (hsize : 0 < size) (hi : i ≤ n) :
    Ensures (heapify cmp base size n i) w
      (fun _ w' => Kept base size n n w₀ w' ∧ ∀ le, TotalPreorder le → Orders cmp le base size n w₀.mem →
        Heaped le (elems base size w.mem) i n → Heaped le (elems base size w'.mem) 0 n)
      (Fails cmp base size n w₀) := by
  induction i generalizing w with
  | zero => exact .pure ⟨h₀, fun _ _ _ h => h⟩
  | succ i ih =>
    refine .bind ((siftDown_ensures h₀ hm hsize (by omega) (le_refl n)).post fun _ w₁ ⟨h₁, _, hsift⟩ => ?_)
    refine (ih h₁ (by omega)).post fun _ w₂ ⟨h₂, hheap⟩ => ⟨h₂, fun le hle hcmp h => ?_⟩
    exact hheap le hle hcmp (hsift le i hle hcmp (le_refl i) h.sifting)

theorem extract_ensures (h₀ : Kept base size n n w₀ w) (hm : Mapped base size n w₀.mem) (hsize : 0 < size) (hk : k ≤ n) :
    Ensures (extract cmp base size k) w
      (fun _ w' => Kept base size n n w₀ w' ∧ ∀ le, TotalPreorder le → Orders cmp le base size n w₀.mem →
        Sorted le (elems base size w.mem) k n → ∃ e, e ≤ 1 ∧ Sorted le (elems base size w'.mem) e n)
      (Fails cmp base size n w₀) := by
  induction k using Nat.strong_induction_on generalizing w with
  | _ k ih =>
    match k with
    | 0 => exact .pure ⟨h₀, fun _ _ _ h => ⟨0, Nat.zero_le _, h⟩⟩
    | 1 => exact .pure ⟨h₀, fun _ _ _ h => ⟨1, le_refl _, h⟩⟩
    | last + 2 =>
      have hbase : elem base size 0 = base := by simp [elem]
      have hswap := swap_ensures cmp (i := 0) (j := last + 1) h₀ hm (by omega) (Nat.lt_succ_self _) hk (by omega)
      rw [hbase] at hswap
      unfold extract
      refine .bind (hswap.post fun _ w₁ ⟨h₁, _, hview⟩ => ?_)
      refine .bind ((siftDown_ensures h₁ hm hsize (by omega) (show last + 1 ≤ n by omega)).post
        fun _ w₂ ⟨h₂, hk₂, hsift⟩ => ?_)
      refine (ih (last + 1) (by omega) h₂ (by omega)).post fun _ w₃ ⟨h₃, hsorted⟩ => ⟨h₃, fun le hle hcmp h => ?_⟩
      obtain ⟨hroot, htail⟩ := h.extract hle hk
      rw [← hview] at hroot htail
      exact hsorted le hle hcmp ⟨hsift le 0 hle hcmp (le_refl 0) hroot, hk₂.moved.tail htail⟩

theorem checkedRange_ensures {addr len : ℕ} {Q : Unit → World σ → Prop} {E : BionicError → World σ → Prop}
    (hm : ∀ x, addr ≤ x → x < addr + len → w.mem.mapped x = true) (h : Q () w) : Ensures (checkedRange addr len) w Q E := by
  unfold checkedRange
  split
  · exact .pure h
  · rename_i hlen
    have hfirst := hm addr (le_refl _) (by omega)
    have hlast := w.mem.user _ (hm (addr + (len - 1)) (by omega) (by omega))
    split
    · rename_i hnull
      rw [hnull, w.mem.null] at hfirst
      cases hfirst
    · rw [if_pos (by omega)]
      exact .pure h

/-- the array's size in bytes can be told -/
theorem bytes_lt (hm : Mapped base size n w₀.mem) : n * size < 2 ^ 64 := by
  by_contra h
  have := w₀.mem.user _ (hm (base + 2 ^ 63) (by omega) (by omega))
  omega

/-- the order of the array where the comparator orders it -/
def Ascending (le : List UInt8 → List UInt8 → Prop) (base size n : ℕ) (m : GuestMemory) : Prop :=
  ((List.range n).map (elems base size m)).Pairwise le

theorem qsort_ensures (hm : Mapped base size n w.mem) :
    Ensures (qsort cmp base size n) w
      (fun _ w' => Kept base size n n w w' ∧ ∀ le, TotalPreorder le → Orders cmp le base size n w.mem →
        Ascending le base size n w'.mem)
      (fun e w' => size = 0 ∧ n ≠ 0 ∧ e = .invalidArgument "qsort: zero element size" ∧ w' = w ∨
        Fails cmp base size n w e w') := by
  unfold qsort
  split
  · rename_i hn
    subst hn
    exact .pure ⟨.refl w, fun le _ _ => List.Pairwise.nil⟩
  · rename_i hn
    split
    · rename_i hsize
      exact .throw (.inl ⟨hsize, hn, rfl, rfl⟩)
    · rename_i hsize
      rw [if_neg (by have := bytes_lt hm; omega)]
      refine .bind (checkedRange_ensures hm ?_)
      split
      · rename_i hone
        subst hone
        exact .pure ⟨.refl w, fun le _ _ => List.pairwise_singleton _ _⟩
      · refine .mono (Q := fun _ w' => Kept base size n n w w' ∧ ∀ le, TotalPreorder le → Orders cmp le base size n w.mem →
          Ascending le base size n w'.mem) (E := Fails cmp base size n w) ?_ (fun _ _ h => h) fun _ _ h => .inr h
        have hhalf : n / 2 ≤ n := Nat.div_le_self n 2
        refine .bind ((heapify_ensures (.refl w) hm (by omega) hhalf).post fun _ w₁ ⟨h₁, hheap⟩ => ?_)
        refine (extract_ensures h₁ hm (by omega) (le_refl n)).post fun _ w₂ ⟨h₂, hsorted⟩ => ⟨h₂, fun le hle hcmp => ?_⟩
        obtain ⟨e, he, h⟩ := hsorted le hle hcmp (hheap le hle hcmp (heaped_leaves (le_refl _))).sorted
        exact h.pairwise he

/-! ## The bisection -/

/-- the comparator's answers about the object at `key` are its place among the elements: it is `k` and they are `v` -/
def Places {α : Type} (cmp : GuestCompare σ) (le : α → α → Prop) (k : α) (v : ℕ → α) (key base size n : ℕ)
    (m : GuestMemory) : Prop :=
  ∀ s i, i < n → ∃ c s', cmp.compare s m key (elem base size i) = (.ok c, s') ∧ (c ≤ 0 ↔ le k (v i)) ∧ (0 ≤ c ↔ le (v i) k)

/-- memory as it was, and the object at `key` compared with elements only -/
structure Looked (key base size n : ℕ) (w w' : World σ) : Prop where
  mem : w'.mem = w.mem
  compared : ∀ p ∈ w'.compared, p ∈ w.compared ∨ ∃ i, i < n ∧ p = (key, elem base size i)

theorem Looked.trans {key : ℕ} (h : Looked key base size n w w₁) (h' : Looked key base size n w₁ w₂) :
    Looked key base size n w w₂ where
  mem := h'.mem.trans h.mem
  compared p hp := (h'.compared p hp).elim (h.compared p) .inr

/-- a fault of the comparator's own, about the object at `key` and an element -/
def KeyFaulted (cmp : GuestCompare σ) (key base size n : ℕ) (m : GuestMemory) (addr : ℕ) : Prop :=
  ∃ s i s', i < n ∧ cmp.compare s m key (elem base size i) = (.error addr, s')

/-- the answer `r` is an equal element where there is one, and null where there is none -/
def Finds {α : Type} (le : α → α → Prop) (k : α) (v : ℕ → α) (base size n r : ℕ) : Prop :=
  ((∃ i, i < n ∧ le k (v i) ∧ le (v i) k) → ∃ i, i < n ∧ le k (v i) ∧ le (v i) k ∧ r = elem base size i) ∧
    ((¬∃ i, i < n ∧ le k (v i) ∧ le (v i) k) → r = 0)

/-- what is equal lies between `lo` and `hi` -/
theorem bisect_ensures {key lo hi : ℕ} (hhi : hi ≤ n) :
    Ensures (bisect cmp base size key lo hi) w
      (fun r w' => Looked key base size n w w' ∧ ∀ (α : Type) (le : α → α → Prop) k v, TotalPreorder le →
        (∀ i j, i ≤ j → j < n → le (v i) (v j)) → Places cmp le k v key base size n w.mem →
        (∀ i, i < n → le k (v i) → le (v i) k → lo ≤ i ∧ i < hi) → Finds le k v base size n r)
      (fun e w' => Looked key base size n w w' ∧ ∃ addr, e = .fault addr ∧ KeyFaulted cmp key base size n w.mem addr) := by
  induction hk : hi - lo using Nat.strong_induction_on generalizing lo hi w with
  | _ k ih =>
    unfold bisect
    split
    · rename_i hlt
      have hmid : lo + (hi - lo) / 2 < hi := by omega
      have hmid' : lo ≤ lo + (hi - lo) / 2 := Nat.le_add_right _ _
      generalize lo + (hi - lo) / 2 = mid at hmid hmid' ⊢
      have hlook : ∀ s, Looked key base size n w ⟨w.mem, s, (key, elem base size mid) :: w.compared⟩ := by
        intro s
        refine ⟨rfl, fun p hp => ?_⟩
        rcases List.mem_cons.1 hp with rfl | hp
        · exact .inr ⟨mid, by omega, rfl⟩
        · exact .inl hp
      refine .bind (compare_ensures (fun c s hcmp => ?_) fun addr s hcmp =>
        ⟨hlook s, addr, rfl, w.comparator, mid, s, by omega, hcmp⟩)
      -- what the answer tells of the element in the middle
      have hplace : ∀ {α : Type} {le : α → α → Prop} {k : α} {v : ℕ → α}, Places cmp le k v key base size n w.mem →
          (c ≤ 0 ↔ le k (v mid)) ∧ (0 ≤ c ↔ le (v mid) k) := by
        intro α le k v hp
        obtain ⟨c', s', hc, hspec⟩ := hp w.comparator mid (by omega)
        rw [hcmp] at hc
        cases hc
        exact hspec
      split
      · rename_i hzero
        refine .pure ⟨hlook s, fun α le k v _ _ hp _ => ?_⟩
        obtain ⟨hle, hge⟩ := hplace hp
        have hmem : mid < n ∧ le k (v mid) ∧ le (v mid) k := ⟨by omega, hle.1 hzero.le, hge.1 hzero.ge⟩
        exact ⟨fun _ => ⟨mid, hmem.1, hmem.2.1, hmem.2.2, rfl⟩, fun hno => absurd ⟨mid, hmem⟩ hno⟩
      · rename_i hzero
        split
        · rename_i hneg
          refine .mono (ih (mid - lo) (by omega) (by omega) rfl) (fun r w' ⟨hl, hf⟩ => ⟨(hlook s).trans hl, ?_⟩)
            fun e w' ⟨hl, hf⟩ => ⟨(hlook s).trans hl, hf⟩
          refine fun α le k v hle hasc hp hin => hf α le k v hle hasc hp fun i hi hki hik => ?_
          refine ⟨(hin i hi hki hik).1, ?_⟩
          -- from the middle on all are above
          by_contra hge
          exact absurd ((hplace hp).2.2 (hle.trans _ _ _ (hasc mid i (not_lt.1 hge) hi) hik)) (not_le.2 hneg)
        · rename_i hneg
          refine .mono (ih (hi - (mid + 1)) (by omega) hhi rfl) (fun r w' ⟨hl, hf⟩ => ⟨(hlook s).trans hl, ?_⟩)
            fun e w' ⟨hl, hf⟩ => ⟨(hlook s).trans hl, hf⟩
          refine fun α le k v hle hasc hp hin => hf α le k v hle hasc hp fun i hi hki hik => ?_
          refine ⟨?_, (hin i hi hki hik).2⟩
          by_contra hge
          have := (hplace hp).1.2 (hle.trans _ _ _ hki (hasc i mid (by omega) (by omega)))
          omega
    · rename_i hge
      refine .pure ⟨⟨rfl, fun p hp => .inl hp⟩, fun α le k v _ _ _ hin => ⟨?_, fun _ => rfl⟩⟩
      rintro ⟨i, hi, hki, hik⟩
      have := hin i hi hki hik
      omega

theorem bsearch_ensures (hm : Mapped base size n w.mem) (key : ℕ) :
    Ensures (bsearch cmp base size key n) w
      (fun r w' => Looked key base size n w w' ∧ ∀ (α : Type) (le : α → α → Prop) k v, TotalPreorder le →
        (∀ i j, i ≤ j → j < n → le (v i) (v j)) → Places cmp le k v key base size n w.mem → Finds le k v base size n r)
      (fun e w' => Looked key base size n w w' ∧
        (size = 0 ∧ n ≠ 0 ∧ e = .invalidArgument "bsearch: zero element size" ∨
          ∃ addr, e = .fault addr ∧ KeyFaulted cmp key base size n w.mem addr)) := by
  have hnow : Looked key base size n w w := ⟨rfl, fun p hp => .inl hp⟩
  unfold bsearch
  split
  · rename_i hn
    refine .pure ⟨hnow, fun α le k v _ _ _ => ⟨?_, fun _ => rfl⟩⟩
    rintro ⟨i, hi, -⟩
    omega
  · rename_i hn
    split
    · rename_i hsize
      exact .throw ⟨hnow, .inl ⟨hsize, hn, rfl⟩⟩
    · rw [if_neg (by have := bytes_lt hm; omega)]
      refine .bind (checkedRange_ensures hm ?_)
      refine .mono (bisect_ensures (le_refl n)) (fun r w' ⟨hl, hf⟩ => ⟨hl, ?_⟩) fun e w' ⟨hl, hf⟩ => ⟨hl, .inr hf⟩
      exact fun α le k v hle hasc hp => hf α le k v hle hasc hp fun i hi _ _ => ⟨Nat.zero_le i, hi⟩

/-! ## The two of them -/

/-- the array is a permutation of what it was, the rest of memory as it was, and only its elements were compared -/
structure Permuted (base size n : ℕ) (w w' : World σ) : Prop where
  mapped : w'.mem.mapped = w.mem.mapped
  outside : ∀ x, ¬(base ≤ x ∧ x < base + n * size) → w'.mem.bytes x = w.mem.bytes x
  perm : ((List.range n).map (elems base size w'.mem)).Perm ((List.range n).map (elems base size w.mem))
  compared : ∀ p ∈ w'.compared, p ∈ w.compared ∨ ∃ i j, i < n ∧ j < n ∧ p = (elem base size i, elem base size j)

theorem Kept.permuted (h : Kept base size n n w w₁) : Permuted base size n w w₁ :=
  ⟨h.mapped, h.outside, h.moved.perm, h.compared⟩

/-- `qsort` ends with the array permuted, whatever the comparator answers, fails only where the comparator faults or
elements are of no size, and sorts where the comparator orders; `bsearch` finds -/
theorem sort_and_search (cmp : GuestCompare σ) (base size n : ℕ) (w : World σ) (hm : Mapped base size n w.mem) :
    Ensures (qsort cmp base size n) w
        (fun _ w' => Permuted base size n w w' ∧ ∀ le, TotalPreorder le → Orders cmp le base size n w.mem →
          Ascending le base size n w'.mem)
        (fun e w' => Permuted base size n w w' ∧
          (size = 0 ∧ n ≠ 0 ∧ e = .invalidArgument "qsort: zero element size" ∨
            ∃ addr, e = .fault addr ∧ Faulted cmp base size n w.mem addr)) ∧
      ∀ key, Ensures (bsearch cmp base size key n) w
        (fun r w' => Looked key base size n w w' ∧ ∀ (α : Type) (le : α → α → Prop) k v, TotalPreorder le →
          (∀ i j, i ≤ j → j < n → le (v i) (v j)) → Places cmp le k v key base size n w.mem →
          Finds le k v base size n r)
        (fun e w' => Looked key base size n w w' ∧
          (size = 0 ∧ n ≠ 0 ∧ e = .invalidArgument "bsearch: zero element size" ∨
            ∃ addr, e = .fault addr ∧ KeyFaulted cmp key base size n w.mem addr)) := by
  refine ⟨(qsort_ensures hm).mono (fun _ w' ⟨hk, hs⟩ => ⟨hk.permuted, hs⟩) fun e w' h => ?_, bsearch_ensures hm⟩
  rcases h with ⟨hsize, hn, rfl, rfl⟩ | ⟨hk, hf⟩
  · exact ⟨(Kept.refl _).permuted, .inl ⟨hsize, hn, rfl⟩⟩
  · exact ⟨hk.permuted, .inr hf⟩

end Runs

/-- one page, and a comparator of bytes -/
def page (bytes : ℕ → UInt8) : GuestMemory where
  bytes
  mapped x := decide (4096 ≤ x ∧ x < 8192)
  null := page_null
  user := page_user

def byteCompare : GuestCompare Unit where
  compare s m a b := (.ok ((m.bytes a).toNat - (m.bytes b).toNat), s)

def byteLe (x y : List UInt8) : Prop := (x.headD 0).toNat ≤ (y.headD 0).toNat

/-- three bytes, the least last -/
def threeBytes : World Unit := ⟨page fun x => if x = 4096 then 5 else if x = 4097 then 9 else 2, (), []⟩

theorem sort_and_search_bytes :
    ∃ w', qsort byteCompare 4096 1 3 threeBytes = .ok () w' ∧ Ascending byteLe 4096 1 3 w'.mem ∧
      ((List.range 3).map (elems 4096 1 w'.mem)).Perm [[5], [9], [2]] := by
  have hm : Mapped 4096 1 3 threeBytes.mem := fun x h₁ h₂ => decide_eq_true ⟨h₁, by omega⟩
  obtain ⟨hok, herror⟩ := (sort_and_search byteCompare 4096 1 3 threeBytes hm).1
  have hle : TotalPreorder byteLe := ⟨fun _ _ => le_total _ _, fun _ _ _ => le_trans⟩
  have hcmp : Orders byteCompare byteLe 4096 1 3 threeBytes.mem := by
    intro s m' i j _ _ _
    refine ⟨_, _, rfl, ?_, ?_⟩
    all_goals
      simp only [byteLe, elems, GuestMemory.at', List.range_one, List.map_cons, List.headD_cons, Nat.add_zero]
      omega
  cases h : qsort byteCompare 4096 1 3 threeBytes with
  | ok u w' =>
    obtain ⟨hperm, hasc⟩ := hok u w' h
    exact ⟨w', rfl, hasc byteLe hle hcmp, hperm.perm⟩
  | error e w' =>
    rcases (herror e w' h).2 with ⟨h, -⟩ | ⟨addr, -, s, m', i, j, s', -, -, -, hf⟩
    · cases h
    · cases hf

end Omnidroid.Bionic.Sort
