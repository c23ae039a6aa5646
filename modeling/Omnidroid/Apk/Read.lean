/-
Reading an entry (`Apk::read_entry`, `stream`, `pump` and `Sink` of `omni-apk/src/apk.rs`).

- `Payload`: what the file and the inflater answer, read after read, while an entry is read. `Payload.read`: `read_entry` after
  `k` of these reads, the sink as it is then; a payload that never ends is read for ever.
- `Gives`, `output`: the whole of what a reader gives, and what it has given after `k` reads.
- `written_output`: the sink holds exactly what was read. `read_ok`: what is returned is the whole output, of the size and the CRC
  that the directory says.
- `bounded_iff`: nothing cuts a payload off. What is held stays within the plausible size and one buffer exactly for the payloads
  whose output does.
-/
import Omnidroid.Apk.Probe

namespace Omnidroid.Apk

/-! ## Entries -/

inductive CompressionMethod
  | Stored
  | Deflated
  | Other (code : UInt16)
deriving DecidableEq

def CompressionMethod.fromCode (code : UInt16) : CompressionMethod :=
  if code = 0 then .Stored else if code = 8 then .Deflated else .Other code

def compressionMethodName (method : UInt16) : String :=
  match method.toNat with
  | 0 => "STORED"
  | 1 => "SHRUNK"
  | 6 => "IMPLODED"
  | 8 => "DEFLATED"
  | 9 => "DEFLATE64"
  | 12 => "BZIP2"
  | 14 => "LZMA"
  | 93 => "ZSTD"
  | 95 => "XZ"
  | 96 => "JPEG"
  | 97 => "WAVPACK"
  | 98 => "PPMD"
  | 99 => "AES"
  | _ => "unknown"

def MAX_DEFLATE_EXPANSION : ℕ := 1032

def STREAM_BUFFER : ℕ := 256 * 1024

/-- `plausible_uncompressed_size`: the multiplication saturates -/
def Entry.plausible (e : Entry) : ℕ :=
  min e.uncompressedSize.toNat (match CompressionMethod.fromCode e.method with
    | .Stored => e.compressedSize.toNat
    | _ => min (e.compressedSize.toNat * MAX_DEFLATE_EXPANSION) (2 ^ 64 - 1))

/-- the errors of reading an entry; `ε` is an I/O error, `τ` an allocator's refusal -/
inductive ReadError (ε τ : Type)
  | TooLargeForAddressSpace (name : Bytes) (size pointerWidth : ℕ)
  | Allocation (name : Bytes) (bytes : ℕ) (source : τ)
  | Io (operation : String) (path : Bytes) (source : ε)
  | UnsupportedCompressionMethod (name : Bytes) (method : UInt16) (methodName : String)
  | UncompressedSizeMismatch (name : Bytes) (expected actual : ℕ)
  | CrcMismatch (name : Bytes) (expected actual : UInt32) (len : ℕ)
  | Inflate (name : Bytes) (produced expected : ℕ) (source : ε)
  | Sink (name : Bytes) (destination : String) (written expected : ℕ) (source : ε)
deriving DecidableEq

/-! ## What is read and written through -/

/-- `crc32fast::Hasher`: bytes may be hashed in pieces -/
structure Hasher where
  State : Type
  new : State
  update : State → Bytes → State
  finalize : State → UInt32
  update_nil : ∀ s, update s [] = s
  update_append : ∀ s a b, update s (a ++ b) = update (update s a) b

/-- the CRC of a string -/
def Hasher.of (H : Hasher) (bytes : Bytes) : UInt32 := H.finalize (H.update H.new bytes)

/-- what `Read::read` puts into a buffer of `STREAM_BUFFER` bytes, nothing at the end -/
structure Chunk where
  bytes : Bytes
  fits : bytes.length ≤ STREAM_BUFFER

/-- what a reader answers, read after read -/
abbrev Reader (ε : Type) := ℕ → Except ε Chunk

def Reader.next {ε : Type} (r : Reader ε) : Reader ε := fun k => r (k + 1)

/-- `std::io::Write::write`: how many of the bytes were taken -/
structure Writer (ω ε : Type) where
  write : ω → (buf : Bytes) → ω × Except ε { n : ℕ // n ≤ buf.length }

/-- a `Vec<u8>`, which takes everything -/
def vec (ε : Type) : Writer Bytes ε := ⟨fun held buf => (held ++ buf, .ok ⟨buf.length, Nat.le_refl _⟩)⟩

/-- `Sink`, without the SHA-256 that `read_entry` does not ask for -/
structure Sink (H : Hasher) (ω : Type) where
  out : ω
  crc : H.State
  written : ℕ

variable {H : Hasher} {ω ε τ : Type}

def Sink.write (w : Writer ω ε) (s : Sink H ω) (buf : Bytes) : Sink H ω × Except ε { n : ℕ // n ≤ buf.length } :=
  match w.write s.out buf with
  | (out, .error e) => ({ s with out := out }, .error e)
  | (out, .ok n) => (⟨out, H.update s.crc (buf.take n.1), s.written + n.1⟩, .ok n)

/-- `write_all`: a write that takes nothing is an error of its own -/
def Sink.writeAll (w : Writer ω ε) (writeZero : ε) (s : Sink H ω) (buf : Bytes) : Sink H ω × Except ε Unit :=
  if buf = [] then (s, .ok ())
  else match s.write w buf with
    | (s', .error e) => (s', .error e)
    | (s', .ok n) => if _hn : n.1 = 0 then (s', .error writeZero) else writeAll w writeZero s' (buf.drop n.1)
termination_by buf.length
decreasing_by
  have := n.2
  rw [List.length_drop]
  omega

/-! ## Reading -/

/-- a loop of reads: still going, or ended -/
inductive Loop (H : Hasher) (ω ε τ : Type)
  | running (s : Sink H ω)
  | ended (s : Sink H ω) (result : Except (ReadError ε τ) Unit)

def Loop.sink : Loop H ω ε τ → Sink H ω
  | .running s => s
  | .ended s _ => s

/-- what the host answers to a `read_entry` -/
structure Payload (ε τ : Type) where
  /-- the largest `usize`, and its width -/
  usizeMax : ℕ
  pointerWidth : ℕ
  /-- `try_reserve_exact`, where it is refused -/
  reserve : ℕ → Option τ
  /-- the seek to the payload, where it fails -/
  seek : Option ε
  /-- the file from there, as many bytes as the entry's compressed size at most -/
  stored : Reader ε
  /-- the inflater over it -/
  inflated : Reader ε
  writeZero : ε

/-- what makes of `k` reads what they leave -/
def pump (w : Writer ω ε) (path : Bytes) (e : Entry) (destination : String) (inflating : Bool) (writeZero : ε) :
    ℕ → Reader ε → Sink H ω → Loop H ω ε τ
  | 0, _, s => .running s
  | k + 1, reader, s =>
    match reader 0 with
    | .error source => .ended s (.error (if inflating then .Inflate e.name s.written e.uncompressedSize.toNat source
        else .Io "reading a stored entry payload" path source))
    | .ok c =>
      if c.bytes = [] then .ended s (.ok ())
      else match s.writeAll w writeZero c.bytes with
        | (s', .error source) => .ended s' (.error (.Sink e.name destination s.written e.uncompressedSize.toNat source))
        | (s', .ok ()) => pump w path e destination inflating writeZero k reader.next s'

/-- the size and the CRC, once the payload has ended -/
def checked (e : Entry) : Loop H ω ε τ → Loop H ω ε τ
  | .ended s (.ok ()) =>
    if s.written ≠ e.uncompressedSize.toNat then
      .ended s (.error (.UncompressedSizeMismatch e.name e.uncompressedSize.toNat s.written))
    else if H.finalize s.crc ≠ e.crc32 then .ended s (.error (.CrcMismatch e.name e.crc32 (H.finalize s.crc) s.written))
    else .ended s (.ok ())
  | l => l

/-- `stream` -/
def stream (w : Writer ω ε) (p : Payload ε τ) (path : Bytes) (e : Entry) (out : ω) (destination : String) (k : ℕ) : Loop H ω ε τ :=
  let sink : Sink H ω := ⟨out, H.new, 0⟩
  match p.seek with
  | some source => .ended sink (.error (.Io "seeking to an entry payload" path source))
  | none =>
    match CompressionMethod.fromCode e.method with
    | .Stored => checked e (pump w path e destination false p.writeZero k p.stored sink)
    | .Deflated => checked e (pump w path e destination true p.writeZero k p.inflated sink)
    | .Other method => .ended sink (.error (.UnsupportedCompressionMethod e.name method (compressionMethodName method)))

/-- `read_entry`, after `k` reads of the payload -/
def Payload.read (H : Hasher) (p : Payload ε τ) (path : Bytes) (e : Entry) (k : ℕ) : Loop H Bytes ε τ :=
  if p.usizeMax < e.plausible then .ended ⟨[], H.new, 0⟩ (.error (.TooLargeForAddressSpace e.name e.plausible p.pointerWidth))
  else match p.reserve e.plausible with
    | some source => .ended ⟨[], H.new, 0⟩ (.error (.Allocation e.name e.plausible source))
    | none => stream (vec ε) p path e [] "an in-memory buffer" k

/-- what `read_entry` returns, if the reads have ended by then -/
def Loop.returned : Loop H Bytes ε τ → Option (Except (ReadError ε τ) Bytes)
  | .running _ => none
  | .ended _ (.error e) => some (.error e)
  | .ended s (.ok ()) => some (.ok s.out)

/-! ## What a payload gives -/

/-- what a reader has given after `k` reads, the first that ends or fails the last -/
def output : ℕ → Reader ε → Bytes
  | 0, _ => []
  | k + 1, r =>
    match r 0 with
    | .error _ => []
    | .ok c => if c.bytes = [] then [] else c.bytes ++ output k r.next

/-- the reader ends, having given these bytes -/
inductive Gives : Reader ε → Bytes → Prop
  | done {r : Reader ε} {c : Chunk} (h : r 0 = .ok c) (hend : c.bytes = []) : Gives r []
  | chunk {r : Reader ε} {c : Chunk} {rest : Bytes} (h : r 0 = .ok c) (hmore : c.bytes ≠ []) (hrest : Gives r.next rest) :
      Gives r (c.bytes ++ rest)

/-- the reader that an entry is read through, where it comes to that -/
def Payload.opened (p : Payload ε τ) (e : Entry) : Option (Reader ε) :=
  if p.usizeMax < e.plausible ∨ (p.reserve e.plausible).isSome ∨ p.seek.isSome then none
  else match CompressionMethod.fromCode e.method with
    | .Stored => some p.stored
    | .Deflated => some p.inflated
    | .Other _ => none

/-! ## The sink holds what was read -/

/-- the sink holds these bytes, and has counted and hashed them -/
structure Sink.Holds (s : Sink H Bytes) (bs : Bytes) : Prop where
  out : s.out = bs
  crc : s.crc = H.update H.new bs
  written : s.written = bs.length

theorem Sink.holds_new : Sink.Holds (⟨[], H.new, 0⟩ : Sink H Bytes) [] := ⟨rfl, (H.update_nil H.new).symm, rfl⟩

/-- a `Vec` takes everything at once -/
theorem Sink.writeAll_vec (s : Sink H Bytes) (z : ε) (buf : Bytes) :
    s.writeAll (vec ε) z buf = (⟨s.out ++ buf, H.update s.crc buf, s.written + buf.length⟩, .ok ()) := by
  rw [Sink.writeAll]
  by_cases hbuf : buf = []
  · rw [if_pos hbuf, hbuf, List.append_nil, H.update_nil]
    rfl
  · have hlen : buf.length ≠ 0 := fun h => hbuf (List.length_eq_zero_iff.mp h)
    rw [if_neg hbuf]
    simp only [Sink.write, vec, List.take_length, List.drop_length]
    rw [dif_neg hlen, Sink.writeAll, if_pos rfl]

theorem Sink.Holds.more {s : Sink H Bytes} {bs : Bytes} (h : s.Holds bs) (buf : Bytes) :
    Sink.Holds (⟨s.out ++ buf, H.update s.crc buf, s.written + buf.length⟩ : Sink H Bytes) (bs ++ buf) where
  out := by rw [h.out]
  crc := by rw [h.crc, H.update_append]
  written := by rw [h.written, List.length_append]

section
variable {path : Bytes} {e : Entry} {destination : String} {inflating : Bool} {z : ε}

theorem pump_holds (k : ℕ) (r : Reader ε) {s : Sink H Bytes} {bs : Bytes} (h : s.Holds bs) :
    (pump (τ := τ) (vec ε) path e destination inflating z k r s).sink.Holds (bs ++ output k r) := by
  induction k generalizing r s bs with
  | zero => simpa [pump, output, Loop.sink] using h
  | succ k ih =>
    rw [pump, output]
    cases hread : r 0 with
    | error source => simpa [Loop.sink] using h
    | ok c =>
      by_cases hend : c.bytes = []
      · simpa [hend, Loop.sink] using h
      · simp only [if_neg hend, Sink.writeAll_vec]
        rw [← List.append_assoc]
        exact ih r.next (h.more c.bytes)

/-- a loop that ends well has read all there is -/
theorem pump_ok (k : ℕ) (r : Reader ε) {s s' : Sink H Bytes} {bs : Bytes} (h : s.Holds bs)
    (hend : pump (τ := τ) (vec ε) path e destination inflating z k r s = .ended s' (.ok ())) :
    ∃ rest, Gives r rest ∧ s'.Holds (bs ++ rest) := by
  induction k generalizing r s bs with
  | zero => simp [pump] at hend
  | succ k ih =>
    rw [pump] at hend
    cases hread : r 0 with
    | error source => simp [hread] at hend
    | ok c =>
      by_cases hc : c.bytes = []
      · simp only [hread, if_pos hc, Loop.ended.injEq, and_true] at hend
        refine ⟨[], .done hread hc, ?_⟩
        rwa [List.append_nil, ← hend]
      · simp only [hread, if_neg hc, Sink.writeAll_vec] at hend
        obtain ⟨rest, hgives, hholds⟩ := ih r.next (h.more c.bytes) hend
        exact ⟨c.bytes ++ rest, .chunk hread hc hgives, by rwa [← List.append_assoc]⟩

/-- and a reader that ends is read to its end -/
theorem pump_gives {r : Reader ε} {rest : Bytes} (hgives : Gives r rest) {s : Sink H Bytes} {bs : Bytes} (h : s.Holds bs) :
    ∃ k s', pump (τ := τ) (vec ε) path e destination inflating z k r s = .ended s' (.ok ()) ∧ s'.Holds (bs ++ rest) := by
  induction hgives generalizing s bs with
  | done hread hc => exact ⟨1, s, by simp [pump, hread, hc], by rwa [List.append_nil]⟩
  | @chunk r c rest hread hc _ ih =>
    obtain ⟨k, s', hend, hholds⟩ := ih (h.more c.bytes)
    refine ⟨k + 1, s', ?_, by rwa [← List.append_assoc]⟩
    rw [pump]
    simp only [hread, if_neg hc, Sink.writeAll_vec, hend]

end

@[simp] theorem checked_sink (e : Entry) (l : Loop H ω ε τ) : (checked e l).sink = l.sink := by
  unfold checked
  split
  · split_ifs <;> rfl
  · rfl

theorem checked_ok {e : Entry} {l : Loop H ω ε τ} {s : Sink H ω} :
    checked e l = .ended s (.ok ()) ↔
      l = .ended s (.ok ()) ∧ s.written = e.uncompressedSize.toNat ∧ H.finalize s.crc = e.crc32 := by
  unfold checked
  split
  · split_ifs with hsize hcrc
    · simp only [Loop.ended.injEq, reduceCtorEq, and_false, and_true, false_iff]
      rintro ⟨rfl, h, _⟩
      exact hsize h
    · simp only [Loop.ended.injEq, reduceCtorEq, and_false, and_true, false_iff]
      rintro ⟨rfl, _, h⟩
      exact hcrc h
    · simp only [Loop.ended.injEq, and_true]
      refine ⟨?_, fun h => h.1⟩
      rintro rfl
      exact ⟨rfl, not_not.mp hsize, not_not.mp hcrc⟩
  · rename_i hno
    exact ⟨fun h => absurd h (hno s), fun h => absurd h.1 (hno s)⟩

/-! ## Reading an entry -/

section
variable (H) (p : Payload ε τ) (path : Bytes) (e : Entry)

theorem read_unopened (h : p.opened e = none) (k : ℕ) :
    ∃ error, p.read H path e k = .ended ⟨[], H.new, 0⟩ (.error error) := by
  unfold Payload.read
  split_ifs with hsize
  · exact ⟨_, rfl⟩
  cases hreserve : p.reserve e.plausible with
  | some source => exact ⟨_, rfl⟩
  | none =>
    unfold stream
    cases hseek : p.seek with
    | some source => exact ⟨_, rfl⟩
    | none =>
      simp only [Payload.opened, hreserve, hseek, hsize, Option.isSome_none, Bool.false_eq_true, or_self, if_false] at h
      cases hmethod : CompressionMethod.fromCode e.method with
      | Stored => simp [hmethod] at h
      | Deflated => simp [hmethod] at h
      | Other method => exact ⟨_, rfl⟩

theorem read_opened {r : Reader ε} (h : p.opened e = some r) :
    ∃ inflating, ∀ k, p.read H path e k =
      checked e (pump (vec ε) path e "an in-memory buffer" inflating p.writeZero k r ⟨[], H.new, 0⟩) := by
  unfold Payload.opened at h
  split_ifs at h with hearly
  simp only [not_or, Bool.not_eq_true, Option.isSome_eq_false_iff, Option.isNone_iff_eq_none] at hearly
  obtain ⟨hsize, hreserve, hseek⟩ := hearly
  cases hmethod : CompressionMethod.fromCode e.method with
  | Stored =>
    obtain rfl : p.stored = r := by simpa [hmethod] using h
    exact ⟨false, fun k => by simp [Payload.read, stream, hsize, hreserve, hseek, hmethod]⟩
  | Deflated =>
    obtain rfl : p.inflated = r := by simpa [hmethod] using h
    exact ⟨true, fun k => by simp [Payload.read, stream, hsize, hreserve, hseek, hmethod]⟩
  | Other method => simp [hmethod] at h

/-- the sink holds what the payload has given so far -/
theorem read_holds {r : Reader ε} (h : p.opened e = some r) (k : ℕ) : (p.read H path e k).sink.Holds (output k r) := by
  obtain ⟨inflating, hread⟩ := read_opened H p path e h
  rw [hread, checked_sink]
  exact pump_holds k r Sink.holds_new

/-- what is returned is the whole output, of the size and with the CRC that the directory says -/
theorem read_ok {k : ℕ} {bytes : Bytes} (h : (p.read H path e k).returned = some (.ok bytes)) :
    ∃ r, p.opened e = some r ∧ Gives r bytes ∧ bytes.length = e.uncompressedSize.toNat ∧ H.of bytes = e.crc32 := by
  cases hopen : p.opened e with
  | none =>
    obtain ⟨error, hread⟩ := read_unopened H p path e hopen k
    simp [hread, Loop.returned] at h
  | some r =>
    obtain ⟨inflating, hread⟩ := read_opened H p path e hopen
    cases hloop : p.read H path e k with
    | running s => simp [hloop, Loop.returned] at h
    | ended s result =>
      cases result with
      | error error => simp [hloop, Loop.returned] at h
      | ok u =>
        obtain rfl : s.out = bytes := by simpa [hloop, Loop.returned] using h
        rw [hread] at hloop
        obtain ⟨hend, hsize, hcrc⟩ := checked_ok.mp hloop
        obtain ⟨rest, hgives, hholds⟩ := pump_ok k r Sink.holds_new hend
        rw [List.nil_append] at hholds
        rw [hholds.out]
        refine ⟨r, rfl, hgives, ?_, ?_⟩
        · rw [← hholds.written, hsize]
        · rw [Hasher.of, ← hholds.crc, hcrc]

/-- and such an output is returned -/
theorem read_gives {r : Reader ε} {bytes : Bytes} (hopen : p.opened e = some r) (hgives : Gives r bytes)
    (hsize : bytes.length = e.uncompressedSize.toNat) (hcrc : H.of bytes = e.crc32) :
    ∃ k, (p.read H path e k).returned = some (.ok bytes) := by
  obtain ⟨inflating, hread⟩ := read_opened H p path e hopen
  obtain ⟨k, s, hend, hholds⟩ : ∃ k s', pump (τ := τ) (vec ε) path e "an in-memory buffer" inflating p.writeZero k r ⟨[], H.new, 0⟩ =
      .ended s' (.ok ()) ∧ s'.Holds ([] ++ bytes) := pump_gives hgives Sink.holds_new
  rw [List.nil_append] at hholds
  refine ⟨k, ?_⟩
  have hok : checked e (pump (τ := τ) (vec ε) path e "an in-memory buffer" inflating p.writeZero k r ⟨[], H.new, 0⟩)
      = .ended s (.ok ()) := by
    refine checked_ok.mpr ⟨hend, by rw [hholds.written, hsize], ?_⟩
    rw [hholds.crc]
    exact hcrc
  rw [hread, hok, Loop.returned, hholds.out]

theorem read_returns (bytes : Bytes) : (∃ k, (p.read H path e k).returned = some (.ok bytes)) ↔
    ∃ r, p.opened e = some r ∧ Gives r bytes ∧ bytes.length = e.uncompressedSize.toNat ∧ H.of bytes = e.crc32 :=
  ⟨fun ⟨_, h⟩ => read_ok H p path e h, fun ⟨_, hopen, hgives, hsize, hcrc⟩ => read_gives H p path e hopen hgives hsize hcrc⟩

/-! ## What is held -/

/-- what is held and counted never passes the plausible size and one buffer -/
def Bounded : Prop :=
  ∀ k, (p.read H path e k).sink.out.length ≤ e.plausible + STREAM_BUFFER ∧
    (p.read H path e k).sink.written ≤ e.plausible + STREAM_BUFFER

/-- what is returned is exact -/
def Exact : Prop :=
  ∀ k bytes, (p.read H path e k).returned = some (.ok bytes) →
    ∃ r, p.opened e = some r ∧ Gives r bytes ∧ bytes.length = e.uncompressedSize.toNat ∧ H.of bytes = e.crc32

/-- the payload, where it comes to be read, gives no more than that -/
def Modest : Prop :=
  ∀ r, p.opened e = some r → ∀ k, (output k r).length ≤ e.plausible + STREAM_BUFFER

theorem bounded_iff : Bounded H p path e ↔ Modest p e := by
  unfold Bounded Modest
  cases hopen : p.opened e with
  | none =>
    refine ⟨fun _ r h => absurd h (by simp), fun _ k => ?_⟩
    obtain ⟨error, hread⟩ := read_unopened H p path e hopen k
    rw [hread]
    exact ⟨Nat.zero_le _, Nat.zero_le _⟩
  | some r =>
    have hholds := read_holds H p path e hopen
    refine ⟨fun h r' hr k => ?_, fun h k => ?_⟩
    · obtain rfl : r = r' := by simpa using hr
      rw [← (hholds k).out]
      exact (h k).1
    · rw [(hholds k).out, (hholds k).written]
      exact ⟨h r rfl k, h r rfl k⟩

/-- **Reading an entry is exact, and bounded for the payloads that keep to their size.** -/
theorem read_exact_and_bounded : (Exact H p path e ∧ Bounded H p path e) ↔ Modest p e :=
  ⟨fun h => (bounded_iff H p path e).mp h.2, fun h => ⟨fun _ _ => read_ok H p path e, (bounded_iff H p path e).mpr h⟩⟩

end

/-! ## A payload that inflates past its size -/

/-- one bit of CRC-32, the polynomial reflected -/
def crcBit (crc : UInt32) : UInt32 := if crc &&& 1 = 0 then crc >>> 1 else (crc >>> 1) ^^^ 0xEDB88320

def crcByte (crc : UInt32) (b : UInt8) : UInt32 :=
  crcBit (crcBit (crcBit (crcBit (crcBit (crcBit (crcBit (crcBit (crc ^^^ b.toUInt32))))))))

/-- CRC-32 as zip has it -/
def crc32 : Hasher where
  State := UInt32
  new := 0xFFFFFFFF
  update s bytes := bytes.foldl crcByte s
  finalize s := s ^^^ 0xFFFFFFFF
  update_nil _ := rfl
  update_append _ _ _ := List.foldl_append

set_option maxRecDepth 50000 in
/-- "123456789" -/
example : crc32.of [49, 50, 51, 52, 53, 54, 55, 56, 57] = 0xCBF43926 := by decide

/-- a buffer full of zeros -/
def zeros : Chunk := ⟨List.replicate STREAM_BUFFER 0, by rw [List.length_replicate]⟩

/-- a deflate stream of a thousand bytes and a few, and what it inflates to: three buffers of zeros -/
def inflating : Payload Unit Unit where
  usizeMax := 2 ^ 64 - 1
  pointerWidth := 64
  reserve _ := none
  seek := none
  stored _ := .error ()
  inflated k := if k < 3 then .ok zeros else .ok ⟨[], Nat.zero_le _⟩
  writeZero := ()

/-- an entry that says it is one byte long -/
def oneByte : Entry := ⟨[97], 0, 1, 1018, 0, 8, Nat.one_lt_two_pow (Nat.succ_ne_zero 63)⟩

theorem inflates_past_its_size : ¬(Exact crc32 inflating [] oneByte ∧ Bounded crc32 inflating [] oneByte) := by
  rw [read_exact_and_bounded]
  intro h
  have hopen : inflating.opened oneByte = some inflating.inflated := rfl
  have h2 := h _ hopen 2
  have hne : zeros.bytes ≠ [] := fun h => by
    have := congrArg List.length h
    rw [zeros, List.length_replicate] at this
    cases this
  have hlen : (output 2 inflating.inflated).length = STREAM_BUFFER + STREAM_BUFFER := by
    have h0 : inflating.inflated 0 = .ok zeros := rfl
    have h1 : inflating.inflated.next 0 = .ok zeros := rfl
    simp only [output, h0, h1, if_neg hne, List.append_nil, List.length_append]
    rw [zeros, List.length_replicate]
  rw [hlen] at h2
  have : oneByte.plausible ≤ 1 := Nat.min_le_left _ _
  have : STREAM_BUFFER = 262144 := rfl
  omega

end Omnidroid.Apk
