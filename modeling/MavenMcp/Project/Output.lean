/-
# The bounded output of a process

`read_bounded` reads a pipe to its end and keeps two parts of what it delivers, each of at most
`limit` bytes: the head, in a vector that is filled once, and the tail, in a queue that is drained
before a chunk would overfill it.

* `BoundedOutput.push_holds`: one chunk, of any length, takes the parts of a stream to those of the
  longer stream.
* `readBounded_eq`: so the outcome is a function of the stream, however it was cut into chunks.
-/
import MavenMcp.Lib.Safe
import Mathlib.Data.List.DropRight

namespace MavenMcp

/-! ## 1. The two ends of a list -/

/-- A list that is long enough hides what stands before it. -/
theorem rtake_append_of_le {α : Type} (l₁ : List α) {l₂ : List α} {n : Nat} (h : n ≤ l₂.length) :
    (l₁ ++ l₂).rtake n = l₂.rtake n := by
  unfold List.rtake
  rw [List.length_append, List.drop_append, List.drop_eq_nil_of_le (by omega), List.nil_append]
  congr 1
  omega

/-- A list that is shorter leaves room for the end of what stands before it. -/
theorem rtake_append_of_ge {α : Type} (l₁ : List α) {l₂ : List α} {n : Nat} (h : l₂.length ≤ n) :
    (l₁ ++ l₂).rtake n = (l₁.rtake n).drop ((l₁.rtake n).length + l₂.length - n) ++ l₂ := by
  unfold List.rtake
  rw [List.drop_drop, List.length_drop, List.length_append, List.drop_append]
  congr 1
  · congr 1
    omega
  · rw [show l₁.length + l₂.length - n - l₁.length = 0 by omega, List.drop_zero]

/-! ## 2. Reading -/

structure BoundedOutput where
  bytes : List UInt8
  tail : List UInt8
  truncated : Bool
deriving DecidableEq, Repr

namespace BoundedOutput

/-- `BoundedOutput::default`. -/
def empty : BoundedOutput := { bytes := [], tail := [], truncated := false }

def intoBytes (output : BoundedOutput) (preferTail : Bool) : List UInt8 :=
  if preferTail && output.truncated then output.tail else output.bytes

/-- The tail after one more chunk; `none` where a range is out of bounds. -/
def nextTail (limit : Nat) (tail chunk : List UInt8) : Option (List UInt8) :=
  if limit ≤ chunk.length then checkedSlice chunk (chunk.length - limit) limit
  else do
    let kept ← checkedDrain tail (tail.length + chunk.length - limit)
    return kept ++ chunk

/-- One round of the loop, for the bytes that were read in it. -/
def push (limit : Nat) (output : BoundedOutput) (chunk : List UInt8) : Option BoundedOutput := do
  let tail ← nextTail limit output.tail chunk
  let remaining := limit - output.bytes.length
  let taken ← checkedSlice chunk 0 (min chunk.length remaining)
  return {
    bytes := output.bytes ++ taken
    tail
    truncated := output.truncated || decide (remaining < chunk.length) }

end BoundedOutput

/-- The loop over what the calls of `read` answer, in their order.  No byte is the end of the
stream, and so is the end of the list. -/
def readLoop {E : Type} (limit : Nat) :
    List (Except E (List UInt8)) → BoundedOutput → Option (Except E BoundedOutput)
  | [], output => some (.ok output)
  | .error e :: _, _ => some (.error e)
  | .ok [] :: _, output => some (.ok output)
  | .ok (byte :: chunk) :: reads, output => do
    let output ← output.push limit (byte :: chunk)
    readLoop limit reads output

/-- `read_bounded`; the outer `none` is a panic, and `reader` may be missing. -/
def readBounded {E : Type} (reader : Option (List (Except E (List UInt8)))) (limit : Nat) :
    Option (Except E BoundedOutput) :=
  match reader with
  | none => some (.ok .empty)
  | some reads => readLoop limit reads .empty

/-! ## 3. The stream -/

namespace BoundedOutput

/-- The output keeps the two ends of this stream, and says whether they leave anything out. -/
structure Holds (limit : Nat) (stream : List UInt8) (output : BoundedOutput) : Prop where
  bytes : output.bytes = stream.take limit
  tail : output.tail = stream.rtake limit
  truncated : output.truncated = decide (limit < stream.length)

theorem Holds.eq {limit : Nat} {stream : List UInt8} {output : BoundedOutput}
    (h : Holds limit stream output) :
    output = { bytes := stream.take limit, tail := stream.rtake limit
               truncated := decide (limit < stream.length) } := by
  obtain ⟨bytes, tail, truncated⟩ := output
  rw [mk.injEq]
  exact ⟨h.bytes, h.tail, h.truncated⟩

theorem holds_empty (limit : Nat) : Holds limit [] .empty where
  bytes := List.take_nil.symm
  tail := (List.rtake_nil limit).symm
  truncated := rfl

/-- The drained queue and the chunk are the tail of the longer stream. -/
theorem nextTail_rtake (limit : Nat) (stream chunk : List UInt8) :
    nextTail limit (stream.rtake limit) chunk = some ((stream ++ chunk).rtake limit) := by
  unfold nextTail
  by_cases hchunk : limit ≤ chunk.length
  · rw [if_pos hchunk, checkedSlice_eq_some (by omega), rtake_append_of_le stream hchunk]
    have hlength : (chunk.drop (chunk.length - limit)).length ≤ limit := by
      rw [List.length_drop]
      omega
    rw [List.take_of_length_le hlength]
    rfl
  · have htail : (stream.rtake limit).length ≤ limit := by
      unfold List.rtake
      rw [List.length_drop]
      omega
    rw [if_neg hchunk, checkedDrain_eq_some (by omega),
      rtake_append_of_ge stream (Nat.le_of_not_le hchunk)]
    rfl

/-- **One chunk.** -/
theorem push_holds {limit : Nat} {stream : List UInt8} {output : BoundedOutput}
    (h : Holds limit stream output) (chunk : List UInt8) :
    Safe (output.push limit chunk) (Holds limit (stream ++ chunk)) := by
  unfold push
  simp only [h.tail, nextTail_rtake, h.bytes, h.truncated, Option.bind_eq_bind, Option.bind_some]
  rw [checkedSlice_eq_some (by omega)]
  refine Safe.pure { bytes := ?_, tail := rfl, truncated := ?_ }
  · have hremaining : limit - (stream.take limit).length = limit - stream.length := by
      rw [List.length_take]
      omega
    show stream.take limit
        ++ (chunk.drop 0).take (min chunk.length (limit - (stream.take limit).length))
      = (stream ++ chunk).take limit
    rw [hremaining, List.drop_zero, Nat.min_comm, ← List.take_eq_take_min, List.take_append]
  · rw [List.length_take, List.length_append, ← Bool.decide_or, decide_eq_decide]
    omega

end BoundedOutput

/-- Chunks that are not empty are read one after the other; what the reader answers then goes on
with the ends of the longer stream. -/
theorem readLoop_chunks {E : Type} {limit : Nat} {stream : List UInt8} {output : BoundedOutput}
    (h : output.Holds limit stream) {chunks : List (List UInt8)}
    (hne : ∀ chunk ∈ chunks, chunk ≠ []) :
    ∃ next : BoundedOutput, next.Holds limit (stream ++ chunks.flatten) ∧
      ∀ reads : List (Except E (List UInt8)),
        readLoop limit (chunks.map .ok ++ reads) output = readLoop limit reads next := by
  induction chunks generalizing stream output with
  | nil => exact ⟨output, by rwa [List.flatten_nil, List.append_nil], fun _ => rfl⟩
  | cons chunk chunks ih =>
    obtain ⟨byte, chunk, rfl⟩ := List.exists_cons_of_ne_nil (hne chunk List.mem_cons_self)
    obtain ⟨pushed, hpush, hpushed⟩ := BoundedOutput.push_holds h (byte :: chunk)
    obtain ⟨next, hnext, hreads⟩ :=
      ih hpushed fun rest hrest => hne rest (List.mem_cons_of_mem _ hrest)
    refine ⟨next, ?_, fun reads => ?_⟩
    · rwa [List.flatten_cons, ← List.append_assoc]
    · rw [List.map_cons, List.cons_append, readLoop, hpush]
      exact hreads reads

/-- **The outcome is that of the stream.**  However a stream is cut into chunks that are not empty,
`read_bounded` answers its first `limit` bytes, its last `limit` bytes and whether it is longer. -/
theorem readBounded_eq {E : Type} (chunks : List (List UInt8)) (limit : Nat)
    (hne : ∀ chunk ∈ chunks, chunk ≠ []) :
    readBounded (E := E) (some (chunks.map .ok)) limit
      = some (.ok {
          bytes := chunks.flatten.take limit
          tail := chunks.flatten.rtake limit
          truncated := decide (limit < chunks.flatten.length) }) := by
  obtain ⟨next, hnext, hreads⟩ :=
    readLoop_chunks (E := E) (BoundedOutput.holds_empty limit) hne
  have hloop := hreads []
  rw [List.append_nil] at hloop
  rw [readBounded, hloop, readLoop, hnext.eq, List.nil_append]

/-- Five bytes in two chunks, the second larger than the limit. -/
theorem readBounded_eq_two :
    readBounded (E := Unit) (some ([[1, 2], [3, 4, 5]].map .ok)) 2
      = some (.ok {
          bytes := [[1, 2], [3, 4, 5]].flatten.take 2
          tail := [[1, 2], [3, 4, 5]].flatten.rtake 2
          truncated := decide (2 < [[1, 2], [3, 4, 5]].flatten.length) }) :=
  readBounded_eq [[1, 2], [3, 4, 5]] 2 (by decide)

/-- What a caller is given of a stream: its end, where it asks for that, else its beginning. -/
theorem intoBytes_of_readBounded {E : Type} {chunks : List (List UInt8)} {limit : Nat}
    (hne : ∀ chunk ∈ chunks, chunk ≠ []) {output : BoundedOutput}
    (h : readBounded (E := E) (some (chunks.map .ok)) limit = some (.ok output))
    (preferTail : Bool) :
    output.intoBytes preferTail
      = if preferTail then chunks.flatten.rtake limit else chunks.flatten.take limit := by
  obtain ⟨next, hnext, hreads⟩ := readLoop_chunks (E := E) (BoundedOutput.holds_empty limit) hne
  have hloop := hreads []
  rw [List.append_nil] at hloop
  rw [readBounded, hloop, readLoop, hnext.eq, List.nil_append] at h
  obtain rfl := Except.ok.inj (Option.some.inj h)
  unfold BoundedOutput.intoBytes
  cases preferTail with
  | false => rfl
  | true =>
    rw [Bool.true_and, if_pos rfl]
    split
    · rfl
    · -- What fits is kept whole by both parts.
      rename_i hfits
      have hle : chunks.flatten.length ≤ limit := by simpa using hfits
      rw [List.take_of_length_le hle, List.rtake, Nat.sub_eq_zero_of_le hle, List.drop_zero]

/-- A read that fails is the answer, whatever was read before it. -/
theorem readBounded_error {E : Type} {chunks : List (List UInt8)}
    (hne : ∀ chunk ∈ chunks, chunk ≠ []) (limit : Nat) (e : E)
    (reads : List (Except E (List UInt8))) :
    readBounded (some (chunks.map .ok ++ .error e :: reads)) limit = some (.error e) := by
  obtain ⟨_, -, hreads⟩ := readLoop_chunks (E := E) (BoundedOutput.holds_empty limit) hne
  exact hreads (.error e :: reads)

end MavenMcp
