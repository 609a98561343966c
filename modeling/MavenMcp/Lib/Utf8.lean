/-
# UTF-8 as Rust decodes it

`Utf8.next` reads one character, or says why it cannot: the bytes up to the next possible
character are invalid (`error_len`), or the input ends inside a character.  The three decoders
of the standard library follow from it: strict, lossy, and the length of the longest prefix that
does not end inside a character.

`encode` goes the other way; what it writes is read back (`decode_encode`).
-/
import MavenMcp.Lib.Text

namespace Utf8

/-! ## 1. Decoding -/

/-- The bounds of the second byte, and the number of further bytes, after a leading byte. -/
def leading (b : Nat) : Option (Nat × Nat × Nat) :=
  if 0xC2 ≤ b ∧ b ≤ 0xDF then some (0x80, 0xBF, 1)
  else if b = 0xE0 then some (0xA0, 0xBF, 2)
  else if b = 0xED then some (0x80, 0x9F, 2)
  else if 0xE1 ≤ b ∧ b ≤ 0xEF then some (0x80, 0xBF, 2)
  else if b = 0xF0 then some (0x90, 0xBF, 3)
  else if 0xF1 ≤ b ∧ b ≤ 0xF3 then some (0x80, 0xBF, 3)
  else if b = 0xF4 then some (0x80, 0x8F, 3)
  else none

/-- What stands at the front of the input. -/
inductive Next
  | done
  | char (c : Char) (rest : List UInt8)
  /-- Bytes that no character begins with, `error_len` of them. -/
  | invalid (length : Nat) (rest : List UInt8)
  /-- The input ends inside a character. -/
  | cut
deriving DecidableEq, Repr

/-- The continuation bytes: `seen` bytes are valid so far, `value` is what they encode. -/
def continuation (value seen : Nat) : Nat → Nat → Nat → List UInt8 → Next
  | 0, _, _, rest => .char (Char.ofNat value) rest
  | _ + 1, _, _, [] => .cut
  | more + 1, low, high, b :: rest =>
    if low ≤ b.toNat ∧ b.toNat ≤ high then
      continuation (value * 64 + b.toNat % 64) (seen + 1) more 0x80 0xBF rest
    else .invalid seen (b :: rest)

def next : List UInt8 → Next
  | [] => .done
  | b :: rest =>
    if b.toNat < 0x80 then .char (Char.ofNat b.toNat) rest
    else
      match leading b.toNat with
      | none => .invalid 1 rest
      | some (low, high, more) =>
        continuation (b.toNat % 2 ^ (6 - more)) 1 more low high rest

/-- Decode at most `n` characters; every byte string is decoded by its own length. -/
def decodeN : Nat → List UInt8 → Option Str
  | 0, _ => some []
  | n + 1, bytes =>
    match next bytes with
    | .done => some []
    | .char c rest => (decodeN n rest).map (c :: ·)
    | .invalid _ _ => none
    | .cut => none

/-- `String::from_utf8`. -/
def decode (bytes : List UInt8) : Option Str := decodeN (bytes.length + 1) bytes

def decodeLossyN : Nat → List UInt8 → Str
  | 0, _ => []
  | n + 1, bytes =>
    match next bytes with
    | .done => []
    | .char c rest => c :: decodeLossyN n rest
    | .invalid _ rest => Char.ofNat 0xFFFD :: decodeLossyN n rest
    | .cut => [Char.ofNat 0xFFFD]

/-- `String::from_utf8_lossy`. -/
def decodeLossy (bytes : List UInt8) : Str := decodeLossyN (bytes.length + 1) bytes

/-! ## 2. Encoding -/

/-- `char::encode_utf8`. -/
def encodeChar (c : Char) : List UInt8 :=
  let n := c.toNat
  if n < 0x80 then [UInt8.ofNat n]
  else if n < 0x800 then [UInt8.ofNat (0xC0 + n / 64), UInt8.ofNat (0x80 + n % 64)]
  else if n < 0x10000 then
    [UInt8.ofNat (0xE0 + n / 4096), UInt8.ofNat (0x80 + n / 64 % 64), UInt8.ofNat (0x80 + n % 64)]
  else
    [UInt8.ofNat (0xF0 + n / 262144), UInt8.ofNat (0x80 + n / 4096 % 64),
      UInt8.ofNat (0x80 + n / 64 % 64), UInt8.ofNat (0x80 + n % 64)]

/-- `str::as_bytes`. -/
def encode (text : Str) : List UInt8 := text.flatMap encodeChar

theorem toNat_ofNat {n : Nat} (h : n < 256) : (UInt8.ofNat n).toNat = n := by
  rw [UInt8.toNat_ofNat']
  exact Nat.mod_eq_of_lt h

/-- One continuation byte within its bounds. -/
theorem continuation_step {value seen more low high n : Nat} (rest : List UInt8) (hn : n < 64)
    (hlow : low ≤ 0x80 + n) (hhigh : 0x80 + n ≤ high) :
    continuation value seen (more + 1) low high (UInt8.ofNat (0x80 + n) :: rest)
      = continuation (value * 64 + n) (seen + 1) more 0x80 0xBF rest := by
  have hnat : (UInt8.ofNat (0x80 + n)).toNat = 0x80 + n := toNat_ofNat (by omega)
  have hvalue : (0x80 + n) % 64 = n := by omega
  rw [continuation, hnat, if_pos ⟨hlow, hhigh⟩, hvalue]

/-- The scalar values are what a character can be. -/
theorem toNat_bounds (c : Char) : c.toNat < 0xD800 ∨ 0xE000 ≤ c.toNat ∧ c.toNat < 0x110000 := by
  rcases c.valid with h | ⟨h, h'⟩
  · exact .inl h
  · exact .inr ⟨by change 0xDFFF < c.toNat at h; omega, h'⟩

/-- **One character** is read back. -/
theorem next_encodeChar (c : Char) (rest : List UInt8) :
    next (encodeChar c ++ rest) = .char c rest := by
  have hchar : Char.ofNat c.toNat = c := Char.ofNat_toNat c
  have hbounds := toNat_bounds c
  unfold encodeChar
  generalize c.toNat = n at hchar hbounds ⊢
  simp only
  split
  · have hnat : (UInt8.ofNat n).toNat = n := toNat_ofNat (by omega)
    rw [List.singleton_append, next, hnat, if_pos (by assumption), hchar]
  · split
    · have hnat : (UInt8.ofNat (0xC0 + n / 64)).toNat = 0xC0 + n / 64 := toNat_ofNat (by omega)
      have hleading : leading (0xC0 + n / 64) = some (0x80, 0xBF, 1) := by
        rw [leading, if_pos (by omega)]
      have hvalue : (0xC0 + n / 64) % 2 ^ (6 - 1) * 64 + n % 64 = n := by omega
      rw [List.cons_append, next, hnat, if_neg (by omega), hleading]
      simp only
      rw [List.singleton_append, continuation_step _ (by omega) (by omega) (by omega), hvalue,
        continuation, hchar]
    · split
      · have hnat : (UInt8.ofNat (0xE0 + n / 4096)).toNat = 0xE0 + n / 4096 :=
          toNat_ofNat (by omega)
        have hvalue : ((0xE0 + n / 4096) % 2 ^ (6 - 2) * 64 + n / 64 % 64) * 64 + n % 64 = n := by
          omega
        rw [List.cons_append, next, hnat, if_neg (by omega)]
        -- the second byte of the first and of the last block before the surrogates is bounded
        obtain ⟨low, high, hleading, hlow, hhigh⟩ : ∃ low high,
            leading (0xE0 + n / 4096) = some (low, high, 2) ∧ low ≤ 0x80 + n / 64 % 64 ∧
              0x80 + n / 64 % 64 ≤ high := by
          unfold leading
          by_cases hfirst : n / 4096 = 0
          · refine ⟨0xA0, 0xBF, ?_, by omega, by omega⟩
            rw [if_neg (by omega), if_pos (by omega)]
          by_cases hlast : n / 4096 = 13
          · refine ⟨0x80, 0x9F, ?_, by omega, by omega⟩
            rw [if_neg (by omega), if_neg (by omega), if_pos (by omega)]
          · refine ⟨0x80, 0xBF, ?_, by omega, by omega⟩
            rw [if_neg (by omega), if_neg (by omega), if_neg (by omega), if_pos (by omega)]
        rw [hleading]
        simp only
        rw [List.cons_append, continuation_step _ (by omega) hlow hhigh, List.singleton_append,
          continuation_step _ (by omega) (by omega) (by omega), hvalue, continuation, hchar]
      · have hnat : (UInt8.ofNat (0xF0 + n / 262144)).toNat = 0xF0 + n / 262144 :=
          toNat_ofNat (by omega)
        have hvalue : (((0xF0 + n / 262144) % 2 ^ (6 - 3) * 64 + n / 4096 % 64) * 64
            + n / 64 % 64) * 64 + n % 64 = n := by omega
        rw [List.cons_append, next, hnat, if_neg (by omega)]
        obtain ⟨low, high, hleading, hlow, hhigh⟩ : ∃ low high,
            leading (0xF0 + n / 262144) = some (low, high, 3) ∧ low ≤ 0x80 + n / 4096 % 64 ∧
              0x80 + n / 4096 % 64 ≤ high := by
          unfold leading
          by_cases hfirst : n / 262144 = 0
          · refine ⟨0x90, 0xBF, ?_, by omega, by omega⟩
            rw [if_neg (by omega), if_neg (by omega), if_neg (by omega), if_neg (by omega),
              if_pos (by omega)]
          by_cases hlast : n / 262144 = 4
          · refine ⟨0x80, 0x8F, ?_, by omega, by omega⟩
            rw [if_neg (by omega), if_neg (by omega), if_neg (by omega), if_neg (by omega),
              if_neg (by omega), if_neg (by omega), if_pos (by omega)]
          · refine ⟨0x80, 0xBF, ?_, by omega, by omega⟩
            rw [if_neg (by omega), if_neg (by omega), if_neg (by omega), if_neg (by omega),
              if_neg (by omega), if_pos (by omega)]
        rw [hleading]
        simp only
        rw [List.cons_append, continuation_step _ (by omega) hlow hhigh, List.cons_append,
          continuation_step _ (by omega) (by omega) (by omega), List.singleton_append,
          continuation_step _ (by omega) (by omega) (by omega), hvalue, continuation, hchar]

theorem encodeChar_ne_nil (c : Char) : encodeChar c ≠ [] := by
  unfold encodeChar
  simp only
  repeat' split
  all_goals exact List.cons_ne_nil _ _

theorem decodeN_encode (text : Str) {n : Nat} (h : text.length < n) :
    decodeN n (encode text) = some text := by
  induction text generalizing n with
  | nil =>
    obtain ⟨m, rfl⟩ : ∃ m, n = m + 1 := ⟨n - 1, by simp only [List.length_nil] at h; omega⟩
    rfl
  | cons c text ih =>
    obtain ⟨m, rfl⟩ : ∃ m, n = m + 1 := ⟨n - 1, by simp only [List.length_cons] at h; omega⟩
    have hstep : encode (c :: text) = encodeChar c ++ encode text := rfl
    rw [decodeN, hstep, next_encodeChar]
    simp only
    rw [ih (by simp only [List.length_cons] at h; omega)]
    rfl

/-- **What is written is read back.** -/
theorem decode_encode (text : Str) : decode (encode text) = some text := by
  refine decodeN_encode text (Nat.lt_succ_of_le ?_)
  induction text with
  | nil => exact Nat.le_refl 0
  | cons c text ih =>
    have hstep : encode (c :: text) = encodeChar c ++ encode text := rfl
    have hpos := List.length_pos_iff.mpr (encodeChar_ne_nil c)
    rw [hstep, List.length_append, List.length_cons]
    omega

/-! ## 3. Nothing else is decoded -/

theorem ofNat_eq_of_toNat {b : UInt8} {n : Nat} (h : n = b.toNat) : UInt8.ofNat n = b := by
  rw [h]
  exact UInt8.ofNat_toNat

theorem encodeChar_two {b b₁ : UInt8} (hb : 0xC2 ≤ b.toNat ∧ b.toNat ≤ 0xDF)
    (h₁ : 0x80 ≤ b₁.toNat ∧ b₁.toNat ≤ 0xBF) :
    encodeChar (Char.ofNat (b.toNat % 2 ^ (6 - 1) * 64 + b₁.toNat % 64)) = [b, b₁] := by
  unfold encodeChar
  rw [Text.toNat_ofNat_of_valid (by omega)]
  simp only
  rw [if_neg (by omega), if_pos (by omega), ofNat_eq_of_toNat (b := b) (by omega),
    ofNat_eq_of_toNat (b := b₁) (by omega)]

theorem encodeChar_three {b b₁ b₂ : UInt8} (hb : 0xE0 ≤ b.toNat ∧ b.toNat ≤ 0xEF)
    (h₁ : 0x80 ≤ b₁.toNat ∧ b₁.toNat ≤ 0xBF) (hlow : b.toNat = 0xE0 → 0xA0 ≤ b₁.toNat)
    (hhigh : b.toNat = 0xED → b₁.toNat ≤ 0x9F) (h₂ : 0x80 ≤ b₂.toNat ∧ b₂.toNat ≤ 0xBF) :
    encodeChar (Char.ofNat ((b.toNat % 2 ^ (6 - 2) * 64 + b₁.toNat % 64) * 64 + b₂.toNat % 64))
      = [b, b₁, b₂] := by
  unfold encodeChar
  rw [Text.toNat_ofNat_of_valid (by omega)]
  simp only
  rw [if_neg (by omega), if_neg (by omega), if_pos (by omega),
    ofNat_eq_of_toNat (b := b) (by omega), ofNat_eq_of_toNat (b := b₁) (by omega),
    ofNat_eq_of_toNat (b := b₂) (by omega)]

theorem encodeChar_four {b b₁ b₂ b₃ : UInt8} (hb : 0xF0 ≤ b.toNat ∧ b.toNat ≤ 0xF4)
    (h₁ : 0x80 ≤ b₁.toNat ∧ b₁.toNat ≤ 0xBF) (hlow : b.toNat = 0xF0 → 0x90 ≤ b₁.toNat)
    (hhigh : b.toNat = 0xF4 → b₁.toNat ≤ 0x8F) (h₂ : 0x80 ≤ b₂.toNat ∧ b₂.toNat ≤ 0xBF)
    (h₃ : 0x80 ≤ b₃.toNat ∧ b₃.toNat ≤ 0xBF) :
    encodeChar (Char.ofNat (((b.toNat % 2 ^ (6 - 3) * 64 + b₁.toNat % 64) * 64 + b₂.toNat % 64) * 64
        + b₃.toNat % 64)) = [b, b₁, b₂, b₃] := by
  unfold encodeChar
  rw [Text.toNat_ofNat_of_valid (by omega)]
  simp only
  rw [if_neg (by omega), if_neg (by omega), if_neg (by omega),
    ofNat_eq_of_toNat (b := b) (by omega), ofNat_eq_of_toNat (b := b₁) (by omega),
    ofNat_eq_of_toNat (b := b₂) (by omega), ofNat_eq_of_toNat (b := b₃) (by omega)]

theorem continuation_zero {value seen low high : Nat} {bytes rest : List UInt8} {c : Char}
    (h : continuation value seen 0 low high bytes = .char c rest) :
    Char.ofNat value = c ∧ bytes = rest := by
  rw [continuation] at h
  exact Next.char.inj h

theorem continuation_succ {value seen more low high : Nat} {bytes rest : List UInt8} {c : Char}
    (h : continuation value seen (more + 1) low high bytes = .char c rest) :
    ∃ b tail, bytes = b :: tail ∧ (low ≤ b.toNat ∧ b.toNat ≤ high) ∧
      continuation (value * 64 + b.toNat % 64) (seen + 1) more 0x80 0xBF tail = .char c rest := by
  cases bytes with
  | nil =>
    rw [continuation] at h
    cases h
  | cons b tail =>
    rw [continuation] at h
    split at h
    · exact ⟨b, tail, rfl, by assumption, h⟩
    · cases h

/-- What a leading byte says. -/
theorem leading_eq_some {b low high more : Nat} (h : leading b = some (low, high, more)) :
    (0xC2 ≤ b ∧ b ≤ 0xDF ∧ low = 0x80 ∧ high = 0xBF ∧ more = 1) ∨
      (0xE0 ≤ b ∧ b ≤ 0xEF ∧ 0x80 ≤ low ∧ high ≤ 0xBF ∧ (b = 0xE0 → low = 0xA0) ∧
        (b = 0xED → high = 0x9F) ∧ more = 2) ∨
      0xF0 ≤ b ∧ b ≤ 0xF4 ∧ 0x80 ≤ low ∧ high ≤ 0xBF ∧ (b = 0xF0 → low = 0x90) ∧
        (b = 0xF4 → high = 0x8F) ∧ more = 3 := by
  unfold leading at h
  repeat' split at h
  all_goals simp only [Option.some.injEq, Prod.mk.injEq, reduceCtorEq] at h
  all_goals omega

/-- **One character** is read from its own bytes only. -/
theorem eq_of_next {bytes rest : List UInt8} {c : Char} (h : next bytes = .char c rest) :
    bytes = encodeChar c ++ rest := by
  cases bytes with
  | nil => cases h
  | cons b bytes =>
    rw [next] at h
    split at h
    · rename_i hascii
      obtain ⟨rfl, rfl⟩ := Next.char.inj h
      unfold encodeChar
      rw [Text.toNat_ofNat_of_valid (by omega)]
      simp only
      rw [if_pos hascii, UInt8.ofNat_toNat]
      rfl
    · cases hleading : leading b.toNat with
      | none =>
        rw [hleading] at h
        cases h
      | some bounds =>
        obtain ⟨low, high, more⟩ := bounds
        rw [hleading] at h
        simp only at h
        rcases leading_eq_some hleading with ⟨h1, h2, rfl, rfl, rfl⟩ |
          ⟨h1, h2, hl, hh, hlow, hhigh, rfl⟩ | ⟨h1, h2, hl, hh, hlow, hhigh, rfl⟩
        · obtain ⟨b₁, tail, rfl, hb₁, h⟩ := continuation_succ h
          obtain ⟨rfl, rfl⟩ := continuation_zero h
          rw [encodeChar_two ⟨h1, h2⟩ hb₁]
          rfl
        · obtain ⟨b₁, tail, rfl, hb₁, h⟩ := continuation_succ h
          obtain ⟨b₂, tail, rfl, hb₂, h⟩ := continuation_succ h
          obtain ⟨rfl, rfl⟩ := continuation_zero h
          rw [encodeChar_three ⟨h1, h2⟩ (by omega) (by omega) (by omega) hb₂]
          rfl
        · obtain ⟨b₁, tail, rfl, hb₁, h⟩ := continuation_succ h
          obtain ⟨b₂, tail, rfl, hb₂, h⟩ := continuation_succ h
          obtain ⟨b₃, tail, rfl, hb₃, h⟩ := continuation_succ h
          obtain ⟨rfl, rfl⟩ := continuation_zero h
          rw [encodeChar_four ⟨h1, h2⟩ (by omega) (by omega) (by omega) hb₂ hb₃]
          rfl

theorem continuation_ne_done (value seen more low high : Nat) (bytes : List UInt8) :
    continuation value seen more low high bytes ≠ .done := by
  induction more generalizing value seen low high bytes with
  | zero => exact nofun
  | succ more ih =>
    cases bytes with
    | nil => exact nofun
    | cons b bytes =>
      rw [continuation]
      split
      · exact ih _ _ _ _ _
      · exact nofun

theorem eq_encode_of_decodeN {n : Nat} {bytes : List UInt8} {text : Str} (hn : bytes.length < n)
    (h : decodeN n bytes = some text) : bytes = encode text := by
  induction n generalizing bytes text with
  | zero => omega
  | succ n ih =>
    rw [decodeN] at h
    cases hnext : next bytes with
    | done =>
      rw [hnext] at h
      obtain rfl := Option.some.inj h
      cases bytes with
      | nil => rfl
      | cons b bytes =>
        rw [next] at hnext
        split at hnext
        · cases hnext
        · split at hnext
          · cases hnext
          · exact absurd hnext (continuation_ne_done _ _ _ _ _ _)
    | char c rest =>
      rw [hnext] at h
      obtain ⟨tail, htail, rfl⟩ := Option.map_eq_some_iff.mp h
      have hbytes := eq_of_next hnext
      have hpos := List.length_pos_iff.mpr (encodeChar_ne_nil c)
      rw [hbytes, List.length_append] at hn
      rw [hbytes, ih (by omega) htail]
      rfl
    | invalid length rest =>
      rw [hnext] at h
      cases h
    | cut =>
      rw [hnext] at h
      cases h

/-- **Decoding undoes encoding**, and reads nothing else. -/
theorem decode_eq_some_iff {bytes : List UInt8} {text : Str} :
    decode bytes = some text ↔ bytes = encode text := by
  constructor
  · exact eq_encode_of_decodeN (Nat.lt_succ_self _)
  · rintro rfl
    exact decode_encode text

/-- No byte of a character is that of another character within ASCII. -/
theorem mem_encode_ascii {text : Str} {b : UInt8} (hb : b.toNat < 0x80) (h : b ∈ encode text) :
    Char.ofNat b.toNat ∈ text := by
  obtain ⟨c, hc, hmem⟩ := List.mem_flatMap.mp h
  have hchar : Char.ofNat c.toNat = c := Char.ofNat_toNat c
  have hbounds := toNat_bounds c
  suffices hnat : b.toNat = c.toNat by
    rw [hnat, hchar]
    exact hc
  unfold encodeChar at hmem
  generalize c.toNat = n at hbounds hmem ⊢
  simp only at hmem
  split at hmem
  · rw [List.mem_singleton.mp hmem]
    exact toNat_ofNat (by omega)
  · have hhigh : ∀ m, 0x80 ≤ m → m < 256 → b = UInt8.ofNat m → False := by
      intro m hlow hhigh heq
      rw [heq, toNat_ofNat hhigh] at hb
      omega
    split at hmem
    · rcases List.mem_cons.mp hmem with heq | hmem
      · exact (hhigh _ (by omega) (by omega) heq).elim
      · exact (hhigh _ (by omega) (by omega) (List.mem_singleton.mp hmem)).elim
    · split at hmem
      · simp only [List.mem_cons, List.not_mem_nil, or_false] at hmem
        rcases hmem with heq | heq | heq
        all_goals exact (hhigh _ (by omega) (by omega) heq).elim
      · simp only [List.mem_cons, List.not_mem_nil, or_false] at hmem
        rcases hmem with heq | heq | heq | heq
        all_goals exact (hhigh _ (by omega) (by omega) heq).elim

/-! ## 4. Where characters begin -/

theorem encode_cons (c : Char) (text : Str) : encode (c :: text) = encodeChar c ++ encode text :=
  List.flatMap_cons

theorem encode_append (a b : Str) : encode (a ++ b) = encode a ++ encode b :=
  List.flatMap_append

theorem encode_injective {a b : Str} (h : encode a = encode b) : a = b := by
  have ha := decode_encode a
  rw [h, decode_encode b] at ha
  exact (Option.some.inj ha).symm

/-- The first byte of a character continues none; the others do. -/
theorem encodeChar_eq_cons (c : Char) : ∃ b tail, encodeChar c = b :: tail ∧
    (b.toNat < 0x80 ∨ 0xC0 ≤ b.toNat) ∧ ∀ x ∈ tail, 0x80 ≤ x.toNat ∧ x.toNat < 0xC0 := by
  have hbounds := toNat_bounds c
  unfold encodeChar
  generalize c.toNat = n at hbounds ⊢
  have htail : ∀ m, m < 64 → 0x80 ≤ (UInt8.ofNat (0x80 + m)).toNat ∧
      (UInt8.ofNat (0x80 + m)).toNat < 0xC0 := by
    intro m hm
    rw [toNat_ofNat (by omega)]
    omega
  simp only
  split
  · refine ⟨_, _, rfl, .inl ?_, nofun⟩
    rwa [toNat_ofNat (by omega)]
  · split
    · refine ⟨_, _, rfl, .inr ?_, List.forall_mem_singleton.mpr (htail _ (by omega))⟩
      rw [toNat_ofNat (by omega)]
      omega
    · split
      · refine ⟨_, _, rfl, .inr ?_, List.forall_mem_cons.mpr ⟨htail _ (by omega),
          List.forall_mem_singleton.mpr (htail _ (by omega))⟩⟩
        rw [toNat_ofNat (by omega)]
        omega
      · refine ⟨_, _, rfl, .inr ?_, List.forall_mem_cons.mpr ⟨htail _ (by omega),
          List.forall_mem_cons.mpr ⟨htail _ (by omega),
            List.forall_mem_singleton.mpr (htail _ (by omega))⟩⟩⟩
        rw [toNat_ofNat (by omega)]
        omega

/-- **Characters are found where they are.**  The bytes of a character stand in a text only where
the character does. -/
theorem eq_append_of_encode {text : Str} {front rest : List UInt8} {c : Char}
    (h : encode text = front ++ (encodeChar c ++ rest)) :
    ∃ before after, text = before ++ c :: after ∧ front = encode before ∧ rest = encode after := by
  induction text generalizing front with
  | nil =>
    obtain ⟨-, hnil⟩ := List.append_eq_nil_iff.mp h.symm
    exact absurd (List.append_eq_nil_iff.mp hnil).1 (encodeChar_ne_nil c)
  | cons d text ih =>
    rw [encode_cons] at h
    rcases List.append_eq_append_iff.mp h with ⟨tail, hfront, htail⟩ | ⟨tail, hchar, hrest⟩
    · obtain ⟨before, after, rfl, rfl, rfl⟩ := ih htail
      exact ⟨d :: before, after, rfl, hfront, rfl⟩
    · obtain ⟨b, more, hd, -, hmore⟩ := encodeChar_eq_cons d
      obtain ⟨b', more', hc, hb', -⟩ := encodeChar_eq_cons c
      cases front with
      | nil =>
        rw [List.nil_append] at h
        have hnext := next_encodeChar d (encode text)
        rw [h, next_encodeChar c rest] at hnext
        obtain ⟨rfl, rfl⟩ := Next.char.inj hnext
        exact ⟨[], text, rfl, rfl, rfl⟩
      | cons a front =>
        cases tail with
        | nil =>
          rw [List.append_nil] at hchar
          have hnone : encode text = [] ++ (encodeChar c ++ rest) := hrest.symm
          obtain ⟨before, after, rfl, hnil, rfl⟩ := ih hnone
          exact ⟨d :: before, after, rfl, by rw [encode_cons, hchar, ← hnil, List.append_nil], rfl⟩
        | cons x tail =>
          -- The first byte of `c` would continue `d`.
          rw [hc] at hrest
          obtain ⟨rfl, -⟩ := List.cons.inj hrest
          rw [hd, List.cons_append] at hchar
          have hmem : b' ∈ more := by
            rw [(List.cons.inj hchar).2]
            exact List.mem_append_right _ List.mem_cons_self
          have hx := hmore b' hmem
          omega

end Utf8
