import Treedb.Helpers
import Treedb.RecordFile

/-!
# Texts and ids as bytes (`helpers.c`)

`utf8slice` counts lead bytes and stops before that of the first character too many; besides, it
keeps at most four bytes for each character it may keep. An id is written with two digits for each
of its bytes, the most significant first, while memory holds the least significant first: encoder
and decoder both walk the bytes of the id from the end.
-/

namespace Treedb

open RecordFile

/-! ## Texts -/

/-- `utf8slice` with `size_t` in 64 bits: the cap on the bytes is a product of this type. -/
def utf8sliceSize (s : CString) (max : UInt64) : CString :=
  s.take (min (utf8Length max.toNat s 0) (max * 4).toNat)

theorem toNat_mul_four {max : UInt64} (fits : 4 * max.toNat < 2 ^ 64) :
    (max * 4).toNat = max.toNat * 4 := by
  rw [UInt64.toNat_mul]
  apply Nat.mod_eq_of_lt
  rw [Nat.mul_comm]
  exact fits

theorem utf8sliceSize_eq {max : UInt64} (fits : 4 * max.toNat < 2 ^ 64) (s : CString) :
    utf8sliceSize s max = utf8slice s max.toNat := by
  rw [utf8sliceSize, utf8slice, toNat_mul_four fits]

/--
Of a text in UTF-8 the first `max` characters are kept, each of them whole, and the cap on the bytes
does not matter. Of any string a beginning of at most `4 * max` bytes is kept.
-/
theorem utf8slice_characters :
    (∀ (text : List Char) (max : UInt64), 4 * max.toNat < 2 ^ 64 →
      utf8sliceSize (utf8 text) max = utf8 (text.take (min max.toNat text.length)) ∧
        utf8Length max.toNat (utf8 text) 0 ≤ (max * 4).toNat) ∧
      ∀ (s : CString) (max : UInt64),
        utf8sliceSize s max <+: s ∧ (utf8sliceSize s max).length ≤ 4 * max.toNat := by
  refine ⟨?_, ?_⟩
  · intro text max fits
    have product := toNat_mul_four fits
    refine ⟨?_, ?_⟩
    · rw [utf8sliceSize_eq fits, utf8slice_utf8, ← List.take_eq_take_min]
    · have bytes := length_utf8_le (text.take max.toNat)
      have taken := List.length_take_le max.toNat text
      rw [utf8Length_utf8, Nat.sub_zero, product]
      omega
  · intro s max
    refine ⟨List.take_prefix _ _, ?_⟩
    have length := List.length_take_le (min (utf8Length max.toNat s 0) (max * 4).toNat) s
    have wrapped : (max * 4).toNat ≤ max.toNat * 4 := by
      rw [UInt64.toNat_mul]
      exact Nat.mod_le _ _
    rw [utf8sliceSize]
    omega

/-- Two characters, of one byte and of two, are cut to the first. -/
theorem utf8slice_characters_example :
    utf8sliceSize (utf8 ['a', 'é']) 1 = utf8 ['a'] := by
  have sliced := (utf8slice_characters.1 ['a', 'é'] 1 (by decide)).1
  rw [sliced]
  rfl

/-! ## Digits -/

/-- The table `byteMap`. -/
def byteMap (d : UInt8) : UInt8 :=
  (cstr "0123456789abcdef").getD d.toNat 0

/-- One digit as the decoders read it, in either case. -/
def nibble (a : UInt8) : Option UInt8 :=
  if 48 ≤ a ∧ a ≤ 57 then some (a - 48)
  else if 97 ≤ a ∧ a ≤ 102 then some (a - 97 + 10)
  else if 65 ≤ a ∧ a ≤ 70 then some (a - 65 + 10)
  else none

/-- The round `i` of `id2hex64` and `id2hex32`: the two digits of the byte `n - 1 - i` of the id. -/
def id2hexRound (bytes : List UInt8) (i : ℕ) : CString :=
  let x := bytes.getD (bytes.length - 1 - i) 0
  [byteMap (x >>> 4), byteMap (x &&& 0x0f)]

/-- The string that is written for an id with these bytes in memory. -/
def id2hex (bytes : List UInt8) : CString :=
  (List.range bytes.length).flatMap (id2hexRound bytes)

/-- `id2hex64`. -/
def id2hex64 (id : UInt64) : CString :=
  id2hex (leBytes 8 id.toNat)

/-- `id2hex32`. -/
def id2hex32 (id : UInt32) : CString :=
  id2hex (leBytes 4 id.toNat)

/-- The round `i` of `hex2id64` and `hex2id32`: two digits are stored in the byte `n - 1 - i`. -/
def hex2idRound (hex : CString) (bytes : List UInt8) (i : ℕ) : Option (List UInt8) := do
  let a ← nibble (hex.getD (2 * i) 0)
  let b ← nibble (hex.getD (2 * i + 1) 0)
  return bytes.set (bytes.length - 1 - i) (a <<< 4 ||| b)

/-- The value of an id that is decoded into the memory `bytes`; a string that is no id gives 0. -/
def hex2id (bytes : List UInt8) (hex : CString) : ℕ :=
  if hex.length ≠ 2 * bytes.length then 0
  else
    match (List.range bytes.length).foldlM (hex2idRound hex) bytes with
    | some bytes => leValue bytes
    | none => 0

/-- `hex2id64` byte by byte; the variable that it fills holds anything before. -/
def hex2id64Bytes (memory : Vector UInt8 8) (hex : CString) : UInt64 :=
  UInt64.ofNat (hex2id memory.toList hex)

/-- `hex2id32` byte by byte; the variable that it fills is cleared first. -/
def hex2id32Bytes (hex : CString) : UInt32 :=
  UInt32.ofNat (hex2id (List.replicate 4 0) hex)

/-- The digits of both cases. -/
def IsHexDigit (c : UInt8) : Prop :=
  c ∈ cstr "0123456789abcdefABCDEF"

instance (c : UInt8) : Decidable (IsHexDigit c) :=
  inferInstanceAs (Decidable (c ∈ _))

/-- The string has exactly `n` hexadecimal digits. -/
def IsHex (n : ℕ) (s : CString) : Prop :=
  s.length = n ∧ ∀ c ∈ s, IsHexDigit c

instance (n : ℕ) (s : CString) : Decidable (IsHex n s) :=
  inferInstanceAs (Decidable (_ ∧ _))

/-- The number that a string of digits stands for, the first digit the most significant. -/
def bigEndian (s : CString) : ℕ :=
  s.foldl (fun n c => n * 16 + (cstr "0123456789abcdef").idxOf (toLower c)) 0

/-! ### One byte -/

theorem forall_uint8 {P : UInt8 → Prop} (all : ∀ x : Fin 256, P (UInt8.ofFin x)) (x : UInt8) :
    P x :=
  all x.toFin

theorem hexDigit_eq_nibble (c : UInt8) : hexDigit c = (nibble c).map UInt8.toNat := by
  revert c
  apply forall_uint8
  decide +kernel

theorem nibble_isSome (c : UInt8) : (nibble c).isSome ↔ IsHexDigit c := by
  revert c
  apply forall_uint8
  decide +kernel

theorem nibble_value (c : UInt8) : ∀ d ∈ nibble c, d.toNat < 16 ∧
    (cstr "0123456789abcdef").idxOf (toLower c) = d.toNat ∧ byteMap d = toLower c := by
  -- as a test on the digit: a bounded quantifier over an option is slow to evaluate
  have all : (nibble c).all fun d => decide (d.toNat < 16 ∧
      (cstr "0123456789abcdef").idxOf (toLower c) = d.toNat ∧ byteMap d = toLower c) := by
    revert c
    apply forall_uint8
    decide +kernel
  intro d read
  exact of_decide_eq_true ((Option.all_eq_true _ _).mp all d read)

theorem nibble_byteMap (x : UInt8) :
    nibble (byteMap (x >>> 4)) = some (x >>> 4) ∧
      nibble (byteMap (x &&& 0x0f)) = some (x &&& 0x0f) ∧
      (x >>> 4) <<< 4 ||| (x &&& 0x0f) = x := by
  revert x
  apply forall_uint8
  decide +kernel

/-- Two digits make a byte, from which they can be read off again. -/
theorem shift_or {d e : UInt8} (high : d.toNat < 16) (low : e.toNat < 16) :
    (d <<< 4 ||| e).toNat = d.toNat * 16 + e.toNat ∧ (d <<< 4 ||| e) >>> 4 = d ∧
      (d <<< 4 ||| e) &&& 0x0f = e := by
  have all : ∀ d e : Fin 16, ((UInt8.ofNat d <<< 4 ||| UInt8.ofNat e).toNat = d.val * 16 + e.val ∧
      (UInt8.ofNat d <<< 4 ||| UInt8.ofNat e) >>> 4 = UInt8.ofNat d ∧
      (UInt8.ofNat d <<< 4 ||| UInt8.ofNat e) &&& 0x0f = UInt8.ofNat e) := by
    decide +kernel
  have here := all ⟨d.toNat, high⟩ ⟨e.toNat, low⟩
  simpa using here

/-! ### Pairs of digits -/

/-- The bytes that the pairs of digits of a string stand for. -/
def decodePairs : CString → Option (List UInt8)
  | [] => some []
  | [_] => none
  | a :: b :: rest => do
      let a ← nibble a
      let b ← nibble b
      let bytes ← decodePairs rest
      return (a <<< 4 ||| b) :: bytes

/-- The two digits of a byte. -/
def hexPair (x : UInt8) : CString :=
  [byteMap (x >>> 4), byteMap (x &&& 0x0f)]

theorem decodePairs_hexPair (bytes : List UInt8) :
    decodePairs (bytes.flatMap hexPair) = some bytes := by
  induction bytes with
  | nil => rfl
  | cons x bytes ih =>
      rcases nibble_byteMap x with ⟨high, low, whole⟩
      simp [hexPair, decodePairs, high, low, whole, ih]

theorem decodePairs_cons {a b : UInt8} {rest : CString} {bytes : List UInt8}
    (decoded : decodePairs (a :: b :: rest) = some bytes) :
    ∃ d e bytes', nibble a = some d ∧ nibble b = some e ∧ decodePairs rest = some bytes' ∧
      bytes = (d <<< 4 ||| e) :: bytes' := by
  simp only [decodePairs, Option.bind_eq_bind, Option.bind_eq_some_iff] at decoded
  rcases decoded with ⟨d, high, e, low, bytes', others, whole⟩
  exact ⟨d, e, bytes', high, low, others, (Option.some.inj whole).symm⟩

/-- The number that bytes stand for, the most significant first, behind `n`. -/
def bytesValue (n : ℕ) (bytes : List UInt8) : ℕ :=
  bytes.foldl (fun n x => n * 256 + x.toNat) n

theorem bytesValue_eq (n : ℕ) (bytes : List UInt8) :
    bytesValue n bytes = leValue bytes.reverse + 256 ^ bytes.length * n := by
  induction bytes generalizing n with
  | nil => simp [bytesValue, leValue]
  | cons x bytes ih =>
      have rest := ih (n * 256 + x.toNat)
      simp only [bytesValue, List.foldl_cons] at rest ⊢
      rw [rest, List.reverse_cons, leValue_append, List.length_reverse, List.length_cons, pow_succ]
      simp only [leValue]
      ring

/-- What the pairs of digits of a string say about it. -/
theorem decodePairs_spec {s : CString} {bytes : List UInt8} (decoded : decodePairs s = some bytes) :
    s.length = 2 * bytes.length ∧ (∀ c ∈ s, IsHexDigit c) ∧ bytes.flatMap hexPair = s.map toLower ∧
      (∀ n, s.foldl (fun n c => n * 16 + (cstr "0123456789abcdef").idxOf (toLower c)) n =
        bytesValue n bytes) := by
  induction s using decodePairs.induct generalizing bytes with
  | case1 =>
      rw [← Option.some.inj decoded]
      simp [bytesValue]
  | case2 => simp [decodePairs] at decoded
  | case3 a b rest ih =>
      rcases decodePairs_cons decoded with ⟨d, e, bytes', high, low, others, rfl⟩
      rcases ih others with ⟨length, digits, lower, value⟩
      rcases nibble_value a d high with ⟨smallHigh, valueHigh, lowerHigh⟩
      rcases nibble_value b e low with ⟨smallLow, valueLow, lowerLow⟩
      rcases shift_or smallHigh smallLow with ⟨whole, backHigh, backLow⟩
      refine ⟨?_, ?_, ?_, ?_⟩
      · simp only [List.length_cons, length]
        omega
      · have digitA := (nibble_isSome a).mp (by simp [high])
        have digitB := (nibble_isSome b).mp (by simp [low])
        simpa [digitA, digitB] using digits
      · simp [hexPair, backHigh, backLow, lowerHigh, lowerLow, lower]
      · intro n
        simp only [List.foldl_cons, valueHigh, valueLow, value, bytesValue, whole]
        congr 1
        ring

theorem decodePairs_of_digits {s : CString} {k : ℕ} (even : s.length = 2 * k)
    (digits : ∀ c ∈ s, IsHexDigit c) : ∃ bytes, decodePairs s = some bytes := by
  induction s using decodePairs.induct generalizing k with
  | case1 => exact ⟨[], rfl⟩
  | case2 => simp at even; omega
  | case3 a b rest ih =>
      simp only [List.mem_cons, forall_eq_or_imp, ← nibble_isSome, Option.isSome_iff_exists]
        at digits
      rcases digits with ⟨⟨d, high⟩, ⟨e, low⟩, others⟩
      simp only [List.length_cons] at even
      rcases ih (k := k - 1) (by omega) (by
        intro c member
        rw [← nibble_isSome, Option.isSome_iff_exists]
        exact others c member) with ⟨bytes, decoded⟩
      exact ⟨(d <<< 4 ||| e) :: bytes, by simp [decodePairs, high, low, decoded]⟩

theorem hexLoop_eq (s : CString) (n : ℕ) :
    hexLoop s n = (decodePairs s).map (bytesValue n) := by
  induction s using decodePairs.induct generalizing n with
  | case1 => rfl
  | case2 => rfl
  | case3 a b rest ih =>
      simp only [hexLoop, decodePairs, hexDigit_eq_nibble]
      cases high : nibble a with
      | none => rfl
      | some d =>
          cases low : nibble b with
          | none => rfl
          | some e =>
              have whole := (shift_or (nibble_value a d high).1 (nibble_value b e low).1).1
              simp only [Option.map_some, Option.bind_eq_bind, Option.bind_some, ih]
              cases decodePairs rest with
              | none => rfl
              | some bytes =>
                  simp [bytesValue, whole]

/-! ### The loops -/

theorem id2hex_eq (bytes : List UInt8) : id2hex bytes = bytes.reverse.flatMap hexPair := by
  have spelled : bytes.reverse =
      (List.range bytes.length).map fun i => bytes.getD (bytes.length - 1 - i) 0 := by
    apply List.ext_getElem
    · simp
    · intro i inside inside'
      have short : i < bytes.length := by simpa using inside
      simp only [List.getElem_reverse, List.getElem_map, List.getElem_range]
      rw [List.getD_eq_getElem _ _ (by omega)]
  rw [spelled, List.flatMap_map]
  rfl

/-- From round `i` on, the digits that are left fill the bytes that are left, the last one first. -/
theorem foldlM_hex2idRound (hex : CString) (k i : ℕ) {rest : CString} {bytes : List UInt8}
    (left : hex.drop (2 * i) = rest) (even : rest.length = 2 * k) (fits : i + k = bytes.length) :
    (List.range' i k).foldlM (hex2idRound hex) bytes =
      (decodePairs rest).map fun out => out.reverse ++ bytes.drop k := by
  induction k generalizing i rest bytes with
  | zero =>
      rw [List.length_eq_zero_iff.mp even]
      rfl
  | succ k ih =>
      rcases rest with _ | ⟨a, _ | ⟨b, rest⟩⟩
      · simp at even
      · simp at even
        omega
      · have first : hex.getD (2 * i) 0 = a := by
          have here := congrArg (fun l => l.getD 0 0) left
          simpa using here
        have second : hex.getD (2 * i + 1) 0 = b := by
          have here := congrArg (fun l => l.getD 1 0) left
          simpa using here
        have next : hex.drop (2 * (i + 1)) = rest := by
          have here := congrArg (List.drop 2) left
          simpa [List.drop_drop, Nat.mul_add, Nat.add_comm] using here
        simp only [List.length_cons] at even
        have place : bytes.length - 1 - i = k := by omega
        rw [List.range'_succ, List.foldlM_cons]
        simp only [hex2idRound, first, second, place, decodePairs]
        cases nibble a with
        | none => rfl
        | some d =>
            cases nibble b with
            | none => rfl
            | some e =>
                simp only [Option.bind_eq_bind, Option.bind_some, Option.pure_def]
                rw [ih (i + 1) next (by omega) (by rw [List.length_set]; omega)]
                have rest' : (bytes.set k (d <<< 4 ||| e)).drop k =
                    (d <<< 4 ||| e) :: bytes.drop (k + 1) := by
                  rw [List.drop_eq_getElem_cons (by rw [List.length_set]; omega),
                    List.getElem_set_self, List.drop_set_of_lt (by omega)]
                cases decodePairs rest with
                | none => rfl
                | some out => simp [rest']

/-- The decoder that stores bytes computes the number, whatever the memory held before. -/
theorem hex2id_eq (bytes : List UInt8) (hex : CString) :
    hex2id bytes hex = hexValue (2 * bytes.length) hex := by
  unfold hex2id hexValue
  split
  · rfl
  · rename_i even
    have loop : (List.range' 0 bytes.length).foldlM (hex2idRound hex) bytes =
        (decodePairs hex).map fun out => out.reverse ++ bytes.drop bytes.length :=
      foldlM_hex2idRound hex bytes.length 0 rfl (by simpa using even) (by simp)
    rw [← List.range_eq_range'] at loop
    rw [loop, hexLoop_eq]
    cases decodePairs hex with
    | none => rfl
    | some out => simp [bytesValue_eq]

theorem hexValue_id2hex (bytes : List UInt8) :
    hexValue (2 * bytes.length) (id2hex bytes) = leValue bytes := by
  have decoded := decodePairs_hexPair bytes.reverse
  rw [← id2hex_eq] at decoded
  have length := (decodePairs_spec decoded).1
  rw [List.length_reverse] at length
  rw [hexValue, if_neg (not_not.mpr length), hexLoop_eq, decoded]
  simp [bytesValue_eq]

/-- A string of `2 * n` digits is a number of `n` bytes, which is written with the same digits. -/
theorem hexValue_of_isHex {n : ℕ} {s : CString} (digits : IsHex (2 * n) s) :
    hexValue (2 * n) s = bigEndian s ∧ bigEndian s < 256 ^ n ∧
      id2hex (leBytes n (bigEndian s)) = s.map toLower := by
  rcases decodePairs_of_digits digits.1 digits.2 with ⟨bytes, decoded⟩
  rcases decodePairs_spec decoded with ⟨length, _, lower, value⟩
  have size : bytes.length = n := by
    have same := digits.1
    omega
  have number : bigEndian s = leValue bytes.reverse := by
    rw [bigEndian, value, bytesValue_eq, Nat.mul_zero, Nat.add_zero]
  have stored := leBytes_leValue bytes.reverse
  have small := leValue_lt bytes.reverse
  rw [List.length_reverse, size] at stored small
  refine ⟨?_, ?_, ?_⟩
  · rw [hexValue, if_neg (not_not.mpr digits.1), hexLoop_eq, decoded, bigEndian, value]
    rfl
  · rw [number]
    exact small
  · rw [number, stored, id2hex_eq, List.reverse_reverse, lower]

theorem hexValue_of_not_isHex {n : ℕ} {s : CString} (other : ¬IsHex (2 * n) s) :
    hexValue (2 * n) s = 0 := by
  unfold hexValue
  split
  · rfl
  · rename_i even
    rw [hexLoop_eq]
    cases decoded : decodePairs s with
    | none => rfl
    | some bytes => exact absurd ⟨not_not.mp even, (decodePairs_spec decoded).2.1⟩ other

theorem hex2id64_spec (s : CString) :
    (IsHex 16 s → (hex2id64 s).toNat = bigEndian s ∧ id2hex64 (hex2id64 s) = s.map toLower) ∧
      (¬IsHex 16 s → hex2id64 s = 0) := by
  refine ⟨?_, ?_⟩
  · intro digits
    rcases hexValue_of_isHex (n := 8) digits with ⟨value, small, lower⟩
    have number : (hex2id64 s).toNat = bigEndian s := by
      rw [hex2id64, UInt64.toNat_ofNat', value]
      exact Nat.mod_eq_of_lt small
    refine ⟨number, ?_⟩
    rw [id2hex64, number, lower]
  · intro other
    rw [hex2id64, hexValue_of_not_isHex (n := 8) other]
    rfl

theorem hex2id32_spec (s : CString) :
    (IsHex 8 s → (hex2id32 s).toNat = bigEndian s ∧ id2hex32 (hex2id32 s) = s.map toLower) ∧
      (¬IsHex 8 s → hex2id32 s = 0) := by
  refine ⟨?_, ?_⟩
  · intro digits
    rcases hexValue_of_isHex (n := 4) digits with ⟨value, small, lower⟩
    have number : (hex2id32 s).toNat = bigEndian s := by
      rw [hex2id32, UInt32.toNat_ofNat', value]
      exact Nat.mod_eq_of_lt small
    refine ⟨number, ?_⟩
    rw [id2hex32, number, lower]
  · intro other
    rw [hex2id32, hexValue_of_not_isHex (n := 4) other]
    rfl

/--
The decoders compute their numbers byte by byte. An id is read back from its digits; a string of
the right number of digits stands for a number that is written with these digits in lower case, and
every other string is read as 0.
-/
theorem hexIds_roundTrip :
    ((∀ memory s, hex2id64Bytes memory s = hex2id64 s) ∧ ∀ s, hex2id32Bytes s = hex2id32 s) ∧
      ((∀ id, hex2id64 (id2hex64 id) = id) ∧ ∀ id, hex2id32 (id2hex32 id) = id) ∧
      (∀ s, (IsHex 16 s → (hex2id64 s).toNat = bigEndian s ∧
          id2hex64 (hex2id64 s) = s.map toLower) ∧ (¬IsHex 16 s → hex2id64 s = 0)) ∧
      ∀ s, (IsHex 8 s → (hex2id32 s).toNat = bigEndian s ∧
          id2hex32 (hex2id32 s) = s.map toLower) ∧ (¬IsHex 8 s → hex2id32 s = 0) := by
  refine ⟨⟨?_, ?_⟩, ⟨?_, ?_⟩, hex2id64_spec, hex2id32_spec⟩
  · intro memory s
    rw [hex2id64Bytes, hex2id_eq, Vector.length_toList]
    rfl
  · intro s
    rw [hex2id32Bytes, hex2id_eq, List.length_replicate]
    rfl
  · intro id
    have value := hexValue_id2hex (leBytes 8 id.toNat)
    rw [length_leBytes, leValue_leBytes] at value
    apply UInt64.toNat_inj.mp
    rw [hex2id64, id2hex64, value, UInt64.toNat_ofNat']
    have small := id.toNat_lt
    omega
  · intro id
    have value := hexValue_id2hex (leBytes 4 id.toNat)
    rw [length_leBytes, leValue_leBytes] at value
    apply UInt32.toNat_inj.mp
    rw [hex2id32, id2hex32, value, UInt32.toNat_ofNat']
    have small := id.toNat_lt
    omega

/-- Eight digits, two of them letters of different case. -/
theorem hexIds_roundTrip_example :
    (hex2id32 (cstr "000000Af")).toNat = 175 ∧
      id2hex32 (hex2id32 (cstr "000000Af")) = cstr "000000af" := by
  rcases (hexIds_roundTrip.2.2.2 (cstr "000000Af")).1 (by decide +kernel) with ⟨value, lower⟩
  refine ⟨?_, ?_⟩
  · rw [value]
    decide +kernel
  · rw [lower]
    decide +kernel

end Treedb
