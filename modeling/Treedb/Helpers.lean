import Mathlib

/-!
# Helpers (`helpers.c`)

C strings are the lists of their bytes, the terminating NUL left out. The hexadecimal
decoders read a string in pairs of digits, the most significant pair first, and answer zero
for every string they cannot read.
-/

namespace Treedb

/-- The bytes of a C string before its terminator. -/
abbrev CString := List UInt8

/-- The bytes of an ASCII literal. -/
def cstr (s : String) : CString :=
  s.toList.map fun c => c.toNat.toUInt8

/-- The value of one hexadecimal digit, in either case. -/
def hexDigit (a : UInt8) : Option ℕ :=
  if 48 ≤ a ∧ a ≤ 57 then some (a.toNat - 48)
  else if 97 ≤ a ∧ a ≤ 102 then some (a.toNat - 97 + 10)
  else if 65 ≤ a ∧ a ≤ 70 then some (a.toNat - 65 + 10)
  else none

/-- The digit loop of `hex2id64` and `hex2id32`: two digits make the next lower byte. -/
def hexLoop : CString → ℕ → Option ℕ
  | [], id => some id
  | [_], _ => none
  | a :: b :: rest, id => do
      let high ← hexDigit a
      let low ← hexDigit b
      hexLoop rest (id * 256 + (high * 16 + low))

/-- A string of exactly `digits` hexadecimal digits, read as a number; zero for any other. -/
def hexValue (digits : ℕ) (hex : CString) : ℕ :=
  if hex.length ≠ digits then 0 else (hexLoop hex 0).getD 0

/-- `hex2id64`: a malformed string is 0. -/
def hex2id64 (hex : CString) : UInt64 :=
  UInt64.ofNat (hexValue 16 hex)

/-- `hex2id32`: a malformed string is 0. -/
def hex2id32 (hex : CString) : UInt32 :=
  UInt32.ofNat (hexValue 8 hex)

/-- The digit that `printf` writes for a value below sixteen with `%X`. -/
def upperDigit (d : ℕ) : UInt8 :=
  if d < 10 then UInt8.ofNat (48 + d) else UInt8.ofNat (55 + d)

/-- `sprintf("%08X", n)`. -/
def format08X (n : UInt32) : CString :=
  (List.range 8).reverse.map fun i => upperDigit (n.toNat / 16 ^ i % 16)

/-- The loop of `utf8slice`: how many bytes precede the lead byte of character `max + 1`. -/
def utf8Length (max : ℕ) : CString → ℕ → ℕ
  | [], _ => 0
  | c :: s, utf8len =>
      if c &&& 0xC0 ≠ 0x80 then
        if utf8len ≥ max then 0 else utf8Length max s (utf8len + 1) + 1
      else utf8Length max s utf8len + 1

/-- The first `max` characters, and never more than `4 * max` bytes. -/
def utf8slice (s : CString) (max : ℕ) : CString :=
  s.take (min (utf8Length max s 0) (max * 4))

/-- `tolower` of the C locale. -/
def toLower (c : UInt8) : UInt8 :=
  if 65 ≤ c ∧ c ≤ 90 then c + 32 else c

/-- `strcasecmp` finds no difference. -/
def strcaseEq (s s' : CString) : Bool :=
  s.map toLower == s'.map toLower

/-! ## Reading back formatted numbers -/

theorem hexDigit_upperDigit {d : ℕ} (small : d < 16) : hexDigit (upperDigit d) = some d := by
  interval_cases d <;> decide

theorem hexLoop_upperDigit {high low : ℕ} (rest : CString) (id : ℕ) (smallHigh : high < 16)
    (smallLow : low < 16) :
    hexLoop (upperDigit high :: upperDigit low :: rest) id =
      hexLoop rest (id * 256 + (high * 16 + low)) := by
  simp [hexLoop, hexDigit_upperDigit smallHigh, hexDigit_upperDigit smallLow]

theorem length_format08X (n : UInt32) : (format08X n).length = 8 := by
  simp [format08X]

theorem hexLoop_format08X (n : UInt32) (rest : CString) (id : ℕ) :
    hexLoop (format08X n ++ rest) id = hexLoop rest (id * 2 ^ 32 + n.toNat) := by
  have bound := n.toNat_lt
  have digit : ∀ i, n.toNat / 16 ^ i % 16 < 16 := fun i => Nat.mod_lt _ (by decide)
  have spelled : format08X n ++ rest =
      upperDigit (n.toNat / 16 ^ 7 % 16) :: upperDigit (n.toNat / 16 ^ 6 % 16) ::
      upperDigit (n.toNat / 16 ^ 5 % 16) :: upperDigit (n.toNat / 16 ^ 4 % 16) ::
      upperDigit (n.toNat / 16 ^ 3 % 16) :: upperDigit (n.toNat / 16 ^ 2 % 16) ::
      upperDigit (n.toNat / 16 ^ 1 % 16) :: upperDigit (n.toNat / 16 ^ 0 % 16) :: rest := rfl
  rw [spelled, hexLoop_upperDigit _ _ (digit 7) (digit 6),
    hexLoop_upperDigit _ _ (digit 5) (digit 4), hexLoop_upperDigit _ _ (digit 3) (digit 2),
    hexLoop_upperDigit _ _ (digit 1) (digit 0)]
  apply congrArg (hexLoop rest)
  omega

/-- Sixteen digits written with `%08X%08X` are read as the two words they were made of. -/
theorem hex2id64_format08X (high low : UInt32) :
    (hex2id64 (format08X high ++ format08X low)).toNat = high.toNat * 2 ^ 32 + low.toNat := by
  have value : hexLoop (format08X high ++ format08X low) 0 =
      some (high.toNat * 2 ^ 32 + low.toNat) := by
    rw [hexLoop_format08X, ← List.append_nil (format08X low), hexLoop_format08X]
    simp [hexLoop]
  have length : (format08X high ++ format08X low).length = 16 := by
    simp [length_format08X]
  have highBound := high.toNat_lt
  have lowBound := low.toNat_lt
  simp only [hex2id64, hexValue, length, ne_eq, not_true, if_false, value, Option.getD_some]
  rw [UInt64.toNat_ofNat']
  omega

/-! ## Slicing UTF-8 -/

/-- The UTF-8 encoding of a text. -/
def utf8 (text : List Char) : CString :=
  text.flatMap String.utf8EncodeChar

theorem continuation_byte (x : UInt8) : (x &&& 0x3f ||| 0x80) &&& 0xC0 = 0x80 := by
  have all : ∀ x : Fin 256, ((UInt8.ofFin x) &&& 0x3f ||| 0x80) &&& 0xC0 = 0x80 := by
    decide +kernel
  exact all x.toFin

theorem lead_byte {x : UInt8} (first : x.IsUTF8FirstByte) : x &&& 0xC0 ≠ 0x80 := by
  have all : ∀ x : Fin 256, (UInt8.ofFin x).IsUTF8FirstByte → (UInt8.ofFin x) &&& 0xC0 ≠ 0x80 := by
    decide +kernel
  exact all x.toFin first

theorem utf8EncodeChar_bytes (c : Char) :
    ∃ lead rest, String.utf8EncodeChar c = lead :: rest ∧ lead &&& 0xC0 ≠ 0x80 ∧
      ∀ x ∈ rest, x &&& 0xC0 = 0x80 := by
  have positive : 0 < (String.utf8EncodeChar c).length := by
    simp [c.utf8Size_pos]
  have first : (String.utf8EncodeChar c)[0].IsUTF8FirstByte :=
    UInt8.isUTF8FirstByte_getElem_zero_utf8EncodeChar
  match size : c.utf8Size, c.utf8Size_pos, c.utf8Size_le_four with
  | 1, _, _ =>
      simp only [String.utf8EncodeChar_eq_singleton size] at first ⊢
      exact ⟨_, _, rfl, lead_byte first, by simp⟩
  | 2, _, _ =>
      simp only [String.utf8EncodeChar_eq_cons_cons size] at first ⊢
      exact ⟨_, _, rfl, lead_byte first, by simp [continuation_byte]⟩
  | 3, _, _ =>
      simp only [String.utf8EncodeChar_eq_cons_cons_cons size] at first ⊢
      exact ⟨_, _, rfl, lead_byte first, by simp [continuation_byte]⟩
  | 4, _, _ =>
      simp only [String.utf8EncodeChar_eq_cons_cons_cons_cons size] at first ⊢
      exact ⟨_, _, rfl, lead_byte first, by simp [continuation_byte]⟩

theorem utf8Length_continuation {max : ℕ} {rest : CString}
    (bytes : ∀ x ∈ rest, x &&& 0xC0 = 0x80) (s : CString) (n : ℕ) :
    utf8Length max (rest ++ s) n = rest.length + utf8Length max s n := by
  induction rest with
  | nil => simp
  | cons x rest ih =>
      simp only [List.mem_cons, forall_eq_or_imp] at bytes
      simp only [List.cons_append, utf8Length, bytes.1, ne_eq, not_true, if_false, ih bytes.2,
        List.length_cons]
      omega

theorem utf8Length_utf8 (max : ℕ) (text : List Char) (n : ℕ) :
    utf8Length max (utf8 text) n = (utf8 (text.take (max - n))).length := by
  induction text generalizing n with
  | nil => simp [utf8, utf8Length]
  | cons c text ih =>
      rcases utf8EncodeChar_bytes c with ⟨lead, rest, spelled, isLead, others⟩
      have split : utf8 (c :: text) = lead :: (rest ++ utf8 text) := by
        simp [utf8, spelled]
      rw [split]
      by_cases full : max ≤ n
      · simp [utf8Length, isLead, full, Nat.sub_eq_zero_of_le full, utf8]
      · obtain ⟨k, left⟩ : ∃ k, max - n = k + 1 := ⟨max - n - 1, by omega⟩
        have rest' : max - (n + 1) = k := by omega
        rw [left, List.take_succ_cons]
        simp only [utf8Length, isLead, ne_eq, not_false_eq_true, if_true, ge_iff_le, full, if_false,
          utf8Length_continuation others, ih (n + 1), rest']
        simp only [utf8, List.flatMap_cons, spelled, List.length_append, List.length_cons]
        omega

theorem length_utf8_le (text : List Char) : (utf8 text).length ≤ text.length * 4 := by
  induction text with
  | nil => simp [utf8]
  | cons c text ih =>
      have size := c.utf8Size_le_four
      simp only [utf8, List.flatMap_cons, List.length_append, String.length_utf8EncodeChar,
        List.length_cons] at ih ⊢
      omega

theorem utf8_split (text : List Char) (max : ℕ) :
    utf8 text = utf8 (text.take max) ++ utf8 (text.drop max) := by
  simp only [utf8]
  rw [← List.flatMap_append, List.take_append_drop]

/-- Of a text in UTF-8 the first characters are kept, each of them whole. -/
theorem utf8slice_utf8 (text : List Char) (max : ℕ) :
    utf8slice (utf8 text) max = utf8 (text.take max) := by
  have kept : (utf8 (text.take max)).length ≤ max * 4 := by
    have bound := length_utf8_le (text.take max)
    have taken := List.length_take_le max text
    omega
  rw [utf8slice, utf8Length_utf8, Nat.sub_zero, min_eq_left kept, utf8_split text max,
    List.take_left']
  rfl

theorem utf8slice_eq_self_iff (text : List Char) (max : ℕ) :
    utf8slice (utf8 text) max = utf8 text ↔ text.length ≤ max := by
  rw [utf8slice_utf8]
  constructor
  · intro same
    by_contra long
    obtain ⟨c, rest, drop⟩ : ∃ c rest, text.drop max = c :: rest := by
      rcases left : text.drop max with _ | ⟨c, rest⟩
      · rw [List.drop_eq_nil_iff] at left
        omega
      · exact ⟨c, rest, rfl⟩
    rcases utf8EncodeChar_bytes c with ⟨lead, more, spelled, _⟩
    rw [utf8_split text max, drop] at same
    have lengths := congrArg List.length same
    simp [utf8, spelled] at lengths
  · intro short
    rw [List.take_of_length_le short]

end Treedb
