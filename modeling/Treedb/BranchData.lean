import Treedb.Map

/-!
# Branch data (`branch_load`)

The text and the note of a branch are kept by SQLite, in a row whose id is that of the branch. The two
ids are printed as unsigned decimals into the statements. SQLite reads a decimal above 2^63 - 1 as a
floating-point number: as a row id it is refused, and as a note it comes back in exponent notation, of
which `strtoull` reads the first digit. So the data survives exactly if both ids are below 2^63.
-/

namespace Treedb

/-- How SQLite prints a floating-point value: a digit, a point, and the rest. -/
structure Sqlite where
  realText : ℕ → CString
  exponent : ∀ n, ∃ digit rest, 48 ≤ digit ∧ digit ≤ 57 ∧ realText n = digit :: 46 :: rest

/-- The decimal digits of a number, as SQLite prints an integer. -/
def decimal (n : ℕ) : CString :=
  (if n = 0 then [0] else (Nat.digits 10 n).reverse).map fun d => UInt8.ofNat (48 + d)

/-- `sqlite3_column_text` of a number. -/
def columnText (sql : Sqlite) : SqlNumber → CString
  | .integer n => decimal n
  | .real n => sql.realText n

/-- The value of the decimal digits at the front of a string. -/
def decimalLoop : CString → ℕ → ℕ
  | [], n => n
  | c :: s, n => if 48 ≤ c ∧ c ≤ 57 then decimalLoop s (n * 10 + (c.toNat - 48)) else n

/-- A value that does not fit is cut to `ULLONG_MAX`. -/
def clampUll (n : ℕ) : UInt64 :=
  if n < 2 ^ 64 then UInt64.ofNat n else UInt64.ofNat (2 ^ 64 - 1)

/-- `strtoull(s, NULL, 10)`. -/
def strtoull (s : CString) : UInt64 :=
  match s.dropWhile fun c => c = 32 ∨ 9 ≤ c ∧ c ≤ 13 with
  | 45 :: s => -clampUll (decimalLoop s 0)
  | 43 :: s => clampUll (decimalLoop s 0)
  | s => clampUll (decimalLoop s 0)

/-- The part of `data_t` that is kept by SQLite. -/
structure BranchData where
  text : CString
  noteId : UInt64
  deriving DecidableEq, Repr

/-- `branch_load` on a fresh branch; no row has an id that is not an integer. -/
def branchLoad (sql : Sqlite) (t : Tree) (id : UInt64) : Option BranchData :=
  match sqlLiteral id with
  | .integer _ =>
      (t.sqlite id).map fun row => ⟨row.text, strtoull (columnText sql row.noteId)⟩
  | .real _ => none

theorem digit_range {d : ℕ} (small : d < 10) :
    48 ≤ UInt8.ofNat (48 + d) ∧ UInt8.ofNat (48 + d) ≤ 57 ∧ (UInt8.ofNat (48 + d)).toNat = 48 + d := by
  interval_cases d <;> decide

theorem decimalLoop_map (digits : List ℕ) (small : ∀ d ∈ digits, d < 10) (n : ℕ) :
    decimalLoop (digits.map fun d => UInt8.ofNat (48 + d)) n =
      digits.foldl (fun n d => n * 10 + d) n := by
  induction digits generalizing n with
  | nil => rfl
  | cons d digits ih =>
      rcases digit_range (small d List.mem_cons_self) with ⟨lower, upper, value⟩
      rw [List.map_cons, decimalLoop, if_pos ⟨lower, upper⟩, value, List.foldl_cons,
        Nat.add_sub_cancel_left]
      exact ih (fun d member => small d (List.mem_cons_of_mem _ member)) _

theorem decimalLoop_decimal (n : ℕ) : decimalLoop (decimal n) 0 = n := by
  unfold decimal
  split
  · rename_i zero
    rw [zero]
    rfl
  · rw [decimalLoop_map]
    · rw [List.foldl_reverse]
      have value := Nat.ofDigits_digits 10 n
      rw [Nat.ofDigits_eq_foldr] at value
      simpa [Nat.mul_comm, Nat.add_comm] using value
    · intro d member
      exact Nat.digits_lt_base (by omega) (List.mem_reverse.mp member)

/-- A string that starts with a digit is read without skipping anything. -/
theorem strtoull_of_digit {c : UInt8} {s : CString} (lower : 48 ≤ c) (upper : c ≤ 57) :
    strtoull (c :: s) = clampUll (decimalLoop (c :: s) 0) := by
  have low := UInt8.le_iff_toNat_le.mp lower
  have high := UInt8.le_iff_toNat_le.mp upper
  have kept : (c :: s).dropWhile (fun c => decide (c = 32 ∨ 9 ≤ c ∧ c ≤ 13)) = c :: s := by
    apply List.dropWhile_cons_of_neg
    simp only [decide_eq_true_eq, not_or, not_and]
    constructor
    · rintro rfl
      simp at low
    · intro _ below
      have := UInt8.le_iff_toNat_le.mp below
      simp at low this
      omega
  unfold strtoull
  rw [kept]
  split
  · rename_i same
    rw [List.cons.injEq] at same
    rw [same.1] at low
    simp at low
  · rename_i same
    rw [List.cons.injEq] at same
    rw [same.1] at low
    simp at low
  · rfl

theorem decimal_cons (n : ℕ) : ∃ c s, decimal n = c :: s ∧ 48 ≤ c ∧ c ≤ 57 := by
  unfold decimal
  split
  · exact ⟨48, [], rfl, by decide, by decide⟩
  · rename_i positive
    rcases parts : (Nat.digits 10 n).reverse with _ | ⟨d, rest⟩
    · rw [List.reverse_eq_nil_iff, Nat.digits_eq_nil_iff_eq_zero] at parts
      exact absurd parts positive
    · have member : d ∈ Nat.digits 10 n := by
        rw [← List.mem_reverse, parts]
        exact List.mem_cons_self
      rcases digit_range (Nat.digits_lt_base (by omega) member) with ⟨lower, upper, _⟩
      exact ⟨_, _, rfl, lower, upper⟩

theorem strtoull_decimal {n : ℕ} (small : n < 2 ^ 64) : strtoull (decimal n) = UInt64.ofNat n := by
  rcases decimal_cons n with ⟨c, s, parts, lower, upper⟩
  rw [parts, strtoull_of_digit lower upper, ← parts, decimalLoop_decimal, clampUll, if_pos small]

/-- Of a number in exponent notation only the first digit is read. -/
theorem strtoull_realText (sql : Sqlite) (n : ℕ) : (strtoull (sql.realText n)).toNat < 10 := by
  rcases sql.exponent n with ⟨digit, rest, lower, upper, text⟩
  have high := UInt8.le_iff_toNat_le.mp upper
  have bound : digit.toNat - 48 < 10 := by
    simp at high
    omega
  have value : decimalLoop (digit :: 46 :: rest) 0 = digit.toNat - 48 := by
    rw [decimalLoop, if_pos ⟨lower, upper⟩, decimalLoop, if_neg (by decide), Nat.zero_mul,
      Nat.zero_add]
  rw [text, strtoull_of_digit lower upper, value, clampUll, if_pos (by omega), UInt64.toNat_ofNat']
  omega

/-- What is read of the note that was saved. -/
theorem strtoull_sqlLiteral_iff (sql : Sqlite) (noteId : UInt64) :
    strtoull (columnText sql (sqlLiteral noteId)) = noteId ↔ noteId.toNat < 2 ^ 63 := by
  unfold sqlLiteral
  split
  · rename_i small
    simp only [columnText, small, iff_true]
    rw [strtoull_decimal noteId.toNat_lt]
    exact UInt64.ofNat_toNat
  · rename_i large
    simp only [columnText, large, iff_false]
    intro same
    have digit := strtoull_realText sql noteId.toNat
    rw [same] at digit
    omega

/-- No row is found for an id that is not read as an integer. -/
theorem branchLoad_of_large (sql : Sqlite) (t : Tree) {id : UInt64} (large : ¬id.toNat < 2 ^ 63) :
    branchLoad sql t id = none := by
  have literal : sqlLiteral id = .real id.toNat := if_neg large
  simp only [branchLoad, literal]

/--
The data of a branch is loaded as it was saved exactly if the id of the branch and that of its note
are below 2^63.
-/
theorem branchLoad_saved_iff (sql : Sqlite) (t : Tree) (b : BranchPtr) :
    branchLoad sql (ioSaveBranchData t b) (t.mem b).id = some ⟨(t.mem b).text, (t.mem b).noteId⟩ ↔
      (t.mem b).id.toNat < 2 ^ 63 ∧ (t.mem b).noteId.toNat < 2 ^ 63 := by
  by_cases small : (t.mem b).id.toNat < 2 ^ 63
  · have literal : sqlLiteral (t.mem b).id = .integer (t.mem b).id.toNat := if_pos small
    simp only [branchLoad, ioSaveBranchData, literal, Function.update_self, Option.map_some,
      Option.some.injEq, BranchData.mk.injEq, true_and, small]
    exact strtoull_sqlLiteral_iff sql (t.mem b).noteId
  · simp only [branchLoad_of_large sql _ small, reduceCtorEq, false_iff]
    exact fun both => small both.1

/-- Two digits of the exponent notation, which is all that is read of it. -/
def sqliteShort : Sqlite where
  realText := fun n => [UInt8.ofNat (48 + n / 10 ^ (Nat.log 10 n) % 10), 46, 48, 101, 43, 49, 56]
  exponent := by
    intro n
    rcases digit_range (Nat.mod_lt (n / 10 ^ Nat.log 10 n) (by omega : 0 < 10)) with
      ⟨lower, upper, _⟩
    exact ⟨_, _, lower, upper, rfl⟩

/-- The data of a branch with the id 2^63 is not found again. -/
theorem large_id_is_not_loaded :
    ¬∀ (sql : Sqlite) (t : Tree) (b : BranchPtr),
      branchLoad sql (ioSaveBranchData t b) (t.mem b).id =
        some ⟨(t.mem b).text, (t.mem b).noteId⟩ := by
  intro claim
  have lost := claim sqliteShort (rootTree 0x8000000000000000 (cstr "My map")) 0
  rw [branchLoad_of_large sqliteShort _ (by decide)] at lost
  simp at lost

end Treedb
