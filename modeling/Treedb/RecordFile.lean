import Mathlib

/-!
# Files of fixed-size records

A file is its size and its bytes; what lies beyond the size reads as zero, so that
a write past the end leaves a gap of zeros. A codec turns a record into a fixed
number of bytes and back. Through a codec a file is an array of records: a write
at one record number is read back there and nowhere else.
-/

namespace RecordFile

universe u

/-- The contents of a file. -/
@[ext]
structure ByteFile where
  size : ℕ
  byte : ℕ → UInt8
  zero_beyond : ∀ k, size ≤ k → byte k = 0

namespace ByteFile

/-- The empty file. -/
def empty : ByteFile :=
  ⟨0, fun _ => 0, fun _ _ => rfl⟩

/-- A file of zeros. -/
def zeros (size : ℕ) : ByteFile :=
  ⟨size, fun _ => 0, fun _ _ => rfl⟩

/-- Overwrite the bytes from `offset` on, extending the file where needed. -/
def write (file : ByteFile) (offset : ℕ) (data : List UInt8) : ByteFile where
  size := max file.size (offset + data.length)
  byte k :=
    if offset ≤ k ∧ k < offset + data.length then data.getD (k - offset) 0 else file.byte k
  zero_beyond := by
    intro k beyond
    have outside : ¬(offset ≤ k ∧ k < offset + data.length) := by omega
    rw [if_neg outside]
    exact file.zero_beyond k (by omega)

/-- The `length` bytes from `offset` on. -/
def read (file : ByteFile) (offset length : ℕ) : List UInt8 :=
  (List.range length).map fun i => file.byte (offset + i)

theorem read_write_same (file : ByteFile) (offset : ℕ) (data : List UInt8) :
    (file.write offset data).read offset data.length = data := by
  apply List.ext_getElem
  · simp [read]
  · intro i hi hi'
    simp only [read, write, List.getElem_map, List.getElem_range]
    have inside : offset ≤ offset + i ∧ offset + i < offset + data.length := by omega
    rw [if_pos inside, Nat.add_sub_cancel_left, List.getD_eq_getElem data 0 hi']

theorem read_write_disjoint (file : ByteFile) {offset start length : ℕ} (data : List UInt8)
    (apart : start + length ≤ offset ∨ offset + data.length ≤ start) :
    (file.write offset data).read start length = file.read start length := by
  simp only [read, write]
  apply List.map_congr_left
  intro i member
  rw [List.mem_range] at member
  have outside : ¬(offset ≤ start + i ∧ start + i < offset + data.length) := by omega
  rw [if_neg outside]

theorem read_zeros (size offset length : ℕ) :
    (zeros size).read offset length = List.replicate length 0 := by
  simp [read, zeros, List.map_const']

end ByteFile

/-- A record type of fixed width. -/
structure Codec (R : Type u) where
  width : ℕ
  width_pos : 0 < width
  encode : R → List UInt8
  decode : List UInt8 → R
  length_encode : ∀ r, (encode r).length = width
  decode_encode : ∀ r, decode (encode r) = r

namespace Codec

variable {R : Type u} (codec : Codec R) (file : ByteFile)

/-- The record of number `i`. -/
def get (i : ℕ) : R :=
  codec.decode (file.read (i * codec.width) codec.width)

/-- Write a record as number `i`. -/
def put (i : ℕ) (r : R) : ByteFile :=
  file.write (i * codec.width) (codec.encode r)

/-- The record that a run of zero bytes decodes to. -/
def blank : R :=
  codec.decode (List.replicate codec.width 0)

theorem get_put_same (i : ℕ) (r : R) : codec.get (codec.put file i r) i = r := by
  have same := file.read_write_same (i * codec.width) (codec.encode r)
  rw [codec.length_encode] at same
  rw [get, put, same, codec.decode_encode]

theorem get_put_ne {i j : ℕ} (r : R) (ne : j ≠ i) :
    codec.get (codec.put file i r) j = codec.get file j := by
  rw [get, get, put, file.read_write_disjoint]
  rw [codec.length_encode]
  rcases Nat.lt_or_gt_of_ne ne with lower | higher
  · left
    calc j * codec.width + codec.width = (j + 1) * codec.width := by ring
      _ ≤ i * codec.width := Nat.mul_le_mul_right _ lower
  · right
    calc i * codec.width + codec.width = (i + 1) * codec.width := by ring
      _ ≤ j * codec.width := Nat.mul_le_mul_right _ higher

theorem size_put (i : ℕ) (r : R) :
    (codec.put file i r).size = max file.size ((i + 1) * codec.width) := by
  change max file.size (i * codec.width + (codec.encode r).length) = _
  rw [codec.length_encode]
  congr 1
  ring

theorem get_zeros (size i : ℕ) : codec.get (ByteFile.zeros size) i = codec.blank := by
  rw [get, ByteFile.read_zeros, blank]

section PutAll

variable {α : Type u} (key : α → ℕ) (value : α → R) {list : List α} {i n : ℕ} {a : α}

/-- Write the record of every item of a list at its own number, in order. -/
def putAll (file : ByteFile) (list : List α) : ByteFile :=
  list.foldl (fun file a => codec.put file (key a) (value a)) file

theorem get_putAll_of_not_mem (absent : ∀ a ∈ list, key a ≠ i) :
    codec.get (codec.putAll key value file list) i = codec.get file i := by
  induction list generalizing file with
  | nil => rfl
  | cons a list ih =>
      have rest := ih (codec.put file (key a) (value a))
        fun b member => absent b (List.mem_cons_of_mem _ member)
      apply rest.trans
      apply codec.get_put_ne
      exact (absent a List.mem_cons_self).symm

/-- Items that share a number must agree for the last write to be the record of each. -/
theorem get_putAll_of_mem (agree : ∀ b ∈ list, key b = key a → value b = value a)
    (member : a ∈ list) : codec.get (codec.putAll key value file list) (key a) = value a := by
  induction list using List.reverseRecOn with
  | nil => simp at member
  | append_singleton list b ih =>
      simp only [putAll, List.foldl_append, List.foldl_cons, List.foldl_nil]
      by_cases same : key b = key a
      · rw [← same, codec.get_put_same]
        exact agree b (by simp) same
      · rw [codec.get_put_ne _ _ (Ne.symm same)]
        apply ih
        · intro c inList
          exact agree c (List.mem_append_left _ inList)
        · rcases List.mem_append.mp member with inList | last
          · exact inList
          · rw [List.mem_singleton.mp last] at same
            exact absurd rfl same

/-- Writing what is already there changes nothing. -/
theorem get_putAll_of_same (same : ∀ a ∈ list, codec.get file (key a) = value a) (i : ℕ) :
    codec.get (codec.putAll key value file list) i = codec.get file i := by
  by_cases written : ∃ a ∈ list, key a = i
  · rcases written with ⟨a, member, rfl⟩
    rw [codec.get_putAll_of_mem file key value _ member, same a member]
    intro b memberB sameKey
    rw [← same b memberB, sameKey, same a member]
  · apply codec.get_putAll_of_not_mem
    intro a member sameKey
    exact written ⟨a, member, sameKey⟩

/-- Records written inside the file leave its size. -/
theorem size_putAll_of_le (long : n * codec.width ≤ file.size) (inside : ∀ a ∈ list, key a < n) :
    (codec.putAll key value file list).size = file.size := by
  induction list generalizing file with
  | nil => rfl
  | cons a list ih =>
      have short : (key a + 1) * codec.width ≤ file.size :=
        (Nat.mul_le_mul_right _ (inside a List.mem_cons_self)).trans long
      have kept : (codec.put file (key a) (value a)).size = file.size := by
        rw [codec.size_put, max_eq_left short]
      have rest := ih (codec.put file (key a) (value a)) (by rw [kept]; exact long)
        fun b member => inside b (List.mem_cons_of_mem _ member)
      exact rest.trans kept

theorem size_putAll (whole : file.size = n * codec.width) (inside : ∀ a ∈ list, key a < n) :
    (codec.putAll key value file list).size = n * codec.width := by
  rw [codec.size_putAll_of_le file key value whole.ge inside, whole]

end PutAll

end Codec

/-! ## Little-endian integers -/

/-- The lowest `length` bytes of a number, the least significant first. -/
def leBytes : ℕ → ℕ → List UInt8
  | 0, _ => []
  | length + 1, n => UInt8.ofNat n :: leBytes length (n / 256)

/-- The number whose bytes are given, the least significant first. -/
def leValue : List UInt8 → ℕ
  | [] => 0
  | b :: bytes => b.toNat + 256 * leValue bytes

@[simp]
theorem length_leBytes (length n : ℕ) : (leBytes length n).length = length := by
  induction length generalizing n with
  | zero => rfl
  | succ length ih => simp [leBytes, ih]

theorem leValue_leBytes (length n : ℕ) : leValue (leBytes length n) = n % 256 ^ length := by
  induction length generalizing n with
  | zero => simp [leBytes, leValue, Nat.mod_one]
  | succ length ih =>
      have low : (UInt8.ofNat n).toNat = n % 256 := UInt8.toNat_ofNat'
      rw [leBytes, leValue, ih, low, pow_succ', Nat.mod_mul]

theorem leValue_append (bytes bytes' : List UInt8) :
    leValue (bytes ++ bytes') = leValue bytes + 256 ^ bytes.length * leValue bytes' := by
  induction bytes with
  | nil => simp [leValue]
  | cons x bytes ih =>
      simp only [List.cons_append, leValue, ih, List.length_cons, pow_succ]
      ring

theorem leValue_lt (bytes : List UInt8) : leValue bytes < 256 ^ bytes.length := by
  induction bytes with
  | nil => simp [leValue]
  | cons x bytes ih =>
      have small := x.toNat_lt
      simp only [leValue, List.length_cons, pow_succ]
      omega

theorem leBytes_leValue (bytes : List UInt8) : leBytes bytes.length (leValue bytes) = bytes := by
  induction bytes with
  | nil => rfl
  | cons x bytes ih =>
      have small := x.toNat_lt
      have last : UInt8.ofNat (x.toNat + 256 * leValue bytes) = x := by
        apply UInt8.toNat_inj.mp
        rw [UInt8.toNat_ofNat']
        omega
      have others : (x.toNat + 256 * leValue bytes) / 256 = leValue bytes := by omega
      rw [List.length_cons, leBytes, leValue, last, others, ih]

end RecordFile
