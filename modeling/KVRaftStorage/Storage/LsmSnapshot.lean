import Mathlib.Algebra.Ring.Int.Defs
import Mathlib.Data.String.Basic

/-!
# The snapshot format of the LSM engine

A snapshot is a count of entries and, for each, the key and the value, all
lengths in eight bytes with the lowest first.  The reader goes through the
string by an offset with the arithmetic of `size_t`; it can throw, and it
would leave the string if it read a character outside it.
-/

namespace KVRaftStorage

/-- What stops a function: an exception with its text, a string beyond
`max_size()`, or an access outside a string. -/
inductive Fault where
  | runtimeError (what : String)
  | lengthError
  | outOfBounds
deriving DecidableEq

/-- `std::string::max_size()`. -/
def maxStringSize : ℕ := 2 ^ 63 - 1

/-- Addition and subtraction of `size_t`. -/
def addSize (a b : ℕ) : ℕ := (a + b) % 2 ^ 64

def subSize (a b : ℕ) : ℕ := (((a : ℤ) - b) % 2 ^ 64).toNat

namespace LSMTreeEngine

/-! ## Writing -/

def writeUint64 (value : ℕ) : List Char :=
  (List.range 8).map (fun i => Char.ofNat (value / 2 ^ (8 * i) % 256))

def writeString (value : String) : List Char :=
  writeUint64 value.length ++ value.toList

def writeEntries (data : List (String × String)) : List Char :=
  data.flatMap (fun item => writeString item.1 ++ writeString item.2)

/-- The snapshot of the entries. -/
def writeSnapshot (data : List (String × String)) : Except Fault String :=
  let snapshot := writeUint64 data.length ++ writeEntries data
  if snapshot.length ≤ maxStringSize then .ok (String.ofList snapshot)
  else .error .lengthError

theorem writeSnapshot_of_le {data : List (String × String)}
    (h : (writeUint64 data.length ++ writeEntries data).length ≤
      maxStringSize) :
    writeSnapshot data =
      .ok (String.ofList (writeUint64 data.length ++ writeEntries data)) :=
  if_pos h

/-! ## Reading -/

def charAt (input : List Char) (i : ℕ) : Except Fault Char :=
  match input[i]? with
  | none => .error .outOfBounds
  | some c => .ok c

/-- `value |= static_cast<unsigned char>(input[*offset + i]) << (i * 8)` for
`i` below `n`. -/
def readBytes (input : List Char) (offset n : ℕ) : Except Fault ℕ :=
  (List.range n).foldlM (fun value i => do
    let c ← charAt input (addSize offset i)
    return value ||| (c.toNat % 256) <<< (8 * i)) 0

/-- The number and the offset behind it. -/
def readUint64 (input : List Char) (offset : ℕ) : Except Fault (ℕ × ℕ) :=
  if subSize input.length offset < 8 then
    .error (.runtimeError "LSM snapshot is truncated")
  else do
    let value ← readBytes input offset 8
    return (value, addSize offset 8)

def readString (input : List Char) (offset : ℕ) :
    Except Fault (String × ℕ) := do
  let (size, offset) ← readUint64 input offset
  if subSize input.length offset < size then
    .error (.runtimeError "LSM snapshot string is truncated")
  else
    let value := (input.drop offset).take size
    return (String.ofList value, addSize offset size)

/-- The next `count` entries and the offset behind them. -/
def readEntries (input : List Char) :
    ℕ → ℕ → Except Fault (List (String × String) × ℕ)
  | 0, offset => return ([], offset)
  | count + 1, offset => do
      let (key, offset) ← readString input offset
      let (value, offset) ← readString input offset
      let (data, offset) ← readEntries input count offset
      return ((key, value) :: data, offset)

/-- The loop of `Restore` over a snapshot that is not empty. -/
def readSnapshot (snapshot : String) :
    Except Fault (List (String × String)) := do
  let (count, offset) ← readUint64 snapshot.toList 0
  let (data, offset) ← readEntries snapshot.toList count offset
  if offset ≠ snapshot.toList.length then
    .error (.runtimeError "LSM snapshot has trailing bytes")
  else return data

/-! ## Round trip -/

variable {before rest : List Char} {value : ℕ}

@[simp] theorem length_writeUint64 (value : ℕ) :
    (writeUint64 value).length = 8 := by
  simp [writeUint64]

theorem addSize_of_lt {a b : ℕ} (h : a + b < 2 ^ 64) : addSize a b = a + b :=
  Nat.mod_eq_of_lt h

theorem subSize_of_le {a b : ℕ} (hb : b ≤ a) (ha : a < 2 ^ 64) :
    subSize a b = a - b := by
  unfold subSize
  omega

theorem getElem?_writeUint64 {i : ℕ} (hi : i < 8) :
    (before ++ writeUint64 value ++ rest)[before.length + i]? =
      some (Char.ofNat (value / 2 ^ (8 * i) % 256)) := by
  rw [List.append_assoc, List.getElem?_append_right (by omega),
    Nat.add_sub_cancel_left, List.getElem?_append_left (by simpa using hi),
    writeUint64, List.getElem?_map, List.getElem?_range hi]
  rfl

/-- A number below 256 survives as a character. -/
theorem toNat_ofNat {n : ℕ} (h : n < 256) :
    (Char.ofNat n).toNat % 256 = n := by
  have hvalid : n.isValidChar := Or.inl (by omega)
  have hofNat : Char.ofNat n = Char.ofNatAux n hvalid := dif_pos hvalid
  rw [hofNat]
  exact Nat.mod_eq_of_lt h

/-- One more byte of a number. -/
theorem or_next_byte (value n : ℕ) :
    value % 2 ^ (8 * n) ||| (value / 2 ^ (8 * n) % 256) <<< (8 * n) =
      value % 2 ^ (8 * (n + 1)) := by
  have hlow : value % 2 ^ (8 * n) < 2 ^ (8 * n) :=
    Nat.mod_lt _ (Nat.two_pow_pos _)
  rw [Nat.or_comm, ← Nat.shiftLeft_add_eq_or_of_lt hlow, Nat.shiftLeft_eq,
    Nat.mul_add, Nat.mul_one, Nat.pow_add, Nat.mod_mul, Nat.add_comm]
  congr 1
  exact Nat.mul_comm _ _

/-- The bytes read so far are the lower part of the number. -/
theorem readBytes_write {n : ℕ} (hn : n ≤ 8)
    (hlength : before.length + 8 < 2 ^ 64) :
    readBytes (before ++ writeUint64 value ++ rest) before.length n =
      .ok (value % 2 ^ (8 * n)) := by
  induction n with
  | zero =>
      rw [Nat.mul_zero, Nat.pow_zero, Nat.mod_one]
      rfl
  | succ n ih =>
      have hchar : charAt (before ++ writeUint64 value ++ rest)
          (addSize before.length n) =
          .ok (Char.ofNat (value / 2 ^ (8 * n) % 256)) := by
        rw [addSize_of_lt (by omega), charAt, getElem?_writeUint64 (by omega)]
      have hbyte : value / 2 ^ (8 * n) % 256 < 256 := Nat.mod_lt _ (by decide)
      have hread := ih (by omega)
      rw [readBytes] at hread ⊢
      rw [List.range_succ, List.foldlM_append, hread]
      simp only [List.foldlM_cons, List.foldlM_nil, hchar]
      exact congrArg Except.ok (by rw [toNat_ofNat hbyte, or_next_byte])

/-- A number that was written is read, and the offset moves behind it. -/
theorem readUint64_write (hvalue : value < 2 ^ 64)
    (hlength : (before ++ writeUint64 value ++ rest).length < 2 ^ 64) :
    readUint64 (before ++ writeUint64 value ++ rest) before.length =
      .ok (value, (before ++ writeUint64 value).length) := by
  have hlen := hlength
  simp only [List.length_append, length_writeUint64] at hlen
  have hsize : ¬subSize (before ++ writeUint64 value ++ rest).length
      before.length < 8 := by
    rw [subSize_of_le (by simp) hlength]
    simp only [List.length_append, length_writeUint64]
    omega
  rw [readUint64, if_neg hsize, readBytes_write le_rfl (by omega),
    addSize_of_lt (by omega), Nat.mod_eq_of_lt hvalue, List.length_append,
    length_writeUint64]
  rfl

theorem readString_of_size {offset size offset' : ℕ}
    (h : readUint64 input offset = .ok (size, offset')) :
    readString input offset =
      if subSize input.length offset' < size then
        .error (.runtimeError "LSM snapshot string is truncated")
      else .ok (String.ofList ((input.drop offset').take size),
        addSize offset' size) := by
  unfold readString
  rw [h]
  rfl

theorem readString_write {value : String}
    (hlength : (before ++ writeString value ++ rest).length < 2 ^ 64) :
    readString (before ++ writeString value ++ rest) before.length =
      .ok (value, (before ++ writeString value).length) := by
  have hlen := hlength
  simp only [writeString, List.length_append, length_writeUint64,
    String.length_toList] at hlen
  have hinput : before ++ writeString value ++ rest =
      before ++ writeUint64 value.length ++ (value.toList ++ rest) := by
    simp [writeString]
  rw [hinput] at hlength ⊢
  have hread := readUint64_write (by omega) hlength
  have hoffset : (before ++ writeUint64 value.length).length ≤
      (before ++ writeUint64 value.length ++ (value.toList ++ rest)).length := by
    simp
  have hsize : ¬subSize
      (before ++ writeUint64 value.length ++ (value.toList ++ rest)).length
      (before ++ writeUint64 value.length).length < value.length := by
    rw [subSize_of_le hoffset hlength]
    simp only [List.length_append, length_writeUint64, String.length_toList]
    omega
  have hdrop : ((before ++ writeUint64 value.length ++
      (value.toList ++ rest)).drop
        (before ++ writeUint64 value.length).length).take value.length =
      value.toList := by
    rw [List.drop_left, ← String.length_toList, List.take_left]
  have hadd : addSize (before ++ writeUint64 value.length).length
      value.length = (before ++ writeString value).length := by
    rw [addSize_of_lt (by
      simp only [List.length_append, length_writeUint64]
      omega)]
    simp only [writeString, List.length_append, length_writeUint64,
      String.length_toList]
    omega
  rw [readString_of_size hread, if_neg hsize, hdrop, hadd,
    String.ofList_toList]

theorem readEntries_write {data : List (String × String)}
    (hlength : (before ++ writeEntries data ++ rest).length < 2 ^ 64) :
    readEntries (before ++ writeEntries data ++ rest) data.length
        before.length =
      .ok (data, (before ++ writeEntries data).length) := by
  induction data generalizing before with
  | nil => simp [writeEntries, readEntries]; rfl
  | cons item data ih =>
      obtain ⟨key, value⟩ := item
      have hkey : before ++ writeEntries ((key, value) :: data) ++ rest =
          before ++ writeString key ++
            (writeString value ++ (writeEntries data ++ rest)) := by
        simp [writeEntries]
      have hvalue : before ++ writeEntries ((key, value) :: data) ++ rest =
          (before ++ writeString key) ++ writeString value ++
            (writeEntries data ++ rest) := by
        simp [writeEntries]
      have hdata : before ++ writeEntries ((key, value) :: data) ++ rest =
          (before ++ writeString key ++ writeString value) ++
            writeEntries data ++ rest := by
        simp [writeEntries]
      have hreadKey := readString_write (hkey ▸ hlength)
      have hreadValue := readString_write (hvalue ▸ hlength)
      have hreadData := ih (hdata ▸ hlength)
      rw [← hkey] at hreadKey
      rw [← hvalue] at hreadValue
      rw [← hdata] at hreadData
      rw [List.length_cons, readEntries]
      simp only [bind, Except.bind, hreadKey, hreadValue, hreadData]
      simp [writeEntries, pure, Except.pure]

theorem length_le_writeEntries (data : List (String × String)) :
    data.length ≤ (writeEntries data).length := by
  induction data with
  | nil => simp
  | cons item data ih =>
      have hcons : writeEntries (item :: data) =
          writeString item.1 ++ writeString item.2 ++ writeEntries data := rfl
      rw [hcons]
      simp only [List.length_cons, List.length_append, writeString,
        length_writeUint64]
      omega

/-- What was written as a snapshot is read back, and it is not empty. -/
theorem readSnapshot_write {data : List (String × String)} {snapshot : String}
    (h : writeSnapshot data = .ok snapshot) :
    readSnapshot snapshot = .ok data ∧ snapshot.toList ≠ [] := by
  unfold writeSnapshot at h
  dsimp only at h
  split at h
  · next hmax =>
      have hlist : snapshot.toList =
          writeUint64 data.length ++ writeEntries data := by
        rw [← Except.ok.inj h, String.toList_ofList]
      have hlength : (writeUint64 data.length ++
          writeEntries data).length < 2 ^ 64 := by
        unfold maxStringSize at hmax
        omega
      have hcount : data.length < 2 ^ 64 := by
        have hle := length_le_writeEntries data
        rw [List.length_append] at hlength
        omega
      have hreadCount : readUint64 snapshot.toList 0 =
          .ok (data.length, (writeUint64 data.length).length) := by
        rw [hlist]
        exact @readUint64_write [] (writeEntries data) _ hcount hlength
      have hreadData : readEntries snapshot.toList data.length
          (writeUint64 data.length).length =
          .ok (data, snapshot.toList.length) := by
        rw [hlist]
        have hread := @readEntries_write (writeUint64 data.length) [] data
          (by rwa [List.append_nil])
        rwa [List.append_nil] at hread
      refine ⟨?_, ?_⟩
      · unfold readSnapshot
        rw [hreadCount]
        simp only [bind, Except.bind, hreadData]
        rw [if_neg (fun hne => hne rfl)]
        rfl
      · rw [hlist]
        intro hnil
        have hzero := congrArg List.length hnil
        simp at hzero
  · cases h

end LSMTreeEngine

end KVRaftStorage
