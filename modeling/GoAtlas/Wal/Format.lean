import GoAtlas.Lib.Bytes

/-!
# Segment files

A segment is a sequence of records `[length u32][crc32 u32][payload]`, little-endian
(`core/io/wal/wal.go`). Recovery reads a file forward and stops at the first record that is partial
or fails its checks. A file of whole records reads back as these records, with whatever a torn write
left behind them ignored.
-/

namespace GoAtlas.Wal

open GoAtlas.Lib

def recordHeaderSize : Nat := 8
def maxRecordBytes : Nat := 64 * 2 ^ 20

structure RawRecord where
  position : Nat
  payload : Bytes
  deriving DecidableEq, Repr

/-- A payload the format can represent. -/
def ValidPayload (p : Bytes) : Prop := 0 < p.length ∧ p.length ≤ maxRecordBytes

instance (p : Bytes) : Decidable (ValidPayload p) := inferInstanceAs (Decidable (_ ∧ _))

def recordSize (p : Bytes) : Nat := recordHeaderSize + p.length

def totalSize (ps : List Bytes) : Nat := (ps.map recordSize).sum

/-- Records laid out one after another from a position. -/
def locate : Nat → List Bytes → List RawRecord
  | _, [] => []
  | pos, p :: ps => ⟨pos, p⟩ :: locate (pos + recordSize p) ps

section

variable (crc32 : Bytes → UInt32)

def encodeRecord (p : Bytes) : Bytes :=
  leBytes 4 p.length ++ leBytes 4 (crc32 p).toNat ++ p

def encodeAll (ps : List Bytes) : Bytes := ps.flatMap (encodeRecord crc32)

/-- `appendBatch.add`: the buffer of a batch after one more record. -/
def addRecord (buf p : Bytes) : Bytes :=
  let buf := buf ++ leBytes 4 p.length
  let buf := buf ++ leBytes 4 (crc32 p).toNat
  buf ++ p

/-- The records of a file from a position on, and the size they end at. The fuel bounds the number
of records. -/
def readFrom : Nat → Nat → Bytes → List RawRecord × Nat
  | 0, offset, _ => ([], offset)
  | fuel + 1, offset, bytes =>
    -- end of file, or a partial header
    if bytes.length < recordHeaderSize then ([], offset)
    else
      let length := leNat (bytes.take 4)
      let crc := leNat ((bytes.drop 4).take 4)
      let payload := (bytes.drop recordHeaderSize).take length
      if length = 0 ∨ maxRecordBytes < length then ([], offset)
      else if payload.length < length then ([], offset)
      else if (crc32 payload).toNat ≠ crc then ([], offset)
      else
        let (recs, validSize) :=
          readFrom fuel (offset + recordHeaderSize + length)
            (bytes.drop (recordHeaderSize + length))
        (⟨offset, payload⟩ :: recs, validSize)

/-- The valid records of a segment file and the size they fill. -/
def readSegment (bytes : Bytes) : List RawRecord × Nat := readFrom crc32 bytes.length 0 bytes

end

/-! ## Sizes and positions -/

@[simp] theorem totalSize_nil : totalSize [] = 0 := rfl

@[simp] theorem totalSize_cons (p : Bytes) (ps : List Bytes) :
    totalSize (p :: ps) = recordSize p + totalSize ps := by
  simp [totalSize]

/-! ## Reading back -/

section

variable {crc32 : Bytes → UInt32} {ps : List Bytes}

@[simp] theorem length_encodeRecord (p : Bytes) :
    (encodeRecord crc32 p).length = recordSize p := by
  simp [encodeRecord, recordSize, recordHeaderSize]
  omega

@[simp] theorem length_encodeAll (ps : List Bytes) :
    (encodeAll crc32 ps).length = totalSize ps := by
  simp [encodeAll, totalSize, List.length_flatMap]

@[simp] theorem encodeAll_nil : encodeAll crc32 [] = [] := rfl

@[simp] theorem encodeAll_cons (p : Bytes) (ps : List Bytes) :
    encodeAll crc32 (p :: ps) = encodeRecord crc32 p ++ encodeAll crc32 ps := rfl

def Stops (crc32 : Bytes → UInt32) (bytes : Bytes) : Prop :=
  ∀ fuel offset, readFrom crc32 fuel offset bytes = ([], offset)

theorem stops_of_short {bytes : Bytes} (h : bytes.length < recordHeaderSize) :
    Stops crc32 bytes := by
  intro fuel offset
  cases fuel with
  | zero => rfl
  | succ fuel => rw [readFrom, if_pos h]

theorem stops_nil : Stops crc32 [] := stops_of_short (by decide)

theorem leNat_length {p : Bytes} (hp : p.length ≤ maxRecordBytes) (rest : Bytes) :
    leNat ((encodeRecord crc32 p ++ rest).take 4) = p.length := by
  have htake : (encodeRecord crc32 p ++ rest).take 4 = leBytes 4 p.length := by
    simp [encodeRecord, List.append_assoc]
  rw [htake, leNat_leBytes]
  unfold maxRecordBytes at hp
  omega

theorem leNat_crc (p : Bytes) (rest : Bytes) :
    leNat (((encodeRecord crc32 p ++ rest).drop 4).take 4) = (crc32 p).toNat := by
  have htake : ((encodeRecord crc32 p ++ rest).drop 4).take 4 = leBytes 4 (crc32 p).toNat := by
    simp [encodeRecord, List.append_assoc]
  rw [htake, leNat_leBytes]
  exact (crc32 p).toNat_lt

theorem drop_header (p rest : Bytes) :
    (encodeRecord crc32 p ++ rest).drop recordHeaderSize = p ++ rest := by
  have hlen : (leBytes 4 p.length ++ leBytes 4 (crc32 p).toNat).length = recordHeaderSize := by
    simp [recordHeaderSize]
  rw [encodeRecord, List.append_assoc, ← hlen, List.drop_left]

theorem readFrom_encodeRecord {p : Bytes} (hp : ValidPayload p) (fuel offset : Nat) (rest : Bytes) :
    readFrom crc32 (fuel + 1) offset (encodeRecord crc32 p ++ rest) =
      (⟨offset, p⟩ :: (readFrom crc32 fuel (offset + recordSize p) rest).1,
        (readFrom crc32 fuel (offset + recordSize p) rest).2) := by
  have hlen : ¬ (encodeRecord crc32 p ++ rest).length < recordHeaderSize := by
    simp [recordSize]
    omega
  have hbounds : ¬ (p.length = 0 ∨ maxRecordBytes < p.length) := by
    have h := hp
    unfold ValidPayload at h
    omega
  have hrest : (encodeRecord crc32 p ++ rest).drop (recordHeaderSize + p.length) = rest := by
    rw [← List.drop_drop, drop_header, List.drop_left]
  rw [readFrom, if_neg hlen]
  simp only [leNat_length hp.2, leNat_crc, drop_header, List.take_left, hrest, if_neg hbounds,
    lt_self_iff_false, if_false, ne_eq, not_true, Nat.add_assoc, recordSize]

/-- A file of whole records reads back as these records; what follows them is ignored when it holds
no record. -/
theorem readFrom_encodeAll (hps : ∀ p ∈ ps, ValidPayload p) {tail : Bytes}
    (htail : Stops crc32 tail) {fuel : Nat} (offset : Nat) (hfuel : ps.length ≤ fuel) :
    readFrom crc32 fuel offset (encodeAll crc32 ps ++ tail) =
      (locate offset ps, offset + totalSize ps) := by
  induction ps generalizing fuel offset with
  | nil => simpa [locate] using htail fuel offset
  | cons p ps ih =>
    obtain ⟨fuel, rfl⟩ : ∃ f, fuel = f + 1 := ⟨fuel - 1, by simp at hfuel; omega⟩
    have hfuel' : ps.length ≤ fuel := by simpa using hfuel
    rw [encodeAll_cons, List.append_assoc, readFrom_encodeRecord (hps p (by simp)),
      ih (fun q hq => hps q (by simp [hq])) _ hfuel']
    simp [locate, Nat.add_assoc]

theorem length_le_totalSize (ps : List Bytes) : ps.length ≤ totalSize ps := by
  induction ps with
  | nil => simp
  | cons p ps ih =>
    simp only [List.length_cons, totalSize_cons, recordSize, recordHeaderSize]
    omega

theorem readSegment_encodeAll (hps : ∀ p ∈ ps, ValidPayload p) {tail : Bytes}
    (htail : Stops crc32 tail) :
    readSegment crc32 (encodeAll crc32 ps ++ tail) = (locate 0 ps, totalSize ps) := by
  have hfuel : ps.length ≤ (encodeAll crc32 ps ++ tail).length := by
    have := length_le_totalSize ps
    simp
    omega
  rw [readSegment, readFrom_encodeAll hps htail 0 hfuel, Nat.zero_add]

/-! ## Torn writes -/

theorem stops_take_encodeRecord {p : Bytes} (hp : ValidPayload p) {n : Nat}
    (hn : n < recordSize p) : Stops crc32 ((encodeRecord crc32 p).take n) := by
  have hlen : ((encodeRecord crc32 p).take n).length = n := by
    simp
    omega
  by_cases hh : n < recordHeaderSize
  · exact stops_of_short (by rwa [hlen])
  · intro fuel offset
    cases fuel with
    | zero => rfl
    | succ fuel =>
      have hheader : leNat (((encodeRecord crc32 p).take n).take 4) = p.length := by
        have h4 : min 4 n = 4 := by
          unfold recordHeaderSize at hh
          omega
        rw [List.take_take, h4]
        simpa using leNat_length hp.2 []
      have hpayload : ((((encodeRecord crc32 p).take n).drop recordHeaderSize).take
          p.length).length < p.length := by
        simp only [List.length_take, List.length_drop, length_encodeRecord]
        unfold recordSize at hn ⊢
        omega
      rw [readFrom, if_neg (by rwa [hlen])]
      simp only [hheader, hpayload, if_true]
      split <;> rfl

/-- A sequence of records cut short is as many of its records as fit, and a rest that holds none. -/
theorem take_encodeAll_fits (crc32 : Bytes → UInt32) (hps : ∀ p ∈ ps, ValidPayload p) (n : Nat) :
    ∃ m torn, (encodeAll crc32 ps).take n = encodeAll crc32 (ps.take m) ++ torn ∧ Stops crc32 torn ∧
      m ≤ ps.length ∧ totalSize (ps.take m) ≤ n ∧
      ∀ m' ≤ ps.length, totalSize (ps.take m') ≤ n → m' ≤ m := by
  induction ps generalizing n with
  | nil => exact ⟨0, [], by simp, stops_nil, by simp, by simp, fun _ hm' _ => hm'⟩
  | cons p ps ih =>
    by_cases hn : n < recordSize p
    · refine ⟨0, (encodeRecord crc32 p).take n, ?_, stops_take_encodeRecord (hps p (by simp))
        hn, by simp, by simp, ?_⟩
      · rw [encodeAll_cons, List.take_append_of_le_length (by simp; omega)]
        rfl
      · intro m' _ hfits
        cases m' with
        | zero => exact le_rfl
        | succ m' =>
          rw [List.take_succ_cons, totalSize_cons] at hfits
          omega
    · obtain ⟨m, torn, htake, hstops, hm, hfits, hmax⟩ :=
        ih (fun q hq => hps q (by simp [hq])) (n - recordSize p)
      refine ⟨m + 1, torn, ?_, hstops, Nat.succ_le_succ hm, ?_, ?_⟩
      · rw [encodeAll_cons, List.take_append, length_encodeRecord, htake,
          List.take_of_length_le (by simp; omega), List.take_succ_cons, encodeAll_cons,
          List.append_assoc]
      · rw [List.take_succ_cons, totalSize_cons]
        omega
      · intro m' hm' hfits'
        cases m' with
        | zero => exact Nat.zero_le _
        | succ m' =>
          rw [List.take_succ_cons, totalSize_cons] at hfits'
          exact Nat.succ_le_succ (hmax m' (Nat.le_of_succ_le_succ hm') (by omega))

theorem foldl_addRecord (buf : Bytes) (ps : List Bytes) :
    ps.foldl (addRecord crc32) buf = buf ++ encodeAll crc32 ps := by
  induction ps generalizing buf with
  | nil => simp
  | cons p ps ih =>
    rw [List.foldl_cons, ih, encodeAll_cons]
    simp [addRecord, encodeRecord]

/-- The first bytes of a batch that was written: the reader finds the records that fit wholly, as
many as there are, with their positions and the size they fill; and the file cut at this size reads
alike. -/
theorem readSegment_crash (crc32 : Bytes → UInt32) (ps : List Bytes)
    (hps : ∀ p ∈ ps, ValidPayload p) (k : Nat) :
    ∃ m ≤ ps.length, totalSize (ps.take m) ≤ k ∧
      (∀ m' ≤ ps.length, totalSize (ps.take m') ≤ k → m' ≤ m) ∧
      readSegment crc32 ((ps.foldl (addRecord crc32) []).take k) =
        (locate 0 (ps.take m), totalSize (ps.take m)) ∧
      readSegment crc32 (((ps.foldl (addRecord crc32) []).take k).take (totalSize (ps.take m))) =
        (locate 0 (ps.take m), totalSize (ps.take m)) := by
  obtain ⟨m, torn, htake, hstops, hm, hfits, hmax⟩ := take_encodeAll_fits crc32 hps k
  have hvalid : ∀ p ∈ ps.take m, ValidPayload p := fun p hp => hps p (List.mem_of_mem_take hp)
  have hfile : (ps.foldl (addRecord crc32) []).take k = encodeAll crc32 (ps.take m) ++ torn := by
    rw [foldl_addRecord, List.nil_append, htake]
  refine ⟨m, hm, hfits, hmax, ?_, ?_⟩
  · rw [hfile, readSegment_encodeAll hvalid hstops]
  · rw [hfile, List.take_left' (length_encodeAll _)]
    simpa using readSegment_encodeAll hvalid (@stops_nil crc32)

/-- A cut in the payload of the second record, with the payload read as a number for a checksum. -/
theorem readSegment_crash_second :
    let crc32 : Bytes → UInt32 := fun p => UInt32.ofNat (leNat p)
    ∃ m ≤ 2, totalSize ([[1, 2], [3, 4, 5]].take m) ≤ 19 ∧
      (∀ m' ≤ 2, totalSize ([[1, 2], [3, 4, 5]].take m') ≤ 19 → m' ≤ m) ∧
      readSegment crc32 (([[1, 2], [3, 4, 5]].foldl (addRecord crc32) []).take 19) =
        (locate 0 ([[1, 2], [3, 4, 5]].take m), totalSize ([[1, 2], [3, 4, 5]].take m)) ∧
      readSegment crc32 ((([[1, 2], [3, 4, 5]].foldl (addRecord crc32) []).take 19).take
          (totalSize ([[1, 2], [3, 4, 5]].take m))) =
        (locate 0 ([[1, 2], [3, 4, 5]].take m), totalSize ([[1, 2], [3, 4, 5]].take m)) :=
  readSegment_crash (fun p => UInt32.ofNat (leNat p)) [[1, 2], [3, 4, 5]] (by decide) 19

end

end GoAtlas.Wal
