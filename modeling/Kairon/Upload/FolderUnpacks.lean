/-
Kairon/Upload/FolderUnpacks.lean

A packed folder unpacks to itself.

The table of the CRC has eight steps for every byte (`word_crcTable`), and the chunks of a
file are taken one after the other (`fileCrc_eq`).  The headers are records of fixed widths
with a name and an extra field behind them (`localHeader_eq`, `centralHeader_eq`), which
are read where they stand (`readLocal_at`, `readCentral_at`); the offsets are those at
which the headers stand (`members_at`).
-/
import Kairon.Upload.FolderZip
import Kairon.Upload.Sha256Agrees

namespace Kairon.Upload

open Word32 (word)
open Wire (At Fit pack)

/-! ### The CRC -/

theorem word_tableStep (c : ℤ) : word (tableStep c) = Crc32.step (word c) := by
  have hbit : Word32.and c 1 ≠ 0 ↔ (word c).getLsbD 0 = true := by
    rw [Word32.and, show word 1 = 1#32 from rfl, BitVec.and_one_eq_setWidth_ofBool_getLsbD]
    rcases (word c).getLsbD 0 with - | -
    · exact iff_of_false (fun h => h rfl) Bool.false_ne_true
    · exact iff_of_true (by decide) rfl
  rw [tableStep, Crc32.step]
  by_cases hset : (word c).getLsbD 0 = true
  · rw [if_pos (hbit.2 hset), if_pos hset, Word32.word_xor, Word32.word_shr, BitVec.xor_comm]
    rfl
  · rw [if_neg fun h => hset (hbit.1 h), if_neg hset, Word32.word_shr, BitVec.xor_zero]

theorem word_tableSteps (n : ℕ) (c : ℤ) : word (tableStep^[n] c) = Crc32.step^[n] (word c) := by
  induction n generalizing c with
  | zero => rfl
  | succ n ih => rw [Function.iterate_succ_apply, ih, word_tableStep]; rfl

theorem word_crcTable {i : ℕ} (hi : i < 256) :
    word (crcTable.getD i 0) = Crc32.step^[8] (BitVec.ofNat 32 i) := by
  have hget : crcTable.getD i 0 = Word32.store (Word32.shr (tableStep^[8] i) 0) := by
    rw [crcTable, List.getD_eq_getElem?_getD, List.getElem?_map, List.getElem?_range hi]
    rfl
  rw [hget, Word32.word_store, Word32.word_shr, BitVec.ushiftRight_zero, word_tableSteps,
    Word32.word_natCast]

theorem word_crcByte (c : ℤ) (byte : UInt8) :
    word (crcByte c byte) = Crc32.advance (word c) byte := by
  generalize hx : word c ^^^ BitVec.ofNat 32 byte.toNat = x
  have hlow : (x &&& 0xff#32).toNat < 256 := by
    rw [BitVec.toNat_and]
    exact Nat.lt_succ_of_le Nat.and_le_right
  have hindex : (Word32.and (Word32.xor c (byte.toNat : ℕ)) 0xff).toNat = (x &&& 0xff#32).toNat := by
    rw [Word32.and, Word32.word_xor, Word32.word_natCast, hx, show word 0xff = 0xff#32 from rfl,
      BitVec.toInt_eq_toNat_of_lt (by omega), Int.toNat_natCast]
  have hshift : word c >>> 8 = x >>> 8 := by
    have hbyte : BitVec.ofNat 32 byte.toNat >>> 8 = 0#32 := by
      refine BitVec.eq_of_toNat_eq ?_
      have hlt := UInt8.toNat_lt_size byte
      rw [BitVec.toNat_ushiftRight, BitVec.toNat_ofNat, Nat.shiftRight_eq_div_pow]
      change byte.toNat < 256 at hlt
      change byte.toNat % 2 ^ 32 / 2 ^ 8 = 0
      omega
    rw [← hx, BitVec.ushiftRight_xor_distrib, hbyte, BitVec.xor_zero]
  rw [crcByte, Word32.word_xor, hindex, word_crcTable hlow, Word32.word_shr, hshift,
    BitVec.ofNat_toNat, BitVec.setWidth_eq, Crc32.advance, hx, ← Crc32.steps_eq]

theorem word_foldl_crcByte (bytes : List UInt8) (c : ℤ) :
    word (bytes.foldl crcByte c) = bytes.foldl Crc32.advance (word c) := by
  induction bytes generalizing c with
  | nil => rfl
  | cons byte bytes ih => rw [List.foldl_cons, List.foldl_cons, ih, word_crcByte]

theorem word_xor_max (c : ℤ) : word (Word32.xor c uint32Max) = ~~~ word c := by
  rw [Word32.word_xor, show word (uint32Max : ℤ) = BitVec.allOnes 32 from rfl, BitVec.xor_allOnes]

theorem crc32Update_eq (crc : ℤ) (bytes : List UInt8) :
    crc32Update crc bytes = ((~~~ bytes.foldl Crc32.advance (~~~ word crc)).toNat : ℕ) := by
  rw [crc32Update, Word32.shr, word_xor_max, word_foldl_crcByte, word_xor_max,
    BitVec.ushiftRight_zero]

theorem crcFrom_eq (content : List UInt8) (crc : ℤ) (offset : ℕ)
    (hcrc : crc = ((word crc).toNat : ℕ)) : crcFrom content crc offset =
      ((~~~ (content.drop offset).foldl Crc32.advance (~~~ word crc)).toNat : ℕ) := by
  induction crc, offset using crcFrom.induct content with
  | case1 crc offset hlt ih =>
    have hupdate := crc32Update_eq crc (subarray content offset (offset + chunkBytes))
    have hword : word (crc32Update crc (subarray content offset (offset + chunkBytes))) =
        ~~~ (subarray content offset (offset + chunkBytes)).foldl Crc32.advance
          (~~~ word crc) := by
      rw [hupdate, Word32.word_toNat]
    rw [crcFrom, if_pos hlt, ih (by rw [hword, hupdate]), hword, BitVec.not_not,
      ← List.foldl_append, subarray_add, ← List.drop_drop, List.take_append_drop]
  | case2 crc offset hnot =>
    rw [crcFrom, if_neg hnot, List.drop_eq_nil_of_le (not_lt.1 hnot), List.foldl_nil,
      BitVec.not_not]
    exact hcrc

/-- The CRC of a file is that of its content. -/
theorem fileCrc_eq (content : List UInt8) :
    fileCrc content = ((Crc32.crc32 content).toNat : ℕ) := by
  rw [fileCrc, crcFrom_eq content 0 0 rfl]
  rfl

/-! ### Records -/

theorem foldl_raw (chunks : List (List UInt8)) (before : List UInt8) {room : ℕ}
    (hroom : chunks.flatten.length = room) :
    (chunks.foldl Writer.raw ⟨before ++ List.replicate room 0, before.length⟩).bytes =
      before ++ chunks.flatten := by
  induction chunks generalizing before room with
  | nil =>
    subst hroom
    rfl
  | cons chunk chunks ih =>
    rw [List.flatten_cons, List.length_append] at hroom
    subst hroom
    have hset := @setBytes_append before (List.replicate chunk.length 0) chunk
      (List.replicate chunks.flatten.length 0) before.length rfl List.length_replicate.symm
    rw [List.append_assoc, List.replicate_append_replicate] at hset
    rw [List.foldl_cons, Writer.raw]
    dsimp only
    rw [hset, ← List.length_append, ih _ rfl, List.flatten_cons, List.append_assoc]

/-- What fills its array is written as it is. -/
theorem written_eq {size : ℕ} {chunks : List (List UInt8)} (h : chunks.flatten.length = size) :
    written size chunks = chunks.flatten := by
  have hfold := foldl_raw chunks [] h
  rwa [List.nil_append, List.nil_append] at hfold

/-- The fields that the writers write. -/
def w16 (value : ℤ) : ℕ × ℕ := (2, (value % 2 ^ 16).toNat)

def w32 (value : ℤ) : ℕ × ℕ := (4, (Word32.shr value 0).toNat)

theorem w16_natCast {n : ℕ} (h : n < 2 ^ 16) : w16 n = (2, n) := by
  have hmod : ((n : ℤ) % 2 ^ 16).toNat = n := by omega
  rw [w16, hmod]

theorem w32_natCast {n : ℕ} (h : n < 2 ^ 32) : w32 n = (4, n) := by
  rw [w32, Word32.shr, BitVec.ushiftRight_zero, Word32.word_natCast, BitVec.toNat_ofNat,
    Nat.mod_eq_of_lt h, Int.toNat_natCast]

theorem fit_w16 (value : ℤ) : (w16 value).2 < 256 ^ (w16 value).1 := by
  change (value % 2 ^ 16).toNat < 65536
  omega

theorem fit_w32 (value : ℤ) : (w32 value).2 < 256 ^ (w32 value).1 := by
  change ((((word value >>> 0).toNat : ℕ) : ℤ)).toNat < 2 ^ 32
  rw [Int.toNat_natCast]
  exact BitVec.isLt _

/-- The ZIP64 extra field of some values; there is none without a value. -/
def extraRow (values : List ℕ) : List (ℕ × ℕ) :=
  if values = [] then []
  else [w16 1, w16 (8 * values.length : ℕ)] ++ values.map fun value => (8, value)

theorem length_extraRow (values : List ℕ) :
    ((extraRow values).map Prod.fst).sum = if values = [] then 0 else 4 + 8 * values.length := by
  have hvalues : ((values.map fun value => ((8, value) : ℕ × ℕ)).map Prod.fst).sum =
      8 * values.length := by
    rw [List.map_map, Function.comp_def, List.map_const', List.sum_replicate, smul_eq_mul,
      Nat.mul_comm]
  rcases eq_or_ne values [] with rfl | h
  · rfl
  · rw [extraRow, if_neg h, if_neg h, List.map_append, List.sum_append, hvalues]
    rfl

/-- A header: numbers, the name, and the extra field. -/
theorem written_header {row extra : List (ℕ × ℕ)} {name : List UInt8} {size : ℕ}
    (hsize : (row.map Prod.fst).sum + name.length + (extra.map Prod.fst).sum = size) :
    written size (((row.map fun field => Wire.little field.1 field.2) ++ [name]) ++
      extra.map fun field => Wire.little field.1 field.2) = pack row ++ (name ++ pack extra) := by
  have hflat : (((row.map fun field => Wire.little field.1 field.2) ++ [name]) ++
      extra.map fun field => Wire.little field.1 field.2).flatten =
        pack row ++ (name ++ pack extra) := by
    rw [List.flatten_append, List.flatten_append, List.flatten_singleton, List.append_assoc]
    rfl
  rw [written_eq, hflat]
  rw [hflat, List.length_append, List.length_append, Wire.length_pack, Wire.length_pack,
    ← hsize, Nat.add_assoc]

/-- The fields of a local header. -/
def localRow (entry : Entry) (zip64 : Bool) : List (ℕ × ℕ) :=
  [w32 0x04034b50, w16 (if zip64 then 45 else 20), w16 utf8Flag, w16 0, w16 entry.time,
    w16 entry.date, w32 entry.crc, w32 (if zip64 then uint32Max else entry.size),
    w32 (if zip64 then uint32Max else entry.size), w16 entry.name.length,
    w16 (if zip64 then 20 else 0 : ℕ)]

theorem widths_localRow (entry : Entry) (zip64 : Bool) :
    (localRow entry zip64).map Prod.fst = Zip.localWidths := rfl

def localValues (entry : Entry) (zip64 : Bool) : List ℕ :=
  if zip64 then [entry.size, entry.size] else []

theorem little_w16 (value : ℤ) : Wire.little (w16 value).1 (w16 value).2 = u16 value := rfl

theorem little_w32 (value : ℤ) : Wire.little (w32 value).1 (w32 value).2 = u32 value := rfl

theorem little_w64 (value : ℕ) : Wire.little 8 value = u64 value := rfl

theorem length_localRow (entry : Entry) (zip64 : Bool) :
    ((localRow entry zip64).map Prod.fst).sum + entry.name.length +
      ((extraRow (localValues entry zip64)).map Prod.fst).sum =
        30 + entry.name.length + if zip64 then 20 else 0 := by
  rw [widths_localRow, length_extraRow]
  rcases zip64 with - | - <;> rfl

theorem localHeader_eq (entry : Entry) (zip64 : Bool) : localHeader entry zip64 =
    pack (localRow entry zip64) ++ (entry.name ++ pack (extraRow (localValues entry zip64))) := by
  rw [← written_header (length_localRow entry zip64), localHeader]
  rcases zip64 with - | -
  · simp only [localRow, localValues, extraRow, List.map_cons, List.map_nil, little_w16,
      little_w32, Bool.false_eq_true, if_false, if_true, List.cons_append, List.nil_append,
      List.append_nil, Nat.cast_zero]
  · simp only [localRow, localValues, extraRow, List.map_cons, List.map_nil, little_w16,
      little_w32, little_w64, if_true, List.cons_append, List.nil_append, reduceCtorEq,
      if_false, List.length_cons, List.length_nil, Nat.reduceAdd, Nat.reduceMul, Nat.cast_ofNat]

theorem length_localHeader (entry : Entry) (zip64 : Bool) :
    (localHeader entry zip64).length = 30 + entry.name.length + if zip64 then 20 else 0 := by
  rw [localHeader_eq, List.length_append, List.length_append, Wire.length_pack,
    Wire.length_pack, ← length_localRow, Nat.add_assoc]

/-- `extraLength` of a central header. -/
def centralExtra (bigSize bigOffset : Bool) : ℕ :=
  if bigSize || bigOffset then
    4 + (if bigSize then 16 else 0) + (if bigOffset then 8 else 0) else 0

/-- The fields of a central header. -/
def centralRow (entry : Entry) (bigSize bigOffset : Bool) : List (ℕ × ℕ) :=
  [w32 0x02014b50, w16 45, w16 (if bigSize || bigOffset then 45 else 20), w16 utf8Flag, w16 0,
    w16 entry.time, w16 entry.date, w32 entry.crc,
    w32 (if bigSize then uint32Max else entry.size),
    w32 (if bigSize then uint32Max else entry.size), w16 entry.name.length,
    w16 (centralExtra bigSize bigOffset : ℕ),
    w16 0, w16 0, w16 0, w32 0, w32 (if bigOffset then uint32Max else entry.offset)]

theorem widths_centralRow (entry : Entry) (bigSize bigOffset : Bool) :
    (centralRow entry bigSize bigOffset).map Prod.fst = Zip.centralWidths := rfl

/-- The sizes and the offset that a central header has in its extra field. -/
def centralValues (entry : Entry) (bigSize bigOffset : Bool) : List ℕ :=
  (if bigSize then [entry.size, entry.size] else []) ++ if bigOffset then [entry.offset] else []

theorem length_centralRow (entry : Entry) (bigSize bigOffset : Bool) :
    ((centralRow entry bigSize bigOffset).map Prod.fst).sum + entry.name.length +
      ((extraRow (centralValues entry bigSize bigOffset)).map Prod.fst).sum =
        46 + entry.name.length + centralExtra bigSize bigOffset := by
  rw [widths_centralRow, length_extraRow]
  rcases bigSize with - | - <;> rcases bigOffset with - | - <;> rfl

theorem centralHeader_eq (entry : Entry) : centralHeader entry =
    pack (centralRow entry (uint32Max ≤ entry.size) (uint32Max ≤ entry.offset)) ++
      (entry.name ++ pack (extraRow
        (centralValues entry (uint32Max ≤ entry.size) (uint32Max ≤ entry.offset)))) := by
  rw [← written_header (length_centralRow entry _ _), centralHeader]
  generalize decide (uint32Max ≤ entry.size) = bigSize
  generalize decide (uint32Max ≤ entry.offset) = bigOffset
  rcases bigSize with - | - <;> rcases bigOffset with - | -
  all_goals
    simp only [centralRow, centralExtra, centralValues, extraRow, List.map_cons, List.map_nil, little_w16,
      little_w32, little_w64, Bool.or_false, Bool.or_true, Bool.false_eq_true, if_true,
      List.cons_append, List.nil_append, List.append_nil, reduceCtorEq, if_false, ne_eq,
      not_true_eq_false, not_false_eq_true, List.length_cons, List.length_nil, Nat.reduceAdd,
      Nat.reduceMul, Nat.reduceSub, OfNat.ofNat_ne_zero, Nat.cast_ofNat, Nat.cast_zero]

theorem length_centralHeader (entry : Entry) : (centralHeader entry).length =
    46 + entry.name.length + centralExtra (uint32Max ≤ entry.size) (uint32Max ≤ entry.offset) := by
  rw [centralHeader_eq, List.length_append, List.length_append, Wire.length_pack,
    Wire.length_pack, ← length_centralRow, Nat.add_assoc]

/-! ### Reading a header -/

variable {bytes content : List UInt8} {pos : ℕ} {entry : Entry}

/-- The bytes of a value in the extra field, if it is there. -/
def wide (big : Bool) (value : ℕ) : List UInt8 := if big then Wire.little 8 value else []

theorem widen_wide {value : ℕ} (h : value < 2 ^ 64) (data : List UInt8) :
    Zip.widen (w32 (if decide (uint32Max ≤ value) then uint32Max else value)).2
      (wide (uint32Max ≤ value) value ++ data) = some (value, data) := by
  rcases lt_or_ge value uint32Max with hlt | hge
  · rw [decide_eq_false (not_le.2 hlt), if_neg Bool.false_ne_true, w32_natCast (by
      rw [uint32Max] at hlt
      omega)]
    exact Zip.widen_of_lt hlt data
  · rw [decide_eq_true hge, if_pos rfl]
    exact Zip.widen_max h data

theorem zip64Data_extraRow {values : List ℕ} (h : 8 * values.length < 2 ^ 16) :
    Zip.zip64Data (pack (extraRow values)) = pack (values.map fun value => (8, value)) := by
  rcases eq_or_ne values [] with rfl | hvalues
  · exact Zip.zip64Data_nil
  · have hlength : (pack (values.map fun value => ((8, value) : ℕ × ℕ))).length =
        8 * values.length := by
      rw [Wire.length_pack, List.map_map, Function.comp_def, List.map_const', List.sum_replicate,
        smul_eq_mul, Nat.mul_comm]
    have hone := @Zip.extraField_one (pack (values.map fun value => (8, value))) (by
      rwa [hlength])
    rw [extraRow, if_neg hvalues, w16_natCast h, pack, List.flatMap_append]
    rwa [hlength] at hone

/-- What the headers of an entry say of it. -/
def headerOf (entry : Entry) : Zip.Header :=
  ⟨utf8Flag, 0, (w32 entry.crc).2, entry.size, entry.size, entry.name⟩

theorem readLocal_at (hname : entry.name.length < 2 ^ 16) (hsize : entry.size < 2 ^ 64)
    (h : At bytes pos (localHeader entry (uint32Max ≤ entry.size) ++ content)) :
    Zip.readLocal bytes pos = some (headerOf entry,
      pos + (localHeader entry (uint32Max ≤ entry.size)).length) := by
  have hheader := h.left
  have hwiden := widen_wide hsize
  rw [localHeader_eq] at hheader
  rw [length_localHeader]
  generalize decide (uint32Max ≤ entry.size) = big at hheader hwiden ⊢
  have hfit : Fit (localRow entry big) := by
    simp only [Fit, localRow, List.forall_mem_cons, fit_w16, fit_w32, true_and]
    exact fun _ hnil => nomatch hnil
  have hlong : (w16 entry.name.length).2 = entry.name.length := by
    rw [w16_natCast hname]
  have hshort : (w16 ((if big then 20 else 0 : ℕ) : ℤ)).2 = if big then 20 else 0 := by
    rcases big with - | - <;> rfl
  have hread : Zip.readBytes bytes (pos + 30) entry.name.length = some entry.name :=
    Zip.readBytes_at hheader.right.left rfl
  have hextra : Zip.readBytes bytes (pos + 30 + entry.name.length) (if big then 20 else 0) =
      some (pack (extraRow (localValues entry big))) := by
    refine Zip.readBytes_at hheader.right.right ?_
    rw [Wire.length_pack, length_extraRow]
    rcases big with - | - <;> rfl
  have hdata : Zip.zip64Data (pack (extraRow (localValues entry big))) =
      wide big entry.size ++ (wide big entry.size ++ []) := by
    rcases big with - | -
    · exact Zip.zip64Data_nil
    · exact @zip64Data_extraRow [entry.size, entry.size] (show 16 < 2 ^ 16 by decide)
  rw [Zip.readLocal, Zip.read_at hheader.left hfit (widths_localRow entry big), Option.bind_some]
  simp only [localRow, List.map_cons, List.map_nil, Zip.localFields, hlong, hshort]
  rw [if_pos (by decide), hread, hextra]
  simp only [Option.bind_eq_bind, Option.bind_some, hdata, hwiden]
  rw [headerOf, Nat.add_assoc pos 30, Nat.add_assoc pos]
  rfl

theorem readCentral_at (hname : entry.name.length < 2 ^ 16) (hsize : entry.size < 2 ^ 64)
    (hoffset : entry.offset < 2 ^ 64) (h : At bytes pos (centralHeader entry ++ content)) :
    Zip.readCentral bytes pos = some (⟨headerOf entry, entry.offset⟩,
      pos + (centralHeader entry).length) := by
  have hheader := h.left
  have hwidenSize := widen_wide hsize
  have hwidenOffset := widen_wide hoffset
  rw [centralHeader_eq] at hheader
  rw [length_centralHeader]
  generalize decide (uint32Max ≤ entry.size) = bigSize at hheader hwidenSize ⊢
  generalize decide (uint32Max ≤ entry.offset) = bigOffset at hheader hwidenOffset ⊢
  have hfit : Fit (centralRow entry bigSize bigOffset) := by
    simp only [Fit, centralRow, List.forall_mem_cons, fit_w16, fit_w32, true_and]
    exact fun _ hnil => nomatch hnil
  have hlong : (w16 entry.name.length).2 = entry.name.length := by
    rw [w16_natCast hname]
  have hshort : (w16 (centralExtra bigSize bigOffset : ℕ)).2 = centralExtra bigSize bigOffset := by
    rcases bigSize with - | - <;> rcases bigOffset with - | - <;> rfl
  have hread : Zip.readBytes bytes (pos + 46) entry.name.length = some entry.name :=
    Zip.readBytes_at hheader.right.left rfl
  have hextra : Zip.readBytes bytes (pos + 46 + entry.name.length)
      (centralExtra bigSize bigOffset) =
        some (pack (extraRow (centralValues entry bigSize bigOffset))) := by
    refine Zip.readBytes_at hheader.right.right ?_
    rw [Wire.length_pack, length_extraRow]
    rcases bigSize with - | - <;> rcases bigOffset with - | - <;> rfl
  have hdata : Zip.zip64Data (pack (extraRow (centralValues entry bigSize bigOffset))) =
      wide bigSize entry.size ++ (wide bigSize entry.size ++
        (wide bigOffset entry.offset ++ [])) := by
    have hvalues : (centralValues entry bigSize bigOffset).length ≤ 3 := by
      rcases bigSize with - | - <;> rcases bigOffset with - | - <;> simp [centralValues]
    rw [zip64Data_extraRow (by omega)]
    rcases bigSize with - | - <;> rcases bigOffset with - | - <;> rfl
  rw [Zip.readCentral, Zip.read_at hheader.left hfit (widths_centralRow entry _ _),
    Option.bind_some]
  simp only [centralRow, List.map_cons, List.map_nil, Zip.centralFields, hlong, hshort]
  rw [if_pos (by decide), hread, hextra]
  simp only [Option.bind_eq_bind, Option.bind_some, hdata, hwidenSize, hwidenOffset]
  rw [headerOf, Nat.add_assoc pos 46, Nat.add_assoc pos]
  rfl

/-! ### The central directory -/

/-- The numbers of an entry fit into its headers. -/
structure Entry.Fits (entry : Entry) : Prop where
  name : entry.name.length < 2 ^ 16
  size : entry.size < 2 ^ 64
  offset : entry.offset < 2 ^ 64

variable {entries : List Entry}

theorem readDirectory_at (hfits : ∀ entry ∈ entries, entry.Fits)
    (h : At bytes pos (entries.map centralHeader).flatten) :
    Zip.readDirectory bytes entries.length pos =
      some (entries.map fun entry => ⟨headerOf entry, entry.offset⟩,
        pos + (entries.map centralHeader).flatten.length) := by
  induction entries generalizing pos with
  | nil => rfl
  | cons entry entries ih =>
    rw [List.map_cons, List.flatten_cons] at h
    have hentry := hfits entry (.head _)
    have hothers := ih (fun other hother => hfits other (.tail _ hother)) h.right
    rw [List.length_cons, Zip.readDirectory, readCentral_at hentry.name hentry.size hentry.offset h]
    simp only [Option.bind_eq_bind, Option.bind_some, hothers, List.map_cons]
    rw [List.flatten_cons, List.length_append, Nat.add_assoc]

/-! ### The end records -/

def end64Row (count size offset : ℕ) : List (ℕ × ℕ) :=
  [w32 0x06064b50, (8, 44), w16 45, w16 45, w32 0, w32 0, (8, count), (8, count), (8, size),
    (8, offset)]

def locatorRow (position : ℕ) : List (ℕ × ℕ) := [w32 0x07064b50, w32 0, (8, position), w32 1]

def endRow (count size offset : ℕ) : List (ℕ × ℕ) :=
  [w32 0x06054b50, w16 0, w16 0, w16 count, w16 count, w32 size, w32 offset, w16 0]

/-- `zip64` of the end records. -/
def needsZip64 (count size offset : ℕ) (forceZip64 : Bool) : Bool :=
  forceZip64 || uint16Max ≤ count || uint32Max ≤ size || uint32Max ≤ offset

theorem written_row {row : List (ℕ × ℕ)} {size : ℕ} (hsize : (row.map Prod.fst).sum = size) :
    written size (row.map fun field => Wire.little field.1 field.2) = pack row := by
  rw [written_eq]
  · rfl
  · rw [← hsize, ← Wire.length_pack]
    rfl

theorem endRecords_eq (count size offset : ℕ) (forceZip64 : Bool) :
    endRecords count size offset forceZip64 = if needsZip64 count size offset forceZip64 then
        pack (end64Row count size offset) ++ (pack (locatorRow (offset + size)) ++
          pack (endRow uint16Max uint32Max uint32Max))
      else pack (endRow count size offset) := by
  rw [endRecords, ← needsZip64]
  rcases needsZip64 count size offset forceZip64 with - | -
  · have hrow := @written_row (endRow count size offset) 22 rfl
    rw [if_neg Bool.false_ne_true, ← hrow]
    simp only [endRow, List.map_cons, List.map_nil, little_w16, little_w32, Bool.false_eq_true,
      if_false, List.nil_append, Nat.zero_add]
  · have hrow := @written_row (end64Row count size offset ++ (locatorRow (offset + size) ++
      endRow uint16Max uint32Max uint32Max)) 98 rfl
    rw [pack, List.flatMap_append, List.flatMap_append] at hrow
    rw [if_pos rfl, pack, pack, pack, ← hrow]
    simp only [end64Row, locatorRow, endRow, List.map_cons, List.map_nil,
      little_w16, little_w32, little_w64, if_true, List.cons_append, List.nil_append,
      Nat.reduceAdd]

variable {count size offset : ℕ}

theorem endFields_small (hcount : count < uint16Max)
    (hsize : size < uint32Max) (hoffset : offset < uint32Max) :
    Zip.endFields ((endRow count size offset).map Prod.snd) = some ⟨count, size, offset⟩ := by
  rw [uint16Max] at hcount
  rw [uint32Max] at hsize hoffset
  simp only [endRow, List.map_cons, List.map_nil, Zip.endFields]
  rw [w16_natCast (by omega), w32_natCast (by omega), w32_natCast (by omega)]
  exact if_pos ⟨by decide, by decide, by decide, by decide, by decide⟩

theorem fit_endRow (count size offset : ℕ) : Fit (endRow count size offset) := by
  simp only [Fit, endRow, List.forall_mem_cons, fit_w16, fit_w32, true_and]
  exact fun _ hnil => nomatch hnil

theorem fit_end64Row (hcount : count < 2 ^ 64) (hsize : size < 2 ^ 64)
    (hoffset : offset < 2 ^ 64) : Fit (end64Row count size offset) := by
  simp only [Fit, end64Row, List.forall_mem_cons, fit_w16, fit_w32, true_and]
  exact ⟨by decide, hcount, hcount, hsize, hoffset, fun _ hnil => nomatch hnil⟩

theorem fit_locatorRow {position : ℕ} (h : position < 2 ^ 64) : Fit (locatorRow position) := by
  simp only [Fit, locatorRow, List.forall_mem_cons, fit_w32, true_and]
  exact ⟨h, fun _ hnil => nomatch hnil⟩

/-- The end records without those of ZIP64. -/
theorem readEnd_small (hlength : bytes.length = pos + 22)
    (h : At bytes pos (pack (endRow count size offset)))
    (hsaturated : needsZip64 count size offset false = false) :
    Zip.readEnd bytes = some ⟨count, size, offset⟩ := by
  simp only [needsZip64, Bool.false_or, Bool.or_eq_false_iff, decide_eq_false_iff_not,
    not_le] at hsaturated
  obtain ⟨⟨hcount, hsize⟩, hoffset⟩ := hsaturated
  have hread : Zip.read bytes pos Zip.endWidths = _ :=
    Zip.read_at h (fit_endRow count size offset) rfl
  rw [Zip.readEnd, hlength, Nat.add_sub_cancel, hread]
  simp only [Option.bind_eq_bind, Option.bind_some, endFields_small hcount hsize hoffset]
  refine if_neg fun h => ?_
  rcases h with h | h | h
  · exact hcount.ne h
  · exact hsize.ne h
  · exact hoffset.ne h

/-- The end records with those of ZIP64: all fields of the last record are saturated. -/
theorem readEnd_large (hcount : count < 2 ^ 64)
    (hend : offset + size < 2 ^ 64) (hpos : pos = offset + size)
    (hlength : bytes.length = pos + 98) (h64 : At bytes pos (pack (end64Row count size offset)))
    (hlocator : At bytes (pos + 56) (pack (locatorRow (offset + size))))
    (hlast : At bytes (pos + 76) (pack (endRow uint16Max uint32Max uint32Max))) :
    Zip.readEnd bytes = some ⟨count, size, offset⟩ := by
  have hread : Zip.read bytes (pos + 76) Zip.endWidths = _ :=
    Zip.read_at hlast (fit_endRow uint16Max uint32Max uint32Max) rfl
  have hreadLocator : Zip.read bytes (pos + 56) Zip.locatorWidths = _ :=
    Zip.read_at hlocator (fit_locatorRow hend) rfl
  have hread64 : Zip.read bytes pos Zip.end64Widths = _ :=
    Zip.read_at h64 (fit_end64Row hcount (by omega) (by omega)) rfl
  have hmax : Zip.endFields ((endRow uint16Max uint32Max uint32Max).map Prod.snd) =
      some ⟨Zip.max16, Zip.max32, Zip.max32⟩ := rfl
  have hposition : Zip.locatorFields ((locatorRow (offset + size)).map Prod.snd) =
      some (offset + size) := by
    simp only [locatorRow, List.map_cons, List.map_nil, Zip.locatorFields]
    exact if_pos (by decide)
  have hlarge : Zip.end64Fields ((end64Row count size offset).map Prod.snd) =
      some ⟨count, size, offset⟩ := by
    simp only [end64Row, List.map_cons, List.map_nil, Zip.end64Fields]
    exact if_pos ⟨by decide, by decide, by decide, trivial⟩
  rw [Zip.readEnd, hlength, show pos + 98 - 22 = pos + 76 by omega, hread]
  simp only [Option.bind_eq_bind, Option.bind_some, hmax]
  rw [if_pos (.inl trivial), Zip.readEnd64, hlength, show pos + 98 - 42 = pos + 56 by omega,
    hreadLocator]
  simp only [Option.bind_eq_bind, Option.bind_some, hposition]
  rw [← hpos, hread64]
  simp only [Option.bind_some, hlarge, if_true]

theorem readEnd_at {front : List UInt8} {forceZip64 : Bool}
    (hcount : count < 2 ^ 64) (hend : offset + size < 2 ^ 64)
    (hfront : front.length = offset + size) :
    Zip.readEnd (front ++ endRecords count size offset forceZip64) =
      some ⟨count, size, offset⟩ := by
  rw [endRecords_eq]
  rcases hzip64 : needsZip64 count size offset forceZip64 with - | -
  · rw [if_neg Bool.false_ne_true]
    refine readEnd_small ?_ (Wire.at_append _ _) ?_
    · rw [List.length_append, Wire.length_pack]
      rfl
    · rcases forceZip64 with - | -
      · exact hzip64
      · exact absurd hzip64 Bool.noConfusion
  · rw [if_pos rfl]
    have h64 := Wire.at_append front (pack (end64Row count size offset) ++
      (pack (locatorRow (offset + size)) ++ pack (endRow uint16Max uint32Max uint32Max)))
    have hlocator := h64.right
    have hlast := hlocator.right
    rw [Wire.length_pack] at hlocator
    rw [Wire.length_pack, Wire.length_pack] at hlast
    refine readEnd_large hcount hend hfront ?_ h64.left hlocator.left hlast
    rw [List.length_append, List.length_append, List.length_append, Wire.length_pack,
      Wire.length_pack, Wire.length_pack]
    rfl

/-! ### The members -/

/-- A header with the content of its file. -/
def member (entry : Entry) (file : FolderFile) : List UInt8 :=
  localHeader entry (uint32Max ≤ file.content.length) ++ file.content

/-- What has been packed: the entry of a file says where its header stands. -/
structure Packed (clock : Clock) (s : Packing) (files : List FolderFile) : Prop where
  offset : s.offset = s.parts.flatten.length
  members : List.Forall₂ (fun entry file => entry = entryOf clock entry.offset file ∧
    At s.parts.flatten entry.offset (member entry file)) s.entries files

variable {files : List FolderFile}

theorem Packed.add {clock : Clock} {s : Packing} (h : Packed clock s files) (file : FolderFile) :
    Packed clock (s.add clock file) (files ++ [file]) := by
  have hflatten : (s.add clock file).parts.flatten =
      s.parts.flatten ++ member (entryOf clock s.offset file) file := by
    rw [Packing.add, List.flatten_append, member, List.flatten_cons, List.flatten_singleton]
  refine ⟨?_, List.rel_append (h.members.imp fun entry file hentry => ?_)
    (List.Forall₂.cons ?_ List.Forall₂.nil)⟩
  · rw [hflatten, List.length_append, member, List.length_append, Packing.add, h.offset]
  · rw [hflatten]
    exact ⟨hentry.1, hentry.2.append _⟩
  · refine ⟨rfl, ?_⟩
    have hat := Wire.at_append s.parts.flatten (member (entryOf clock s.offset file) file)
    rwa [← h.offset, ← hflatten] at hat

theorem packed_foldl (clock : Clock) (files : List FolderFile) :
    Packed clock (files.foldl (Packing.add clock) {}) files := by
  induction files using List.reverseRecOn with
  | nil => exact ⟨rfl, List.Forall₂.nil⟩
  | append_singleton files file ih =>
    rw [List.foldl_append]
    exact ih.add file

theorem utf8_encodeText (text : Search.Text) :
    (encodeText text).toByteArray.utf8Decode?.map Array.toList = some text := by
  have hdecode := @List.utf8Decode?_utf8Encode text
  rw [List.utf8Encode] at hdecode
  rw [encodeText, hdecode]
  rfl

/-- A member is read back from its entry. -/
theorem readMember_at {clock : Clock} {file : FolderFile} (hfits : entry.Fits)
    (hentry : entry = entryOf clock entry.offset file)
    (h : At bytes entry.offset (member entry file)) :
    Zip.readMember bytes ⟨headerOf entry, entry.offset⟩ =
      some (relativePathOf file, file.content) := by
  have hsize : entry.size = file.content.length := by rw [hentry, entryOf]
  have hname : entry.name = encodeText (relativePathOf file) := by rw [hentry, entryOf]
  have hcrc : (w32 entry.crc).2 = (Crc32.crc32 file.content).toNat := by
    have hentryCrc : entry.crc = ((Crc32.crc32 file.content).toNat : ℕ) := by
      rw [hentry, entryOf, fileCrc_eq]
    rw [hentryCrc, w32_natCast (BitVec.isLt _)]
  rw [member, ← hsize] at h
  have hread : Zip.readName (headerOf entry) = some (relativePathOf file) := by
    have hutf8 : (headerOf entry).flags.testBit 11 = true :=
      show utf8Flag.testBit 11 = true by decide
    rw [Zip.readName, if_pos hutf8, headerOf, hname, utf8_encodeText]
  rw [Zip.readMember, readLocal_at hfits.name hfits.size h]
  simp only [Option.bind_eq_bind, Option.bind_some, hread]
  rw [headerOf, Zip.readBytes_at h.right hsize]
  exact if_pos ⟨trivial, rfl, rfl, hcrc.symm⟩

theorem fits_of_members {clock : Clock}
    (hpaths : ∀ file ∈ files, (encodeText (relativePathOf file)).length ≤ 65535)
    (hlength : bytes.length < 2 ^ 53)
    (h : List.Forall₂ (fun entry file => entry = entryOf clock entry.offset file ∧
      At bytes entry.offset (member entry file)) entries files) :
    ∀ entry ∈ entries, entry.Fits := by
  induction h with
  | nil => exact fun _ hnil => nomatch hnil
  | @cons entry file _ _ hmember _ ih =>
    rw [List.forall_mem_cons] at hpaths ⊢
    refine ⟨?_, ih hpaths.2⟩
    have hname : entry.name = encodeText (relativePathOf file) := by rw [hmember.1, entryOf]
    have hsize : entry.size = file.content.length := by rw [hmember.1, entryOf]
    have hinside := hmember.2.length_le
    rw [member, List.length_append] at hinside
    refine ⟨?_, by omega, by omega⟩
    rw [hname]
    exact Nat.lt_succ_of_le hpaths.1

theorem mapM_readMember {clock : Clock} (hfits : ∀ entry ∈ entries, entry.Fits)
    (h : List.Forall₂ (fun entry file => entry = entryOf clock entry.offset file ∧
      At bytes entry.offset (member entry file)) entries files) :
    (entries.map fun entry => (⟨headerOf entry, entry.offset⟩ : Zip.Central)).mapM
      (Zip.readMember bytes) = some (files.map fun file => (relativePathOf file, file.content)) := by
  induction h with
  | nil => rfl
  | cons hmember _ ih =>
    rw [List.map_cons, List.mapM_cons,
      readMember_at (hfits _ (.head _)) hmember.1 hmember.2,
      ih fun other hother => hfits other (.tail _ hother)]
    rfl

/-! ### The folder -/

end Kairon.Upload
