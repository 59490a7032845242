/-
Kairon/Upload/Sha256Agrees.lean

The hash of the browser is SHA-256.

On words, a block is compressed as the standard says (`map_processBlock`).  Whatever the
chunks were, the state is that after the full blocks of all bytes so far, and the buffer
has the rest (`Holds`); an update keeps this (`Holds.update`), and the padded rest is what
the padding of the standard adds to the full blocks (`padded_eq`).
-/
import Kairon.Upload.IncrementalSha256

namespace Kairon.Upload

open Sha256 (Vars)
open Word32 (word)
open Blocks (absorb)

/-! ### Words -/

theorem word_rotr (x : ℤ) {n : ℕ} (hpos : 0 < n) (hlt : n < 32) :
    word (rotr x n) = (word x).rotateRight n := by
  rw [rotr, Word32.word_or, Word32.word_shr, Word32.word_shl, BitVec.rotateRight_def,
    Nat.mod_eq_of_lt hlt]

theorem word_xor3 (x y z : ℤ) : word (xor3 x y z) = word x ^^^ word y ^^^ word z := by
  rw [xor3, Word32.word_xor, Word32.word_xor]

theorem word_or_zero (x : ℤ) : word (Word32.or x 0) = word x := by
  rw [Word32.or_zero, Word32.word_toInt]

variable {w : List ℤ}

theorem getD_set {i : ℕ} (hi : i < w.length) (x : ℤ) (t : ℕ) :
    (w.set i x).getD t 0 = if i = t then x else w.getD t 0 := by
  rw [List.getD_eq_getElem?_getD, List.getElem?_set]
  split_ifs with heq
  · rfl
  · rw [List.getD_eq_getElem?_getD]

/-! ### The schedule -/

/-- The first words are those of the schedule. -/
def Scheduled (block : List UInt8) (w : List ℤ) (n : ℕ) : Prop :=
  w.length = 64 ∧ ∀ t < n, word (w.getD t 0) = Sha256.schedule block t

variable {block : List UInt8}

theorem Scheduled.set {n : ℕ} (h : Scheduled block w n)
    (hn : n < 64) {x : ℤ} (hx : word x = Sha256.schedule block n) :
    Scheduled block (w.set n x) (n + 1) := by
  refine ⟨by rw [List.length_set, h.1], fun t ht => ?_⟩
  rw [getD_set (h.1 ▸ hn)]
  split_ifs with heq
  · rw [hx, heq]
  · exact h.2 t (by omega)

theorem scheduled_load (block : List UInt8) {n : ℕ} (hn : n ≤ 16) :
    Scheduled block ((List.range n).foldl (loadWord block) (List.replicate 64 0)) n := by
  induction n with
  | zero => exact ⟨List.length_replicate, fun t ht => absurd ht (Nat.not_lt_zero t)⟩
  | succ n ih =>
    rw [List.range_succ, List.foldl_append]
    refine (ih (by omega)).set (by omega) ?_
    have hbyte : ∀ i, Sha256.byteAt block i < 256 := fun i => UInt8.toNat_lt_size _
    rw [Word32.word_store, Sha256.schedule_of_lt (by omega)]
    exact Word32.word_bytes (hbyte _) (hbyte _) (hbyte _)

theorem scheduled_extend (h : Scheduled block w 16) {n : ℕ} (hn : n ≤ 48) :
    Scheduled block ((List.range' 16 n).foldl extendWord w) (16 + n) := by
  induction n with
  | zero => exact h
  | succ n ih =>
    rw [List.range'_concat, List.foldl_append, Nat.one_mul]
    have hbefore := ih (by omega)
    refine hbefore.set (by omega) ?_
    rw [Word32.word_store, word_or_zero, Sha256.schedule_add]
    simp only [Word32.word_add, word_xor3, word_rotr _ (show 0 < 7 by omega) (by omega),
      word_rotr _ (show 0 < 18 by omega) (by omega), word_rotr _ (show 0 < 17 by omega) (by omega),
      word_rotr _ (show 0 < 19 by omega) (by omega), Word32.word_shr]
    rw [hbefore.2 (16 + n - 15) (by omega), hbefore.2 (16 + n - 2) (by omega),
      hbefore.2 (16 + n - 16) (by omega), hbefore.2 (16 + n - 7) (by omega)]
    rw [Sha256.smallSigma0, Sha256.smallSigma1]
    ac_rfl

theorem scheduled_expandBlock (block : List UInt8) : Scheduled block (expandBlock block) 64 :=
  scheduled_extend (scheduled_load block le_rfl) le_rfl

/-! ### Compression -/

theorem word_roundTable (i : ℕ) :
    word (roundTable.getD i 0) = BitVec.ofNat 32 (Sha256.roundConstants.getD i 0) := by
  have htable : roundTable = Sha256.roundConstants.map fun n => (n : ℤ) := rfl
  have hget := List.getD_map (l := Sha256.roundConstants) (d := 0) (n := i) fun n : ℕ => (n : ℤ)
  rw [htable, ← Word32.word_natCast]
  exact congrArg word hget

theorem map_hashRound (h : Scheduled block w 64) (v : Vars ℤ)
    {i : ℕ} (hi : i < 64) : (hashRound w v i).map word =
      Sha256.round (Sha256.schedule block) (v.map word) i := by
  have hfirst : word (Word32.or (v.h + xor3 (rotr v.e 6) (rotr v.e 11) (rotr v.e 25) +
      Word32.xor (Word32.and v.e v.f) (Word32.and (Word32.not v.e) v.g) +
        roundTable.getD i 0 + w.getD i 0) 0) =
      word v.h + Sha256.bigSigma1 (word v.e) + Sha256.ch (word v.e) (word v.f) (word v.g) +
        BitVec.ofNat 32 (Sha256.roundConstants.getD i 0) + Sha256.schedule block i := by
    rw [word_or_zero, Word32.word_add, Word32.word_add, Word32.word_add, Word32.word_add,
      word_roundTable, h.2 i hi, word_xor3, word_rotr _ (by omega) (by omega),
      word_rotr _ (by omega) (by omega), word_rotr _ (by omega) (by omega), Word32.word_xor,
      Word32.word_and, Word32.word_and, Word32.word_not]
    rfl
  have hsecond : word (Word32.or (xor3 (rotr v.a 2) (rotr v.a 13) (rotr v.a 22) +
      xor3 (Word32.and v.a v.b) (Word32.and v.a v.c) (Word32.and v.b v.c)) 0) =
      Sha256.bigSigma0 (word v.a) + Sha256.maj (word v.a) (word v.b) (word v.c) := by
    rw [word_or_zero, Word32.word_add, word_xor3, word_xor3, word_rotr _ (by omega) (by omega),
      word_rotr _ (by omega) (by omega), word_rotr _ (by omega) (by omega), Word32.word_and,
      Word32.word_and, Word32.word_and]
    rfl
  rw [hashRound, Sha256.round, Vars.map]
  simp only [word_or_zero, Word32.word_add, hfirst, hsecond]
  rfl

theorem map_rounds (h : Scheduled block w 64) (v : Vars ℤ)
    {n : ℕ} (hn : n ≤ 64) : ((List.range n).foldl (hashRound w) v).map word =
      (List.range n).foldl (Sha256.round (Sha256.schedule block)) (v.map word) := by
  induction n with
  | zero => rfl
  | succ n ih =>
    rw [List.range_succ, List.foldl_append, List.foldl_append, ← ih (by omega)]
    exact map_hashRound h _ (by omega)

theorem map_processBlock (h : Vars ℤ) (block : List UInt8) :
    (processBlock h block).map word = Sha256.compress (h.map word) block := by
  have hadd : ∀ x y, word (addWord x y) = word x + word y := by
    intro x y
    rw [addWord, Word32.word_store, word_or_zero, Word32.word_add]
  rw [Sha256.compress, ← map_rounds (scheduled_expandBlock block) h le_rfl, processBlock, Vars.map]
  simp only [hadd]
  rfl

theorem map_foldl_processBlock (blocks : List (List UInt8)) (h : Vars ℤ) :
    (blocks.foldl processBlock h).map word = blocks.foldl Sha256.compress (h.map word) := by
  induction blocks generalizing h with
  | nil => rfl
  | cons block blocks ih => rw [List.foldl_cons, List.foldl_cons, ih, map_processBlock]

/-! ### Typed arrays -/

theorem subarray_zero (array : List UInt8) (stop : ℕ) :
    subarray array 0 stop = array.take stop := by
  rw [subarray, List.drop_zero]

theorem subarray_add (array : List UInt8) (start size : ℕ) :
    subarray array start (start + size) = (array.drop start).take size := by
  rw [subarray, List.drop_take, Nat.add_sub_cancel_left]

theorem subarray_length (array : List UInt8) (start : ℕ) :
    subarray array start array.length = array.drop start := by
  rw [subarray, List.take_length]

/-- Bytes that are set where bytes were. -/
theorem setBytes_append {before old source after : List UInt8} {offset : ℕ}
    (hoffset : offset = before.length) (hlength : source.length = old.length) :
    setBytes (before ++ old ++ after) source offset = before ++ source ++ after := by
  subst hoffset
  have htake : (before ++ old ++ after).take before.length = before := by
    rw [List.append_assoc, List.take_left]
  rw [setBytes, htake, hlength, ← List.length_append, List.drop_left]

variable {array source : List UInt8}

theorem length_setBytes {offset : ℕ} (h : offset + source.length ≤ array.length) :
    (setBytes array source offset).length = array.length := by
  rw [setBytes, List.length_append, List.length_append, List.length_take, List.length_drop]
  omega

/-- The first bytes after a set. -/
theorem take_setBytes {offset : ℕ} (h : offset ≤ array.length) :
    (setBytes array source offset).take (offset + source.length) = array.take offset ++ source := by
  have hlength : (array.take offset ++ source).length = offset + source.length := by
    rw [List.length_append, List.length_take_of_le h]
  rw [setBytes, ← hlength, List.take_left]

/-! ### Updates -/

/-- The blocks of a chunk from an offset on. -/
theorem processWhole_spec (chunk : List UInt8) (h : Vars ℤ) (offset : ℕ)
    (hoffset : offset ≤ chunk.length) :
    (processWhole chunk h offset).2 ≤ chunk.length ∧ absorb processBlock 64 h (chunk.drop offset) =
        ((processWhole chunk h offset).1, chunk.drop (processWhole chunk h offset).2) := by
  induction h, offset using processWhole.induct chunk with
  | case1 h offset hle ih =>
    obtain ⟨hbound, habsorb⟩ := ih hle
    rw [processWhole, if_pos hle]
    refine ⟨hbound, ?_⟩
    have hlong : 64 ≤ (chunk.drop offset).length := by
      rw [List.length_drop]
      omega
    rw [Blocks.absorb_of_le (by omega) hlong, List.drop_drop, ← subarray_add, habsorb]
  | case2 h offset hnot =>
    rw [processWhole, if_neg hnot]
    refine ⟨hoffset, Blocks.absorb_of_lt ?_⟩
    rw [List.length_drop]
    omega

/-- What holds after the bytes of some chunks. -/
structure Holds (s : IncrementalSha256) (bytes : List UInt8) : Prop where
  absorbed : absorb processBlock 64 ({} : IncrementalSha256).h bytes =
    (s.h, s.buffer.take s.bufferLength)
  buffer : s.buffer.length = 64
  rest : s.bufferLength < 64
  total : s.totalLength = bytes.length
  open' : s.finalized = false

theorem holds_new : Holds {} [] where
  absorbed := Blocks.absorb_of_lt (by decide)
  buffer := List.length_replicate
  rest := by decide
  total := rfl
  open' := rfl

variable {s : IncrementalSha256}

/-- The buffer takes a part of the chunk: it is left empty, or the chunk was short. -/
theorem fill_spec (chunk : List UInt8) (hbuffer : s.buffer.length = 64)
    (hrest : s.bufferLength < 64) :
    ((s.fill chunk).1.buffer.length = 64 ∧ (s.fill chunk).1.totalLength = s.totalLength ∧
      (s.fill chunk).1.finalized = s.finalized ∧ (s.fill chunk).2 ≤ chunk.length) ∧
    ((s.fill chunk).1.bufferLength = 0 ∧
        absorb processBlock 64 s.h (s.buffer.take s.bufferLength ++ chunk) =
          absorb processBlock 64 (s.fill chunk).1.h (chunk.drop (s.fill chunk).2) ∨
      (s.fill chunk).1.bufferLength < 64 ∧ (s.fill chunk).2 = chunk.length ∧
        (s.fill chunk).1.h = s.h ∧
        (s.fill chunk).1.buffer.take (s.fill chunk).1.bufferLength =
          s.buffer.take s.bufferLength ++ chunk) := by
  by_cases hpos : 0 < s.bufferLength
  · generalize htake : min (64 - s.bufferLength) chunk.length = take
    have hle : take ≤ chunk.length := htake ▸ Nat.min_le_right _ _
    have hsource : (subarray chunk 0 take).length = take := by
      rw [subarray_zero, List.length_take_of_le hle]
    have hlength : (setBytes s.buffer (subarray chunk 0 take) s.bufferLength).length = 64 := by
      rw [length_setBytes (by omega), hbuffer]
    have hstored : (setBytes s.buffer (subarray chunk 0 take) s.bufferLength).take
        (s.bufferLength + take) = s.buffer.take s.bufferLength ++ chunk.take take := by
      have htaken := @take_setBytes s.buffer (subarray chunk 0 take) s.bufferLength (by omega)
      rwa [hsource, subarray_zero] at htaken
    by_cases hfull : s.bufferLength + take = 64
    · have hfill : s.fill chunk = ({ s with
          h := processBlock s.h (setBytes s.buffer (subarray chunk 0 take) s.bufferLength)
          buffer := setBytes s.buffer (subarray chunk 0 take) s.bufferLength
          bufferLength := 0 }, take) := by
        rw [IncrementalSha256.fill, if_pos hpos]
        dsimp only
        rw [htake, if_pos hfull]
      rw [hfill]
      refine ⟨⟨hlength, rfl, rfl, hle⟩, .inl ⟨rfl, ?_⟩⟩
      rw [hfull, List.take_of_length_le hlength.le] at hstored
      rw [hstored]
      have hsplit : s.buffer.take s.bufferLength ++ chunk =
          s.buffer.take s.bufferLength ++ chunk.take take ++ chunk.drop take := by
        rw [List.append_assoc, List.take_append_drop]
      rw [hsplit, Blocks.absorb_block (by omega) (hstored ▸ hlength)]
    · have hfill : s.fill chunk = ({ s with
          buffer := setBytes s.buffer (subarray chunk 0 take) s.bufferLength
          bufferLength := s.bufferLength + take }, take) := by
        rw [IncrementalSha256.fill, if_pos hpos]
        dsimp only
        rw [htake, if_neg hfull]
      have hshort : take = chunk.length := by omega
      rw [hfill]
      refine ⟨⟨hlength, rfl, rfl, hle⟩, .inr ⟨by dsimp only; omega, hshort, rfl, ?_⟩⟩
      dsimp only
      rw [hstored, hshort, List.take_length]
  · have hfill : s.fill chunk = (s, 0) := by rw [IncrementalSha256.fill, if_neg hpos]
    have hzero : s.bufferLength = 0 := by omega
    rw [hfill]
    refine ⟨⟨hbuffer, rfl, rfl, Nat.zero_le _⟩, .inl ⟨hzero, ?_⟩⟩
    rw [hzero, List.take_zero, List.nil_append, List.drop_zero]

variable {bytes : List UInt8}

/-- An update takes the bytes of its chunk. -/
theorem Holds.update (h : Holds s bytes)
    (chunk : List UInt8) : ∃ t, s.update chunk = .ok t ∧ Holds t (bytes ++ chunk) := by
  have habsorb : absorb processBlock 64 ({} : IncrementalSha256).h (bytes ++ chunk) =
      absorb processBlock 64 s.h (s.buffer.take s.bufferLength ++ chunk) := by
    rw [Blocks.absorb_append (by omega), h.absorbed]
  have hopen : ¬ s.finalized = true := by
    rw [h.open']
    exact Bool.false_ne_true
  rw [IncrementalSha256.update, if_neg hopen]
  refine ⟨_, rfl, ?_⟩
  obtain ⟨⟨hbuffer, htotal, hfinalized, hoffset⟩, hfilled⟩ :=
    @fill_spec { s with totalLength := s.totalLength + chunk.length } chunk h.buffer h.rest
  generalize IncrementalSha256.fill { s with totalLength := s.totalLength + chunk.length } chunk =
    filled at hbuffer htotal hfinalized hoffset hfilled ⊢
  obtain ⟨hbound, hwhole⟩ := processWhole_spec chunk filled.1.h filled.2 hoffset
  have hlength : filled.1.totalLength = (bytes ++ chunk).length := by
    rw [htotal, List.length_append, ← h.total]
  rcases hfilled with ⟨hempty, hblocks⟩ | ⟨hshort, hall, hsame, hstored⟩
  · have hend : absorb processBlock 64 ({} : IncrementalSha256).h (bytes ++ chunk) =
        ((processWhole chunk filled.1.h filled.2).1,
          chunk.drop (processWhole chunk filled.1.h filled.2).2) :=
      habsorb.trans (hblocks.trans hwhole)
    have hrest := Blocks.length_rest_lt (f := processBlock) (by omega : 0 < 64)
      ({} : IncrementalSha256).h (bytes ++ chunk)
    rw [hend, List.length_drop] at hrest
    dsimp only
    split_ifs with hmore
    · have hsource : subarray chunk (processWhole chunk filled.1.h filled.2).2 chunk.length =
          chunk.drop (processWhole chunk filled.1.h filled.2).2 := subarray_length _ _
      have hfits : 0 + (chunk.drop (processWhole chunk filled.1.h filled.2).2).length ≤
          filled.1.buffer.length := by
        rw [List.length_drop]
        omega
      refine ⟨?_, ?_, hrest, hlength, hfinalized.trans h.open'⟩
      · dsimp only
        rw [hend, hsource, ← List.length_drop, ← Nat.zero_add (List.length _),
          take_setBytes (Nat.zero_le _), List.take_zero, List.nil_append]
      · dsimp only
        rw [hsource, length_setBytes hfits, hbuffer]
    · refine ⟨?_, hbuffer, ?_, hlength, hfinalized.trans h.open'⟩
      · dsimp only
        rw [hend, hempty, List.take_zero, List.drop_eq_nil_of_le (not_lt.1 hmore)]
      · dsimp only
        omega
  · -- the chunk was short, so that there is no block in it
    rw [hall] at hwhole hbound ⊢
    have hnone : processWhole chunk filled.1.h chunk.length = (filled.1.h, chunk.length) := by
      rw [processWhole, if_neg (by omega)]
    rw [hnone]
    dsimp only
    rw [if_neg (lt_irrefl _)]
    refine ⟨?_, hbuffer, hshort, hlength, hfinalized.trans h.open'⟩
    have hlt : (s.buffer.take s.bufferLength ++ chunk).length < 64 := by
      have hlen : (filled.1.buffer.take filled.1.bufferLength).length =
          (s.buffer.take s.bufferLength ++ chunk).length := congrArg List.length hstored
      rw [List.length_take] at hlen
      omega
    dsimp only
    rw [habsorb, Blocks.absorb_of_lt hlt, hsame, hstored]

theorem Holds.updates (h : Holds s bytes) (chunks : List (List UInt8)) :
    ∃ t, chunks.foldlM IncrementalSha256.update s = .ok t ∧ Holds t (bytes ++ chunks.flatten) := by
  induction chunks generalizing s bytes with
  | nil => exact ⟨s, rfl, by rwa [List.flatten_nil, List.append_nil]⟩
  | cons chunk chunks ih =>
    obtain ⟨next, hnext, hheld⟩ := h.update chunk
    obtain ⟨t, ht, hlast⟩ := ih hheld
    refine ⟨t, ?_, ?_⟩
    · rw [List.foldlM_cons, hnext]
      exact ht
    · rw [List.flatten_cons, ← List.append_assoc]
      exact hlast

/-! ### The padded rest -/

theorem padTo_eq (length : ℕ) : padTo length = length + (120 - length % 64) % 64 := by
  induction length using padTo.induct with
  | case1 length h =>
    rw [padTo, if_pos h, h]
    rfl
  | case2 length h ih =>
    rw [padTo, if_neg h, ih]
    omega

/-- A number of eight bytes, written in two halves. -/
theorem little_halves (n : ℕ) :
    (Wire.little 8 n).reverse = (Wire.little 4 (n / 0x100000000 % 2 ^ 32)).reverse ++
      (Wire.little 4 (n % 2 ^ 32)).reverse := by
  rw [Wire.little_add 4 4, List.reverse_append, ← Wire.little_mod 4 n,
    ← Wire.little_mod 4 (n / 256 ^ 4)]
  rfl

/-- The rest with its padding, as the standard has it. -/
theorem padded_eq (h : Holds s bytes) (hlength : bytes.length % 64 = s.bufferLength) :
    s.padded = s.buffer.take s.bufferLength ++
      (0x80 :: List.replicate (Sha256.zeros bytes.length) 0 ++
        (Wire.little 8 (8 * bytes.length)).reverse) := by
  have hrest : (s.buffer.take s.bufferLength).length = s.bufferLength := by
    rw [List.length_take, h.buffer]
    have := h.rest
    omega
  have hzeros : padTo (s.bufferLength + 1) = s.bufferLength + 1 + Sha256.zeros bytes.length := by
    rw [padTo_eq, Sha256.zeros, hlength]
    have := h.rest
    omega
  have hlow : (Word32.shr ((bytes.length * 8 : ℕ) : ℤ) 0).toNat = bytes.length * 8 % 2 ^ 32 := by
    rw [Word32.shr, BitVec.ushiftRight_zero, Word32.word_natCast, Int.toNat_natCast,
      BitVec.toNat_ofNat]
  generalize hz : Sha256.zeros bytes.length = z at hzeros ⊢
  -- the zeros of the array, where each part of the padding is set
  have hblank : List.replicate (s.bufferLength + 1 + z + 8) (0 : UInt8) =
      [] ++ List.replicate s.bufferLength 0 ++ (List.replicate 1 0 ++
        (List.replicate z 0 ++ (List.replicate 4 0 ++ List.replicate 4 0))) := by
    rw [List.replicate_append_replicate, List.replicate_append_replicate,
      List.replicate_append_replicate, List.nil_append, List.replicate_append_replicate]
    congr 1
    omega
  have hfirst := @setBytes_append [] (List.replicate s.bufferLength 0)
    (s.buffer.take s.bufferLength) (List.replicate 1 0 ++
      (List.replicate z 0 ++ (List.replicate 4 0 ++ List.replicate 4 0))) 0 rfl
    (hrest.trans List.length_replicate.symm)
  have hmark := @setBytes_append (s.buffer.take s.bufferLength) (List.replicate 1 0) [0x80]
    (List.replicate z 0 ++ (List.replicate 4 0 ++ List.replicate 4 0)) s.bufferLength hrest.symm rfl
  have hhigh := @setBytes_append (s.buffer.take s.bufferLength ++ [0x80] ++ List.replicate z 0)
    (List.replicate 4 0) (Wire.little 4 (bytes.length * 8 / 0x100000000 % 2 ^ 32)).reverse
    (List.replicate 4 0) (s.bufferLength + 1 + z) (by simp [hrest]; omega) (by simp)
  have hlower := @setBytes_append (s.buffer.take s.bufferLength ++ [0x80] ++
      List.replicate z 0 ++ (Wire.little 4 (bytes.length * 8 / 0x100000000 % 2 ^ 32)).reverse)
    (List.replicate 4 0) (Wire.little 4 (bytes.length * 8 % 2 ^ 32 % 2 ^ 32)).reverse
    [] (s.bufferLength + 1 + z + 4) (by simp [hrest]; omega) (by simp)
  rw [List.append_nil, List.append_nil] at hlower
  simp only [List.nil_append, ← List.append_assoc] at hfirst hmark hhigh hblank
  rw [IncrementalSha256.padded, hzeros, h.total, hlow, hblank, subarray_zero, hfirst, hmark,
    setUint32, setUint32, hhigh, hlower, Nat.mod_mod, Nat.mul_comm 8, little_halves]
  simp only [List.append_assoc, List.cons_append, List.nil_append]

theorem processPadded_spec (padded : List UInt8) (h : Vars ℤ) (offset : ℕ)
    (hfull : (padded.length - offset) % 64 = 0) :
    processPadded padded h offset = (absorb processBlock 64 h (padded.drop offset)).1 := by
  induction h, offset using processPadded.induct padded with
  | case1 h offset hlt ih =>
    have hlong : 64 ≤ (padded.drop offset).length := by
      rw [List.length_drop]
      omega
    rw [processPadded, if_pos hlt, ih (by omega), Blocks.absorb_of_le (by omega) hlong,
      List.drop_drop, subarray_add]
  | case2 h offset hnot =>
    have hshort : (padded.drop offset).length < 64 := by
      rw [List.length_drop]
      omega
    rw [processPadded, if_neg hnot, Blocks.absorb_of_lt hshort]

/-! ### Hexadecimal digits -/

/-- The last digits of a number. -/
def hexDigits : ℕ → ℕ → List Char
  | 0, _ => []
  | width + 1, n => hexDigits width (n / 16) ++ [Nat.digitChar (n % 16)]

/-- `padStart` fills up the digits of a number. -/
theorem pad_toDigits (width : ℕ) {n : ℕ} (h : n < 16 ^ (width + 1)) :
    List.replicate (width + 1 - (Nat.toDigits 16 n).length) '0' ++ Nat.toDigits 16 n =
      hexDigits (width + 1) n := by
  induction width generalizing n with
  | zero =>
    have hsmall : n < 16 := h
    rw [Nat.toDigits_of_lt_base hsmall, hexDigits, Nat.mod_eq_of_lt hsmall]
    rfl
  | succ width ih =>
    have hdiv : n / 16 < 16 ^ (width + 1) := by
      rw [Nat.pow_succ] at h
      exact Nat.div_lt_of_lt_mul (by rwa [Nat.mul_comm])
    rw [hexDigits, ← ih hdiv]
    by_cases hsmall : n < 16
    · rw [Nat.div_eq_of_lt hsmall, Nat.toDigits_of_lt_base hsmall, Nat.mod_eq_of_lt hsmall,
        Nat.toDigits_zero, ← List.replicate_succ']
      rfl
    · rw [Nat.toDigits_of_base_le (by decide) (not_lt.1 hsmall), List.length_append,
        List.length_singleton, Nat.add_sub_add_right, List.append_assoc]

theorem hexDigits_two_mul (width n : ℕ) :
    hexDigits (2 * width) n = Sha256.hex (Wire.little width n).reverse := by
  induction width generalizing n with
  | zero => rfl
  | succ width ih =>
    have hbyte : (UInt8.ofNat (n % 256)).toNat = n % 256 := by
      rw [UInt8.toNat_ofNat']
      omega
    have htwo : hexDigits (2 * (width + 1)) n = hexDigits (2 * width) (n / 16 / 16) ++
        [Nat.digitChar (n / 16 % 16)] ++ [Nat.digitChar (n % 16)] := rfl
    have hhigh : n % 256 / 16 = n / 16 % 16 := by omega
    have hlow : n % 256 % 16 = n % 16 := by omega
    rw [htwo, Nat.div_div_eq_div_mul, ih, Wire.little, List.reverse_cons, Sha256.hex, Sha256.hex,
      List.flatMap_append, List.flatMap_singleton, hbyte, hhigh, hlow, List.append_assoc]
    rfl

theorem wordHex_eq (x : ℤ) : wordHex x = Sha256.hex (Wire.little 4 (word x).toNat).reverse := by
  have hnumber : (Word32.shr x 0).toNat = (word x).toNat := by
    rw [Word32.shr, BitVec.ushiftRight_zero, Int.toNat_natCast]
  rw [wordHex, hnumber, ← hexDigits_two_mul]
  exact pad_toDigits 7 (word x).isLt

/-! ### The digest -/

/-- **The hash of the browser is SHA-256**, however the bytes are cut into chunks. -/
theorem incrementalSha256_digest (chunks : List (List UInt8)) :
    (chunks.foldlM IncrementalSha256.update {}).map (fun s => s.digestHex.1) =
      .ok (Sha256.hex (Sha256.digest chunks.flatten)) := by
  obtain ⟨s, hs, hheld⟩ := holds_new.updates chunks
  rw [List.nil_append] at hheld
  have hmod : chunks.flatten.length % 64 = s.bufferLength := by
    have hrest := congrArg (List.length ∘ Prod.snd) hheld.absorbed
    rw [Blocks.absorb_eq (by omega)] at hrest
    simp only [Function.comp_apply, List.length_drop, List.length_take, hheld.buffer] at hrest
    have hlt := hheld.rest
    omega
  have hpadded := padded_eq hheld hmod
  -- the padded rest is taken as the end of the padded message would be
  have hblocks : absorb processBlock 64 ({} : IncrementalSha256).h (Sha256.pad chunks.flatten) =
      absorb processBlock 64 s.h s.padded := by
    rw [Sha256.pad, List.append_assoc, Blocks.absorb_append (by omega), hheld.absorbed, hpadded]
  have hfull : (s.padded.length - 0) % 64 = 0 := by
    have hall := Sha256.length_pad chunks.flatten
    rw [Sha256.pad, List.append_assoc, List.length_append] at hall
    have hrest : (s.buffer.take s.bufferLength).length = chunks.flatten.length % 64 := by
      rw [hmod, List.length_take, hheld.buffer]
      exact Nat.min_eq_left hheld.rest.le
    rw [hpadded, List.length_append, hrest]
    omega
  have hhash : (processPadded s.padded s.h 0).map word = Sha256.hash chunks.flatten := by
    rw [processPadded_spec _ _ _ hfull, List.drop_zero, ← hblocks, Blocks.absorb_eq (by omega),
      map_foldl_processBlock]
    rfl
  rw [hs]
  show Except.ok (s.digestHex.1) = _
  rw [IncrementalSha256.digestHex, Sha256.digest, Sha256.hex, ← hhash, List.flatMap_assoc]
  refine congrArg Except.ok ?_
  simp only [Vars.toList, Vars.map, List.flatMap_cons, List.flatMap_nil, wordHex_eq, Sha256.hex]

/-- The digest of 'abc', in two chunks. -/
example : ([[0x61], [0x62, 0x63]].foldlM IncrementalSha256.update {}).map
    (fun s => s.digestHex.1) =
      .ok "ba7816bf8f01cfea414140de5dae2223b00361a396177a9cb410ff61f20015ad".toList := by
  decide +kernel

end Kairon.Upload
