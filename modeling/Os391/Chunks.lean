import Os391.FileReads
import Mathlib.Logic.Function.Iterate

/-!
# The chunks of `read_data`

The copy loop of `read_data` once more, on its own 32-bit variables: for every offset and
length, also where the block arithmetic wraps around, each turn copies at least one byte
and at most a block, so the loop ends, and what it passes to `memcpy` covers the
destination range without gap or overlap. The chunks are the copies of `readData`.
-/

namespace Os391

open Bytes Segment

/-- The arguments of one call of `memcpy`. -/
structure Chunk : Type where
  dest : Word
  src : Word
  n : Word
  deriving DecidableEq

/-- The addresses it stores to, in order. -/
def Chunk.addresses (c : Chunk) : List Word := segment (addressAt c.dest) 0 c.n.toNat

/-- The local variables of the copy loop, and the calls of `memcpy` so far. -/
structure ReadVars : Type where
  currDataBlockIndex : Word
  srcPointer : Word
  destPointer : Word
  memTillEndOfBlock : Word
  length : Word
  chunks : List Chunk
  deriving DecidableEq

namespace ReadVars

/-- The variables before the loop. `blocks` sends an index into `data_block` to the address
of the data block. -/
def init (blocks : Word → Word) (buf offset length : Word) : ReadVars where
  currDataBlockIndex := offset / 4096
  srcPointer := blocks (offset / 4096) + offset % 4096
  destPointer := buf
  memTillEndOfBlock := (offset / 4096 + 1) * 4096 - offset
  length := length
  chunks := []

/-- One turn. Nothing changes any more once `length` is 0. -/
def turn (blocks : Word → Word) (v : ReadVars) : ReadVars :=
  if v.length = 0 then v
  else if v.memTillEndOfBlock.toNat ≤ v.length.toNat then
    { currDataBlockIndex := v.currDataBlockIndex + 1
      srcPointer := blocks (v.currDataBlockIndex + 1)
      destPointer := v.destPointer + v.memTillEndOfBlock
      memTillEndOfBlock := 4096
      length := v.length - v.memTillEndOfBlock
      chunks := v.chunks ++ [⟨v.destPointer, v.srcPointer, v.memTillEndOfBlock⟩] }
  else
    { v with length := 0, chunks := v.chunks ++ [⟨v.destPointer, v.srcPointer, v.length⟩] }

end ReadVars

/-- The chunks cover the `n` bytes from `buf` on: in order, and no byte twice. -/
structure Covers (buf : Word) (n : ℕ) (chunks : List Chunk) : Prop where
  inOrder : chunks.flatMap Chunk.addresses = segment (addressAt buf) 0 n
  once : (chunks.flatMap Chunk.addresses).Nodup

theorem nodup_segment_addressAt (buf : Word) {n : ℕ} (hn : n ≤ 2 ^ 32) :
    (segment (addressAt buf) 0 n).Nodup := by
  refine List.Nodup.map_on (fun j hj k hk h => ?_) List.nodup_range
  rw [List.mem_range] at hj hk
  rw [Nat.zero_add, Nat.zero_add] at h
  exact addressAt_inj (by omega) (by omega) h

/-! ## What every turn keeps -/

/-- Where the loop stands after it has copied all but `v.length` of `n` bytes. -/
structure Covering (buf : Word) (n : ℕ) (v : ReadVars) : Prop where
  pos : 1 ≤ v.memTillEndOfBlock.toNat
  le : v.memTillEndOfBlock.toNat ≤ 4096
  left : v.length.toNat ≤ n
  dest : v.length ≠ 0 → v.destPointer = addressAt buf (n - v.length.toNat)
  covered : v.chunks.flatMap Chunk.addresses = segment (addressAt buf) 0 (n - v.length.toNat)

namespace Covering

variable {blocks : Word → Word} {buf : Word} {n : ℕ} {v : ReadVars}

/-- The first block ends behind `offset`, in 32 bits as well. -/
theorem toNat_memTillEndOfBlock (offset : Word) :
    ((offset / 4096 + 1) * 4096 - offset).toNat = 4096 - offset.toNat % 4096 := by
  have hblock : (4096 : Word).toNat = 4096 := rfl
  have hone : (1 : Word).toNat = 1 := rfl
  rw [BitVec.toNat_sub, BitVec.toNat_mul, BitVec.toNat_add, BitVec.toNat_udiv, hblock, hone]
  omega

theorem init (blocks : Word → Word) (buf offset length : Word) :
    Covering buf length.toNat (ReadVars.init blocks buf offset length) := by
  have hmem := toNat_memTillEndOfBlock offset
  refine ⟨?_, ?_, le_rfl, fun _ => ?_, ?_⟩
  · rw [ReadVars.init, hmem]
    omega
  · rw [ReadVars.init, hmem]
    omega
  · simp [ReadVars.init]
  · simp [ReadVars.init, Segment.segment]

/-- A chunk that starts where the others end. -/
theorem covered_append (h : Covering buf n v) (hleft : v.length ≠ 0) (src m : Word)
    (hm : m.toNat ≤ v.length.toNat) :
    (v.chunks ++ [Chunk.mk v.destPointer src m]).flatMap Chunk.addresses =
      segment (addressAt buf) 0 (n - (v.length.toNat - m.toNat)) := by
  have hleft' := h.left
  have hchunk : (Chunk.mk v.destPointer src m).addresses =
      segment (addressAt buf) (n - v.length.toNat) m.toNat := by
    rw [Chunk.addresses, h.dest hleft]
    refine List.map_congr_left fun j _ => ?_
    rw [Nat.zero_add, addressAt_addressAt]
  have hsum : n - (v.length.toNat - m.toNat) = n - v.length.toNat + m.toNat := by omega
  rw [List.flatMap_append, List.flatMap_singleton, h.covered, hchunk, hsum, segment_add,
    Nat.zero_add]

theorem turn (h : Covering buf n v) : Covering buf n (v.turn blocks) := by
  have hleft := h.left
  by_cases hzero : v.length = 0
  · rw [ReadVars.turn, if_pos hzero]
    exact h
  · by_cases hmem : v.memTillEndOfBlock.toNat ≤ v.length.toNat
    · -- the rest of a block is copied
      have hlength : (v.length - v.memTillEndOfBlock).toNat =
          v.length.toNat - v.memTillEndOfBlock.toNat := BitVec.toNat_sub_of_le hmem
      rw [ReadVars.turn, if_neg hzero, if_pos hmem]
      refine ⟨Nat.le_add_left 1 4095, le_rfl, ?_, fun _ => ?_, ?_⟩
      · rw [hlength]
        omega
      · have hsum : n - (v.length.toNat - v.memTillEndOfBlock.toNat) =
            n - v.length.toNat + v.memTillEndOfBlock.toNat := by omega
        rw [hlength, h.dest hzero, hsum, ← addressAt_addressAt, addressAt_toNat]
      · rw [hlength]
        exact h.covered_append hzero _ _ hmem
    · -- the rest of the request is copied
      rw [ReadVars.turn, if_neg hzero, if_neg hmem]
      refine ⟨h.pos, h.le, Nat.zero_le n, fun hne => absurd rfl hne, ?_⟩
      have hlast := h.covered_append hzero v.srcPointer v.length le_rfl
      rwa [Nat.sub_self] at hlast

/-- In every turn. -/
theorem iterate (h : Covering buf n v) (k : ℕ) : Covering buf n ((ReadVars.turn blocks)^[k] v) := by
  induction k with
  | zero => exact h
  | succ k ih =>
    rw [Function.iterate_succ_apply']
    exact ih.turn

end Covering

/-! ## The copies of `readData` -/

/-- A copy of `readData`, for the buffer at `buf` and an image at `base`. -/
def Copy.chunk (base buf : Word) (c : Copy) : Chunk :=
  ⟨addressAt buf c.dest, addressAt base c.src, BitVec.ofNat 32 c.n⟩

/-- The data blocks of an inode, for an image at `base`. -/
def FileSystem.blocks (fs : FileSystem) (base : Word) (inode : ℕ) (idx : Word) : Word :=
  addressAt base (fs.blockPtr inode idx.toNat)

/-- The variables stand at position `pos` of the file and `dest` of the buffer, and
`length` bytes are left. -/
structure ReadVars.At (fs : FileSystem) (base buf : Word) (inode pos dest length : ℕ)
    (v : ReadVars) : Prop where
  index : v.currDataBlockIndex.toNat = pos / 4096
  src : v.srcPointer = addressAt base (fs.blockPtr inode (pos / 4096) + pos % 4096)
  dest : v.destPointer = addressAt buf dest
  mem : v.memTillEndOfBlock.toNat = 4096 - pos % 4096
  length : v.length.toNat = length

namespace ReadVars.At

variable {fs : FileSystem} {base buf : Word} {inode pos dest length : ℕ} {v : ReadVars}

theorem init (fs : FileSystem) (base buf : Word) (inode : ℕ) (offset length : Word) :
    ReadVars.At fs base buf inode offset.toNat 0 length.toNat
      (ReadVars.init (fs.blocks base inode) buf offset length) := by
  have hidx : (offset / 4096).toNat = offset.toNat / 4096 := BitVec.toNat_udiv
  have hbyte : (offset % 4096).toNat = offset.toNat % 4096 := BitVec.toNat_umod
  refine ⟨hidx, ?_, (addressAt_zero buf).symm, Covering.toNat_memTillEndOfBlock offset, rfl⟩
  rw [ReadVars.init, FileSystem.blocks, hidx, ← addressAt_addressAt, ← hbyte, addressAt_toNat]

/-- A turn that takes the rest of a block. -/
theorem turn (h : ReadVars.At fs base buf inode pos dest length v)
    (hle : 4096 - pos % 4096 ≤ length) (hpos : pos < 2 ^ 43) :
    let n := 4096 - pos % 4096
    ReadVars.At fs base buf inode (pos + n) (dest + n) (length - n)
        (v.turn (fs.blocks base inode)) ∧
      (v.turn (fs.blocks base inode)).chunks = v.chunks ++ [Copy.chunk base buf
        ⟨dest, fs.blockPtr inode (pos / 4096) + pos % 4096, n⟩] := by
  intro n
  have hmem : v.memTillEndOfBlock.toNat = n := h.mem
  have hlength := h.length
  have hzero : ¬ v.length = 0 := by
    intro hv
    rw [hv] at hlength
    have : (0 : Word).toNat = 0 := rfl
    omega
  have hle' : v.memTillEndOfBlock.toNat ≤ v.length.toNat := by omega
  have hidx : (v.currDataBlockIndex + 1).toNat = (pos + n) / 4096 := by
    have hone : (1 : Word).toNat = 1 := rfl
    rw [BitVec.toNat_add, h.index, hone]
    omega
  have hmod : (pos + n) % 4096 = 0 := by omega
  rw [ReadVars.turn, if_neg hzero, if_pos hle']
  refine ⟨⟨hidx, ?_, ?_, ?_, ?_⟩, ?_⟩
  · rw [FileSystem.blocks, hidx, hmod, Nat.add_zero]
  · rw [h.dest, ← addressAt_addressAt, ← hmem, addressAt_toNat]
  · rw [hmod]
    rfl
  · rw [BitVec.toNat_sub_of_le hle', hmem, hlength]
  · rw [Copy.chunk, ← h.dest, ← h.src, ← hmem, BitVec.ofNat_toNat, BitVec.setWidth_eq]

/-- The turn that ends inside a block is the last one. -/
theorem turn_last (h : ReadVars.At fs base buf inode pos dest length v)
    (hlt : length < 4096 - pos % 4096) (hpos : length ≠ 0) :
    (v.turn (fs.blocks base inode)).length = 0 ∧
      (v.turn (fs.blocks base inode)).chunks = v.chunks ++ [Copy.chunk base buf
        ⟨dest, fs.blockPtr inode (pos / 4096) + pos % 4096, length⟩] := by
  have hlength := h.length
  have hzero : ¬ v.length = 0 := by
    intro hv
    rw [hv] at hlength
    exact hpos hlength.symm
  rw [ReadVars.turn, if_neg hzero, if_neg (by rw [h.mem]; omega)]
  refine ⟨rfl, ?_⟩
  rw [Copy.chunk, ← h.dest, ← h.src, ← hlength, BitVec.ofNat_toNat, BitVec.setWidth_eq]

/-- The loop ends, and has made the copies of `readLoop`. -/
theorem readLoop (h : ReadVars.At fs base buf inode pos dest length v) {fuel : ℕ}
    (hfuel : length ≤ fuel) (hpos : pos + length < 2 ^ 43) :
    ∃ k, ((ReadVars.turn (fs.blocks base inode))^[k] v).length = 0 ∧
      ((ReadVars.turn (fs.blocks base inode))^[k] v).chunks = v.chunks ++
        (fs.readLoop inode fuel (pos / 4096) (fs.blockPtr inode (pos / 4096) + pos % 4096) dest
          (4096 - pos % 4096) length).1.map (Copy.chunk base buf) := by
  induction fuel generalizing pos dest length v with
  | zero =>
    obtain rfl : length = 0 := by omega
    exact ⟨0, BitVec.eq_of_toNat_eq h.length, by simp [FileSystem.readLoop]⟩
  | succ fuel ih =>
    rcases Nat.lt_or_ge length (4096 - pos % 4096) with hlt | hle
    · rw [FileSystem.readLoop_last inode fuel pos dest hlt]
      by_cases hzero : length = 0
      · rw [if_pos hzero]
        exact ⟨0, BitVec.eq_of_toNat_eq (h.length.trans hzero), by simp⟩
      · rw [if_neg hzero]
        exact ⟨1, h.turn_last hlt hzero⟩
    · obtain ⟨hnext, hchunks⟩ := h.turn hle (by omega)
      obtain ⟨k, hend, hrest⟩ := ih hnext (by omega) (by omega)
      refine ⟨k + 1, hend, ?_⟩
      rw [FileSystem.readLoop_turn inode fuel pos dest hle, Function.iterate_succ_apply, hrest,
        hchunks, List.append_assoc]
      rfl

end ReadVars.At

/-- What `read_data` has checked when it does not return -1. -/
theorem FileSystem.readData_accepted {fs : FileSystem} {inode offset length : ℕ}
    (hret : (fs.readData inode offset length).ret ≠ -1) :
    inode < fs.inodeCount ∧ offset / 4096 ≤ fs.inodeLength inode / 4096 := by
  rw [FileSystem.readData] at hret
  by_cases hinode : fs.inodeCount ≤ inode
  · rw [if_pos hinode] at hret
    exact absurd rfl hret
  · rw [if_neg hinode] at hret
    by_cases hoffset : fs.inodeLength inode / 4096 < offset / 4096
    · simp only [if_pos hoffset] at hret
      exact absurd rfl hret
    · exact ⟨not_le.mp hinode, not_lt.mp hoffset⟩

/-- For every offset and length that `read_data` accepts: the number of bytes till the end of
the block is between 1 and 4096 in every turn, the loop ends, and the chunks, which are
the copies of `readData`, cover the destination range. -/
theorem read_chunks_cover (fs : FileSystem) (base buf : Word) {inode offset length : Word}
    (hret : (fs.readData inode.toNat offset.toNat length.toNat).ret ≠ -1) :
    let v := ReadVars.init (fs.blocks base inode.toNat) buf offset length
    let turn := ReadVars.turn (fs.blocks base inode.toNat)
    (∀ k, (turn^[k] v).length ≠ 0 → 1 ≤ (turn^[k] v).memTillEndOfBlock.toNat ∧
      (turn^[k] v).memTillEndOfBlock.toNat ≤ 4096) ∧
    ∃ k, (turn^[k] v).length = 0 ∧ Covers buf length.toNat (turn^[k] v).chunks ∧
      (turn^[k] v).chunks = (fs.readData inode.toNat offset.toNat length.toNat).copies.map
        (Copy.chunk base buf) := by
  intro v turn
  have hcovering (k : ℕ) : Covering buf length.toNat (turn^[k] v) :=
    (Covering.init (fs.blocks base inode.toNat) buf offset length).iterate k
  refine ⟨fun k _ => ⟨(hcovering k).pos, (hcovering k).le⟩, ?_⟩
  obtain ⟨k, hend, hchunks⟩ := (ReadVars.At.init fs base buf inode.toNat offset length).readLoop
    le_rfl (by omega)
  refine ⟨k, hend, ?_, ?_⟩
  · have hall := (hcovering k).covered
    rw [hend] at hall
    exact ⟨hall, hall ▸ nodup_segment_addressAt buf (by omega)⟩
  · obtain ⟨hinode, hoffset⟩ := FileSystem.readData_accepted hret
    rw [FileSystem.readData_loop hinode hoffset, hchunks]
    rfl

/-- The text file of the small system is read from its third byte to behind its end. -/
theorem read_chunks_cover_sample :
    let v := ReadVars.init (Sample.files.blocks 0 1) 0x8001000 2 5000
    ∃ k, ((ReadVars.turn (Sample.files.blocks 0 1))^[k] v).length = 0 ∧
      Covers 0x8001000 5000 ((ReadVars.turn (Sample.files.blocks 0 1))^[k] v).chunks := by
  obtain ⟨k, hend, hcovers, -⟩ := (@read_chunks_cover Sample.files 0 0x8001000 1 2 5000
    (by decide)).2
  exact ⟨k, hend, hcovers⟩

end Os391
