import Os391.FileReads

/-!
# The blocks of a file

`read_data` against the layout of the image: the boot block, the inode blocks, the
data blocks, each of 4096 bytes. What a request inside the file stores is what the
layout says, and it looks at data blocks of the image only.

The entries of `data_block` that a request uses are `readData_indices`: from the
block of its first byte on, one for each block it fills up. The turn that fills a block
looks up the next one before it knows whether anything is left to copy, so a request
that ends with the last byte of the largest file uses entry 1023, one behind the array.
-/

namespace Os391

open Bytes Segment FileSystem

/-! ## Buffers -/

/-- The last of several stores, when all of them at that place store the same. -/
theorem lastStore_eq_some {st : Stores} {a : ℕ} {b : Byte} (hmem : (a, b) ∈ st)
    (hsame : ∀ x ∈ st, x.1 = a → x.2 = b) : lastStore st a = some b := by
  rw [lastStore]
  rcases hfind : st.reverse.find? fun x => decide (x.1 = a) with _ | x
  · have hnone := List.find?_eq_none.mp hfind (a, b) (List.mem_reverse.mpr hmem)
    exact absurd (decide_eq_true rfl) hnone
  · have hplace := List.find?_some hfind
    rw [decide_eq_true_eq] at hplace
    have hx := List.mem_reverse.mp (List.mem_of_find?_eq_some hfind)
    rw [hfind, Option.map_some, hsame x hx hplace]

theorem lastStore_eq_none {st : Stores} {a : ℕ} (h : ∀ x ∈ st, x.1 ≠ a) :
    lastStore st a = none := by
  have hnone : (st.reverse.find? fun x => decide (x.1 = a)) = none :=
    List.find?_eq_none.mpr fun x hx => by simpa using h x (List.mem_reverse.mp hx)
  rw [lastStore, hnone, Option.map_none]

/-- Of two groups of stores the later one counts. -/
theorem lastStore_append (st st' : Stores) (a : ℕ) :
    lastStore (st ++ st') a = (lastStore st' a).or (lastStore st a) := by
  rw [lastStore, List.reverse_append, List.find?_append, Option.map_or]
  rfl

/-- What was stored at a place of a run of stores. -/
theorem lastStore_fill (f : ℕ → Byte) {p d n k : ℕ} (hk : k < n) :
    lastStore (fill f p d n) (d + k) = some (f (p + k)) := by
  refine lastStore_eq_some ((mem_fill f).mpr ⟨by simp, by simpa using hk, by simp⟩) ?_
  intro x hx hplace
  obtain ⟨-, -, hval⟩ := (mem_fill f).mp hx
  rw [hval, hplace, Nat.add_sub_cancel_left]

theorem lastStore_fill_of_not (f : ℕ → Byte) {p dest n a : ℕ} (h : a < dest ∨ dest + n ≤ a) :
    lastStore (fill f p dest n) a = none := by
  refine lastStore_eq_none fun x hx => ?_
  obtain ⟨hlow, hhigh, -⟩ := (mem_fill f).mp hx
  omega

/-- What was stored at a place of a string. -/
theorem lastStore_storesOf (bs : List Byte) (a : ℕ) : lastStore (storesOf bs) a = bs[a]? := by
  rw [storesOf]
  rcases lt_or_ge a bs.length with ha | ha
  · have hlast := lastStore_fill (fun i => bs.getD i 0) (p := 0) (d := 0) ha
    rw [Nat.zero_add, List.getD_eq_getElem?_getD, List.getElem?_eq_getElem ha] at hlast
    rw [hlast, List.getElem?_eq_getElem ha, Option.getD_some]
  · rw [lastStore_fill_of_not _ (Or.inr (by omega)), List.getElem?_eq_none ha]

namespace FileSystem

variable {fs : FileSystem}

/-! ## The copies -/

/-- Every copy of the loop takes bytes of one block: of the block some byte of the request
lies in, from that byte on. -/
theorem readLoop_copies (inode pos dest length : ℕ) {fuel : ℕ} {c : Copy}
    (hc : c ∈ (fs.readLoop inode fuel (pos / 4096) (fs.blockPtr inode (pos / 4096) + pos % 4096)
      dest (4096 - pos % 4096) length).1) :
    ∃ p, pos ≤ p ∧ p < pos + length ∧ c.src = fs.blockPtr inode (p / 4096) + p % 4096 ∧
      p % 4096 + c.n ≤ 4096 := by
  induction fuel generalizing pos dest length with
  | zero => cases hc
  | succ fuel ih =>
    rcases Nat.lt_or_ge length (4096 - pos % 4096) with hlt | hle
    · rw [readLoop_last inode fuel pos dest hlt] at hc
      split at hc
      · cases hc
      · obtain rfl := List.mem_singleton.mp hc
        exact ⟨pos, le_rfl, by omega, rfl, by dsimp only; omega⟩
    · rw [readLoop_turn inode fuel pos dest hle] at hc
      rcases List.mem_cons.mp hc with rfl | hrest
      · exact ⟨pos, le_rfl, by omega, rfl, by dsimp only; omega⟩
      · obtain ⟨p, hlow, hhigh, hsrc, hn⟩ := ih _ _ _ hrest
        exact ⟨p, by omega, by omega, hsrc, hn⟩

/-- The entries of `data_block` the loop looks up: one for each block that is filled up. -/
theorem readLoop_indices (inode pos dest length : ℕ) {fuel : ℕ} (h : length ≤ fuel) :
    (fs.readLoop inode fuel (pos / 4096) (fs.blockPtr inode (pos / 4096) + pos % 4096) dest
      (4096 - pos % 4096) length).2 =
      List.range' (pos / 4096 + 1) ((pos + length) / 4096 - pos / 4096) := by
  induction fuel generalizing pos dest length with
  | zero =>
    obtain rfl : length = 0 := by omega
    simp [readLoop]
  | succ fuel ih =>
    rcases Nat.lt_or_ge length (4096 - pos % 4096) with hlt | hle
    · have hnone : (pos + length) / 4096 - pos / 4096 = 0 := by omega
      rw [readLoop_last inode fuel pos dest hlt, hnone]
      rfl
    · have hend : pos + (4096 - pos % 4096) + (length - (4096 - pos % 4096)) = pos + length := by
        omega
      have hidx : (pos + (4096 - pos % 4096)) / 4096 = pos / 4096 + 1 := by omega
      have hcount : (pos + length) / 4096 - pos / 4096 =
          (pos + length) / 4096 - (pos / 4096 + 1) + 1 := by omega
      rw [readLoop_turn inode fuel pos dest hle]
      dsimp only
      rw [ih _ _ _ (by omega), hend, hidx, hcount, List.range'_succ]

/-! ## The whole call -/

section

variable {inode offset length : ℕ}

/-- What a call leaves in a buffer. -/
theorem readInto_eq (hinode : inode < fs.inodeCount)
    (hoffset : offset / 4096 ≤ fs.inodeLength inode / 4096) (buf : ℕ → Byte) {j : ℕ}
    (hj : j < length) :
    readInto fs inode offset length buf j = fs.fileByte inode (offset + j) := by
  have hlast := lastStore_fill (fs.fileByte inode) (p := offset) (d := 0) hj
  rw [Nat.zero_add] at hlast
  rw [readInto, readData_stores hinode hoffset, hlast, Option.getD_some]

/-- The entries of `data_block` a call looks up. -/
theorem readData_indices (hinode : inode < fs.inodeCount)
    (hoffset : offset / 4096 ≤ fs.inodeLength inode / 4096) :
    (fs.readData inode offset length).indices =
      List.range' (offset / 4096) ((offset + length) / 4096 - offset / 4096 + 1) := by
  rw [readData_loop hinode hoffset, List.range'_succ]
  exact congrArg (List.cons _) (readLoop_indices inode offset 0 length le_rfl)

/-- The blocks in use are data blocks of the image. -/
def BlocksExist (fs : FileSystem) (inode : ℕ) : Prop :=
  ∀ idx, 4096 * idx < fs.inodeLength inode → fs.dataBlock inode idx < fs.dataCount

end

end FileSystem

/-- A request inside a file of an image that consists of the boot block, `inode_count`
inode blocks and `data_count` data blocks: it returns its length, leaves in the buffer
the bytes of the data blocks that the inode names, stores nothing behind them, and looks
at no byte outside the image. -/
theorem readData_delivers (img : ℕ → Byte) {inode offset length : ℕ}
    (hinode : inode < (wordAt img 4).toNat)
    (hsize : (initFileSystem img).inodeLength inode ≤ 1023 * 4096)
    (hblocks : (initFileSystem img).BlocksExist inode)
    (hoffset : offset < (initFileSystem img).inodeLength inode)
    (hfit : offset + length ≤ (initFileSystem img).inodeLength inode) :
    let fs := initFileSystem img
    let r := fs.readData inode offset length
    r.ret = length ∧
      (∀ (buf : ℕ → Byte) j, j < length → readInto fs inode offset length buf j =
        img (4096 * (1 + (wordAt img 4).toNat + fs.dataBlock inode ((offset + j) / 4096)) +
          (offset + j) % 4096)) ∧
      (∀ x ∈ r.stores fs, x.1 < length) ∧
      ∀ c ∈ r.copies,
        c.src + c.n ≤ 4096 * (1 + (wordAt img 4).toNat + (wordAt img 8).toNat) := by
  intro fs r
  have hidx : offset / 4096 ≤ fs.inodeLength inode / 4096 :=
    Nat.div_le_div_right hoffset.le
  obtain ⟨hret, hstores⟩ := fs.readData_eq inode offset length hinode hidx (by omega)
  refine ⟨hret, fun buf j hj => ?_, fun x hx => ?_, fun c hc => ?_⟩
  · rw [readInto_eq hinode hidx buf hj, fileByte, blockPtr]
    have haddr : fs.dataBlockPtr + 4096 * fs.dataBlock inode ((offset + j) / 4096) +
        (offset + j) % 4096 =
        4096 * (1 + (wordAt img 4).toNat + fs.dataBlock inode ((offset + j) / 4096)) +
          (offset + j) % 4096 := by
      have hptr : fs.dataBlockPtr = 4096 + 4096 * (wordAt img 4).toNat := rfl
      omega
    rw [haddr]
    rfl
  · rw [hstores] at hx
    obtain ⟨-, hlt, -⟩ := (mem_fill _).mp hx
    omega
  · -- each copy stays in the block of a byte of the file
    have hloop : c ∈ (fs.readLoop inode length (offset / 4096)
        (fs.blockPtr inode (offset / 4096) + offset % 4096) 0 (4096 - offset % 4096) length).1 := by
      have hcopies : c ∈ (fs.readData inode offset length).copies := hc
      rwa [readData_loop hinode hidx] at hcopies
    obtain ⟨p, -, hp, hsrc, hn⟩ := readLoop_copies inode offset 0 length hloop
    have hexists : fs.dataBlock inode (p / 4096) < (wordAt img 8).toNat :=
      hblocks (p / 4096) (by omega)
    have hptr : fs.dataBlockPtr = 4096 + 4096 * (wordAt img 4).toNat := rfl
    rw [hsrc, blockPtr]
    omega

/-- Four bytes of `notes`, from its second one on. -/
theorem readData_delivers_sample :
    (Sample.files.readData 1 1 4).ret = 4 ∧
      readInto Sample.files 1 1 4 (fun _ => 0) 3 = Sample.image (4096 * (1 + 2 + 1) + 4) := by
  have hblocks : Sample.files.BlocksExist 1 := by
    intro idx hidx
    have hlen : Sample.files.inodeLength 1 = 5 := by decide
    obtain rfl : idx = 0 := by omega
    decide
  obtain ⟨hret, hbytes, -, -⟩ := @readData_delivers Sample.image 1 1 4 (by decide) (by decide)
    hblocks (by decide) (by decide)
  exact ⟨hret, hbytes (fun _ => 0) 3 (by decide)⟩

/-! ## The end of the block array -/

/-- For a request inside a file: all entries of `data_block` that it uses are among the
1023 of the inode exactly if it does not end with the last byte of a file of the largest
size. -/
theorem indices_inside_iff {fs : FileSystem} {inode offset length : ℕ}
    (hinode : inode < fs.inodeCount) (hsize : fs.inodeLength inode ≤ 1023 * 4096)
    (hoffset : offset < fs.inodeLength inode) (hfit : offset + length ≤ fs.inodeLength inode) :
    (∀ idx ∈ (fs.readData inode offset length).indices, idx ≤ 1022) ↔
      offset + length ≠ 1023 * 4096 := by
  rw [readData_indices hinode (Nat.div_le_div_right hoffset.le)]
  simp only [List.mem_range'_1]
  constructor
  · intro hall hend
    have hlast := hall ((offset + length) / 4096) (by omega)
    omega
  · rintro hend idx ⟨-, hidx⟩
    omega

/-- All of `notes` is read through the first entry. -/
theorem indices_inside_iff_sample : (Sample.files.readData 1 0 5).ret = 5 ∧
    ∀ idx ∈ (Sample.files.readData 1 0 5).indices, idx ≤ 1022 :=
  ⟨by decide, (indices_inside_iff (by decide) (by decide) (by decide) (by decide)).mpr (by decide)⟩

namespace Sample

/-- The boot block of an image with one file, `x`, and 1023 data blocks. -/
def largestBoot : List (ℕ × Byte) :=
  [(0, 1), (4, 1), (8, 0xFF), (9, 0x03), (64, 0x78), (96, 2)]

/-- An image with a file of the largest size; its blocks are the data blocks in order. -/
def largestImage (a : ℕ) : Byte :=
  if a < 4096 then ((largestBoot.find? fun x => decide (x.1 = a)).map Prod.snd).getD 0
  else if a < 4100 then byteOf (BitVec.ofNat 32 (1023 * 4096)) (a - 4096)
  else if a < 8192 then byteOf (BitVec.ofNat 32 ((a - 4100) / 4)) ((a - 4100) % 4)
  else 0

/-- The file system on it. -/
def largestFiles : FileSystem := initFileSystem largestImage

theorem largestFiles_dataBlock {idx : ℕ} (h : idx < 1023) :
    largestFiles.dataBlock 0 idx = idx := by
  have hword : wordAt largestImage (4096 + 4096 * 0 + 4 + 4 * idx) = BitVec.ofNat 32 idx := by
    rw [wordAt, ← ofBytes_byteOf (BitVec.ofNat 32 idx)]
    refine ofBytes_congr fun k hk => ?_
    have hidx : (4096 + 4096 * 0 + 4 + 4 * idx + k - 4100) / 4 = idx := by omega
    have hbyte : (4096 + 4096 * 0 + 4 + 4 * idx + k - 4100) % 4 = k := by omega
    rw [largestImage, if_neg (by omega), if_neg (by omega), if_pos (by omega), hidx, hbyte]
  have hnat : (BitVec.ofNat 32 idx).toNat = idx := by
    rw [BitVec.toNat_ofNat]
    omega
  exact (congrArg BitVec.toNat hword).trans hnat

theorem largestFiles_wellFormed : largestFiles.WellFormed := by
  have hcount : largestFiles.dirCount = 1 := by decide
  have hnum : ∀ k < largestFiles.dirCount, (largestFiles.entry k).inodeNum.toNat = 0 := by decide
  refine ⟨by decide, by decide, fun k hk _ idx hidx => ?_⟩
  rw [hnum k hk] at hidx ⊢
  have hlen : largestFiles.inodeLength 0 = 1023 * 4096 := by decide
  have hdata : largestFiles.dataCount = 1023 := by decide
  rw [largestFiles_dataBlock (by omega), hdata]
  omega

end Sample

/-- The last byte of a file of the largest size is read with an index behind the array. -/
theorem last_byte_index_outside : Sample.largestFiles.WellFormed ∧
    Sample.largestFiles.inodeLength 0 = 1023 * 4096 ∧
    ¬ ∀ idx ∈ (Sample.largestFiles.readData 0 (1023 * 4096 - 1) 1).indices, idx ≤ 1022 := by
  refine ⟨Sample.largestFiles_wellFormed, by decide, fun hall => ?_⟩
  have hinside := hall 1023 (by decide)
  omega

end Os391
