import Os391.Kernel
import Os391.Lib.Segment

/-!
# The read-only file system: `filesystem.c`

The image is the memory from `base_address` on, seen as a function from offsets
to bytes; `initFileSystem` computes the pointers and counts from its boot block.
A directory entry is 64 bytes: a 32-byte name, type, inode number. An inode is
a block of its own: the length, then up to 1023 data block numbers.

`readData` is the block-by-block copy. It is modelled as the list of `memcpy`
calls it makes, each with its offset from `buf`, together with the indices it
uses into the inode's `data_block` array.
-/

namespace Os391

open Bytes Segment

/-! ## C strings -/

/-- The memory a NUL-terminated string lies in. -/
def cstr (s : List Byte) : ℕ → Byte := fun i => s.getD i 0

/-- `strlen`. -/
def strlen : List Byte → ℕ
  | [] => 0
  | c :: rest => if c = 0 then 0 else strlen rest + 1

/-- `strncmp`, over `n` more characters from index `i` on. -/
def strncmpFrom (s₁ s₂ : ℕ → Byte) : ℕ → ℕ → Int
  | 0, _ => 0
  | n + 1, i =>
    if s₁ i ≠ s₂ i ∨ s₁ i = 0 then (s₁ i).toInt - (s₂ i).toInt else strncmpFrom s₁ s₂ n (i + 1)

/-- `strncmp`. -/
def strncmp (s₁ s₂ : ℕ → Byte) (n : ℕ) : Int := strncmpFrom s₁ s₂ n 0

/-- `strcpy`: the bytes it stores, terminator included, as far as `fuel` bytes. -/
def strcpy (src : ℕ → Byte) : ℕ → List Byte
  | 0 => []
  | fuel + 1 => if src 0 = 0 then [0] else src 0 :: strcpy (fun k => src (k + 1)) fuel

/-- A terminator that `strcpy` can reach is among the bytes it stores. -/
theorem zero_mem_strcpy (src : ℕ → Byte) {k fuel : ℕ} (hk : k < fuel) (h : src k = 0) :
    0 ∈ strcpy src fuel := by
  induction fuel generalizing src k with
  | zero => cases hk
  | succ fuel ih =>
    rw [strcpy]
    split
    · exact List.mem_singleton_self 0
    · next hfirst =>
      rcases k with _ | k
      · exact absurd h hfirst
      · exact List.mem_cons_of_mem _ (ih (fun k => src (k + 1)) (by omega) h)

/-- `strncpy`: the `n` bytes it stores, reading from index `i` on; past the
terminator it stores zeros. -/
def strncpyFrom (src : ℕ → Byte) : ℕ → ℕ → List Byte
  | 0, _ => []
  | n + 1, i =>
    if src i = 0 then List.replicate (n + 1) 0 else src i :: strncpyFrom src n (i + 1)

/-- `strncpy`. -/
def strncpy (src : ℕ → Byte) (n : ℕ) : List Byte := strncpyFrom src n 0

@[simp] theorem length_strncpyFrom (src : ℕ → Byte) (n i : ℕ) :
    (strncpyFrom src n i).length = n := by
  induction n generalizing i with
  | zero => rfl
  | succ n ih =>
    rw [strncpyFrom]
    split
    · simp
    · simp [ih]

@[simp] theorem length_strncpy (src : ℕ → Byte) (n : ℕ) : (strncpy src n).length = n :=
  length_strncpyFrom src n 0

/-- A list without zeros is a whole string. -/
theorem strlen_eq {l : List Byte} (h : ∀ c ∈ l, c ≠ 0) : strlen l = l.length := by
  induction l with
  | nil => rfl
  | cons c rest ih =>
    rw [strlen, if_neg (h c List.mem_cons_self), ih fun d hd => h d (List.mem_cons_of_mem c hd)]
    rfl

/-- Copying a string that is followed by its terminator, to its full length or beyond. -/
theorem strncpyFrom_eq {src : ℕ → Byte} {l : List Byte} (h : ∀ c ∈ l, c ≠ 0) (i : ℕ)
    (hsrc : ∀ k (hk : k < l.length), src (i + k) = l[k]) (m : ℕ)
    (hend : m = 0 ∨ src (i + l.length) = 0) :
    strncpyFrom src (l.length + m) i = l ++ List.replicate m 0 := by
  induction l generalizing i with
  | nil =>
    rcases m with _ | m
    · rfl
    · have hzero : src i = 0 := hend.resolve_left (Nat.succ_ne_zero m)
      rw [List.length_nil, Nat.zero_add, strncpyFrom, if_pos hzero]
      rfl
  | cons c rest ih =>
    have hc : src i = c := hsrc 0 (Nat.succ_pos _)
    have hrest : ∀ k (hk : k < rest.length), src (i + 1 + k) = rest[k] := by
      intro k hk
      have hk' := hsrc (k + 1) (Nat.succ_lt_succ hk)
      rw [Nat.add_assoc, Nat.add_comm 1]
      exact hk'
    have hend' : m = 0 ∨ src (i + 1 + rest.length) = 0 := by
      rw [Nat.add_assoc, Nat.add_comm 1]
      exact hend
    rw [List.length_cons, Nat.add_right_comm, strncpyFrom, hc, if_neg (h c List.mem_cons_self),
      ih (fun d hd => h d (List.mem_cons_of_mem c hd)) (i + 1) hrest hend']
    rfl

/-- Copying a whole string with room for `m` more bytes. -/
theorem strncpy_cstr {l : List Byte} (h : ∀ c ∈ l, c ≠ 0) (m : ℕ) :
    strncpy (cstr l) (l.length + m) = l ++ List.replicate m 0 := by
  refine strncpyFrom_eq h 0 (fun k hk => ?_) m (Or.inr ?_)
  · rw [Nat.zero_add, cstr, List.getD_eq_getElem?_getD, List.getElem?_eq_getElem hk,
      Option.getD_some]
  · rw [Nat.zero_add, cstr, List.getD_eq_getElem?_getD, List.getElem?_eq_none le_rfl,
      Option.getD_none]

/-- The string `strcpy` leaves in the first `m` bytes of its destination. -/
theorem strcpy_takeWhile (src : ℕ → Byte) {m fuel : ℕ} (h : m ≤ fuel) :
    ((strcpy src fuel).take m).takeWhile (fun c => decide (c ≠ 0)) =
      (segment src 0 m).takeWhile fun c => decide (c ≠ 0) := by
  induction m generalizing src fuel with
  | zero => rfl
  | succ m ih =>
    obtain ⟨fuel, rfl⟩ : ∃ n, fuel = n + 1 := ⟨fuel - 1, by omega⟩
    rw [strcpy, segment_succ]
    by_cases hzero : src 0 = 0
    · simp [hzero]
    · have hkeep : decide (src 0 ≠ 0) = true := decide_eq_true hzero
      have hrest := ih (fun k => src (k + 1)) (Nat.le_of_succ_le_succ h)
      rw [if_neg hzero, List.take_succ_cons, List.takeWhile_cons, List.takeWhile_cons, hkeep]
      exact congrArg (List.cons (src 0)) hrest

/-- Past its terminator `strcpy` stores nothing, however long it may run. -/
theorem strcpy_of_zero (src : ℕ → Byte) {n fuel : ℕ} (h : src n = 0) (hn : n < fuel) :
    strcpy src fuel = strcpy src (n + 1) := by
  induction n generalizing src fuel with
  | zero =>
    obtain ⟨fuel, rfl⟩ : ∃ m, fuel = m + 1 := ⟨fuel - 1, by omega⟩
    rw [strcpy, strcpy, if_pos h, if_pos h]
  | succ n ih =>
    obtain ⟨fuel, rfl⟩ : ∃ m, fuel = m + 1 := ⟨fuel - 1, by omega⟩
    rw [strcpy, strcpy, ih (fun k => src (k + 1)) h (Nat.lt_of_succ_lt_succ hn)]

theorem length_strcpy_le (src : ℕ → Byte) (fuel : ℕ) : (strcpy src fuel).length ≤ fuel := by
  induction fuel generalizing src with
  | zero => exact le_rfl
  | succ fuel ih =>
    rw [strcpy]
    split
    · exact Nat.succ_le_succ (Nat.zero_le fuel)
    · exact Nat.succ_le_succ (ih _)

theorem length_strcpy_of_zero (src : ℕ → Byte) {n : ℕ} (h : src n = 0) (fuel : ℕ) :
    (strcpy src fuel).length ≤ n + 1 := by
  rcases Nat.lt_or_ge n fuel with hn | hn
  · rw [strcpy_of_zero src h hn]
    exact length_strcpy_le src (n + 1)
  · exact Nat.le_trans (length_strcpy_le src fuel) (Nat.le_succ_of_le hn)

/-- Up to the terminator `strcpy` stores what it reads. -/
theorem strcpy_getElem? (src : ℕ → Byte) {k fuel : ℕ} (hk : k < fuel) (h : ∀ j < k, src j ≠ 0) :
    (strcpy src fuel)[k]? = some (src k) := by
  induction k generalizing src fuel with
  | zero =>
    obtain ⟨fuel, rfl⟩ : ∃ m, fuel = m + 1 := ⟨fuel - 1, by omega⟩
    rw [strcpy]
    split
    · next hzero => rw [List.getElem?_cons_zero, hzero]
    · rw [List.getElem?_cons_zero]
  | succ k ih =>
    obtain ⟨fuel, rfl⟩ : ∃ m, fuel = m + 1 := ⟨fuel - 1, by omega⟩
    rw [strcpy, if_neg (h 0 (Nat.succ_pos k)), List.getElem?_cons_succ]
    exact ih (fun j => src (j + 1)) (Nat.lt_of_succ_lt_succ hk)
      fun j hj => h (j + 1) (Nat.succ_lt_succ hj)

/-- The string in a field of `n` bytes: up to its terminator, or all of it. -/
def fieldString (f : ℕ → Byte) (n : ℕ) : List Byte :=
  (segment f 0 n).takeWhile fun c => decide (c ≠ 0)

theorem fieldString_succ (f : ℕ → Byte) (n : ℕ) : fieldString f (n + 1) =
    if f 0 = 0 then [] else f 0 :: fieldString (fun k => f (k + 1)) n := by
  rw [fieldString, segment_succ, List.takeWhile_cons]
  by_cases hzero : f 0 = 0
  · rw [if_pos hzero, if_neg (by simp [hzero])]
  · rw [if_neg hzero, if_pos (decide_eq_true hzero)]
    rfl

/-- Only the bytes up to the terminator matter. -/
theorem fieldString_congr {f g : ℕ → Byte} {n : ℕ}
    (h : ∀ k < n, (∀ j < k, f j ≠ 0) → g k = f k) : fieldString g n = fieldString f n := by
  induction n generalizing f g with
  | zero => rfl
  | succ n ih =>
    have hfirst : g 0 = f 0 := h 0 (Nat.succ_pos n) fun j hj => absurd hj (Nat.not_lt_zero j)
    rw [fieldString_succ, fieldString_succ, hfirst]
    by_cases hzero : f 0 = 0
    · rw [if_pos hzero, if_pos hzero]
    · rw [if_neg hzero, if_neg hzero]
      refine congrArg (List.cons (f 0)) (ih fun k hk hbefore => h (k + 1) (Nat.succ_lt_succ hk) ?_)
      rintro (_ | j) hj
      · exact hzero
      · exact hbefore j (Nat.lt_of_succ_lt_succ hj)

theorem strncmpFrom_eq_zero_iff (s₁ s₂ : ℕ → Byte) (n i : ℕ) : strncmpFrom s₁ s₂ n i = 0 ↔
    fieldString (fun k => s₁ (i + k)) n = fieldString (fun k => s₂ (i + k)) n := by
  induction n generalizing i with
  | zero => exact iff_of_true rfl rfl
  | succ n ih =>
    have hshift : ∀ s : ℕ → Byte, (fun k => s (i + (k + 1))) = fun k => s (i + 1 + k) := fun s => by
      funext k
      rw [Nat.add_comm k, Nat.add_assoc]
    rw [strncmpFrom, fieldString_succ, fieldString_succ, hshift, hshift]
    by_cases heq : s₁ i = s₂ i
    · by_cases hzero : s₁ i = 0
      · -- both end here
        rw [if_pos (Or.inr hzero), heq, Int.sub_self]
        refine iff_of_true rfl ?_
        rw [Nat.add_zero, if_pos (heq ▸ hzero), if_pos (heq ▸ hzero)]
      · rw [if_neg (not_or.mpr ⟨not_not.mpr heq, hzero⟩), ih]
        simp only [Nat.add_zero, ← heq, hzero, if_false, List.cons.injEq, true_and]
    · rw [if_pos (Or.inl heq)]
      refine iff_of_false (fun hsub => heq (BitVec.toInt_inj.mp (by omega))) fun hsame => heq ?_
      simp only [Nat.add_zero] at hsame
      split at hsame <;> split at hsame
      · next h₁ h₂ => rw [h₁, h₂]
      · cases hsame
      · cases hsame
      · exact (List.cons.inj hsame).1

/-- `strncmp` finds no difference exactly if the two fields hold the same string. -/
theorem strncmp_eq_zero_iff (s₁ s₂ : ℕ → Byte) (n : ℕ) :
    strncmp s₁ s₂ n = 0 ↔ fieldString s₁ n = fieldString s₂ n := by
  have h := strncmpFrom_eq_zero_iff s₁ s₂ n 0
  simp only [Nat.zero_add] at h
  exact h

/-! ## The image -/

/-- The globals of `filesystem.c`, pointers as offsets from `base_address`. -/
structure FileSystem : Type where
  img : ℕ → Byte
  direntries : ℕ
  inodeEntryPtr : ℕ
  dataBlockPtr : ℕ
  inodeCount : ℕ
  dataCount : ℕ
  dirCount : ℕ

/-- What `read_dentry_by_name` and `read_dentry_by_index` leave in a
`directory_entry`: the string in its 32-byte name field, type and inode. -/
structure DirectoryEntry : Type where
  filename : List Byte
  filetype : Word
  inodeNum : Word
  deriving DecidableEq

namespace FileSystem

/-- The little-endian word at an offset of the image. -/
def wordAt (img : ℕ → Byte) (a : ℕ) : Word := ofBytes fun k => img (a + k)

/-- `initFileSystem`. -/
def initFileSystem (img : ℕ → Byte) : FileSystem where
  img := img
  direntries := 64
  inodeEntryPtr := 4096
  dataBlockPtr := 4096 + 4096 * (wordAt img 4).toNat
  inodeCount := (wordAt img 4).toNat
  dataCount := (wordAt img 8).toNat
  dirCount := (wordAt img 0).toNat

variable (fs : FileSystem)

/-- The address of directory entry `i`. -/
def direntry (i : ℕ) : ℕ := fs.direntries + 64 * i

/-- The name field of directory entry `i`, and the memory behind it. -/
def entryName (i : ℕ) : ℕ → Byte := fun k => fs.img (fs.direntry i + k)

/-- `strcpy` from the name of directory entry `i` comes to an end within 64 bytes. -/
def NameEnds (i : ℕ) : Prop := ∃ k < 64, fs.entryName i k = 0

/-- The copy of directory entry `i` that the two lookup functions hand out. The name is
copied with `strcpy`, and type and inode are assigned after it. The destination has 64
bytes, and only these are kept here: what `strcpy` stores behind them when the name does
not end (`NameEnds`) is not part of the entry. -/
def entry (i : ℕ) : DirectoryEntry where
  filename := ((strcpy (fs.entryName i) 64).take 32).takeWhile fun c => decide (c ≠ 0)
  filetype := wordAt fs.img (fs.direntry i + 32)
  inodeNum := wordAt fs.img (fs.direntry i + 36)

/-- The loop of `read_dentry_by_name`, over `n` more entries from `count` on. -/
def findEntry (fname : List Byte) : ℕ → ℕ → Option DirectoryEntry
  | 0, _ => none
  | n + 1, count =>
    if strncmp (cstr fname) (fs.entryName count) 32 = 0 then some (fs.entry count)
    else findEntry fname n (count + 1)

/-- `read_dentry_by_name`; `none` is the return value -1. -/
def readDentryByName (fname : List Byte) : Option DirectoryEntry :=
  fs.findEntry fname fs.dirCount 0

/-- `read_dentry_by_index`; `none` is the return value -1. -/
def readDentryByIndex (index : Word) : Option DirectoryEntry :=
  if index.toNat ≤ 63 then some (fs.entry index.toNat) else none

/-- The `length` field of an inode. -/
def inodeLength (inode : ℕ) : ℕ := (wordAt fs.img (fs.inodeEntryPtr + 4096 * inode)).toNat

/-- `data_block[idx]` of an inode. -/
def dataBlock (inode idx : ℕ) : ℕ :=
  (wordAt fs.img (fs.inodeEntryPtr + 4096 * inode + 4 + 4 * idx)).toNat

/-- The address of the data block with index `idx` of an inode. -/
def blockPtr (inode idx : ℕ) : ℕ := fs.dataBlockPtr + 4096 * fs.dataBlock inode idx

end FileSystem

/-! ## `read_data` -/

/-- One call `memcpy(buf + dest, src, n)`. -/
structure Copy : Type where
  dest : ℕ
  src : ℕ
  n : ℕ
  deriving DecidableEq

/-- What `read_data` does: its return value, its copies in order, and the indices
it uses into `data_block`. -/
structure ReadData : Type where
  ret : Int
  copies : List Copy
  indices : List ℕ
  deriving DecidableEq

/-- The stores of a copy, at offsets from `buf`. -/
def Copy.stores (fs : FileSystem) (c : Copy) : List (ℕ × Byte) := fill fs.img c.src c.dest c.n

/-- All stores of a `read_data` call. -/
def ReadData.stores (fs : FileSystem) (r : ReadData) : List (ℕ × Byte) :=
  r.copies.flatMap (Copy.stores fs)

/-- Subtraction of `uint32_t`. -/
def sub32 (a b : ℕ) : ℕ := (a + 2 ^ 32 - b) % 2 ^ 32

namespace FileSystem

variable (fs : FileSystem)

/-- The loop of `read_data`. Every turn copies at least one byte, so as many turns
as there are bytes left are enough (`readLoop_fuel`). -/
def readLoop (inode : ℕ) : (fuel idx src dest mem length : ℕ) → List Copy × List ℕ
  | 0, _, _, _, _, _ => ([], [])
  | fuel + 1, idx, src, dest, mem, length =>
    if length = 0 then ([], [])
    else if mem ≤ length then
      let rest := readLoop inode fuel (idx + 1) (fs.blockPtr inode (idx + 1)) (dest + mem) 4096
        (length - mem)
      (⟨dest, src, mem⟩ :: rest.1, (idx + 1) :: rest.2)
    else ([⟨dest, src, length⟩], [])

/-- `read_data`. -/
def readData (inode offset length : ℕ) : ReadData :=
  if fs.inodeCount ≤ inode then ⟨-1, [], []⟩
  else
    let dataMaxIndex := fs.inodeLength inode / 4096
    let idx := offset / 4096
    let src := fs.blockPtr inode idx + offset % 4096
    let mem := sub32 ((idx + 1) * 4096) offset
    if dataMaxIndex < idx then ⟨-1, [], [idx]⟩
    else
      let t := fs.readLoop inode length idx src 0 mem length
      ⟨(BitVec.ofNat 32 length).toInt, t.1, idx :: t.2⟩

/-- Byte `k` of the file with the given inode, as the block table lays it out. -/
def fileByte (inode k : ℕ) : Byte := fs.img (fs.blockPtr inode (k / 4096) + k % 4096)

end FileSystem

end Os391
