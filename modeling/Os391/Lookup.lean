import Os391.Blocks
import Os391.Directory

/-!
# Looking up directory entries

`read_dentry_by_name` and `read_dentry_by_index` fill the caller's `directory_entry` with
`strcpy`, which knows no bound, and then assign type and inode number. A name of full
width has no terminator, so `strcpy` runs on into the type that follows it in the image.
The types of the format are less than 256: their second byte is a zero, and it ends the
copy inside the caller's structure, where the two assignments repair what it has written.

The comparison is bounded by the width of the field, so the name that has been handed out
finds its entry again, and a string that is no name of the directory finds none.
-/

namespace Os391

open Bytes Segment FileSystem

/-! ## A `directory_entry` in memory -/

/-- The `directory_entry` in the memory from `mem 0` on. -/
def dentryOf (mem : ℕ → Byte) : DirectoryEntry where
  filename := fieldString mem 32
  filetype := wordAt mem 32
  inodeNum := wordAt mem 36

/-- Entry `i` of the boot block. -/
def dentryAt (img : ℕ → Byte) (i : ℕ) : DirectoryEntry := dentryOf fun k => img (64 + 64 * i + k)

namespace FileSystem

/-- The stores of the two functions into the `directory_entry` they fill from entry `i`, in
their order, when `strcpy` runs for at most `fuel` bytes. -/
def dentryStores (fs : FileSystem) (i fuel : ℕ) : Stores :=
  storesOf (strcpy (fs.entryName i) fuel) ++
    (fill (byteOf (wordAt fs.img (fs.direntry i + 32))) 0 32 4 ++
      fill (byteOf (wordAt fs.img (fs.direntry i + 36))) 0 36 4)

/-- The memory of the `directory_entry` afterwards, where it was `old` before. -/
def filledDentry (fs : FileSystem) (i fuel : ℕ) (old : ℕ → Byte) : ℕ → Byte :=
  fun k => (lastStore (fs.dentryStores i fuel) k).getD (old k)

section filled

variable (fs : FileSystem) (i fuel : ℕ) (old : ℕ → Byte)

theorem filledDentry_name {k : ℕ} (hk : k < 32) : fs.filledDentry i fuel old k =
    ((strcpy (fs.entryName i) fuel)[k]?).getD (old k) := by
  rw [filledDentry, dentryStores, lastStore_append, lastStore_append,
    lastStore_fill_of_not _ (Or.inl hk), lastStore_fill_of_not _ (Or.inl (by omega)),
    lastStore_storesOf]
  rfl

theorem filledDentry_filetype : wordAt (fs.filledDentry i fuel old) 32 =
    wordAt fs.img (fs.direntry i + 32) := by
  rw [← ofBytes_byteOf (wordAt fs.img (fs.direntry i + 32))]
  refine ofBytes_congr fun k hk => ?_
  rw [filledDentry, dentryStores, lastStore_append, lastStore_append,
    lastStore_fill_of_not _ (Or.inl (by omega)), lastStore_fill _ hk]
  simp only [Option.none_or, Option.some_or, Option.getD_some, Nat.zero_add]

theorem filledDentry_inodeNum : wordAt (fs.filledDentry i fuel old) 36 =
    wordAt fs.img (fs.direntry i + 36) := by
  rw [← ofBytes_byteOf (wordAt fs.img (fs.direntry i + 36))]
  refine ofBytes_congr fun k hk => ?_
  rw [filledDentry, dentryStores, lastStore_append, lastStore_append, lastStore_fill _ hk]
  simp only [Option.some_or, Option.getD_some, Nat.zero_add]

/-- As far as the name is concerned, what matters is that `strcpy` gets across the field. -/
theorem filledDentry_filename (h : 32 ≤ fuel) :
    fieldString (fs.filledDentry i fuel old) 32 = fieldString (fs.entryName i) 32 := by
  refine fieldString_congr fun k hk hbefore => ?_
  rw [filledDentry_name fs i fuel old hk, strcpy_getElem? _ (by omega) hbefore, Option.getD_some]

/-- The caller's structure holds the entry of the image. -/
theorem dentryOf_filled (h : 32 ≤ fuel) : dentryOf (fs.filledDentry i fuel old) =
    ⟨fieldString (fs.entryName i) 32, wordAt fs.img (fs.direntry i + 32),
      wordAt fs.img (fs.direntry i + 36)⟩ := by
  rw [dentryOf, filledDentry_filename fs i fuel old h, filledDentry_filetype,
    filledDentry_inodeNum]

end filled

/-- The two functions store nothing behind the structure, however far `strcpy` may run, if
the name ends inside it. -/
theorem dentryStores_inside {fs : FileSystem} {i : ℕ} (h : fs.NameEnds i) (fuel : ℕ) :
    ∀ x ∈ fs.dentryStores i fuel, x.1 < 64 := by
  intro x hx
  obtain ⟨k, hk, hzero⟩ := h
  have hlen := length_strcpy_of_zero (fs.entryName i) hzero fuel
  rcases List.mem_append.mp hx with hname | hwords
  · obtain ⟨-, hlt, -⟩ := (mem_fill _).mp hname
    omega
  · rcases List.mem_append.mp hwords with htype | hinode
    · obtain ⟨-, hlt, -⟩ := (mem_fill _).mp htype
      omega
    · obtain ⟨-, hlt, -⟩ := (mem_fill _).mp hinode
      omega

/-- And only then. -/
theorem dentryStores_inside_iff (fs : FileSystem) (i : ℕ) :
    (∀ fuel, ∀ x ∈ fs.dentryStores i fuel, x.1 < 64) ↔ fs.NameEnds i := by
  refine ⟨fun hinside => ?_, fun h fuel => dentryStores_inside h fuel⟩
  by_contra hnot
  -- the copy gets at least as far as the first byte behind the structure
  have hbyte := strcpy_getElem? (fs.entryName i) (Nat.lt_succ_self 64)
    fun j hj hzero => hnot ⟨j, hj, hzero⟩
  have hlong : 64 < (strcpy (fs.entryName i) 65).length := (List.getElem?_eq_some_iff.mp hbyte).1
  have hmem : (64, (strcpy (fs.entryName i) 65).getD (0 + (64 - 0)) 0) ∈
      storesOf (strcpy (fs.entryName i) 65) :=
    (mem_fill _).mpr ⟨Nat.zero_le _, by omega, rfl⟩
  have hbehind := hinside 65 _ (List.mem_append_left _ hmem)
  dsimp only at hbehind
  omega

/-- Entry `i` as the functions hand it out is entry `i` of the boot block. -/
theorem entry_initFileSystem (img : ℕ → Byte) (i : ℕ) :
    (initFileSystem img).entry i = dentryAt img i := by
  have hword : ∀ a k, wordAt img (a + k) = wordAt (fun j => img (a + j)) k := fun a k =>
    congrArg ofBytes (funext fun j => by rw [Nat.add_assoc])
  have hname : ((initFileSystem img).entry i).filename =
      fieldString (fun k => img (64 + 64 * i + k)) 32 := filename_eq _ i
  have htype : ((initFileSystem img).entry i).filetype =
      wordAt (fun k => img (64 + 64 * i + k)) 32 := hword _ _
  have hinode : ((initFileSystem img).entry i).inodeNum =
      wordAt (fun k => img (64 + 64 * i + k)) 36 := hword _ _
  rw [dentryAt, dentryOf, ← hname, ← htype, ← hinode]

/-! ## The search -/

section search

variable {fs : FileSystem} {fname : List Byte} {n count i : ℕ}

/-- The search passes over entries with other names and stops at the first with this one. -/
theorem findEntry_found (hlow : count ≤ i) (hhigh : i < count + n)
    (hname : fieldString (cstr fname) 32 = fieldString (fs.entryName i) 32)
    (hfirst : ∀ j, count ≤ j → j < i →
      fieldString (cstr fname) 32 ≠ fieldString (fs.entryName j) 32) :
    fs.findEntry fname n count = some (fs.entry i) := by
  induction n generalizing count with
  | zero => omega
  | succ n ih =>
    rw [findEntry]
    rcases Nat.eq_or_lt_of_le hlow with rfl | hlt
    · rw [if_pos ((strncmp_eq_zero_iff _ _ _).mpr hname)]
    · have hother := hfirst count le_rfl hlt
      rw [if_neg fun h => hother ((strncmp_eq_zero_iff _ _ _).mp h)]
      exact ih hlt (by omega) fun j hj hji => hfirst j (by omega) hji

/-- It ends without an entry if none has this name. -/
theorem findEntry_missed (hother : ∀ j, count ≤ j → j < count + n →
      fieldString (cstr fname) 32 ≠ fieldString (fs.entryName j) 32) :
    fs.findEntry fname n count = none := by
  induction n generalizing count with
  | zero => rfl
  | succ n ih =>
    have hthis := hother count le_rfl (by omega)
    rw [findEntry, if_neg fun h => hthis ((strncmp_eq_zero_iff _ _ _).mp h)]
    exact ih fun j hj hji => hother j (by omega) (by omega)

end search

end FileSystem

/-! ## Directories -/

/-- An image with a directory: at most 63 entries of the three file types, with names that
are not empty and differ as strings padded to 32 bytes. -/
structure Catalogue (img : ℕ → Byte) : Prop where
  dirCount_le : (wordAt img 0).toNat ≤ 63
  filetype : ∀ i < (wordAt img 0).toNat, (dentryAt img i).filetype.toNat ≤ 2
  ne_nil : ∀ i < (wordAt img 0).toNat, (dentryAt img i).filename ≠ []
  distinct : ∀ i < (wordAt img 0).toNat, ∀ j < (wordAt img 0).toNat, i ≠ j →
    padded (dentryAt img i).filename ≠ padded (dentryAt img j).filename

namespace Catalogue

variable {img : ℕ → Byte} {i : ℕ}

/-- The second byte of the type ends `strcpy`, if nothing before it does. -/
theorem entryName_zero (h : Catalogue img) (hi : i < (wordAt img 0).toNat) :
    (initFileSystem img).entryName i 33 = 0 := by
  have hbyte : byteOf (dentryAt img i).filetype 1 = img (64 + 64 * i + 33) :=
    byteOf_ofBytes (fun k => img (64 + 64 * i + (32 + k))) (by decide)
  have hsmall : ∀ t : Word, t.toNat ≤ 2 → byteOf t 1 = 0 := by
    intro t ht
    have hcases : t = 0 ∨ t = 1 ∨ t = 2 := by bv_omega
    rcases hcases with rfl | rfl | rfl <;> rfl
  have hzero := hsmall _ (h.filetype i hi)
  rw [hbyte] at hzero
  exact hzero

/-- `strcpy` ends, and everything is stored inside the 64 bytes. -/
theorem stores_inside (h : Catalogue img) (hi : i < (wordAt img 0).toNat) {fuel : ℕ}
    (hfuel : 34 ≤ fuel) : 0 ∈ strcpy ((initFileSystem img).entryName i) fuel ∧
      ∀ x ∈ (initFileSystem img).dentryStores i fuel, x.1 < 64 := by
  have hzero := h.entryName_zero hi
  exact ⟨zero_mem_strcpy _ (by omega) hzero, dentryStores_inside ⟨33, by decide, hzero⟩ fuel⟩

/-- The bytes of the field that holds a name find its entry. -/
theorem readDentryByName_eq (h : Catalogue img) (hi : i < (wordAt img 0).toNat) {f : ℕ → Byte}
    (hf : fieldString f 32 = (dentryAt img i).filename) :
    (initFileSystem img).readDentryByName (segment f 0 32) = some (dentryAt img i) := by
  have hfield : fieldString (cstr (segment f 0 32)) 32 = fieldString f 32 := by
    refine fieldString_congr fun k hk _ => ?_
    have hlen : k < (segment f 0 32).length := by rwa [length_segment]
    rw [cstr, List.getD_eq_getElem?_getD, List.getElem?_eq_getElem hlen, Option.getD_some,
      getElem_segment, Nat.zero_add]
  have hname : ∀ j, fieldString ((initFileSystem img).entryName j) 32 =
      (dentryAt img j).filename := fun j => rfl
  rw [← entry_initFileSystem]
  refine findEntry_found (Nat.zero_le i) (by rwa [Nat.zero_add]) ?_ fun j _ hji heq => ?_
  · rw [hfield, hf, hname]
  · -- an earlier entry of the same name would not be distinct
    rw [hfield, hf, hname] at heq
    exact h.distinct i hi j (hji.trans hi) (by omega) (congrArg padded heq)

end Catalogue

/-- For every directory, and however long `strcpy` may run: entry `i` is found by its number,
the caller's structure then holds it, and the name in that structure finds it again; a string
that is not the name of an entry finds none; and no name, with a terminator or without one,
makes the functions store outside the 64 bytes of the structure. -/
theorem lookups_agree {img : ℕ → Byte} (h : Catalogue img) {fuel : ℕ} (hfuel : 34 ≤ fuel) :
    let fs := initFileSystem img
    (∀ i < fs.dirCount, ∀ old : ℕ → Byte,
      fs.readDentryByIndex (BitVec.ofNat 32 i) = some (dentryAt img i) ∧
      dentryOf (fs.filledDentry i fuel old) = dentryAt img i ∧
      fs.readDentryByName (segment (fs.filledDentry i fuel old) 0 32) = some (dentryAt img i)) ∧
    (∀ s, (∀ i < fs.dirCount, fieldString (cstr s) 32 ≠ (dentryAt img i).filename) →
      fs.readDentryByName s = none) ∧
    ∀ i < fs.dirCount, 0 ∈ strcpy (fs.entryName i) fuel ∧
      ∀ x ∈ fs.dentryStores i fuel, x.1 < 64 := by
  intro fs
  refine ⟨fun i hi old => ?_, fun s hs => ?_, fun i hi => h.stores_inside hi hfuel⟩
  · have hle := h.dirCount_le
    have hlt : i < (wordAt img 0).toNat := hi
    have hnat : (BitVec.ofNat 32 i).toNat = i := by
      rw [BitVec.toNat_ofNat]
      omega
    have hfilled : dentryOf (fs.filledDentry i fuel old) = dentryAt img i := by
      rw [dentryOf_filled fs i fuel old (by omega), ← entry_initFileSystem]
      exact congrArg (fun l => (⟨l, _, _⟩ : DirectoryEntry)) (filename_eq fs i).symm
    refine ⟨?_, hfilled, h.readDentryByName_eq hlt (congrArg DirectoryEntry.filename hfilled)⟩
    rw [readDentryByIndex, hnat, if_pos (by omega), entry_initFileSystem]
  · refine findEntry_missed fun j _ hj => hs j ?_
    rwa [Nat.zero_add] at hj

/-- `notes` is found again through a structure that held other bytes before. -/
theorem lookups_agree_sample : Sample.files.readDentryByName
    (segment (Sample.files.filledDentry 1 34 fun _ => 0x78) 0 32) =
      some (dentryAt Sample.image 1) := by
  have h : Catalogue Sample.image := ⟨by decide, by decide, by decide, by decide⟩
  exact ((@lookups_agree _ h 34 le_rfl).1 1 (by decide) fun _ => 0x78).2.2

end Os391
