import Os391.Descriptors

/-!
# Reading files

The block loop of `read_data` stores consecutive bytes of the file, whatever the
alignment: `readLoop_stores` is the induction over its turns. From it follows
what one `filesystem_read` does at a position inside the file, and from that what
any interleaving of reads delivers as long as no request reaches past the end.

A request that does reach past the end is not cut short. `clamped_iff` says for
which sequences of requests this makes no difference.
-/

namespace Os391

open Bytes Segment

variable {L : Link} {fs : FileSystem}

/-! ## `read_data` -/

namespace FileSystem

/-- A piece of a file inside one block. -/
theorem fill_block (fs : FileSystem) (inode pos dest n : ℕ) (h : pos % 4096 + n ≤ 4096) :
    fill fs.img (fs.blockPtr inode (pos / 4096) + pos % 4096) dest n =
      fill (fs.fileByte inode) pos dest n := by
  refine fill_congr fun j hj => ?_
  have hblock : (pos + j) / 4096 = pos / 4096 := by omega
  have hbyte : (pos + j) % 4096 = pos % 4096 + j := by omega
  rw [fileByte, hblock, hbyte, Nat.add_assoc]

/-- Turns beyond the number of bytes left make no difference. -/
theorem readLoop_fuel (inode fuel fuel' : ℕ) {idx src dest mem length : ℕ} (hmem : 0 < mem)
    (h : length ≤ fuel) (h' : length ≤ fuel') :
    fs.readLoop inode fuel idx src dest mem length =
      fs.readLoop inode fuel' idx src dest mem length := by
  induction fuel generalizing fuel' idx src dest mem length with
  | zero =>
    obtain rfl : length = 0 := by omega
    cases fuel' <;> rfl
  | succ fuel ih =>
    rcases fuel' with _ | fuel'
    · obtain rfl : length = 0 := by omega
      rfl
    · -- both make the same turn, which copies at least one byte
      rw [readLoop, readLoop]
      by_cases hzero : length = 0
      · simp [hzero]
      · rw [ih fuel' (by omega) (by omega) (by omega)]

/-- A turn that takes the rest of a block: the loop goes on at the start of the next one. -/
theorem readLoop_turn (inode fuel pos dest : ℕ) {length : ℕ} (hle : 4096 - pos % 4096 ≤ length) :
    fs.readLoop inode (fuel + 1) (pos / 4096) (fs.blockPtr inode (pos / 4096) + pos % 4096) dest
      (4096 - pos % 4096) length =
      let n := 4096 - pos % 4096
      let rest := fs.readLoop inode fuel ((pos + n) / 4096)
        (fs.blockPtr inode ((pos + n) / 4096) + (pos + n) % 4096) (dest + n)
        (4096 - (pos + n) % 4096) (length - n)
      (⟨dest, fs.blockPtr inode (pos / 4096) + pos % 4096, n⟩ :: rest.1,
        (pos + n) / 4096 :: rest.2) := by
  have hzero : ¬ length = 0 := by omega
  have hidx : (pos + (4096 - pos % 4096)) / 4096 = pos / 4096 + 1 := by omega
  have hmod : (pos + (4096 - pos % 4096)) % 4096 = 0 := by omega
  rw [readLoop, if_neg hzero, if_pos hle]
  dsimp only
  rw [hidx, hmod, Nat.sub_zero]
  rfl

/-- The turn that ends inside a block is the last one. -/
theorem readLoop_last (inode fuel pos dest : ℕ) {length : ℕ} (hlt : length < 4096 - pos % 4096) :
    fs.readLoop inode (fuel + 1) (pos / 4096) (fs.blockPtr inode (pos / 4096) + pos % 4096) dest
      (4096 - pos % 4096) length =
      (if length = 0 then [] else [⟨dest, fs.blockPtr inode (pos / 4096) + pos % 4096, length⟩],
        []) := by
  rw [readLoop, if_neg (not_le.mpr hlt)]
  split
  · rfl
  · rfl

/-- The copies of the loop, started at position `pos` of the file, store the
`length` bytes from there on. -/
theorem readLoop_stores (inode pos dest length : ℕ) {fuel : ℕ} (h : length ≤ fuel) :
    (fs.readLoop inode fuel (pos / 4096) (fs.blockPtr inode (pos / 4096) + pos % 4096) dest
      (4096 - pos % 4096) length).1.flatMap (Copy.stores fs) =
      fill (fs.fileByte inode) pos dest length := by
  induction fuel generalizing pos dest length with
  | zero =>
    obtain rfl : length = 0 := by omega
    rfl
  | succ fuel ih =>
    rcases Nat.lt_or_ge length (4096 - pos % 4096) with hlt | hle
    · -- what is left ends inside the block
      have hblock := fill_block fs inode pos dest length (by omega)
      rw [readLoop_last inode fuel pos dest hlt]
      split
      · next hzero => simp [hzero]
      · simp [Copy.stores, hblock]
    · -- the rest of the block, then on from the start of the next one
      have hblock := fill_block fs inode pos dest (4096 - pos % 4096) (by omega)
      rw [readLoop_turn inode fuel pos dest hle]
      dsimp only
      rw [List.flatMap_cons, ih _ _ _ (by omega), Copy.stores, hblock, ← fill_add,
        Nat.add_sub_cancel' hle]

section

variable {inode offset length : ℕ}

/-- A call that is not refused is its loop. -/
theorem readData_loop (hinode : inode < fs.inodeCount)
    (hoffset : offset / 4096 ≤ fs.inodeLength inode / 4096) :
    fs.readData inode offset length =
      let t := fs.readLoop inode length (offset / 4096)
        (fs.blockPtr inode (offset / 4096) + offset % 4096) 0 (4096 - offset % 4096) length
      ⟨(BitVec.ofNat 32 length).toInt, t.1, offset / 4096 :: t.2⟩ := by
  have hmem : sub32 ((offset / 4096 + 1) * 4096) offset = 4096 - offset % 4096 := by
    rw [sub32]
    omega
  simp only [readData, not_le.mpr hinode, if_false, not_lt.mpr hoffset, hmem]

/-- It stores as many bytes as it is asked for. -/
theorem readData_stores (hinode : inode < fs.inodeCount)
    (hoffset : offset / 4096 ≤ fs.inodeLength inode / 4096) :
    (fs.readData inode offset length).stores fs = fill (fs.fileByte inode) offset 0 length := by
  rw [readData_loop hinode hoffset]
  exact readLoop_stores inode offset 0 length le_rfl

end

/-- `read_data` at a position whose block exists copies as much as it is asked for. -/
theorem readData_eq (fs : FileSystem) (inode offset length : ℕ) (hinode : inode < fs.inodeCount)
    (hoffset : offset / 4096 ≤ fs.inodeLength inode / 4096) (hlength : length < 2 ^ 31) :
    (fs.readData inode offset length).ret = length ∧
      (fs.readData inode offset length).stores fs = fill (fs.fileByte inode) offset 0 length := by
  refine ⟨?_, readData_stores hinode hoffset⟩
  rw [readData_loop hinode hoffset]
  dsimp only
  rw [BitVec.toInt_ofNat']
  apply Int.bmod_eq_of_le <;> omega

/-- The regular files of the image lie inside it: the inode exists, the length is
within what an inode can hold, and the blocks in use exist. -/
structure WellFormed (fs : FileSystem) : Prop where
  inode : ∀ k < fs.dirCount, (fs.entry k).filetype = 2 →
    (fs.entry k).inodeNum.toNat < fs.inodeCount
  length : ∀ k < fs.dirCount, (fs.entry k).filetype = 2 →
    fs.inodeLength (fs.entry k).inodeNum.toNat ≤ 1023 * 4096
  blocks : ∀ k < fs.dirCount, (fs.entry k).filetype = 2 →
    ∀ idx, 4096 * idx < fs.inodeLength (fs.entry k).inodeNum.toNat →
      fs.dataBlock (fs.entry k).inodeNum.toNat idx < fs.dataCount

/-- An inode of a regular file: it exists and its length fits. -/
structure Sized (fs : FileSystem) (inode : ℕ) : Prop where
  exists_inode : inode < fs.inodeCount
  length_le : fs.inodeLength inode ≤ 1023 * 4096

theorem WellFormed.sized (h : fs.WellFormed) {name : Option (List Byte)} {e : DirectoryEntry}
    (he : fs.lookup name = some e) (htype : e.filetype = 2) : fs.Sized e.inodeNum.toNat := by
  obtain ⟨k, hk, rfl⟩ := lookup_mem he
  exact ⟨h.inode k hk htype, h.length k hk htype⟩

end FileSystem

/-! ## `filesystem_read` -/

/-- A descriptor after `n` more bytes. -/
def FileDescriptor.advance (d : FileDescriptor) (n : ℕ) : FileDescriptor :=
  { d with filePos := d.filePos + BitVec.ofNat 32 n }

/-- The state after descriptor `fd` of slot `i` has moved on by `n` bytes. -/
@[simps!] def Kernel.advance (s : Kernel) (i : Fin 6) (fd : Fin 8) (n : ℕ) : Kernel :=
  s.setPcb i ((s.processes i).setFd fd (((s.processes i).fdArr fd).advance n))

section reads

variable {s : Kernel} {i : Fin 6} {fd : Fin 8} {inode pos n : ℕ}

/-- Descriptor `fd` of slot `i` stands at position `pos` of a file. -/
structure At (s : Kernel) (i : Fin 6) (fd : Fin 8) (inode pos : ℕ) : Prop where
  inode : ((s.processes i).fdArr fd).inodeNum.toNat = inode
  filePos : ((s.processes i).fdArr fd).filePos.toNat = pos

/-- A read at or behind the end of the file. -/
theorem filesystemRead_end (hpid : s.pid = i.val) (hat : At s i fd inode pos)
    (hend : fs.inodeLength inode ≤ pos) (nbytes : Int) :
    filesystemRead fs fd.val nbytes s = .ok (0, []) s := by
  rw [filesystemRead, Kernel.withSlot_of_eq hpid]
  simp only [fdIndex_val, hat.inode, hat.filePos, hend, if_true]

/-- A read inside the file returns what it is asked for and stores the bytes of the
file from the position on, past the end of the file too. -/
theorem filesystemRead_inside (hpid : s.pid = i.val) (hat : At s i fd inode pos)
    (hsized : fs.Sized inode) (hpos : pos < fs.inodeLength inode) (hn : n < 2 ^ 31) :
    filesystemRead fs fd.val n s =
      .ok (n, fill (fs.fileByte inode) pos 0 n) (s.advance i fd n) := by
  obtain ⟨hret, hstores⟩ := fs.readData_eq inode pos n
    hsized.exists_inode (by omega) hn
  have hnbytes : (BitVec.ofNat 32 n).toNat = n := by
    rw [BitVec.toNat_ofNat]
    omega
  have hnonneg : ¬ (n : Int) < 0 := by omega
  rw [filesystemRead, Kernel.withSlot_of_eq hpid]
  simp only [fdIndex_val, hat.inode, hat.filePos, not_le.mpr hpos, if_false, BitVec.ofInt_natCast,
    hnbytes, hret, hstores, hnonneg, false_and]
  rfl

theorem At.advance (hat : At s i fd inode pos) (h : pos + n < 2 ^ 32) :
    At (s.advance i fd n) i fd inode (pos + n) := by
  refine ⟨?_, ?_⟩
  · simpa [FileDescriptor.advance] using hat.inode
  · have hadd : (((s.processes i).fdArr fd).filePos + BitVec.ofNat 32 n).toNat = pos + n := by
      rw [BitVec.toNat_add, BitVec.toNat_ofNat, hat.filePos]
      omega
    simpa [FileDescriptor.advance] using hadd

/-- A read on one descriptor leaves the others where they are. -/
theorem At.frame {fd' : Fin 8} {inode' pos' : ℕ} (hat : At s i fd' inode' pos') (hne : fd' ≠ fd) :
    At (s.advance i fd n) i fd' inode' pos' := by
  refine ⟨?_, ?_⟩
  · simpa [hne] using hat.inode
  · simpa [hne] using hat.filePos

end reads

/-- A regular file just opened stands at position 0. -/
theorem openFunction_at {s s' : Kernel} {i : Fin 6} {fd : Fin 8} {junk : FileOpTable}
    {name : Option (List Byte)} {e : DirectoryEntry} (hpid : s.pid = i.val)
    (hname : fs.lookup name = some e) (htype : e.filetype = 2)
    (hopen : openFunction L fs junk name s = .ok (fd.val : Int) s') :
    s' = s.openAt L junk e i fd ∧ At s' i fd e.inodeNum.toNat 0 := by
  obtain rfl := openFunction_opened hpid hname hopen
  refine ⟨rfl, ?_, ?_⟩
  · simp [Kernel.openAt, openDescriptor, htype]
  · simp [Kernel.openAt, openDescriptor]

/-! ## Interleaved reads -/

/-- What a process knows about a file it reads: which inode, how many bytes it has
asked for so far, and which bytes it was given. -/
structure Progress : Type where
  inode : ℕ
  total : ℕ
  got : List Byte

/-- A process in slot `i` opens regular files and reads from them in any order, a
request never reaching past the end of its file. -/
inductive ReadRun (L : Link) (fs : FileSystem) (i : Fin 6) (s₀ : Kernel) :
    Kernel → (Fin 8 → Option Progress) → Prop where
  | start : s₀.pid = i.val → ReadRun L fs i s₀ s₀ fun _ => none
  | opens {s s' : Kernel} {G : Fin 8 → Option Progress} (junk : FileOpTable)
      {name : Option (List Byte)} {e : DirectoryEntry} {fd : Fin 8} :
      ReadRun L fs i s₀ s G → fs.lookup name = some e → e.filetype = 2 →
      openFunction L fs junk name s = .ok (fd.val : Int) s' →
      ReadRun L fs i s₀ s' (Function.update G fd (some ⟨e.inodeNum.toNat, 0, []⟩))
  | reads {s s' : Kernel} {G : Fin 8 → Option Progress} {fd : Fin 8} {r : Progress} (n : ℕ)
      {ret : Int} {st : Stores} :
      ReadRun L fs i s₀ s G → G fd = some r → 0 < n → r.total + n ≤ fs.inodeLength r.inode →
      filesystemRead fs fd.val n s = .ok (ret, st) s' →
      ReadRun L fs i s₀ s'
        (Function.update G fd (some ⟨r.inode, r.total + n, r.got ++ st.map Prod.snd⟩))

/-- The descriptor and the record agree, and the record is a prefix of the file. -/
structure Delivered (fs : FileSystem) (s : Kernel) (i : Fin 6) (fd : Fin 8) (r : Progress) :
    Prop where
  sized : fs.Sized r.inode
  position : At s i fd r.inode r.total
  total_le : r.total ≤ fs.inodeLength r.inode
  got : r.got = segment (fs.fileByte r.inode) 0 r.total

/-- What holds in every state of a run. -/
structure ReadInv (fs : FileSystem) (i : Fin 6) (s : Kernel) (G : Fin 8 → Option Progress) :
    Prop where
  pid : s.pid = i.val
  files : ∀ fd r, G fd = some r → Delivered fs s i fd r

namespace ReadInv

variable {i : Fin 6} {s : Kernel} {G : Fin 8 → Option Progress} {fd : Fin 8}

theorem opens (h : ReadInv fs i s G) (hfs : fs.WellFormed) {junk : FileOpTable}
    {name : Option (List Byte)} {e : DirectoryEntry} {s' : Kernel}
    (hname : fs.lookup name = some e) (htype : e.filetype = 2)
    (hopen : openFunction L fs junk name s = .ok (fd.val : Int) s') :
    ReadInv fs i s' (Function.update G fd (some ⟨e.inodeNum.toNat, 0, []⟩)) := by
  obtain ⟨hs', hat⟩ := openFunction_at h.pid hname htype hopen
  refine ⟨by rw [hs']; exact h.pid, fun k r hr => ?_⟩
  rcases update_eq_some hr with ⟨rfl, hnew⟩ | ⟨hk, hold⟩
  · obtain rfl := Option.some.inj hnew
    exact ⟨hfs.sized hname htype, hat, Nat.zero_le _, rfl⟩
  · obtain ⟨hsized, hpos, hle, hgot⟩ := h.files k r hold
    refine ⟨hsized, ⟨?_, ?_⟩, hle, hgot⟩
    · simpa [hs', Kernel.openAt, hk] using hpos.inode
    · simpa [hs', Kernel.openAt, hk] using hpos.filePos

/-- A request inside the file is met in full. -/
theorem read_eq (h : ReadInv fs i s G) {r : Progress} (hfd : G fd = some r) {n : ℕ} (hn : 0 < n)
    (hfit : r.total + n ≤ fs.inodeLength r.inode) :
    filesystemRead fs fd.val n s =
      .ok (n, fill (fs.fileByte r.inode) r.total 0 n) (s.advance i fd n) := by
  obtain ⟨hsized, hat, -, -⟩ := h.files fd r hfd
  have hlen := hsized.length_le
  exact filesystemRead_inside h.pid hat hsized (by omega) (by omega)

theorem reads (h : ReadInv fs i s G) {r : Progress} (hfd : G fd = some r) {n : ℕ}
    (hfit : r.total + n ≤ fs.inodeLength r.inode) :
    ReadInv fs i (s.advance i fd n) (Function.update G fd
      (some ⟨r.inode, r.total + n, r.got ++ segment (fs.fileByte r.inode) r.total n⟩)) := by
  refine ⟨h.pid, fun k q hq => ?_⟩
  rcases update_eq_some hq with ⟨rfl, hnew⟩ | ⟨hk, hold⟩
  · obtain ⟨hsized, hat, -, hgot⟩ := h.files k r hfd
    have hlen := hsized.length_le
    obtain rfl := Option.some.inj hnew
    refine ⟨hsized, hat.advance (by omega), hfit, ?_⟩
    -- the new piece continues the prefix
    rw [segment_add, ← hgot, Nat.zero_add]
  · obtain ⟨hsized, hat, hle, hgot⟩ := h.files k q hold
    exact ⟨hsized, hat.frame hk, hle, hgot⟩

end ReadInv

/-- Every state of a run. -/
theorem ReadRun.inv {i : Fin 6} {s₀ s : Kernel} {G : Fin 8 → Option Progress} (hfs : fs.WellFormed)
    (h : ReadRun L fs i s₀ s G) : ReadInv fs i s G := by
  induction h with
  | start hpid => exact ⟨hpid, fun fd r hr => by cases hr⟩
  | opens junk _ hname htype hopen ih => exact ih.opens hfs hname htype hopen
  | reads n _ hfd hn hfit hread ih =>
    rw [ih.read_eq hfd hn hfit] at hread
    cases hread
    rw [map_snd_fill]
    exact ih.reads hfd hfit

/-- Chunked reads deliver files: at any point of a run, what has been read on a
descriptor is the prefix of its file of the total length asked for, `file_pos` is
that total, and the next request inside the file returns its `nbytes`, stores the
next bytes in order from the start of the buffer, and moves no other descriptor. -/
theorem reads_deliver_prefix (hfs : fs.WellFormed) {i : Fin 6} {s₀ s : Kernel}
    {G : Fin 8 → Option Progress} (hrun : ReadRun L fs i s₀ s G) {fd : Fin 8} {r : Progress}
    (hfd : G fd = some r) :
    r.got = segment (fs.fileByte r.inode) 0 r.total ∧ At s i fd r.inode r.total ∧
      ∀ n, 0 < n → r.total + n ≤ fs.inodeLength r.inode → ∃ s',
        filesystemRead fs fd.val n s = .ok (n, fill (fs.fileByte r.inode) r.total 0 n) s' ∧
        At s' i fd r.inode (r.total + n) ∧
        (∀ k, k ≠ fd → (s'.processes i).fdArr k = (s.processes i).fdArr k) ∧
        ∀ j, j ≠ i → s'.processes j = s.processes j := by
  have h := hrun.inv hfs
  obtain ⟨hsized, hat, hle, hgot⟩ := h.files fd r hfd
  refine ⟨hgot, hat, fun n hn hfit => ⟨_, h.read_eq hfd hn hfit, ?_, ?_, ?_⟩⟩
  · have hlen := hsized.length_le
    exact hat.advance (by omega)
  · intro k hk
    simp [hk]
  · intro j hj
    simp [hj]

/-- The base shell with `notes` open on descriptor 2. -/
def Sample.reading : Kernel :=
  Sample.running.openAt Sample.link ⟨0, 0, 0, 0⟩ (Sample.files.entry 1) 0 2

theorem Sample.open_notes : openFunction Sample.link Sample.files ⟨0, 0, 0, 0⟩
    (some Sample.notes) Sample.running = .ok (2 : Fin 8).val Sample.reading :=
  openFunction_found (by decide) (by decide) (by decide)

theorem Sample.wellFormed : Sample.files.WellFormed := by
  refine ⟨by decide, by decide, fun k hk htype idx hidx => ?_⟩
  -- both files fit into their first block
  have hsmall : ∀ k < Sample.files.dirCount, (Sample.files.entry k).filetype = 2 →
      Sample.files.inodeLength (Sample.files.entry k).inodeNum.toNat ≤ 4096 := by decide
  have hlen := hsmall k hk htype
  obtain rfl : idx = 0 := by omega
  revert k
  decide

/-- After opening `notes` the shell can read its first two bytes. -/
theorem reads_deliver_prefix_sample : ∃ s',
    filesystemRead Sample.files 2 2 Sample.reading = .ok (2, [(0, 0x68), (1, 0x65)]) s' ∧
      At s' 0 2 1 2 := by
  have hname : Sample.files.lookup (some Sample.notes) = some (Sample.files.entry 1) := by decide
  have hpid : Sample.running.pid = (0 : Fin 6).val := by decide
  have hrun := (ReadRun.start hpid).opens _ hname (by decide) Sample.open_notes
  obtain ⟨-, -, hnext⟩ := reads_deliver_prefix Sample.wellFormed hrun (Function.update_self _ _ _)
  obtain ⟨s', hread, hat, -, -⟩ := hnext 2 (by decide) (by decide)
  have hbytes : fill (Sample.files.fileByte (Sample.files.entry 1).inodeNum.toNat) 0 0 2 =
      [(0, 0x68), (1, 0x65)] := by decide
  dsimp only at hread
  rw [hbytes] at hread
  exact ⟨s', hread, hat⟩

/-! ## Reads past the end -/

/-- One call of `filesystem_read` seen from outside: where the descriptor stood, how
many bytes were asked for, what came back, and where the descriptor stands then. -/
structure Reading : Type where
  pos : ℕ
  n : ℕ
  ret : Int
  stores : Stores
  posAfter : ℕ

/-- The `file_pos` of a descriptor. -/
def Kernel.filePos (s : Kernel) (i : Fin 6) (fd : Fin 8) : ℕ :=
  ((s.processes i).fdArr fd).filePos.toNat

/-- The calls on one descriptor with the given values of `nbytes`. -/
def readings (fs : FileSystem) (i : Fin 6) (fd : Fin 8) : List ℕ → Kernel → List Reading
  | [], _ => []
  | n :: ns, s =>
    match filesystemRead fs fd.val n s with
    | .ok (ret, st) s' => ⟨s.filePos i fd, n, ret, st, s'.filePos i fd⟩ :: readings fs i fd ns s'
    | .fault _ _ => []

/-- The call keeps to the file: it returns what is left if that is less than the
request, stores bytes of the file only, and does not move past the end. -/
structure Clamped (fs : FileSystem) (inode : ℕ) (r : Reading) : Prop where
  ret : r.ret = (min r.n (fs.inodeLength inode - r.pos) : ℕ)
  stores : ∀ x ∈ r.stores,
    r.pos + x.1 < fs.inodeLength inode ∧ x.2 = fs.fileByte inode (r.pos + x.1)
  posAfter_le : r.posAfter ≤ fs.inodeLength inode

/-- Requests from position `pos` of a file of length `len` on, none of which reaches
past the end: all together they stay inside, or some of them end at the end exactly. -/
def StaysInside (len pos : ℕ) (ns : List ℕ) : Prop :=
  pos + ns.sum ≤ len ∨ ∃ k, pos + (ns.take k).sum = len

/-- One request more, from a position before the end. -/
theorem staysInside_cons {len pos n : ℕ} (ns : List ℕ) (hpos : pos < len) :
    StaysInside len pos (n :: ns) ↔ pos + n ≤ len ∧ StaysInside len (pos + n) ns := by
  rw [StaysInside]
  constructor
  · rintro (hsum | ⟨k, hk⟩)
    · rw [List.sum_cons] at hsum
      exact ⟨by omega, Or.inl (by omega)⟩
    · rcases k with _ | k
      · simp only [List.take_zero, List.sum_nil] at hk
        omega
      · rw [List.take_succ_cons, List.sum_cons] at hk
        exact ⟨by omega, Or.inr ⟨k, by omega⟩⟩
  · rintro ⟨-, hsum | ⟨k, hk⟩⟩
    · refine Or.inl ?_
      rw [List.sum_cons]
      omega
    · refine Or.inr ⟨k + 1, ?_⟩
      rw [List.take_succ_cons, List.sum_cons]
      omega

section clamped

variable {s : Kernel} {i : Fin 6} {fd : Fin 8} {inode pos : ℕ}

theorem readings_clamped_iff (hpid : s.pid = i.val) (hat : At s i fd inode pos)
    (hsized : fs.Sized inode) (hle : pos ≤ fs.inodeLength inode) {ns : List ℕ}
    (hns : ∀ n ∈ ns, 0 < n ∧ n < 2 ^ 31) :
    (∀ r ∈ readings fs i fd ns s, Clamped fs inode r) ↔
      StaysInside (fs.inodeLength inode) pos ns := by
  have hlen := hsized.length_le
  induction ns generalizing s pos with
  | nil => exact iff_of_true (by simp [readings]) (Or.inl (by simpa using hle))
  | cons n ns ih =>
    obtain ⟨hn₀, hn⟩ := hns n List.mem_cons_self
    have hrest : ∀ m ∈ ns, 0 < m ∧ m < 2 ^ 31 := fun m hm => hns m (List.mem_cons_of_mem n hm)
    rcases Nat.eq_or_lt_of_le hle with hend | hlt
    · -- at the end every request returns 0 and nothing moves
      have hthen := (ih hpid hat hle hrest).mpr (Or.inr ⟨0, hend⟩)
      have hfirst : Clamped fs inode ⟨s.filePos i fd, n, 0, [], s.filePos i fd⟩ := by
        refine ⟨?_, by simp, ?_⟩
        · simp [Kernel.filePos, hat.filePos, hend]
        · simp [Kernel.filePos, hat.filePos, hend]
      rw [readings, filesystemRead_end hpid hat hend.ge]
      refine iff_of_true ?_ (Or.inr ⟨0, hend⟩)
      rintro r (_ | ⟨_, hr⟩)
      · exact hfirst
      · exact hthen r hr
    · -- before it the request is met in full, so it must not reach past the end
      have hafter := hat.advance (n := n) (by omega)
      have hcur : (s.advance i fd n).pid = i.val := hpid
      rw [readings, filesystemRead_inside hpid hat hsized hlt hn, staysInside_cons ns hlt]
      simp only [List.forall_mem_cons, Kernel.filePos, hat.filePos, hafter.filePos]
      constructor
      · rintro ⟨hfirst, hthen⟩
        have hfit := hfirst.posAfter_le
        exact ⟨hfit, (ih hcur hafter hfit hrest).mp hthen⟩
      · rintro ⟨hfit, hthen⟩
        refine ⟨⟨?_, ?_, hfit⟩, (ih hcur hafter hfit hrest).mpr hthen⟩
        · have hmin : min n (fs.inodeLength inode - pos) = n := by omega
          simp [hmin]
        · intro x hx
          obtain ⟨-, hx₁, hx₂⟩ := (mem_fill _).mp hx
          exact ⟨by dsimp only; omega, by simpa using hx₂⟩

/-- The loop of `cat`: read 1024 bytes until a call returns 0. -/
def catLoop (fs : FileSystem) (fd : Fin 8) : ℕ → Kernel → Option (List Byte)
  | 0, _ => none
  | fuel + 1, s =>
    match filesystemRead fs fd.val 1024 s with
    | .ok (cnt, st) s =>
      if cnt = 0 then some []
      else if cnt = -1 then none
      else (catLoop fs fd fuel s).map fun rest => st.map Prod.snd ++ rest
    | .fault _ _ => none

/-- `cat` delivers whole kilobytes. -/
theorem catLoop_length (hpid : s.pid = i.val) (hat : At s i fd inode pos)
    (hsized : fs.Sized inode) : ∃ fuel bs, catLoop fs fd fuel s = some bs ∧
      bs.length = 1024 * ((fs.inodeLength inode - pos + 1023) / 1024) := by
  have hlen := hsized.length_le
  -- by induction on the kilobytes that are left, the last one begun included
  generalize hm : (fs.inodeLength inode - pos + 1023) / 1024 = m
  induction m generalizing s pos with
  | zero =>
    refine ⟨1, [], ?_, rfl⟩
    rw [catLoop, filesystemRead_end hpid hat (by omega)]
    simp
  | succ m ih =>
    have hafter := hat.advance (n := 1024) (by omega)
    obtain ⟨fuel, bs, hloop, hbs⟩ := ih (s := s.advance i fd 1024) hpid hafter (by omega)
    have hread : filesystemRead fs fd.val 1024 s =
        .ok (1024, fill (fs.fileByte inode) pos 0 1024) (s.advance i fd 1024) :=
      filesystemRead_inside (n := 1024) hpid hat hsized (by omega) (by decide)
    refine ⟨fuel + 1, segment (fs.fileByte inode) pos 1024 ++ bs, ?_, ?_⟩
    · rw [catLoop, hread]
      simp [hloop, map_snd_fill]
    · rw [List.length_append, length_segment, hbs]
      omega

end clamped

/-- On a regular file of length `len` that has just been opened, the reads with the
given positive values of `nbytes` all keep to the file exactly if together they ask
for no more than `len` bytes or the first of them, up to some point, ask for `len`
bytes exactly. The loop of `cat` ends, and delivers `len` bytes exactly if 1024
divides `len`. -/
theorem clamped_iff (hfs : fs.WellFormed) {s₀ s : Kernel} {i : Fin 6} {fd : Fin 8}
    {junk : FileOpTable} {name : Option (List Byte)} {e : DirectoryEntry} (hpid : s₀.pid = i.val)
    (hname : fs.lookup name = some e) (htype : e.filetype = 2)
    (hopen : openFunction L fs junk name s₀ = .ok (fd.val : Int) s) :
    let len := fs.inodeLength e.inodeNum.toNat
    (∀ ns : List ℕ, (∀ n ∈ ns, 0 < n ∧ n < 2 ^ 31) →
      ((∀ r ∈ readings fs i fd ns s, Clamped fs e.inodeNum.toNat r) ↔
        ns.sum ≤ len ∨ ∃ k, (ns.take k).sum = len)) ∧
    ∃ fuel bs, catLoop fs fd fuel s = some bs ∧ (bs.length = len ↔ 1024 ∣ len) := by
  obtain ⟨hs, hat⟩ := openFunction_at hpid hname htype hopen
  have hsized := hfs.sized hname htype
  have hcur : s.pid = i.val := by rw [hs]; exact hpid
  refine ⟨fun ns hns => ?_, ?_⟩
  · simpa [StaysInside] using readings_clamped_iff hcur hat hsized (Nat.zero_le _) hns
  · obtain ⟨fuel, bs, hloop, hbs⟩ := catLoop_length hcur hat hsized
    refine ⟨fuel, bs, hloop, ?_⟩
    rw [hbs]
    omega

/-- `notes` has five bytes, and the first 1024-byte read of `cat` returns 1024. -/
theorem notes_not_clamped : openFunction Sample.link Sample.files ⟨0, 0, 0, 0⟩
      (some Sample.notes) Sample.running = .ok (2 : Fin 8).val Sample.reading ∧
    ¬ ∀ r ∈ readings Sample.files 0 2 [1024] Sample.reading, Clamped Sample.files 1 r := by
  refine ⟨Sample.open_notes, fun h => ?_⟩
  have hret := (h _ List.mem_cons_self).ret
  revert hret
  decide

/-- The five bytes can be read in two requests, and `cat` delivers something else. -/
theorem clamped_iff_sample :
    (∀ r ∈ readings Sample.files 0 2 [2, 3] Sample.reading, Clamped Sample.files 1 r) ∧
      ∃ fuel bs, catLoop Sample.files 2 fuel Sample.reading = some bs ∧ bs.length ≠ 5 := by
  obtain ⟨hreads, fuel, bs, hloop, hlen⟩ := clamped_iff (e := Sample.files.entry 1)
    Sample.wellFormed (i := 0) (by decide) (by decide) (by decide) Sample.open_notes
  refine ⟨(hreads [2, 3] (by decide)).mpr (Or.inl (by decide)), fuel, bs, hloop, fun h => ?_⟩
  exact absurd (hlen.mp h) (by decide)

end Os391
