import Mathlib.Data.List.GetD
import Mathlib.Data.List.TakeWhile
import Os391.FileReads

/-!
# Listing the directory

`dir_read` hands out the names in the boot block one after the other, `file_pos`
counting the entries. It does not look at `dir_count`: what ends a listing is the
empty name of an entry that is not used. The boot block has 63 entries, numbered
from 0, and `read_dentry_by_index` takes every index up to 63, so the 64th call
looks behind the boot block. What it finds there is the length of inode 0.

A name of full width has no terminator. `strcpy` then goes on into the type and
the inode number of the entry; the caller still gets the 32 bytes of the name.
-/

namespace Os391

open Bytes Segment FileSystem

variable {L : Link} {fs : FileSystem} {img : ℕ → Byte} {names : List (List Byte)}

/-! ## The names of a directory -/

/-- A name as it stands in the 32 bytes of a directory entry. -/
def padded (l : List Byte) : List Byte := l ++ List.replicate (32 - l.length) 0

/-- A string that fits into a directory entry, with or without a terminator. -/
structure EntryName (l : List Byte) : Prop where
  ne_nil : l ≠ []
  length_le : l.length ≤ 32
  nonzero : ∀ c ∈ l, c ≠ 0

/-- The image of a directory with the given names in this order. What is left of the
boot block behind its entries is zero, and so are the reserved bytes of an entry. -/
structure HasNames (img : ℕ → Byte) (names : List (List Byte)) : Prop where
  dirCount : (wordAt img 0).toNat = names.length
  length_le : names.length ≤ 63
  valid : ∀ l ∈ names, EntryName l
  name : ∀ i l, names[i]? = some l → ∀ k < 32, img (64 + 64 * i + k) = (padded l).getD k 0
  reserved : ∀ i < names.length, ∀ k < 64, 40 ≤ k → img (64 + 64 * i + k) = 0
  unused : ∀ a < 4096, 64 + 64 * names.length ≤ a → img a = 0

theorem length_padded {l : List Byte} (h : l.length ≤ 32) : (padded l).length = 32 := by
  rw [padded, List.length_append, List.length_replicate]
  omega

namespace FileSystem

/-- The name that is handed out is the entry's name field up to its first zero. -/
theorem filename_eq (fs : FileSystem) (i : ℕ) : (fs.entry i).filename =
    (segment (fs.entryName i) 0 32).takeWhile fun c => decide (c ≠ 0) :=
  strcpy_takeWhile _ (by decide)

theorem filename_nonzero (fs : FileSystem) (i : ℕ) : ∀ c ∈ (fs.entry i).filename, c ≠ 0 := by
  intro c hc
  rw [filename_eq] at hc
  have hkeep := List.mem_takeWhile_imp hc
  exact of_decide_eq_true hkeep

theorem filename_length_le (fs : FileSystem) (i : ℕ) : (fs.entry i).filename.length ≤ 32 := by
  have hle := (List.takeWhile_sublist (l := segment (fs.entryName i) 0 32)
    fun c => decide (c ≠ 0)).length_le
  rwa [length_segment, ← filename_eq] at hle

theorem filename_eq_nil_iff (fs : FileSystem) (i : ℕ) :
    (fs.entry i).filename = [] ↔ fs.entryName i 0 = 0 := by
  have hfirst : segment (fs.entryName i) 0 32 =
      fs.entryName i 0 :: segment (fs.entryName i) 1 31 := segment_add _ 0 1 31
  rw [filename_eq, hfirst, List.takeWhile_cons]
  by_cases hzero : fs.entryName i 0 = 0
  · simp [hzero]
  · rw [if_pos (decide_eq_true hzero)]
    exact iff_of_false (List.cons_ne_nil _ _) hzero

end FileSystem

namespace HasNames

variable {i : ℕ} {l : List Byte}

/-- A name with room for a terminator and one without are handed out alike. -/
theorem filename (h : HasNames img names) (hl : names[i]? = some l) :
    ((initFileSystem img).entry i).filename = l := by
  obtain ⟨-, hle, hnonzero⟩ := h.valid l (List.mem_of_getElem? hl)
  have hfield : segment ((initFileSystem img).entryName i) 0 32 = padded l := by
    refine List.ext_getElem (by rw [length_segment, length_padded hle]) fun k hk hk' => ?_
    rw [length_segment] at hk
    have hbyte := h.name i l hl k hk
    rw [List.getD_eq_getElem _ _ hk'] at hbyte
    rw [getElem_segment, Nat.zero_add, ← hbyte]
    rfl
  have hkeep : ∀ c ∈ l, decide (c ≠ 0) = true := fun c hc => decide_eq_true (hnonzero c hc)
  rw [filename_eq, hfield, padded, List.takeWhile_append_of_pos hkeep, List.takeWhile_replicate]
  simp

/-- An entry that is not used has the empty name. -/
theorem filename_unused (h : HasNames img names) (hi : names.length ≤ i) (hlt : i < 63) :
    ((initFileSystem img).entry i).filename = [] := by
  have hzero : img (64 + 64 * i + 0) = 0 := h.unused _ (by omega) (by omega)
  exact (filename_eq_nil_iff _ i).mpr hzero

/-- `strcpy` ends inside the 64 bytes of the `directory_entry` it fills. -/
theorem strcpy_fits (h : HasNames img names) (hi : i < 63) :
    0 ∈ strcpy ((initFileSystem img).entryName i) 64 := by
  refine zero_mem_strcpy _ (k := 40) (by decide) ?_
  rcases lt_or_ge i names.length with hlt | hge
  · exact h.reserved i hlt 40 (by decide) (by decide)
  · exact h.unused (64 + 64 * i + 40) (by omega) (by omega)

end HasNames

/-- What lies behind the last entry begins with the length of inode 0. -/
theorem filename_behind (img : ℕ → Byte) :
    ((initFileSystem img).entry 63).filename = [] ↔ img 4096 = 0 :=
  filename_eq_nil_iff _ 63

/-! ## One call -/

/-- What `dir_read` answers at position `p`. -/
def answerAt (fs : FileSystem) (p : ℕ) : Int × Stores :=
  if p ≤ 63 then ((fs.entry p).filename.length, storesOf (padded (fs.entry p).filename))
  else (0, [])

section calls

variable {s : Kernel} {i : Fin 6} {fd : Fin 8} {p : ℕ}

theorem dirRead_entry (hpid : s.pid = i.val) (hfd : 2 ≤ fd.val) (hpos : s.filePos i fd = p)
    (hp : p ≤ 63) : dirRead fs fd.val s = .ok (answerAt fs p) (s.advance i fd 1) := by
  subst hpos
  have hlow : ¬ ((fd.val : Int) < 2 ∨ 7 < (fd.val : Int)) := by omega
  have hfound : fs.readDentryByIndex ((s.processes i).fdArr fd).filePos =
      some (fs.entry (s.filePos i fd)) := if_pos hp
  have hle := fs.filename_length_le (s.filePos i fd)
  have hnonzero := fs.filename_nonzero (s.filePos i fd)
  have hcopy := strncpy_cstr hnonzero (32 - (fs.entry (s.filePos i fd)).filename.length)
  rw [Nat.add_sub_cancel' hle] at hcopy
  rw [dirRead, if_neg hlow, Kernel.withSlot_of_eq hpid]
  simp only [fdIndex_val, hfound, strlen_eq hnonzero, hcopy, answerAt, if_pos hp,
    if_neg (not_lt.mpr hle)]
  rfl

theorem dirRead_end (hpid : s.pid = i.val) (hfd : 2 ≤ fd.val) (hpos : 63 < s.filePos i fd) :
    dirRead fs fd.val s = .ok (0, []) s := by
  have hlow : ¬ ((fd.val : Int) < 2 ∨ 7 < (fd.val : Int)) := by omega
  have hnone : fs.readDentryByIndex ((s.processes i).fdArr fd).filePos = none :=
    if_neg (not_le.mpr hpos)
  rw [dirRead, if_neg hlow, Kernel.withSlot_of_eq hpid]
  simp only [fdIndex_val, hnone]

/-- Call number `p` on a descriptor: it looks at entry `p`, and from the 65th call on
at none. -/
theorem dirRead_at (fs : FileSystem) (hpid : s.pid = i.val) (hfd : 2 ≤ fd.val)
    (hpos : s.filePos i fd = min p 64) : ∃ s', dirRead fs fd.val s = .ok (answerAt fs p) s' ∧
      s'.pid = i.val ∧ s'.filePos i fd = min (p + 1) 64 := by
  rcases le_or_gt p 63 with hp | hp
  · have hcur : s.filePos i fd = p := by omega
    refine ⟨_, dirRead_entry hpid hfd hcur hp, hpid, ?_⟩
    have hnext : (((s.processes i).fdArr fd).filePos + 1#32).toNat = p + 1 := by
      have hold : ((s.processes i).fdArr fd).filePos.toNat = p := hcur
      rw [BitVec.toNat_add, hold, BitVec.toNat_ofNat]
      omega
    have hmin : min (p + 1) 64 = p + 1 := by omega
    rw [hmin]
    simpa [Kernel.filePos, FileDescriptor.advance] using hnext
  · have hanswer : answerAt fs p = (0, []) := if_neg (by omega)
    rw [hanswer]
    exact ⟨s, dirRead_end hpid hfd (by omega), hpid, by omega⟩

/-- A descriptor just opened stands at the first entry. -/
theorem openFunction_start {s' : Kernel} {junk : FileOpTable} {name : Option (List Byte)}
    (hpid : s.pid = i.val) (hopen : openFunction L fs junk name s = .ok (fd.val : Int) s') :
    s'.pid = i.val ∧ 2 ≤ fd.val ∧ s'.filePos i fd = 0 := by
  rcases openFunction_cases hpid hopen with ⟨hret, -⟩ | ⟨fd', e, hfree, hret, rfl⟩
  · omega
  · obtain rfl : fd = fd' := Fin.ext (by omega)
    refine ⟨hpid, (OpenSet.mem_searched fd).mp (List.mem_of_find?_eq_some hfree), ?_⟩
    simp [Kernel.filePos, Kernel.openAt, openDescriptor]

/-- On a directory that has just been opened the system call is `dir_read`. -/
theorem readFunction_directory {s' : Kernel} {junk : FileOpTable} {name : Option (List Byte)}
    {e : DirectoryEntry} (hpid : s.pid = i.val) (hname : fs.lookup name = some e)
    (htype : e.filetype = 1) (hopen : openFunction L fs junk name s = .ok (fd.val : Int) s')
    (buf : Word) (nbytes : Int) :
    readFunction L fs fd.val buf nbytes s' = (dirRead fs fd.val s').bind (deliver L buf) := by
  obtain rfl := openFunction_opened hpid hname hopen
  have hcur : (s.openAt L junk e i fd).pid = i.val := hpid
  have hinside : ¬ ((fd.val : Int) < 0 ∨
      decide ((fd.val : Int) > (s.openAt L junk e i fd).fdInd.val) = true) := by
    simp [Kernel.openAt]
  have hgate : readGate fd.val (s.openAt L junk e i fd) =
      .ok (some (L.address .dirRead)) (s.openAt L junk e i fd) := by
    rw [readGate, gate, if_neg hinside, Kernel.withSlot_of_eq hcur, fdIndex_val]
    simp [Kernel.openAt, openDescriptor, htype, Link.openTable]
  rw [readFunction, hgate, Result.bind_ok]
  simp only [callRead, Link.handlerAt_address]

end calls

/-! ## Sequences of calls -/

/-- The answers of `dir_read` on descriptor `fd` of the process in slot `i`, in the
order of the calls. Between two calls anything may happen that leaves this
descriptor alone and the process in charge. -/
inductive Listing (fs : FileSystem) (i : Fin 6) (fd : Fin 8) (s₀ : Kernel) :
    Kernel → List (Int × Stores) → Prop where
  | start : Listing fs i fd s₀ s₀ []
  | call {s s' : Kernel} {as : List (Int × Stores)} {a : Int × Stores} :
      Listing fs i fd s₀ s as → dirRead fs fd.val s = .ok a s' → Listing fs i fd s₀ s' (as ++ [a])
  | between {s s' : Kernel} {as : List (Int × Stores)} :
      Listing fs i fd s₀ s as → s'.pid = s.pid →
      (s'.processes i).fdArr fd = (s.processes i).fdArr fd → Listing fs i fd s₀ s' as

/-- What call number `k` answers if the directory is listed in order: the name of
entry `k` and its length, and 0 behind the last entry. -/
def Visits (names : List (List Byte)) (k : ℕ) (a : Int × Stores) : Prop :=
  match names[k]? with
  | some l => a.1 = l.length ∧ a.2 = storesOf (padded l)
  | none => a.1 = 0

/-- Up to the last entry of the boot block the answers are right. -/
theorem visits_of_lt (h : HasNames img names) {k : ℕ} (hk : k < 63) :
    Visits names k (answerAt (initFileSystem img) k) := by
  rw [Visits, answerAt, if_pos (by omega)]
  rcases hname : names[k]? with _ | l
  · rw [h.filename_unused (List.getElem?_eq_none_iff.mp hname) hk]
    rfl
  · rw [h.filename hname]
    exact ⟨rfl, rfl⟩

/-- The 64th answer is right if inode 0 begins with a zero. -/
theorem visits_behind_iff (h : HasNames img names) :
    Visits names 63 (answerAt (initFileSystem img) 63) ↔ img 4096 = 0 := by
  have hnone : names[63]? = none := List.getElem?_eq_none h.length_le
  rw [Visits, hnone, answerAt, if_pos le_rfl, ← filename_behind, ← List.length_eq_zero_iff]
  exact Int.natCast_eq_zero

/-- From there on every answer is 0. -/
theorem visits_of_gt (h : HasNames img names) {k : ℕ} (hk : 63 < k) :
    Visits names k (answerAt (initFileSystem img) k) := by
  have hle := h.length_le
  have hnone : names[k]? = none := List.getElem?_eq_none (by omega)
  rw [Visits, hnone, answerAt, if_neg (by omega)]

namespace Listing

variable {s₀ s : Kernel} {i : Fin 6} {fd : Fin 8} {as : List (Int × Stores)}

/-- The position is the number of calls, until it stays at 64. -/
theorem inv (hpid : s₀.pid = i.val) (hfd : 2 ≤ fd.val) (hpos : s₀.filePos i fd = 0)
    (h : Listing fs i fd s₀ s as) : s.pid = i.val ∧ s.filePos i fd = min as.length 64 ∧
      ∀ k a, as[k]? = some a → a = answerAt fs k := by
  induction h with
  | start => exact ⟨hpid, hpos, fun k a ha => by simp at ha⟩
  | @call s s' as a _ hcall ih =>
    obtain ⟨hcur, hat, has⟩ := ih
    obtain ⟨t, hread, hcur', hat'⟩ := dirRead_at fs hcur hfd hat
    rw [hread] at hcall
    injection hcall with ha ht
    subst ha ht
    rw [List.length_append, List.length_singleton]
    refine ⟨hcur', hat', fun k b hb => ?_⟩
    rcases lt_or_ge k as.length with hk | hk
    · rw [List.getElem?_append_left hk] at hb
      exact has k b hb
    · rw [List.getElem?_append_right hk, List.getElem?_singleton] at hb
      split at hb
      · next hzero =>
        obtain rfl : k = as.length := by omega
        exact (Option.some.inj hb).symm
      · cases hb
  | between _ hsame hfdArr ih =>
    obtain ⟨hcur, hat, has⟩ := ih
    refine ⟨hsame.trans hcur, ?_, has⟩
    rw [Kernel.filePos, hfdArr]
    exact hat

/-- There is a run of any length. -/
theorem exists_length (fs : FileSystem) (hpid : s₀.pid = i.val) (hfd : 2 ≤ fd.val)
    (hpos : s₀.filePos i fd = 0) (n : ℕ) : ∃ s as, Listing fs i fd s₀ s as ∧ as.length = n := by
  induction n with
  | zero => exact ⟨s₀, [], start, rfl⟩
  | succ n ih =>
    obtain ⟨s, as, h, rfl⟩ := ih
    obtain ⟨hcur, hat, -⟩ := h.inv hpid hfd hpos
    obtain ⟨s', hread, -, -⟩ := dirRead_at fs hcur hfd hat
    exact ⟨s', _, h.call hread, by simp⟩

/-- The listing is right as long as the 64th call is not made, or finds a zero. -/
theorem visits_iff (himg : HasNames img names) (hpid : s₀.pid = i.val) (hfd : 2 ≤ fd.val)
    (hpos : s₀.filePos i fd = 0) (h : Listing (initFileSystem img) i fd s₀ s as) :
    (∀ k a, as[k]? = some a → Visits names k a) ↔ as.length ≤ 63 ∨ img 4096 = 0 := by
  obtain ⟨-, -, has⟩ := h.inv hpid hfd hpos
  constructor
  · intro hvisits
    refine or_iff_not_imp_left.mpr fun hmany => ?_
    have hcall := List.getElem?_eq_getElem (l := as) (i := 63) (by omega)
    exact (visits_behind_iff himg).mp (has 63 _ hcall ▸ hvisits 63 _ hcall)
  · rintro hcond k a ha
    have hlt := (List.getElem?_eq_some_iff.mp ha).1
    rw [has k a ha]
    rcases Nat.lt_trichotomy k 63 with hk | rfl | hk
    · exact visits_of_lt himg hk
    · exact (visits_behind_iff himg).mpr (hcond.resolve_left (by omega))
    · exact visits_of_gt himg hk

end Listing

/-! ## The loop of `ls` -/

/-- The loop of `ls`, up to the first call that returns 0: the names it prints. -/
def lsLoop (fs : FileSystem) (fd : Fin 8) : ℕ → Kernel → Option (List (List Byte))
  | 0, _ => none
  | fuel + 1, s =>
    match dirRead fs fd.val s with
    | .ok (cnt, st) s =>
      if cnt = 0 then some []
      else if cnt = -1 then none
      else (lsLoop fs fd fuel s).map fun rest => (st.map Prod.snd).take cnt.toNat :: rest
    | .fault _ _ => none

section loop

variable {s : Kernel} {i : Fin 6} {fd : Fin 8} {p : ℕ}

/-- It ends at an answer of 0. -/
theorem lsLoop_end (hpid : s.pid = i.val) (hfd : 2 ≤ fd.val) (hpos : s.filePos i fd = min p 64)
    (hzero : (answerAt fs p).1 = 0) : lsLoop fs fd 1 s = some [] := by
  obtain ⟨s', hread, -, -⟩ := dirRead_at fs hpid hfd hpos
  rw [lsLoop, hread]
  exact if_pos hzero

/-- It prints a name that is not empty and goes on with the next entry. -/
theorem lsLoop_name (fs : FileSystem) (hpid : s.pid = i.val) (hfd : 2 ≤ fd.val)
    (hpos : s.filePos i fd = min p 64) (hp : p ≤ 63) (hname : (fs.entry p).filename ≠ []) :
    ∃ s' : Kernel, s'.pid = i.val ∧ s'.filePos i fd = min (p + 1) 64 ∧
      ∀ fuel, lsLoop fs fd (fuel + 1) s =
        (lsLoop fs fd fuel s').map fun rest => (fs.entry p).filename :: rest := by
  obtain ⟨s', hread, hpid', hpos'⟩ := dirRead_at fs hpid hfd hpos
  have hlen : 0 < (fs.entry p).filename.length := List.length_pos_iff.mpr hname
  have hpositive : ((fs.entry p).filename.length : Int) ≠ 0 := by omega
  have hsuccess : ((fs.entry p).filename.length : Int) ≠ -1 := by omega
  refine ⟨s', hpid', hpos', fun fuel => ?_⟩
  rw [lsLoop, hread, answerAt, if_pos hp]
  simp only [if_neg hpositive, if_neg hsuccess, map_snd_storesOf, Int.toNat_natCast, padded,
    List.take_left]

/-- From entry `p` on it prints the names that are left, and then perhaps one more. -/
theorem lsLoop_names (h : HasNames img names) (hpid : s.pid = i.val) (hfd : 2 ≤ fd.val)
    (hpos : s.filePos i fd = min p 64) (hp : p ≤ names.length) :
    ∃ fuel extra, lsLoop (initFileSystem img) fd fuel s = some (names.drop p ++ extra) ∧
      (extra = [] ↔ names.length < 63 ∨ img 4096 = 0) := by
  have hle := h.length_le
  -- by induction on the number of names that are left
  obtain ⟨m, hm⟩ : ∃ m, p + m = names.length := ⟨names.length - p, by omega⟩
  induction m generalizing s p with
  | zero =>
    obtain rfl : p = names.length := hm
    have hnone : names[names.length]? = none := List.getElem?_eq_none le_rfl
    rw [List.drop_length]
    by_cases hcond : names.length < 63 ∨ img 4096 = 0
    · -- the answer behind the last name is 0
      have hvisits : Visits names names.length
          (answerAt (initFileSystem img) names.length) := by
        rcases Nat.eq_or_lt_of_le hle with hfull | hroom
        · rw [hfull]
          exact (visits_behind_iff h).mpr (hcond.resolve_left (by omega))
        · exact visits_of_lt h hroom
      rw [Visits, hnone] at hvisits
      exact ⟨1, [], lsLoop_end hpid hfd hpos hvisits, iff_of_true rfl hcond⟩
    · -- one entry more, and then the index is out of range
      obtain ⟨hnotroom, hinode⟩ := not_or.mp hcond
      have hfull : names.length = 63 := by omega
      have hname : ((initFileSystem img).entry names.length).filename ≠ [] := by
        rw [hfull]
        exact fun hnil => hinode ((filename_behind img).mp hnil)
      obtain ⟨s', hpid', hpos', hloop⟩ := lsLoop_name _ hpid hfd hpos hle hname
      have hzero : (answerAt (initFileSystem img) (names.length + 1)).1 = 0 := by
        rw [answerAt, if_neg (by omega)]
      refine ⟨2, [((initFileSystem img).entry names.length).filename], ?_,
        iff_of_false (List.cons_ne_nil _ _) hcond⟩
      rw [hloop, lsLoop_end hpid' hfd hpos' hzero]
      rfl
  | succ m ih =>
    have hlt : p < names.length := by omega
    have hget := List.getElem?_eq_getElem hlt
    have hvalid := h.valid _ (List.getElem_mem hlt)
    have hname := h.filename hget
    obtain ⟨s', hpid', hpos', hloop⟩ := lsLoop_name (initFileSystem img) hpid hfd hpos
      (by omega) (hname ▸ hvalid.ne_nil)
    obtain ⟨fuel, extra, hrest, hextra⟩ := ih hpid' hpos' (by omega) (by omega)
    refine ⟨fuel + 1, extra, ?_, hextra⟩
    rw [hloop, hrest, hname, List.drop_eq_getElem_cons hlt]
    rfl

end loop

/-- Listing a directory of at most 63 names on a descriptor that has just been opened.
Every call of `dir_read` returns, and the calls made so far have listed the names in
order, each once, and answered 0 behind the last, exactly if there were at most 63 of
them or inode 0 begins with a zero. The loop of `ls` ends, and prints the names exactly
if there are fewer than 63 or inode 0 begins with a zero. -/
theorem listing_iff (himg : HasNames img names) {s₀ s : Kernel} {i : Fin 6} {fd : Fin 8}
    {junk : FileOpTable} {name : Option (List Byte)} (hpid : s₀.pid = i.val)
    (hopen : openFunction L (initFileSystem img) junk name s₀ = .ok (fd.val : Int) s) :
    (∀ t as, Listing (initFileSystem img) i fd s t as →
      (∃ a t', dirRead (initFileSystem img) fd.val t = .ok a t') ∧
      ((∀ k a, as[k]? = some a → Visits names k a) ↔ as.length ≤ 63 ∨ img 4096 = 0)) ∧
    ∃ fuel l, lsLoop (initFileSystem img) fd fuel s = some l ∧
      (l = names ↔ names.length < 63 ∨ img 4096 = 0) := by
  obtain ⟨hcur, hfd, hpos⟩ := openFunction_start hpid hopen
  refine ⟨fun t as h => ⟨?_, h.visits_iff himg hcur hfd hpos⟩, ?_⟩
  · obtain ⟨hcur', hat, -⟩ := h.inv hcur hfd hpos
    obtain ⟨t', hread, -, -⟩ := dirRead_at (initFileSystem img) hcur' hfd hat
    exact ⟨_, t', hread⟩
  · obtain ⟨fuel, extra, hloop, hextra⟩ :=
      lsLoop_names himg hcur hfd (p := 0) hpos (Nat.zero_le _)
    refine ⟨fuel, _, hloop, ?_⟩
    rw [← hextra, List.drop_zero, List.append_right_eq_self]

/-- The image of the other examples with its directory filled up: `.` follows the three
files, and then one-letter names. -/
def Sample.fullImage (a : ℕ) : Byte :=
  if a = 0 then 63
  else if 256 ≤ a ∧ a < 4096 then
    if a % 64 = 0 then BitVec.ofNat 8 (a / 64 + 42) else if a = 288 then 1 else 0
  else Sample.image a

/-- Its names. -/
def Sample.fullNames : List (List Byte) :=
  [shellCommand, Sample.notes, Sample.rtc] ++
    (List.range 60).map fun j => [BitVec.ofNat 8 (j + 46)]

/-- The file system on it. -/
def Sample.fullFiles : FileSystem := initFileSystem Sample.fullImage

/-- The base shell with the directory open on descriptor 2. -/
def Sample.listing : Kernel :=
  (executeFunction Sample.link Sample.fullFiles Sample.site (some shellCommand)
    Sample.atBoot).2.openAt Sample.link ⟨0, 0, 0, 0⟩ (Sample.fullFiles.entry 3) 0 2

theorem Sample.open_directory : openFunction Sample.link Sample.fullFiles ⟨0, 0, 0, 0⟩
    (some [0x2E]) (executeFunction Sample.link Sample.fullFiles Sample.site (some shellCommand)
      Sample.atBoot).2 = .ok (2 : Fin 8).val Sample.listing :=
  openFunction_found (by decide) (by decide) (by decide)

/-- The entries from number 3 on. -/
theorem Sample.fullImage_entry {j k : ℕ} (hj : j < 60) (hk : k < 64) :
    Sample.fullImage (64 + 64 * (j + 3) + k) =
      if k = 0 then BitVec.ofNat 8 (j + 46) else if j = 0 ∧ k = 32 then 1 else 0 := by
  have hblock : (64 + 64 * (j + 3) + k) / 64 + 42 = j + 46 := by omega
  have hbyte : (64 + 64 * (j + 3) + k) % 64 = k := by omega
  have htype : 64 + 64 * (j + 3) + k = 288 ↔ j = 0 ∧ k = 32 := by omega
  rw [Sample.fullImage, if_neg (by omega), if_pos (by omega), hbyte, hblock]
  simp only [htype]

theorem Sample.fullImage_hasNames : HasNames Sample.fullImage Sample.fullNames where
  dirCount := by decide
  length_le := by decide
  valid l hl := by
    rcases List.mem_append.mp hl with hfile | hletter
    · have hfiles : ∀ l ∈ [shellCommand, Sample.notes, Sample.rtc],
          l ≠ [] ∧ l.length ≤ 32 ∧ ∀ c ∈ l, c ≠ 0 := by decide
      obtain ⟨hne, hle, hnonzero⟩ := hfiles l hfile
      exact ⟨hne, hle, hnonzero⟩
    · obtain ⟨j, hj, rfl⟩ := List.mem_map.mp hletter
      have hlt := List.mem_range.mp hj
      refine ⟨List.cons_ne_nil _ _, by rw [List.length_singleton]; decide, fun c hc hzero => ?_⟩
      obtain rfl := List.mem_singleton.mp hc
      have hnat : (j + 46) % 2 ^ 8 = 0 := congrArg BitVec.toNat hzero
      omega
  name i l hl k hk := by
    rcases lt_or_ge i 3 with hi | hi
    · have hfiles : ∀ i < 3, ∀ k < 32, Sample.fullImage (64 + 64 * i + k) =
          (padded (Sample.fullNames.getD i [])).getD k 0 := by decide
      have hget : Sample.fullNames.getD i [] = l := by
        rw [List.getD_eq_getElem?_getD, hl, Option.getD_some]
      rw [hfiles i hi k hk, hget]
    · obtain ⟨j, rfl⟩ : ∃ j, i = j + 3 := ⟨i - 3, by omega⟩
      have hj : j < 60 := by
        have hlen : Sample.fullNames.length = 63 := by decide
        have hlt := (List.getElem?_eq_some_iff.mp hl).1
        omega
      have hname : Sample.fullNames[j + 3]? = some [BitVec.ofNat 8 (j + 46)] := by
        rw [Sample.fullNames, List.getElem?_append_right (Nat.le_add_left 3 j)]
        simp [hj]
      obtain rfl := Option.some.inj (hl.symm.trans hname)
      rw [Sample.fullImage_entry hj (by omega)]
      rcases k with _ | k
      · rfl
      · rw [if_neg (Nat.succ_ne_zero k), if_neg (by omega), padded, List.singleton_append,
          List.getD_cons_succ, List.getD_replicate _ (by rw [List.length_singleton]; omega)]
  reserved i hi k hk hk' := by
    have hlen : Sample.fullNames.length = 63 := by decide
    rcases lt_or_ge i 3 with hlt | hge
    · have hfiles : ∀ i < 3, ∀ k < 64, 40 ≤ k → Sample.fullImage (64 + 64 * i + k) = 0 := by
        decide
      exact hfiles i hlt k hk hk'
    · obtain ⟨j, rfl⟩ : ∃ j, i = j + 3 := ⟨i - 3, by omega⟩
      rw [Sample.fullImage_entry (by omega) hk, if_neg (by omega), if_neg (by omega)]
  unused a ha ha' := by
    have hlen : Sample.fullNames.length = 63 := by decide
    omega

/-- A directory filled to its capacity: the 64th call does not answer 0, and `ls` prints
the length of inode 0 as one more name. -/
theorem full_directory_not_listed : HasNames Sample.fullImage Sample.fullNames ∧
    openFunction Sample.link Sample.fullFiles ⟨0, 0, 0, 0⟩ (some [0x2E])
      (executeFunction Sample.link Sample.fullFiles Sample.site (some shellCommand)
        Sample.atBoot).2 = .ok (2 : Fin 8).val Sample.listing ∧
    (¬ ∀ s as, Listing Sample.fullFiles 0 2 Sample.listing s as →
      ∀ k a, as[k]? = some a → Visits Sample.fullNames k a) ∧
    ∃ fuel l, lsLoop Sample.fullFiles 2 fuel Sample.listing = some l ∧ l ≠ Sample.fullNames := by
  have hinode : ¬ Sample.fullImage 4096 = 0 := by decide
  obtain ⟨hcur, hfd, hpos⟩ := openFunction_start (i := 0) (by decide) Sample.open_directory
  refine ⟨Sample.fullImage_hasNames, Sample.open_directory, fun hall => ?_, ?_⟩
  · obtain ⟨s, as, h, hlen⟩ := Listing.exists_length Sample.fullFiles hcur hfd hpos 64
    have hcond := (h.visits_iff Sample.fullImage_hasNames hcur hfd hpos).mp (hall s as h)
    exact hcond.elim (by omega) hinode
  · obtain ⟨fuel, extra, hloop, hextra⟩ :=
      lsLoop_names Sample.fullImage_hasNames hcur hfd (p := 0) hpos (Nat.zero_le _)
    refine ⟨fuel, _, hloop, fun heq => ?_⟩
    rw [List.drop_zero, List.append_right_eq_self, hextra] at heq
    exact heq.elim (by decide) hinode

/-- The first 63 calls list that directory. -/
theorem listing_iff_sample : ∃ s as, Listing Sample.fullFiles 0 2 Sample.listing s as ∧
    as.length = 63 ∧ ∀ k a, as[k]? = some a → Visits Sample.fullNames k a := by
  obtain ⟨hcur, hfd, hpos⟩ := openFunction_start (i := 0) (by decide) Sample.open_directory
  obtain ⟨s, as, h, hlen⟩ := Listing.exists_length Sample.fullFiles hcur hfd hpos 63
  obtain ⟨hcalls, -⟩ :=
    listing_iff (i := 0) Sample.fullImage_hasNames (by decide) Sample.open_directory
  exact ⟨s, as, h, hlen, ((hcalls s as h).2).mpr (Or.inl hlen.le)⟩

end Os391
