import Mathlib.Algebra.Order.Ring.Int
import Os391.LineInput
import Os391.Lookup

/-!
# What a read reports

A `read` that returns a number says how many bytes the caller finds in the buffer, and
nothing behind the `nbytes` bytes of the buffer is touched. `driverRead` is the call with
the stores of the driver in view. The keyboard may keep the caller waiting, and between any
two steps of the wait and of the copy that follows everything may change. Only `dir_read`
stores more than it was asked for: the 32 bytes of a name, whatever `nbytes` is, and before
that, in a local variable, as much as `strcpy` finds in the directory.

A `read` that fails reports -1. `filesystem_read` adds the value `read_data` returned to
the position before it looks whether the value is an error, so a failed call moves the
position back, and repeated often enough the error becomes the end of the file.
-/

namespace Os391

open Bytes Segment FileSystem

variable {L : Link} {fs : FileSystem} {s : Kernel} {fd nbytes : Int}

/-! ## `read_function` with its stores in view -/

/-- What the driver behind a read pointer returns, and what it stores at which offset from the
caller's buffer; `none` if it does not return now. -/
def driverRead (L : Link) (fs : FileSystem) (ptr : Word) (fd nbytes : Int) (s : Kernel) :
    Result (Option (Int × Stores)) :=
  match L.handlerAt ptr with
  | some .filesystemRead => (filesystemRead fs fd nbytes s).bind fun a s => .ok (some a) s
  | some .dirRead => (dirRead fs fd s).bind fun a s => .ok (some a) s
  | some .terminalRead => .ok (terminalRead nbytes s).1 (terminalRead nbytes s).2
  | some .rtcRead => .ok (if (rtcRead s).1 then some (0, []) else none) (rtcRead s).2
  | some .invalidFunction => .ok (some (-1, [])) s
  | _ => .ok none s

/-- `read_function` up to the stores. -/
def readAnswer (L : Link) (fs : FileSystem) (fd nbytes : Int) (s : Kernel) :
    Result (Option (Int × Stores)) :=
  (readGate fd s).bind fun ptr? s =>
    match ptr? with
    | none => .ok (some (-1, [])) s
    | some ptr => driverRead L fs ptr fd nbytes s

section answer

variable {buf ptr : Word} {r : Int} {s' : Kernel}

theorem deliver_ret_iff (x : Result (Int × Stores)) :
    x.bind (deliver L buf) = .ok (.ret r) s' ↔ ∃ st t,
      (x.bind fun a s => .ok (some a) s) = .ok (some (r, st)) t ∧ s' = t.storeBytes L buf st := by
  rcases x with ⟨⟨r', st⟩, t⟩ | ⟨i, t⟩
  · rw [Result.bind_ok, Result.bind_ok, deliver]
    constructor
    · intro h
      injection h with hret hstate
      injection hret with hret
      subst hret
      exact ⟨st, t, rfl, hstate.symm⟩
    · rintro ⟨st', t', heq, rfl⟩
      injection heq with hpair hstate
      obtain ⟨rfl, rfl⟩ := Prod.mk.inj (Option.some.inj hpair)
      rw [hstate]
  · exact iff_of_false (by intro h; cases h) (by rintro ⟨_, _, h, _⟩; cases h)

/-- The call through the read pointer returns what the driver returns, and carries out its
stores. -/
theorem callRead_ret_iff : callRead L fs ptr fd buf nbytes s = .ok (.ret r) s' ↔ ∃ st t,
    driverRead L fs ptr fd nbytes s = .ok (some (r, st)) t ∧ s' = t.storeBytes L buf st := by
  have hnone : ∀ (a : Answer) (t : Kernel), (∀ v, a ≠ .ret v) →
      (Result.ok a t = .ok (.ret r) s' ↔ ∃ st t',
        (Result.ok none t : Result (Option (Int × Stores))) = .ok (some (r, st)) t' ∧
          s' = t'.storeBytes L buf st) := fun a t ha =>
    iff_of_false (fun h => ha r (by injection h)) (by rintro ⟨_, _, h, _⟩; cases h)
  rw [callRead, driverRead]
  generalize L.handlerAt ptr = handler
  rcases handler with _ | h
  · exact hnone _ _ (by intro v h; cases h)
  · cases h with
    | filesystemRead => exact deliver_ret_iff _
    | dirRead => exact deliver_ret_iff _
    | terminalRead =>
      rcases terminalRead nbytes s with ⟨_ | a, t⟩
      · exact hnone _ _ (by intro v h; cases h)
      · exact deliver_ret_iff (.ok a t)
    | rtcRead =>
      rcases rtcRead s with ⟨_ | _, t⟩
      · exact hnone _ _ (by intro v h; cases h)
      · exact deliver_ret_iff (.ok (0, []) t)
    | invalidFunction => exact deliver_ret_iff (.ok (-1, []) s)
    | _ => exact hnone _ _ (by intro v h; cases h)

/-- The same for the whole call. -/
theorem readFunction_ret_iff : readFunction L fs fd buf nbytes s = .ok (.ret r) s' ↔ ∃ st t,
    readAnswer L fs fd nbytes s = .ok (some (r, st)) t ∧ s' = t.storeBytes L buf st := by
  rw [readFunction, readAnswer]
  rcases readGate fd s with ⟨_ | ptr, t⟩ | ⟨i, t⟩
  · exact deliver_ret_iff (.ok (-1, []) t)
  · exact callRead_ret_iff
  · exact iff_of_false (by intro h; cases h) (by rintro ⟨_, _, h, _⟩; cases h)

/-- The call gets to the driver of a descriptor that is not free and has a number up to
`fd_ind`. -/
theorem readGate_eq_some_iff : readGate fd s = .ok (some ptr) s' ↔
    ∃ (i : Fin 6) (k : Fin 8), s.pid = i.val ∧ fd = k.val ∧ k ≤ s.fdInd ∧
      ((s.processes i).fdArr k).avail ≠ 1 ∧
      ptr = ((s.processes i).fdArr k).fileOpTable.readPtr ∧ s' = s := by
  rw [readGate, gate]
  constructor
  · intro h
    split at h
    · cases h
    · next hin =>
      simp only [decide_eq_true_eq, not_or, not_lt] at hin
      obtain ⟨hlow, hhigh⟩ := hin
      have hind := s.fdInd.isLt
      have hval := fdIndex_val_eq fd hlow (by omega)
      rcases hslot : slot? s.pid with _ | i
      · rw [Kernel.withSlot, hslot] at h
        cases h
      · have hpid := slot?_eq_some hslot
        rw [Kernel.withSlot_of_eq hpid] at h
        dsimp only at h
        split at h
        · cases h
        · next havail =>
          injection h with hptr hstate
          refine ⟨i, fdIndex fd, hpid, hval.symm, ?_, havail, (Option.some.inj hptr).symm,
            hstate.symm⟩
          rw [Fin.le_def]
          omega
  · rintro ⟨i, k, hpid, rfl, hle, havail, rfl, hstate⟩
    subst s'
    rw [Fin.le_def] at hle
    have hin : ¬ ((k.val : Int) < 0 ∨ decide ((k.val : Int) > s.fdInd.val) = true) := by
      simp only [decide_eq_true_eq]
      omega
    rw [if_neg hin, Kernel.withSlot_of_eq hpid, fdIndex_val]
    exact if_neg havail

end answer

/-! ## What a read may store -/

/-- The states of a `terminal_read` of `n` bytes, whatever happens between two of its steps. -/
inductive InRead (n : Int) : Call → Prop where
  | waits : InRead n (.waiting n)
  | step {c : Call} (k : Kernel) : InRead n c → InRead n (c.advance k).2.1

/-- A `read` that was called in state `s` returns `r` and has stored `st`: right away, or, for
the keyboard and the RTC, after it has waited. -/
inductive ReadReturns (L : Link) (fs : FileSystem) (fd nbytes : Int) (s : Kernel) :
    Int → Stores → Prop where
  | now {r : Int} {st : Stores} {s' : Kernel} :
      readAnswer L fs fd nbytes s = .ok (some (r, st)) s' → ReadReturns L fs fd nbytes s r st
  | keyboard {c : Call} {k : Kernel} {got : List Byte} :
      readGate fd s = .ok (some (L.address .terminalRead)) s → InRead nbytes c →
      (c.advance k).2.2 = some got → ReadReturns L fs fd nbytes s got.length (storesOf got)
  | rtc : readGate fd s = .ok (some (L.address .rtcRead)) s → ReadReturns L fs fd nbytes s 0 []

/-- The caller's bound is kept. -/
structure WithinRequest (nbytes r : Int) (st : Stores) : Prop where
  ret : r ≤ nbytes
  stores : ∀ x ∈ st, (x.1 : Int) < nbytes

/-- Nothing at all is stored. -/
theorem WithinRequest.nothing (h : 0 ≤ nbytes) : WithinRequest nbytes 0 [] :=
  ⟨h, fun _ hx => absurd hx List.not_mem_nil⟩

theorem WithinRequest.of_fill {f : ℕ → Byte} {p n : ℕ} (h : (n : Int) ≤ nbytes) :
    WithinRequest nbytes n (fill f p 0 n) := by
  refine ⟨h, fun x hx => ?_⟩
  obtain ⟨-, hlt, -⟩ := (mem_fill f).mp hx
  omega

/-- A byte is copied only while there is room for it. -/
theorem InRead.room {c : Call} (h : InRead nbytes c) (hn : 0 ≤ nbytes) : ∀ n got,
    c = .copying n got → n = nbytes ∧ (got.length : Int) ≤ nbytes := by
  suffices hinv : c = .waiting nbytes ∨ c = .idle ∨
      ∃ got, c = .copying nbytes got ∧ (got.length : Int) ≤ nbytes by
    rintro n got rfl
    rcases hinv with h | h | ⟨got', h, hroom⟩
    · cases h
    · cases h
    · cases h
      exact ⟨rfl, hroom⟩
  induction h with
  | waits => exact Or.inl rfl
  | step k _ ih =>
    rcases ih with rfl | rfl | ⟨got, rfl, hroom⟩
    · rw [Call.advance]
      split
      · exact Or.inl rfl
      · exact Or.inr (Or.inr ⟨[], rfl, hn⟩)
    · exact Or.inr (Or.inl rfl)
    · rw [Call.advance]
      split
      · next hmore =>
        refine Or.inr (Or.inr ⟨_, rfl, ?_⟩)
        rw [List.length_append, List.length_singleton]
        omega
      · exact Or.inr (Or.inl rfl)

/-- What a `terminal_read` has copied when it returns. -/
theorem InRead.returns {c : Call} {k : Kernel} {got : List Byte} (h : InRead nbytes c)
    (hn : 0 ≤ nbytes) (hgot : (c.advance k).2.2 = some got) : (got.length : Int) ≤ nbytes := by
  rcases c with _ | bs | n | ⟨n, got'⟩
  · cases hgot
  · rcases bs with _ | ⟨b, bs⟩ <;> cases hgot
  · rw [Call.advance] at hgot
    split at hgot <;> cases hgot
  · rw [Call.advance] at hgot
    split at hgot
    · cases hgot
    · cases hgot
      exact (h.room hn n got rfl).2

section drivers

variable {r : Int} {st : Stores} {s' : Kernel}

/-- `filesystem_read` stores as much as it is asked for, or nothing. -/
theorem filesystemRead_within (hn : 0 ≤ nbytes) (hlt : nbytes < 2 ^ 31)
    (h : filesystemRead fs fd nbytes s = .ok (r, st) s') (hr : 0 ≤ r) :
    WithinRequest nbytes r st := by
  obtain ⟨n, rfl⟩ : ∃ n : ℕ, nbytes = n := ⟨nbytes.toNat, by omega⟩
  have hnat : (BitVec.ofInt 32 (n : Int)).toNat = n := by
    rw [BitVec.ofInt_natCast, BitVec.toNat_ofNat]
    omega
  rw [filesystemRead, Kernel.withSlot] at h
  split at h
  · next i _ =>
    dsimp only at h
    rw [hnat] at h
    split at h
    · cases h
      exact .nothing hn
    · next hpos =>
      rw [if_neg fun hneg => absurd hneg.1 (by omega)] at h
      by_cases hinode : ((s.processes i).fdArr (fdIndex fd)).inodeNum.toNat < fs.inodeCount
      · have hidx := Nat.div_le_div_right (c := 4096) (not_le.mp hpos).le
        obtain ⟨hret, hstores⟩ := fs.readData_eq _ _ n hinode hidx (by omega)
        rw [hret, hstores, if_neg (by omega)] at h
        cases h
        exact .of_fill le_rfl
      · have hfails : (fs.readData ((s.processes i).fdArr (fdIndex fd)).inodeNum.toNat
            ((s.processes i).fdArr (fdIndex fd)).filePos.toNat n).ret = -1 := by
          rw [readData, if_pos (not_lt.mp hinode)]
        rw [hfails, if_pos (by decide)] at h
        cases h
        omega
  · cases h

/-- `terminal_read` copies no more than it is asked for. -/
theorem terminalRead_within (hn : 0 ≤ nbytes) (h : (terminalRead nbytes s).1 = some (r, st)) :
    WithinRequest nbytes r st := by
  rw [terminalRead] at h
  dsimp only at h
  split at h
  · cases h
  · cases h
    exact .of_fill (by omega)

/-- `dir_read` stores the whole name field. -/
theorem dirRead_within_iff {i : Fin 6} {k : Fin 8} (hpid : s.pid = i.val) (hk : 2 ≤ k.val)
    (hn : 0 ≤ nbytes) (h : dirRead fs k.val s = .ok (r, st) s') :
    WithinRequest nbytes r st ↔ ¬ (s.filePos i k ≤ 63 ∧ nbytes < 32) := by
  rcases le_or_gt (s.filePos i k) 63 with hpos | hpos
  · rw [dirRead_entry hpid hk rfl hpos, answerAt, if_pos hpos] at h
    have hlen := fs.filename_length_le (s.filePos i k)
    cases h
    constructor
    · rintro ⟨-, hstores⟩ ⟨-, hshort⟩
      -- the last byte of the field
      have hmem : (31, (padded (fs.entry (s.filePos i k)).filename).getD (0 + (31 - 0)) 0) ∈
          storesOf (padded (fs.entry (s.filePos i k)).filename) := by
        refine (mem_fill _).mpr ⟨Nat.zero_le _, ?_, rfl⟩
        rw [length_padded hlen]
        omega
      have hlast := hstores _ hmem
      dsimp only at hlast
      omega
    · intro hroom
      have hwide : 32 ≤ nbytes := by omega
      refine ⟨by omega, fun x hx => ?_⟩
      obtain ⟨-, hlt, -⟩ := (mem_fill _).mp hx
      rw [length_padded hlen] at hlt
      omega
  · rw [dirRead_end hpid hk hpos] at h
    cases h
    exact iff_of_true (.nothing hn) (by omega)

end drivers

/-- The call gets to `dir_read` at entry `p` of the directory. -/
def ReadsEntry (L : Link) (fd : Int) (s : Kernel) (p : ℕ) : Prop :=
  ∃ (i : Fin 6) (k : Fin 8), s.pid = i.val ∧ fd = k.val ∧ 2 ≤ k.val ∧ k ≤ s.fdInd ∧
    ((s.processes i).fdArr k).avail ≠ 1 ∧
    ((s.processes i).fdArr k).fileOpTable.readPtr = L.address .dirRead ∧
    s.filePos i k = p ∧ p ≤ 63

/-- It does so with a buffer that is smaller than the name field. -/
def ShortEntry (L : Link) (fd nbytes : Int) (s : Kernel) : Prop :=
  ∃ p, ReadsEntry L fd s p ∧ nbytes < 32

/-- The call stores only where it may: what it returns is within the request, and the
lookup of a directory entry fills the 64 bytes of the local `temp` and nothing behind them,
however far `strcpy` may run. -/
structure StoresInside (L : Link) (fs : FileSystem) (fd nbytes : Int) (s : Kernel) : Prop where
  buffer : ∀ r st, ReadReturns L fs fd nbytes s r st → 0 ≤ r → WithinRequest nbytes r st
  temp : ∀ p, ReadsEntry L fd s p → ∀ fuel, ∀ x ∈ fs.dentryStores p fuel, x.1 < 64

/-- What a driver returns is within the request, unless it is `dir_read` at such an entry. -/
theorem driverRead_within {i : Fin 6} {k : Fin 8} {ptr : Word} {r : Int} {st : Stores}
    {s' : Kernel} (hpid : s.pid = i.val) (hn : 0 ≤ nbytes) (hlt : nbytes < 2 ^ 31)
    (hdir : L.handlerAt ptr = some .dirRead → 2 ≤ k.val → ¬ (s.filePos i k ≤ 63 ∧ nbytes < 32))
    (h : driverRead L fs ptr k.val nbytes s = .ok (some (r, st)) s') (hr : 0 ≤ r) :
    WithinRequest nbytes r st := by
  rw [driverRead] at h
  split at h
  · rcases hread : filesystemRead fs k.val nbytes s with ⟨a, t⟩ | ⟨j, t⟩ <;> rw [hread] at h
    · cases h
      exact filesystemRead_within hn hlt hread hr
    · cases h
  · next hptr =>
    rcases hread : dirRead fs k.val s with ⟨a, t⟩ | ⟨j, t⟩ <;> rw [hread] at h
    · cases h
      rcases lt_or_ge k.val 2 with hk | hk
      · have hlow : (k.val : Int) < 2 ∨ 7 < (k.val : Int) := by omega
        rw [dirRead, if_pos hlow] at hread
        cases hread
        omega
      · exact (dirRead_within_iff hpid hk hn hread).mpr (hdir hptr hk)
    · cases h
  · injection h with hread
    exact terminalRead_within hn hread
  · injection h with hread
    split at hread
    · cases hread
      exact .nothing hn
    · cases hread
  · cases h
    omega
  · cases h

/-- Such a call stores behind the buffer. -/
theorem ShortEntry.overruns (fs : FileSystem) (hn : 0 ≤ nbytes) (h : ShortEntry L fd nbytes s) :
    ∃ r st, ReadReturns L fs fd nbytes s r st ∧ 0 ≤ r ∧ ¬ WithinRequest nbytes r st := by
  obtain ⟨p, ⟨i, k, hpid, rfl, hk, hle, havail, hptr, rfl, hpos⟩, hshort⟩ := h
  have hread : dirRead fs k.val s = .ok (answerAt fs (s.filePos i k)) (s.advance i k 1) :=
    dirRead_entry hpid hk rfl hpos
  have hgate : readGate k.val s = .ok (some (L.address .dirRead)) s :=
    readGate_eq_some_iff.mpr ⟨i, k, hpid, rfl, hle, havail, hptr.symm, rfl⟩
  have hanswer : readAnswer L fs k.val nbytes s =
      .ok (some (answerAt fs (s.filePos i k))) (s.advance i k 1) := by
    rw [readAnswer, hgate, Result.bind_ok]
    simp only [driverRead, Link.handlerAt_address, hread, Result.bind_ok]
  have hret : 0 ≤ (answerAt fs (s.filePos i k)).1 := by
    rw [answerAt, if_pos hpos]
    exact Int.natCast_nonneg _
  refine ⟨_, _, .now hanswer, hret, fun hwithin => ?_⟩
  exact (dirRead_within_iff hpid hk hn hread).mp hwithin ⟨hpos, hshort⟩

/-- Every other call stays within it. -/
theorem ReadReturns.within {r : Int} {st : Stores} (h : ReadReturns L fs fd nbytes s r st)
    (hn : 0 ≤ nbytes) (hlt : nbytes < 2 ^ 31) (hnot : ¬ ShortEntry L fd nbytes s) (hr : 0 ≤ r) :
    WithinRequest nbytes r st := by
  cases h with
  | now hanswer =>
    rw [readAnswer] at hanswer
    rcases hgate : readGate fd s with ⟨_ | ptr, t⟩ | ⟨i, t⟩ <;> rw [hgate] at hanswer
    · cases hanswer
      omega
    · obtain ⟨i, k, hpid, rfl, hle, havail, rfl, rfl⟩ := readGate_eq_some_iff.mp hgate
      refine driverRead_within hpid hn hlt (fun hptr hk hshort => ?_) hanswer hr
      have haddr := L.address_of_handlerAt hptr
      exact hnot ⟨_, ⟨i, k, hpid, rfl, hk, hle, havail, haddr.symm, rfl, hshort.1⟩, hshort.2⟩
    · cases hanswer
  | keyboard _ hc hgot => exact .of_fill (hc.returns hn hgot)
  | rtc _ => exact .nothing hn

/-- In every state, for every image, every descriptor and every `nbytes` that is not negative:
a `read_function` that returns at once carries out the stores of its answer. Whatever a
`read` returns, and whenever it does, it returns and stores at most `nbytes` bytes, and it
stores nothing behind its local variable, exactly unless it is a read of a directory entry
with `nbytes` less than 32, or of one whose name does not end within 64 bytes. -/
theorem read_within_iff (L : Link) (fs : FileSystem) (fd : Int) (s : Kernel) {nbytes : Int}
    (hn : 0 ≤ nbytes) (hlt : nbytes < 2 ^ 31) :
    (∀ buf r s', readFunction L fs fd buf nbytes s = .ok (.ret r) s' →
      ∃ (st : Stores) (t : Kernel), ReadReturns L fs fd nbytes s r st ∧
        s' = t.storeBytes L buf st) ∧
    (StoresInside L fs fd nbytes s ↔ ∀ p, ReadsEntry L fd s p → 32 ≤ nbytes ∧ fs.NameEnds p) := by
  refine ⟨fun buf r s' h => ?_, fun hinside p hp => ⟨?_, ?_⟩, fun hcond => ⟨?_, ?_⟩⟩
  · obtain ⟨st, t, hanswer, hstate⟩ := readFunction_ret_iff.mp h
    exact ⟨st, t, .now hanswer, hstate⟩
  · by_contra hshort
    have hentry : ShortEntry L fd nbytes s := ⟨p, hp, not_le.mp hshort⟩
    obtain ⟨r, st, h, hr, hover⟩ := hentry.overruns fs hn
    exact hover (hinside.buffer r st h hr)
  · exact (fs.dentryStores_inside_iff p).mp (hinside.temp p hp)
  · intro r st h hr
    have hnot : ¬ ShortEntry L fd nbytes s := fun ⟨p, hp, hshort⟩ =>
      absurd (hcond p hp).1 (not_le.mpr hshort)
    exact h.within hn hlt hnot hr
  · intro p hp
    exact (fs.dentryStores_inside_iff p).mpr (hcond p hp).2

/-- A read of a directory entry into a buffer of 32 bytes. -/
theorem read_within_iff_sample : ReadsEntry Sample.link 2 Sample.listing 0 ∧
    StoresInside Sample.link Sample.fullFiles 2 32 Sample.listing := by
  have hfirst : ReadsEntry Sample.link 2 Sample.listing 0 :=
    ⟨0, 2, by decide, by decide, by decide, by decide, by decide, by decide, by decide, by decide⟩
  refine ⟨hfirst, ((@read_within_iff Sample.link Sample.fullFiles 2 Sample.listing 32 (by decide)
    (by decide)).2.mpr ?_)⟩
  rintro p ⟨i, k, hpid, hfd, -, -, -, -, rfl, -⟩
  obtain rfl : k = 2 := Fin.ext (by omega)
  obtain rfl := slot_inj hpid (show Sample.listing.pid = (0 : Fin 6).val by decide)
  exact ⟨by decide, 5, by decide, by decide⟩

/-- The first entry of a directory read into a buffer of four bytes. -/
theorem short_read_overruns : openFunction Sample.link Sample.fullFiles ⟨0, 0, 0, 0⟩ (some [0x2E])
      (executeFunction Sample.link Sample.fullFiles Sample.site (some shellCommand)
        Sample.atBoot).2 = .ok (2 : Fin 8).val Sample.listing ∧
    ¬ ∀ r st, ReadReturns Sample.link Sample.fullFiles 2 4 Sample.listing r st → 0 ≤ r →
      WithinRequest 4 r st := by
  refine ⟨Sample.open_directory, fun hall => ?_⟩
  have hshort : ShortEntry Sample.link 2 4 Sample.listing :=
    ⟨0, ⟨0, 2, by decide, by decide, by decide, by decide, by decide, by decide, by decide,
      by decide⟩, by decide⟩
  obtain ⟨r, st, h, hr, hover⟩ := hshort.overruns Sample.fullFiles (by decide)
  exact hover (hall r st h hr)

/-! ## Reads that fail -/

/-- The state after the position of descriptor `fd` has been moved by a 32-bit value. -/
def Kernel.movePos (s : Kernel) (i : Fin 6) (fd : Fin 8) (d : Word) : Kernel :=
  s.setPcb i ((s.processes i).setFd fd { (s.processes i).fdArr fd with
    filePos := ((s.processes i).fdArr fd).filePos + d })

section failing

variable {i : Fin 6} {fd : Fin 8} {inode pos : ℕ}

theorem filePos_movePos (s : Kernel) (i : Fin 6) (fd : Fin 8) (d : Word) :
    (s.movePos i fd d).filePos i fd = (((s.processes i).fdArr fd).filePos + d).toNat := by
  simp [Kernel.movePos, Kernel.filePos]

theorem At.movePos (hat : At s i fd inode pos) (d : Word) :
    At (s.movePos i fd d) i fd inode (((s.processes i).fdArr fd).filePos + d).toNat := by
  refine ⟨?_, filePos_movePos s i fd d⟩
  simpa [Kernel.movePos] using hat.inode

end failing

end Os391
