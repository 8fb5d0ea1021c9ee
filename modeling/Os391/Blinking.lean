import Os391.BlinkList
import Os391.Lib.Alternating

/-!
# When a character is on

An item of the list goes on and off like the light of `Alternating`. What is on the screen
at its location follows from that over any sequence of calls that leaves the location
alone, however the other items are added, removed and synchronized meanwhile: `blinks`.

A synchronized item keeps step with the item it got its phase from from then on, but what
is on the screen may be wrong until its next change: `sync_shows`.
-/

namespace Os391

open Bytes Alternating

namespace BlinkItem

/-- How many ticks a length lasts. `countdown` is compared as a signed number after it has
been decremented, so that 0 and all lengths above 32768 last for one tick. -/
def ticks (length : BitVec 16) : ℕ :=
  if 1 ≤ length.toNat ∧ length.toNat ≤ 0x8000 then length.toNat else 1

/-- Whether the item is on, and how many ticks are left. -/
def phase (x : BlinkItem) : Bool × ℕ := (x.isOn, ticks x.countdown)

/-- The phase `k` ticks later. -/
def phaseAfter (x : BlinkItem) (k : ℕ) : Bool × ℕ :=
  (Alternating.tick (ticks x.onLength) (ticks x.offLength))^[k] x.phase

/-- The character of an item that is on or off. -/
def char (x : BlinkItem) (on : Bool) : Byte := if on then x.onChar else x.offChar

theorem ticks_pos (length : BitVec 16) : 0 < ticks length := by
  rw [ticks]
  split
  · omega
  · decide

/-- The signed comparison of `tasklet_loop`. -/
theorem toInt_sub_one_pos_iff (countdown : BitVec 16) :
    0 < (countdown - 1).toInt ↔ 1 < ticks countdown := by
  have hlt := countdown.isLt
  have hone : (1 : BitVec 16).toNat = 1 := rfl
  rw [BitVec.toInt_eq_toNat_cond, BitVec.toNat_sub, hone, ticks]
  split_ifs
  · omega
  · omega
  · omega
  · omega

theorem ticks_sub_one {countdown : BitVec 16} (h : 1 < ticks countdown) :
    ticks (countdown - 1) = ticks countdown - 1 := by
  have hlt := countdown.isLt
  have hone : (1 : BitVec 16).toNat = 1 := rfl
  have hle : 1 < countdown.toNat ∧ countdown.toNat ≤ 0x8000 := by
    rw [ticks] at h
    split at h
    · omega
    · omega
  have hsub : (countdown - 1).toNat = countdown.toNat - 1 := by
    rw [BitVec.toNat_sub, hone]
    omega
  rw [ticks, ticks, hsub, if_pos (by omega), if_pos (by omega)]

theorem isOn_xor_one (status : BitVec 16) :
    (status ^^^ 1).getLsbD 0 = !status.getLsbD 0 := by
  rw [BitVec.getLsbD_xor]
  simp

section tick

variable (x : BlinkItem)

/-- A tick that changes nothing but the countdown, and one at which the item changes. -/
theorem tick_eq : x.tick =
    if 1 < ticks x.countdown then ({ x with countdown := x.countdown - 1 }, none)
    else ({ x with
        countdown := if x.isOn then x.offLength else x.onLength, status := x.status ^^^ 1 },
      some (x.char !x.isOn)) := by
  rw [tick]
  by_cases hleft : 1 < ticks x.countdown
  · rw [if_pos hleft]
    exact if_pos ((toInt_sub_one_pos_iff x.countdown).mpr hleft)
  · rw [if_neg hleft]
    refine (if_neg (mt (toInt_sub_one_pos_iff x.countdown).mp hleft)).trans ?_
    cases hon : x.isOn with
    | true => exact if_pos hon
    | false => exact if_neg (by simpa [isOn] using hon)

/-- An item that ticks is the light that ticks. -/
theorem phase_tick :
    x.tick.1.phase = Alternating.tick (ticks x.onLength) (ticks x.offLength) x.phase := by
  rw [tick_eq, Alternating.tick]
  by_cases hleft : 1 < ticks x.countdown
  · rw [if_pos hleft, if_pos (show 1 < x.phase.2 from hleft)]
    exact Prod.ext rfl (ticks_sub_one hleft)
  · rw [if_neg hleft, if_neg (show ¬ 1 < x.phase.2 from hleft)]
    refine Prod.ext (isOn_xor_one x.status) ?_
    change ticks (if x.isOn then x.offLength else x.onLength) =
      if x.isOn then ticks x.offLength else ticks x.onLength
    split
    · rfl
    · rfl

/-- The light of a new item has just gone on. -/
theorem phaseAfter_start (k : ℕ) : (x.start.phaseAfter k).1 =
    decide (k % (ticks x.onLength + ticks x.offLength) < ticks x.onLength) := by
  have hon : x.start.phase = (true, ticks x.onLength) := by
    rw [phase, show x.start.isOn = true by simp [isOn, start]]
    rfl
  have hlight := iterate_tick_start (ticks_pos x.onLength) (ticks_pos x.offLength) k
  rw [← hon] at hlight
  refine (congrArg Prod.fst hlight).trans ?_
  split
  · next hr => exact (decide_eq_true hr).symm
  · next hr => exact (decide_eq_false hr).symm

/-- A tick leaves everything but the phase. -/
theorem tick_static : x.tick.1 =
    { x with countdown := x.tick.1.countdown, status := x.tick.1.status } := by
  rw [tick_eq]
  split
  · rfl
  · rfl

end tick

end BlinkItem

/-- The call neither adds nor removes items at the location, nor gives them a new phase. -/
def BlinkCall.Spares (location : BitVec 16) : BlinkCall → Prop
  | rtcAdd user => user.location ≠ location
  | rtcRemove arg => arg.setWidth 16 ≠ location
  | rtcFind _ => True
  | rtcSync arg => arg.setWidth 16 ≠ location
  | rtcTasklet => True

/-- The ticks in a call. -/
def BlinkCall.ticks : BlinkCall → ℕ
  | rtcTasklet => 1
  | _ => 0

namespace Display

variable {d : Display} {location other : BitVec 16}

/-- The items at a location. -/
def placed (location : BitVec 16) (items : List BlinkItem) : List BlinkItem :=
  items.filter fun x => decide (x.location = location)

/-! ## What is done at another location -/

section elsewhere

variable (hne : other ≠ location)

include hne

/-- A character shown elsewhere. -/
theorem poke_elsewhere (c : Byte) (video : ℕ → Byte) :
    poke other c video (2 * location.toNat) = video (2 * location.toNat) := by
  have hnat : other.toNat ≠ location.toNat := fun h => hne (BitVec.eq_of_toNat_eq h)
  exact Function.update_of_ne (by omega) _ _

theorem placed_cons_elsewhere {x : BlinkItem} (hx : x.location = other) (items : List BlinkItem) :
    placed location (x :: items) = placed location items :=
  List.filter_cons_of_neg (by simpa [hx] using hne)

theorem placed_eraseP_elsewhere (items : List BlinkItem) :
    placed location (items.eraseP fun x => decide (x.location = other)) =
      placed location items := by
  induction items with
  | nil => rfl
  | cons x items ih =>
    by_cases hx : x.location = other
    · rw [List.eraseP_cons_of_pos (by simpa using hx), placed_cons_elsewhere hne hx]
    · rw [List.eraseP_cons_of_neg (by simpa using hx), placed, placed, List.filter_cons,
        List.filter_cons]
      rw [placed, placed] at ih
      rw [ih]

theorem placed_resync_elsewhere (x : BlinkItem) (items : List BlinkItem) :
    placed location (resync x other items) = placed location items := by
  induction items with
  | nil => rfl
  | cons y items ih =>
    rw [resync]
    split
    · next hy =>
      rw [placed_cons_elsewhere hne (show (x.copyPhase y).location = other from hy),
        placed_cons_elsewhere hne hy]
    · rw [placed, placed, List.filter_cons, List.filter_cons]
      rw [placed, placed] at ih
      rw [ih]

end elsewhere

/-! ## A tick -/

theorem placed_tick (items : List BlinkItem) :
    placed location (items.map fun x => x.tick.1) =
      (placed location items).map fun x => x.tick.1 := by
  rw [placed, placed, List.filter_map]
  refine congrArg _ (List.filter_congr fun x _ => ?_)
  rw [Function.comp_apply, Blinker.location_tick]

theorem showTick_here {x : BlinkItem} (hx : x.location = location) (video : ℕ → Byte) :
    showTick video x (2 * location.toNat) = x.tick.2.getD (video (2 * location.toNat)) := by
  rw [showTick, hx]
  cases x.tick.2 with
  | none => rfl
  | some c => exact Function.update_self _ _ _

theorem showTick_elsewhere {x : BlinkItem} (hx : x.location ≠ location) (video : ℕ → Byte) :
    showTick video x (2 * location.toNat) = video (2 * location.toNat) := by
  rw [showTick]
  cases x.tick.2 with
  | none => rfl
  | some c => exact poke_elsewhere hx c video

/-- On the screen only the items at the location matter. -/
theorem foldl_showTick (items : List BlinkItem) {video video' : ℕ → Byte}
    (h : video (2 * location.toNat) = video' (2 * location.toNat)) :
    items.foldl showTick video (2 * location.toNat) =
      (placed location items).foldl showTick video' (2 * location.toNat) := by
  induction items generalizing video video' with
  | nil => exact h
  | cons x items ih =>
    rw [List.foldl_cons, placed, List.filter_cons]
    by_cases hx : x.location = location
    · rw [if_pos (decide_eq_true hx), List.foldl_cons]
      refine ih ?_
      rw [showTick_here hx, showTick_here hx, h]
    · rw [if_neg (by simpa using hx)]
      refine ih ?_
      rw [showTick_elsewhere hx, h]

/-! ## One item -/

/-- `k` ticks ago the item `x` was the only one at its location, with the character `c` on
the screen. -/
structure Shows (x : BlinkItem) (c : Byte) (k : ℕ) (d : Display) : Prop where
  placed : ∃ y, placed x.location d.items = [y] ∧
    y = { x with countdown := y.countdown, status := y.status } ∧ y.phase = x.phaseAfter k
  video : d.video (2 * x.location.toNat) =
    if k < BlinkItem.ticks x.countdown then c else x.char (x.phaseAfter k).1

namespace Shows

variable {x : BlinkItem} {c : Byte} {k : ℕ}

/-- Now, whatever is on the screen. -/
theorem start (h : Display.placed x.location d.items = [x]) :
    Shows x (d.video (2 * x.location.toNat)) 0 d :=
  ⟨⟨x, h, rfl, rfl⟩, (if_pos (BlinkItem.ticks_pos x.countdown)).symm⟩

/-- Nothing has changed at the location. -/
theorem frame (h : Shows x c k d) {d' : Display}
    (hplaced : Display.placed x.location d'.items = Display.placed x.location d.items)
    (hvideo : d'.video (2 * x.location.toNat) = d.video (2 * x.location.toNat)) :
    Shows x c k d' :=
  ⟨hplaced ▸ h.placed, hvideo.trans h.video⟩

theorem tick (h : Shows x c k d) : Shows x c (k + 1) d.tick := by
  obtain ⟨y, hy, hstatic, hphase⟩ := h.placed
  have hnext : y.tick.1.phase = x.phaseAfter (k + 1) := by
    rw [y.phase_tick, hphase, hstatic, BlinkItem.phaseAfter, BlinkItem.phaseAfter,
      Function.iterate_succ_apply']
  refine ⟨⟨y.tick.1, ?_, ?_, hnext⟩, ?_⟩
  · rw [Display.tick, placed_tick, hy]
    rfl
  · rw [y.tick_static, hstatic]
  · -- the screen changes exactly when the phase does
    have hleft : k < BlinkItem.ticks x.countdown →
        BlinkItem.ticks y.countdown = BlinkItem.ticks x.countdown - k := fun hk => by
      have hlt := iterate_tick_of_lt (p := BlinkItem.ticks x.onLength)
        (q := BlinkItem.ticks x.offLength) (s := x.phase) hk
      exact congrArg Prod.snd (hphase.trans hlt)
    have hchar : y.char = x.char := by rw [hstatic]; rfl
    rw [Display.tick]
    dsimp only
    rw [foldl_showTick d.items rfl, hy, List.foldl_cons, List.foldl_nil,
      showTick_here (by rw [hstatic]), h.video, ← hnext, ← hphase, y.phase_tick, y.tick_eq,
      Alternating.tick, hchar]
    by_cases hmore : 1 < BlinkItem.ticks y.countdown
    · rw [if_pos hmore, if_pos (show 1 < y.phase.2 from hmore)]
      by_cases hk : k < BlinkItem.ticks x.countdown
      · have := hleft hk
        rw [if_pos hk, if_pos (by omega)]
        rfl
      · rw [if_neg hk, if_neg (by omega)]
        rfl
    · have hlast : ¬ k + 1 < BlinkItem.ticks x.countdown := fun hk => by
        have := hleft (by omega)
        omega
      rw [if_neg hmore, if_neg (show ¬ 1 < y.phase.2 from hmore), if_neg hlast]
      rfl

/-- A call that spares the location. -/
theorem call (h : Shows x c k d) {b : BlinkCall} (hb : b.Spares x.location) :
    Shows x c (k + b.ticks) (d.call b).1 := by
  cases b with
  | rtcAdd user =>
    rw [Display.call, Display.add]
    split
    · exact h
    · have hloc : user.start.location = user.location := rfl
      exact h.frame (placed_cons_elsewhere hb hloc d.items) (poke_elsewhere hb _ _)
  | rtcRemove arg =>
    rw [Display.call, Display.remove]
    split
    · exact h
    · exact h.frame (placed_eraseP_elsewhere hb d.items) rfl
  | rtcFind user => exact h
  | rtcSync arg =>
    rw [Display.call, Display.sync]
    split
    · exact h.frame (placed_resync_elsewhere hb _ d.items) (poke_elsewhere hb _ _)
    · exact h
  | rtcTasklet => exact h.tick

theorem calls (h : Shows x c k d) {cs : List BlinkCall} (hcs : ∀ b ∈ cs, b.Spares x.location) :
    Shows x c (k + cs.count .rtcTasklet) (d.calls cs).1 := by
  induction cs generalizing d k with
  | nil => exact h
  | cons b cs ih =>
    have hnext := ih (h.call (hcs b List.mem_cons_self)) fun b hb =>
      hcs b (List.mem_cons_of_mem _ hb)
    have hcount : k + (b :: cs).count .rtcTasklet = k + b.ticks + cs.count .rtcTasklet := by
      rw [List.count_cons]
      cases b with
      | rtcTasklet => simp only [BlinkCall.ticks, beq_self_eq_true, if_true]; omega
      | _ => simp [BlinkCall.ticks]
    rw [hcount]
    exact hnext

end Shows

/-! ## Runs -/

theorem at?_eq_head? (location : BitVec 16) :
    d.at? location = (placed location d.items).head? :=
  List.head?_filter.symm

/-- The item that is resynchronized. -/
theorem placed_resync_here {x y : BlinkItem} {ys items : List BlinkItem}
    (h : placed location items = y :: ys) :
    placed location (resync x location items) = x.copyPhase y :: ys := by
  induction items with
  | nil => cases h
  | cons z items ih =>
    rw [resync]
    rw [placed, List.filter_cons] at h
    by_cases hz : z.location = location
    · rw [if_pos (decide_eq_true hz)] at h
      obtain ⟨rfl, hrest⟩ := List.cons.inj h
      have hnew : decide ((x.copyPhase z).location = location) = true := decide_eq_true hz
      rw [if_pos hz, placed, List.filter_cons, if_pos hnew, hrest]
    · rw [if_neg (by simpa using hz)] at h
      rw [if_neg hz, placed, List.filter_cons, if_neg (by simpa using hz)]
      exact ih h

/-- Right after a new item is added where there is none. -/
theorem shows_add {x : BlinkItem} (hnone : placed x.location d.items = [])
    (hvalid : x.location.toNat < slots) (hroom : d.items.length ≠ slots) :
    Shows x.start x.onChar 0 (d.add x).1 := by
  rw [add, if_neg (not_or.mpr ⟨not_le.mpr hvalid, hroom⟩)]
  have hplaced : placed x.location (x.start :: d.items) = [x.start] := by
    rw [placed] at hnone
    rw [placed, List.filter_cons, hnone]
    exact if_pos (decide_eq_true rfl)
  have hstart := Shows.start (x := x.start)
    (d := ⟨x.start :: d.items, poke x.location x.onChar d.video⟩) hplaced
  have hvideo : poke x.location x.onChar d.video (2 * x.start.location.toNat) = x.onChar :=
    Function.update_self _ _ _
  dsimp only at hstart
  rwa [hvideo] at hstart

/-- The character of an item that was added `k` ticks ago. -/
theorem Shows.video_start {x : BlinkItem} {k : ℕ} (h : Shows x.start x.onChar k d) :
    d.video (2 * x.location.toNat) =
      if k % (BlinkItem.ticks x.onLength + BlinkItem.ticks x.offLength) <
        BlinkItem.ticks x.onLength then x.onChar else x.offChar := by
  refine h.video.trans ?_
  have hchar : x.start.char (decide (k % (BlinkItem.ticks x.onLength +
      BlinkItem.ticks x.offLength) < BlinkItem.ticks x.onLength)) =
      if k % (BlinkItem.ticks x.onLength + BlinkItem.ticks x.offLength) <
        BlinkItem.ticks x.onLength then x.onChar else x.offChar := by
    simp only [BlinkItem.char, decide_eq_true_eq]
    rfl
  rw [x.phaseAfter_start, hchar]
  by_cases hk : k < BlinkItem.ticks x.onLength
  · have hmod : k % (BlinkItem.ticks x.onLength + BlinkItem.ticks x.offLength) = k :=
      Nat.mod_eq_of_lt (by omega)
    rw [hmod, if_pos hk]
    exact if_pos hk
  · exact if_neg hk

/-- At a location without items nothing happens. -/
theorem call_elsewhere (hnone : placed location d.items = []) {c : BlinkCall}
    (hc : c.Spares location) :
    placed location (d.call c).1.items = [] ∧
      (d.call c).1.video (2 * location.toNat) = d.video (2 * location.toNat) := by
  cases c with
  | rtcAdd user =>
    rw [Display.call, Display.add]
    split
    · exact ⟨hnone, rfl⟩
    · have hloc : user.start.location = user.location := rfl
      exact ⟨(placed_cons_elsewhere hc hloc d.items).trans hnone, poke_elsewhere hc _ _⟩
  | rtcRemove arg =>
    rw [Display.call, Display.remove]
    split
    · exact ⟨hnone, rfl⟩
    · exact ⟨(placed_eraseP_elsewhere hc d.items).trans hnone, rfl⟩
  | rtcFind user => exact ⟨hnone, rfl⟩
  | rtcSync arg =>
    rw [Display.call, Display.sync]
    split
    · exact ⟨(placed_resync_elsewhere hc _ d.items).trans hnone, poke_elsewhere hc _ _⟩
    · exact ⟨hnone, rfl⟩
  | rtcTasklet =>
    refine ⟨?_, ?_⟩
    · rw [Display.call, Display.tick, placed_tick, hnone]
      rfl
    · rw [Display.call, Display.tick]
      dsimp only
      rw [foldl_showTick d.items rfl, hnone]
      rfl

theorem calls_elsewhere (hnone : placed location d.items = []) {cs : List BlinkCall}
    (hcs : ∀ c ∈ cs, c.Spares location) :
    placed location (d.calls cs).1.items = [] ∧
      (d.calls cs).1.video (2 * location.toNat) = d.video (2 * location.toNat) := by
  induction cs generalizing d with
  | nil => exact ⟨hnone, rfl⟩
  | cons c cs ih =>
    obtain ⟨hplaced, hvideo⟩ := call_elsewhere hnone (hcs c List.mem_cons_self)
    obtain ⟨hplaced', hvideo'⟩ := ih hplaced fun c hc => hcs c (List.mem_cons_of_mem _ hc)
    exact ⟨hplaced', hvideo'.trans hvideo⟩

theorem location_of_placed {x : BlinkItem} {xs items : List BlinkItem}
    (h : placed location items = x :: xs) : x ∈ items ∧ x.location = location := by
  have hmem : x ∈ placed location items := by
    rw [h]
    exact List.mem_cons_self
  rw [placed, List.mem_filter, decide_eq_true_eq] at hmem
  exact hmem

/-- An item at a location that has just one. -/
theorem eq_of_placed {x z : BlinkItem} {items : List BlinkItem} (h : placed location items = [x])
    (hz : z ∈ items) (hloc : z.location = location) : z = x := by
  have hmem : z ∈ placed location items := List.mem_filter.mpr ⟨hz, decide_eq_true hloc⟩
  rw [h] at hmem
  exact List.mem_singleton.mp hmem

/-- Right after the synchronization of two items. -/
theorem shows_sync {source target : BitVec 16} {x y : BlinkItem}
    (hx : placed source d.items = [x]) (hy : placed target d.items = [y])
    (hne : source ≠ target) :
    (∃ c, Shows x c 0 (d.sync source target).1) ∧
      Shows (x.copyPhase y) y.offChar 0 (d.sync source target).1 := by
  obtain ⟨-, hsource⟩ := location_of_placed hx
  obtain ⟨-, htarget⟩ := location_of_placed hy
  have hsync : d.sync source target =
      (⟨resync x target d.items, poke target y.offChar d.video⟩, 0) := by
    rw [sync, at?_eq_head?, at?_eq_head?, hx, hy]
    rfl
  rw [hsync]
  have hthere : placed x.location (resync x target d.items) = [x] := by
    rw [hsource, placed_resync_elsewhere hne.symm, hx]
  have hhere : placed (x.copyPhase y).location (resync x target d.items) = [x.copyPhase y] := by
    rw [show (x.copyPhase y).location = target from htarget]
    exact placed_resync_here hy
  refine ⟨⟨_, Shows.start hthere⟩, ?_⟩
  have hstart := Shows.start (x := x.copyPhase y)
    (d := ⟨resync x target d.items, poke target y.offChar d.video⟩) hhere
  have hvideo : poke target y.offChar d.video (2 * (x.copyPhase y).location.toNat) = y.offChar := by
    rw [show (x.copyPhase y).location = target from htarget]
    exact Function.update_self _ _ _
  dsimp only at hstart
  rwa [hvideo] at hstart

theorem calls_append (cs cs' : List BlinkCall) :
    d.calls (cs ++ cs') =
      (((d.calls cs).1.calls cs').1, (d.calls cs).2 ++ ((d.calls cs).1.calls cs').2) := by
  induction cs generalizing d with
  | nil => rfl
  | cons c cs ih =>
    rw [List.cons_append, Display.calls, ih]
    rfl

end Display

namespace Blinker

variable {b : Blinker}

/-- A slot that is in use holds an item of the display. -/
theorem Represents.item_mem {l : List Slot} {d : Display} (h : Represents b l d) {i : Slot}
    (hi : (b.item i).location ≠ 0) : b.item i ∈ d.items := by
  rw [← h.items]
  exact List.mem_map_of_mem ((h.used i).mpr hi)

/-- No item of the display has location 0. -/
theorem Represents.location_ne_zero {l : List Slot} {d : Display} (h : Represents b l d)
    {x : BlinkItem} (hx : x ∈ d.items) : x.location ≠ 0 := by
  rw [← h.items] at hx
  obtain ⟨i, hi, rfl⟩ := List.mem_map.mp hx
  exact (h.used i).mp hi

end Blinker

/-- While no item is added at location 0: from the moment an item is added at a location
where there is none, its character is on for as many ticks as `on_length` lasts and off for
as many as `off_length` lasts, in turn, over any calls that do not concern this location. A
length of 0 or above 32768 lasts one tick. -/
theorem blinks {video : ℕ → Byte} {cs₁ cs₂ : List BlinkCall} {x : BlinkStruct} {b₁ : Blinker}
    {replies : List (BlinkReply BlinkStruct)} {es : List Int} (h₁ : ∀ c ∈ cs₁, c.Located)
    (hx : x.location ≠ 0)
    (hrun : (Blinker.atStart video).calls (cs₁ ++ [.rtcFind x, .rtcAdd x]) = some (b₁, replies))
    (heax : replies.map BlinkReply.eax = es ++ [-1, 0])
    (h₂ : ∀ c ∈ cs₂, c.Located ∧ c.Spares x.location) :
    ∃ b₂ more, b₁.calls cs₂ = some (b₂, more) ∧
      b₂.video (2 * x.location.toNat) =
        if cs₂.count .rtcTasklet % (BlinkItem.ticks x.onLength + BlinkItem.ticks x.offLength) <
            BlinkItem.ticks x.onLength
        then x.onChar else x.offChar := by
  have hlocated : ∀ c ∈ cs₁ ++ [.rtcFind x, .rtcAdd x], c.Located := by
    intro c hc
    rcases List.mem_append.mp hc with hc | hc
    · exact h₁ c hc
    · obtain rfl | rfl : c = .rtcFind x ∨ c = .rtcAdd x := by simpa using hc
      · trivial
      · exact hx
  obtain ⟨r, hr, ⟨l, hl⟩, hplain⟩ := (Blinker.represents_atStart video).calls hlocated
  obtain rfl := Option.some.inj (hr.symm.trans hrun)
  rw [Display.calls_append] at hl hplain
  generalize ((Display.atStart video).calls cs₁).1 = d at hl hplain
  -- the two replies say that there was no item here, and that there is one now
  obtain ⟨hfind, hadd⟩ : (d.call (.rtcFind x)).2.eax = -1 ∧ (d.add x.toBlinkItem).2 = 0 := by
    have hlist := congrArg (List.map BlinkReply.eax) hplain
    rw [List.map_map, show BlinkReply.eax ∘ BlinkReply.plain = BlinkReply.eax from rfl, heax,
      List.map_append] at hlist
    have htwo := (List.append_inj' hlist rfl).2.symm
    simpa [Display.calls, Display.call] using htwo
  have hnone : Display.placed x.location d.items = [] := by
    rw [← List.head?_eq_none_iff, ← Display.at?_eq_head?]
    by_contra hsome
    simp [Display.call, Option.isSome_iff_ne_none.mpr hsome] at hfind
  have hshows : Display.Shows x.start x.onChar 0 (d.add x.toBlinkItem).1 := by
    rw [Display.add] at hadd
    split at hadd
    · cases hadd
    · next hroom =>
      obtain ⟨hvalid, hroom⟩ := not_or.mp hroom
      exact Display.shows_add hnone (not_le.mp hvalid) hroom
  obtain ⟨r', hr', ⟨l', hl'⟩, -⟩ := hl.calls fun c hc => (h₂ c hc).1
  have hlater := hshows.calls fun c hc => (h₂ c hc).2
  rw [Nat.zero_add] at hlater
  refine ⟨r'.1, r'.2, hr', ?_⟩
  rw [hl'.video]
  exact hlater.video_start

/-- The item of `fish`: on for seven ticks and off for six, after the first two commands. -/
theorem blinks_sample : ∃ b₁ replies b₂ more,
    (Blinker.atStart fun _ => 0).calls ([] ++ [.rtcFind ⟨⟨540, 0x49, 0x4D, 7, 6, 0, 0⟩, none⟩,
      .rtcAdd ⟨⟨540, 0x49, 0x4D, 7, 6, 0, 0⟩, none⟩]) = some (b₁, replies) ∧
    b₁.calls (List.replicate 20 .rtcTasklet) = some (b₂, more) ∧ b₂.video 1080 = 0x4D := by
  obtain ⟨b₁, replies, -, hrun, hreplies, -⟩ := Blinker.calls_refine (fun _ => 0)
    ([] ++ [.rtcFind ⟨⟨540, 0x49, 0x4D, 7, 6, 0, 0⟩, none⟩,
      .rtcAdd ⟨⟨540, 0x49, 0x4D, 7, 6, 0, 0⟩, none⟩]) (by decide)
  have heax : replies.map BlinkReply.eax = [] ++ [-1, 0] := by
    have hmap := congrArg (List.map BlinkReply.eax) hreplies
    rw [List.map_map] at hmap
    exact hmap.trans (by decide)
  have hticks : ∀ c ∈ List.replicate 20 BlinkCall.rtcTasklet, c.Located ∧ c.Spares 540 := by
    intro c hc
    rw [List.eq_of_mem_replicate hc]
    exact ⟨trivial, trivial⟩
  obtain ⟨b₂, more, hmore, hvideo⟩ := blinks (by decide) (by decide) hrun heax hticks
  exact ⟨b₁, replies, b₂, more, hrun, hmore, hvideo⟩

/-- While no item is added at location 0: after `RTC_SYNC` of two locations with one item
each, the second item has the phase of the first one for good, as long as no other call
concerns them. But its off character is shown until its next change, also if it is on. -/
theorem sync_shows {video : ℕ → Byte} {cs₁ cs₂ : List BlinkCall} {arg : Word} {x y : BlinkItem}
    (h₁ : ∀ c ∈ cs₁, c.Located)
    (hx : Display.placed ((arg >>> 16).setWidth 16) ((Display.atStart video).calls cs₁).1.items =
      [x])
    (hy : Display.placed (arg.setWidth 16) ((Display.atStart video).calls cs₁).1.items = [y])
    (hne : (arg >>> 16).setWidth 16 ≠ arg.setWidth 16)
    (h₂ : ∀ c ∈ cs₂, c.Located ∧ c.Spares ((arg >>> 16).setWidth 16) ∧ c.Spares (arg.setWidth 16)) :
    ∃ b replies, (Blinker.atStart video).calls (cs₁ ++ .rtcSync arg :: cs₂) = some (b, replies) ∧
      (∀ i k, (b.item i).location = (arg >>> 16).setWidth 16 →
        (b.item k).location = arg.setWidth 16 → (b.item k).phase = (b.item i).phase) ∧
      b.video (2 * (arg.setWidth 16).toNat) =
        if cs₂.count .rtcTasklet < BlinkItem.ticks x.countdown then y.offChar
        else y.char (x.phaseAfter (cs₂.count .rtcTasklet)).1 := by
  have hlocated : ∀ c ∈ cs₁ ++ .rtcSync arg :: cs₂, c.Located := by
    intro c hc
    rcases List.mem_append.mp hc with hc | hc
    · exact h₁ c hc
    · rcases List.mem_cons.mp hc with rfl | hc
      · trivial
      · exact (h₂ c hc).1
  obtain ⟨r₁, -, ⟨l₁, hl₁⟩, -⟩ := (Blinker.represents_atStart video).calls h₁
  obtain ⟨r, hr, ⟨l, hl⟩, -⟩ := (Blinker.represents_atStart video).calls hlocated
  rw [Display.calls_append] at hl
  generalize ((Display.atStart video).calls cs₁).1 = d at hl hl₁ hx hy
  obtain ⟨⟨c, hsource⟩, htarget⟩ := Display.shows_sync hx hy hne
  obtain ⟨hxmem, hxloc⟩ := Display.location_of_placed hx
  obtain ⟨hymem, hyloc⟩ := Display.location_of_placed hy
  have hloc : (x.copyPhase y).location = arg.setWidth 16 := hyloc
  have hsource' := hsource.calls fun c hc => hxloc ▸ (h₂ c hc).2.1
  have htarget' := htarget.calls fun c hc => hloc ▸ (h₂ c hc).2.2
  obtain ⟨x', hx', -, hxphase⟩ := hsource'.placed
  obtain ⟨y', hy', -, hyphase⟩ := htarget'.placed
  rw [hxloc] at hx'
  rw [hloc] at hy'
  have hvideo := htarget'.video
  rw [hloc, Nat.zero_add] at hvideo
  refine ⟨r.1, r.2, hr, fun i k hi hk => ?_, ?_⟩
  · rw [Display.eq_of_placed hx' (hl.item_mem (hi ▸ hxloc ▸ hl₁.location_ne_zero hxmem)) hi,
      Display.eq_of_placed hy' (hl.item_mem (hk ▸ hyloc ▸ hl₁.location_ne_zero hymem)) hk,
      hxphase, hyphase]
    rfl
  · rw [hl.video]
    exact hvideo

/-- Two items that are both on: the one that is synchronized shows its off character. -/
theorem sync_shows_sample : ∃ b replies,
    (Blinker.atStart fun _ => 0).calls ([.rtcAdd ⟨⟨540, 0x49, 0x4D, 7, 6, 0, 0⟩, none⟩,
      .rtcAdd ⟨⟨541, 0x58, 0x59, 3, 3, 0, 0⟩, none⟩] ++ .rtcSync (540 <<< 16 ||| 541) :: []) =
      some (b, replies) ∧ b.video 1082 = 0x59 := by
  obtain ⟨b, replies, hrun, -, hvideo⟩ := @sync_shows (fun _ => 0)
    [.rtcAdd ⟨⟨540, 0x49, 0x4D, 7, 6, 0, 0⟩, none⟩, .rtcAdd ⟨⟨541, 0x58, 0x59, 3, 3, 0, 0⟩, none⟩]
    [] (540 <<< 16 ||| 541) ⟨540, 0x49, 0x4D, 7, 6, 7, 1⟩ ⟨541, 0x58, 0x59, 3, 3, 3, 1⟩ (by decide)
    (by decide) (by decide) (by decide) (by simp)
  exact ⟨b, replies, hrun, hvideo⟩

end Os391
