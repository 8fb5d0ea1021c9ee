import Os391.Blink
import Os391.Lib.FirstFit
import Os391.Lib.SinglyLinked

/-!
# The list of blinking characters

What the list is for, without slots and pointers: a `Display` has a list of items, the
latest first, and the screen. `Represents` connects it to `blink_array` and
`mp1_list_head`, and `calls_refine` is the refinement over all sequences of calls: as
long as no item with location 0 is added, no loop runs off, every reply is the one of
the display, and no slot is lost.

Location 0 is what `mp1_malloc` takes for a free slot. An item with this location gets
its slot taken away by the next one, and the list then goes in circles: `circular_of_zero`.
-/

namespace Os391

open Bytes SinglyLinked

/-- The blinking characters, the latest first, and the bytes of the screen. -/
structure Display : Type where
  items : List BlinkItem
  video : ℕ → Byte

namespace Display

/-- Show a character. -/
def poke (location : BitVec 16) (c : Byte) (video : ℕ → Byte) : ℕ → Byte :=
  Function.update video (2 * location.toNat) c

/-- The latest item at a location. -/
def at? (d : Display) (location : BitVec 16) : Option BlinkItem :=
  d.items.find? fun x => decide (x.location = location)

/-- Add an item, which is on first. -/
def add (x : BlinkItem) (d : Display) : Display × Int :=
  if slots ≤ x.location.toNat ∨ d.items.length = slots then (d, -1)
  else (⟨x.start :: d.items, poke x.location x.onChar d.video⟩, 0)

/-- Remove the latest item at a location. -/
def remove (location : BitVec 16) (d : Display) : Display × Int :=
  match d.at? location with
  | none => (d, -1)
  | some _ => ({ d with items := d.items.eraseP fun x => decide (x.location = location) }, 0)

/-- Give the latest item at a location the phase of `x`. -/
def resync (x : BlinkItem) (location : BitVec 16) : List BlinkItem → List BlinkItem
  | [] => []
  | y :: ys => if y.location = location then x.copyPhase y :: ys else y :: resync x location ys

/-- Make one location blink like another one. The character shown is the off character. -/
def sync (source target : BitVec 16) (d : Display) : Display × Int :=
  match d.at? source, d.at? target with
  | some x, some y => (⟨resync x target d.items, poke target y.offChar d.video⟩, 0)
  | _, _ => (d, -1)

/-- What an item shows at a tick. -/
def showTick (video : ℕ → Byte) (x : BlinkItem) : ℕ → Byte :=
  match x.tick.2 with
  | some c => poke x.location c video
  | none => video

/-- All items tick, in the order of the list. -/
def tick (d : Display) : Display :=
  ⟨d.items.map fun x => x.tick.1, d.items.foldl showTick d.video⟩

/-- Carry out a call. -/
def call (d : Display) : BlinkCall → Display × BlinkReply BlinkItem
  | .rtcAdd user => ((d.add user.toBlinkItem).1, ⟨(d.add user.toBlinkItem).2, none⟩)
  | .rtcRemove arg => ((d.remove (arg.setWidth 16)).1, ⟨(d.remove (arg.setWidth 16)).2, none⟩)
  | .rtcFind user => (d, ⟨if (d.at? user.location).isSome then 0 else -1, d.at? user.location⟩)
  | .rtcSync arg =>
    let r := d.sync ((arg >>> 16).setWidth 16) (arg.setWidth 16)
    (r.1, ⟨r.2, none⟩)
  | .rtcTasklet => (d.tick, ⟨0, none⟩)

/-- A sequence of calls, and the replies to them. -/
def calls (d : Display) : List BlinkCall → Display × List (BlinkReply BlinkItem)
  | [] => (d, [])
  | c :: cs => (((d.call c).1.calls cs).1, (d.call c).2 :: ((d.call c).1.calls cs).2)

/-- No items. -/
def atStart (video : ℕ → Byte) : Display := ⟨[], video⟩

end Display

/-- The reply without the pointer in the struct. -/
def BlinkReply.plain (r : BlinkReply BlinkStruct) : BlinkReply BlinkItem :=
  ⟨r.eax, r.user.map BlinkStruct.toBlinkItem⟩

namespace Blinker

/-- The item in a slot. -/
def item (b : Blinker) (i : Slot) : BlinkItem := (b.blinkArray i).toBlinkItem

/-- The pointer in a slot. -/
def link (b : Blinker) (i : Slot) : Option Slot := (b.blinkArray i).next

/-- The list of slots `l` holds the items of the display, and it has all slots in use. -/
structure Represents (b : Blinker) (l : List Slot) (d : Display) : Prop where
  linked : Linked b.link b.mp1ListHead l
  used : ∀ i, i ∈ l ↔ (b.item i).location ≠ 0
  items : l.map b.item = d.items
  video : b.video = d.video

/-! ## The fields after an update -/

section fields

variable (b : Blinker) (i : Slot) (x : BlinkStruct)

@[simp] theorem mp1ListHead_store : (b.store i x).mp1ListHead = b.mp1ListHead := rfl

@[simp] theorem video_store : (b.store i x).video = b.video := rfl

@[simp] theorem item_store : (b.store i x).item = Function.update b.item i x.toBlinkItem := by
  funext j
  by_cases h : j = i
  · subst h
    simp [item, store]
  · simp [item, store, h]

@[simp] theorem link_store : (b.store i x).link = Function.update b.link i x.next := by
  funext j
  by_cases h : j = i
  · subst h
    simp [link, store]
  · simp [link, store, h]

@[simp] theorem blinkArray_storeItem (y : BlinkItem) :
    ((b.storeItem i y).blinkArray i).toBlinkItem = y := by
  simp only [storeItem, store, Function.update_self]

@[simp] theorem item_storeItem (y : BlinkItem) :
    (b.storeItem i y).item = Function.update b.item i y :=
  item_store b i _

@[simp] theorem link_storeItem (y : BlinkItem) : (b.storeItem i y).link = b.link :=
  (link_store b i _).trans (Function.update_eq_self i b.link)

@[simp] theorem item_mp1Poke (a : BitVec 16) (c : Byte) : (b.mp1Poke a c).item = b.item := rfl

@[simp] theorem link_mp1Poke (a : BitVec 16) (c : Byte) : (b.mp1Poke a c).link = b.link := rfl

@[simp] theorem mp1ListHead_mp1Poke (a : BitVec 16) (c : Byte) :
    (b.mp1Poke a c).mp1ListHead = b.mp1ListHead := rfl

@[simp] theorem video_mp1Poke (a : BitVec 16) (c : Byte) :
    (b.mp1Poke a c).video = Display.poke a c b.video := rfl

@[simp] theorem item_setLink (q edx : Option Slot) : (b.setLink q edx).item = b.item := by
  cases edx with
  | none => rfl
  | some k => simp [setLink, item]

@[simp] theorem video_setLink (q edx : Option Slot) : (b.setLink q edx).video = b.video := by
  cases edx with
  | none => rfl
  | some k => rfl

end fields

/-! ## The loops -/

section loops

variable {b : Blinker} {p : Option Slot} {l : List Slot} {i : Slot}

/-- A list that ends is shorter than the fuel of the loops. -/
theorem length_lt_fuel (h : Linked b.link p l) : l.length < slots + 1 := by
  have hle := h.length_le
  rw [Fintype.card_fin] at hle
  omega

theorem findHelperLoop_eq (ax : BitVec 16) (h : Linked b.link p l) {fuel : ℕ}
    (hfuel : l.length < fuel) :
    b.findHelperLoop ax fuel p = some (l.find? fun i => decide ((b.item i).location = ax)) := by
  induction l generalizing p fuel with
  | nil =>
    obtain ⟨n, rfl⟩ := Nat.exists_eq_add_of_lt hfuel
    rw [show p = none from h, List.find?_nil]
    exact findHelperLoop.eq_2 ax b _
  | cons i l ih =>
    rcases fuel with _ | fuel
    · exact absurd hfuel (by simp)
    · obtain ⟨rfl, hrest⟩ := h
      rw [findHelperLoop, List.find?_cons]
      by_cases hloc : (b.item i).location = ax
      · rw [decide_eq_true hloc]
        exact if_pos hloc
      · rw [decide_eq_false hloc, ← ih hrest (by simpa using hfuel)]
        exact if_neg hloc

theorem mp1FindHelper_eq (ax : BitVec 16) (h : Linked b.link b.mp1ListHead l) :
    b.mp1FindHelper ax = some (l.find? fun i => decide ((b.item i).location = ax)) :=
  findHelperLoop_eq ax h (length_lt_fuel h)

/-- The link that points at a node is the one behind which the node stands. -/
theorem removeFindPrev_eq {l₁ l₂ : List Slot} {edx : Option Slot}
    (h : Linked b.link (b.linkAt edx) (l₁ ++ i :: l₂)) (hi : i ∉ l₁) {fuel : ℕ}
    (hfuel : l₁.length < fuel) :
    b.removeFindPrev i fuel edx = some (l₁.getLast?.or edx) := by
  induction l₁ generalizing edx fuel with
  | nil =>
    rcases fuel with _ | fuel
    · exact absurd hfuel (by simp)
    · rw [removeFindPrev, if_pos h.1]
      rfl
  | cons k l₁ ih =>
    rcases fuel with _ | fuel
    · exact absurd hfuel (by simp)
    · have hki : k ≠ i := fun hki => hi (hki ▸ List.mem_cons_self)
      rw [removeFindPrev, h.1, if_neg (by simpa using hki)]
      have hrest : Linked b.link (b.linkAt (some k)) (l₁ ++ i :: l₂) := h.2
      dsimp only
      rw [ih hrest (fun hmem => hi (List.mem_cons_of_mem k hmem)) (by simpa using hfuel),
        List.getLast?_cons]
      cases l₁.getLast? <;> rfl

/-- The first free slot. -/
theorem mp1Malloc_eq_some (hfree : b.mp1Malloc = some i) : (b.item i).location = 0 := by
  have hfound := List.find?_some hfree
  rwa [decide_eq_true_eq] at hfound

end loops

/-! ## One call -/

namespace Represents

variable {b : Blinker} {l : List Slot} {d : Display}

theorem length_eq (h : Represents b l d) : l.length = d.items.length := by
  rw [← h.items, List.length_map]

/-- There is no free slot left when there are as many items as slots. -/
theorem mp1Malloc_eq_none_iff (h : Represents b l d) :
    b.mp1Malloc = none ↔ d.items.length = slots := by
  have hfull := h.linked.full_iff
  rw [Fintype.card_fin, h.length_eq] at hfull
  rw [← hfull, mp1Malloc, List.find?_eq_none]
  constructor
  · intro hnone i
    have hi := hnone i (List.mem_finRange i)
    rw [decide_eq_true_eq] at hi
    exact (h.used i).mpr hi
  · intro hall i _
    rw [decide_eq_true_eq]
    exact (h.used i).mp (hall i)

/-- The display finds the item of the node that the loop finds. -/
theorem at?_eq (h : Represents b l d) (ax : BitVec 16) :
    d.at? ax = (l.find? fun i => decide ((b.item i).location = ax)).map b.item := by
  rw [Display.at?, ← h.items, List.find?_map]
  rfl

/-- A new item in a free slot, at the front. -/
theorem push (h : Represents b l d) {i : Slot} (hfree : (b.item i).location = 0) {x : BlinkItem}
    (hloc : x.location ≠ 0) :
    Represents ((b.store i ⟨x, b.mp1ListHead⟩).setLink (some i) none) (i :: l)
      { d with items := x :: d.items } := by
  have hi : i ∉ l := fun hmem => (h.used i).mp hmem hfree
  refine ⟨?_, fun j => ?_, ?_, h.video⟩
  · have hpush := h.linked.push hi
    rwa [← link_store b i ⟨x, b.mp1ListHead⟩] at hpush
  · by_cases hj : j = i
    · subst hj
      simpa using hloc
    · simp [hj, h.used j]
  · rw [List.map_cons, item_setLink, item_store, Function.update_self, ← h.items]
    refine congrArg _ (List.map_congr_left fun j hj => Function.update_of_ne ?_ _ _)
    rintro rfl
    exact hi hj

/-- A character is displayed. -/
theorem poke (h : Represents b l d) (a : BitVec 16) (c : Byte) :
    Represents (b.mp1Poke a c) l { d with video := Display.poke a c d.video } :=
  ⟨h.linked, h.used, h.items, by rw [video_mp1Poke, h.video]⟩

theorem add (h : Represents b l d) (user : BlinkStruct) (hloc : user.location ≠ 0) :
    (∃ l', Represents (b.mp1IoctlAdd user).1 l' (d.add user.toBlinkItem).1) ∧
      (b.mp1IoctlAdd user).2 = (d.add user.toBlinkItem).2 := by
  rw [mp1IoctlAdd, Display.add]
  by_cases hlarge : slots ≤ user.location.toNat
  · rw [if_pos hlarge, if_pos (Or.inl hlarge)]
    exact ⟨⟨l, h⟩, rfl⟩
  · rw [if_neg hlarge]
    rcases hmalloc : b.mp1Malloc with _ | i
    · rw [if_pos (Or.inr (h.mp1Malloc_eq_none_iff.mp hmalloc))]
      exact ⟨⟨l, h⟩, rfl⟩
    · have hnot : ¬ d.items.length = slots := fun hfull => by
        rw [h.mp1Malloc_eq_none_iff.mpr hfull] at hmalloc
        cases hmalloc
      rw [if_neg (by simp [hlarge, hnot])]
      have hpush := h.push (x := user.start) (mp1Malloc_eq_some hmalloc) hloc
      have hpoke := hpush.poke user.location user.onChar
      refine ⟨⟨i :: l, ?_⟩, rfl⟩
      have hstored : ((b.store i ⟨user.start, b.mp1ListHead⟩).setLink (some i) none).blinkArray i =
        ⟨user.start, b.mp1ListHead⟩ := Function.update_self i _ _
      dsimp only
      rw [hstored]
      exact hpoke

/-- A node is taken out and its slot cleared. -/
theorem unlink {i : Slot} {l₁ l₂ : List Slot} (h : Represents b (l₁ ++ i :: l₂) d) :
    Represents ((b.setLink (b.link i) l₁.getLast?).mp1Free i) (l₁ ++ l₂)
      { d with items := (l₁ ++ l₂).map b.item } := by
  have hnodup := List.nodup_middle.mp h.linked.nodup
  have hi : i ∉ l₁ ++ l₂ := (List.nodup_cons.mp hnodup).1
  have hother : ∀ j ∈ l₁ ++ l₂, j ≠ i := fun j hj hji => hi (hji ▸ hj)
  refine ⟨?_, fun j => ?_, ?_, ?_⟩
  · -- the slot that is cleared is not in the list any more
    suffices hlinked : Linked (b.setLink (b.link i) l₁.getLast?).link
        (b.setLink (b.link i) l₁.getLast?).mp1ListHead (l₁ ++ l₂) by
      refine hlinked.congr fun j hj => ?_
      rw [mp1Free, link_store, Function.update_of_ne (hother j hj)]
    rcases List.eq_nil_or_concat l₁ with rfl | ⟨l₁, k, rfl⟩
    · exact h.linked.pop
    · rw [List.concat_eq_append, List.append_assoc, List.singleton_append] at h
      have hunlink := h.linked.unlink
      rw [List.concat_eq_append, List.getLast?_concat, setLink, link_store, List.append_assoc]
      exact hunlink
  · by_cases hj : j = i
    · subst hj
      exact iff_of_false hi (by simp [mp1Free, BlinkStruct.zero])
    · rw [mp1Free, item_store, Function.update_of_ne hj, item_setLink, ← h.used j]
      simp [hj]
  · refine List.map_congr_left fun j hj => ?_
    rw [mp1Free, item_store, Function.update_of_ne (hother j hj), item_setLink]
  · rw [mp1Free, video_store, video_setLink, h.video]

theorem remove (h : Represents b l d) (arg : Word) :
    ∃ r, b.mp1IoctlRemove arg = some r ∧
      (∃ l', Represents r.1 l' (d.remove (arg.setWidth 16)).1) ∧
      r.2 = (d.remove (arg.setWidth 16)).2 := by
  rw [mp1IoctlRemove, mp1FindHelper_eq _ h.linked, Display.remove, h.at?_eq]
  rcases hfind : l.find? fun i => decide ((b.item i).location = arg.setWidth 16) with _ | i
  · exact ⟨_, rfl, ⟨l, h⟩, rfl⟩
  · obtain ⟨hloc, l₁, l₂, rfl, hnot⟩ := List.find?_eq_some_iff_append.mp hfind
    have hi : i ∉ l₁ := fun hmem => by simpa [hloc] using hnot i hmem
    have hfuel := length_lt_fuel h.linked
    rw [List.length_append, List.length_cons] at hfuel
    have hprev : b.removeFindPrev i (slots + 1) none = some (l₁.getLast?.or none) :=
      removeFindPrev_eq h.linked hi (by omega)
    rw [Option.or_none] at hprev
    have herase : d.items.eraseP (fun x => decide (x.location = arg.setWidth 16)) =
        (l₁ ++ l₂).map b.item := by
      have hfirst := List.eraseP_cons_of_pos (l := l₂.map b.item)
        (p := fun x => decide (x.location = arg.setWidth 16)) hloc
      rw [← h.items, List.map_append, List.eraseP_append_right, List.map_cons, hfirst,
        List.map_append]
      rintro x hx
      obtain ⟨j, hj, rfl⟩ := List.mem_map.mp hx
      simpa using hnot j hj
    dsimp only
    rw [hprev]
    refine ⟨_, rfl, ⟨l₁ ++ l₂, ?_⟩, rfl⟩
    dsimp only [Option.map_some]
    rw [herase]
    exact h.unlink

theorem find (h : Represents b l d) (user : BlinkStruct) :
    ∃ r, b.mp1IoctlFind user = some r ∧ r.plain = (d.call (.rtcFind user)).2 := by
  rw [mp1IoctlFind, mp1FindHelper_eq _ h.linked, Display.call, h.at?_eq]
  rcases l.find? fun i => decide ((b.item i).location = user.location) with _ | i
  · exact ⟨_, rfl, rfl⟩
  · exact ⟨_, rfl, rfl⟩

/-- An item changes, but not its location. -/
theorem modify (h : Represents b l d) (i : Slot) {x : BlinkItem}
    (hloc : x.location = (b.item i).location) :
    Represents (b.storeItem i x) l { d with items := l.map (Function.update b.item i x) } := by
  refine ⟨?_, fun j => ?_, by rw [item_storeItem], h.video⟩
  · rw [link_storeItem]
    exact h.linked
  · rw [h.used j, item_storeItem]
    by_cases hj : j = i
    · subst hj
      simp [hloc]
    · simp [hj]

/-- The display resynchronizes the item of the node that the loop finds. -/
theorem resync_map {item : Slot → BlinkItem} {l : List Slot} (hnodup : l.Nodup) (x : BlinkItem)
    {target : BitVec 16} {i : Slot}
    (hfind : l.find? (fun j => decide ((item j).location = target)) = some i) :
    Display.resync x target (l.map item) =
      l.map (Function.update item i (x.copyPhase (item i))) := by
  induction l with
  | nil => cases hfind
  | cons k l ih =>
    obtain ⟨hk, hnodup⟩ := List.nodup_cons.mp hnodup
    rw [List.find?_cons] at hfind
    by_cases hloc : (item k).location = target
    · rw [decide_eq_true hloc] at hfind
      obtain rfl := Option.some.inj hfind
      rw [List.map_cons, List.map_cons, Display.resync, if_pos hloc, Function.update_self]
      refine congrArg _ (List.map_congr_left fun j hj => (Function.update_of_ne ?_ _ _).symm)
      rintro rfl
      exact hk hj
    · rw [decide_eq_false hloc] at hfind
      have hki : k ≠ i := by
        rintro rfl
        exact hk (List.mem_of_find?_eq_some hfind)
      rw [List.map_cons, List.map_cons, Display.resync, if_neg hloc, Function.update_of_ne hki,
        ih hnodup hfind]

theorem sync (h : Represents b l d) (arg : Word) :
    ∃ r, b.mp1IoctlSync arg = some r ∧
      (∃ l', Represents r.1 l' (d.sync ((arg >>> 16).setWidth 16) (arg.setWidth 16)).1) ∧
      r.2 = (d.sync ((arg >>> 16).setWidth 16) (arg.setWidth 16)).2 := by
  rw [mp1IoctlSync, mp1FindHelper_eq _ h.linked, mp1FindHelper_eq _ h.linked, Display.sync,
    h.at?_eq, h.at?_eq]
  rcases l.find? fun i => decide ((b.item i).location = (arg >>> 16).setWidth 16) with _ | i
  · exact ⟨_, rfl, ⟨l, h⟩, rfl⟩
  · rcases hfind : l.find? fun i => decide ((b.item i).location = arg.setWidth 16) with _ | k
    · exact ⟨_, rfl, ⟨l, h⟩, rfl⟩
    · have hloc : (b.item k).location = arg.setWidth 16 := by simpa using List.find?_some hfind
      have hmodify := h.modify k (x := (b.item i).copyPhase (b.item k)) rfl
      have hpoke := hmodify.poke (arg.setWidth 16) (b.item k).offChar
      refine ⟨_, rfl, ⟨l, ?_⟩, rfl⟩
      dsimp only [Option.map_some]
      rw [← h.items, resync_map h.linked.nodup _ hfind, blinkArray_storeItem]
      rw [← hloc] at hpoke ⊢
      exact hpoke

end Represents

/-! ## A tick -/

section tick

variable {b : Blinker} {l : List Slot} {i : Slot}

theorem mp1ListHead_taskletTurn : (b.taskletTurn i).mp1ListHead = b.mp1ListHead := by
  rw [taskletTurn]
  split
  · rfl
  · rfl

theorem item_taskletTurn :
    (b.taskletTurn i).item = Function.update b.item i (b.item i).tick.1 := by
  rw [taskletTurn]
  split
  · rw [item_mp1Poke, item_storeItem]
    rfl
  · rw [item_storeItem]
    rfl

/-- The pointers stay as they are. -/
theorem link_taskletTurn : (b.taskletTurn i).link = b.link := by
  rw [taskletTurn]
  split
  · rw [link_mp1Poke, link_storeItem]
  · rw [link_storeItem]

theorem location_tick (x : BlinkItem) : x.tick.1.location = x.location := by
  rw [BlinkItem.tick]
  dsimp only
  split_ifs
  · rfl
  · rfl
  · rfl

theorem video_taskletTurn : (b.taskletTurn i).video = Display.showTick b.video (b.item i) := by
  rw [taskletTurn, Display.showTick, blinkArray_storeItem, location_tick, item]
  cases (b.blinkArray i).tick.2 with
  | none => rfl
  | some c => rfl

theorem taskletLoop_eq {p : Option Slot} (h : Linked b.link p l) {fuel : ℕ}
    (hfuel : l.length < fuel) : taskletLoop fuel p b = some (l.foldl taskletTurn b) := by
  induction l generalizing p fuel b with
  | nil =>
    obtain ⟨n, rfl⟩ := Nat.exists_eq_add_of_lt hfuel
    rw [show p = none from h]
    exact taskletLoop.eq_2 b _
  | cons i l ih =>
    rcases fuel with _ | fuel
    · exact absurd hfuel (by simp)
    · obtain ⟨rfl, hrest⟩ := h
      rw [← link_taskletTurn (i := i)] at hrest
      rw [taskletLoop, List.foldl_cons]
      exact ih hrest (by simpa using hfuel)

/-- The turns over a list without repetition: each item ticks once, in order. -/
theorem foldl_taskletTurn (hnodup : l.Nodup) :
    (l.foldl taskletTurn b).mp1ListHead = b.mp1ListHead ∧
      (l.foldl taskletTurn b).link = b.link ∧
      (∀ j, (l.foldl taskletTurn b).item j = if j ∈ l then (b.item j).tick.1 else b.item j) ∧
      (l.foldl taskletTurn b).video = (l.map b.item).foldl Display.showTick b.video := by
  induction l generalizing b with
  | nil => exact ⟨rfl, rfl, fun j => by simp, rfl⟩
  | cons i l ih =>
    obtain ⟨hi, hnodup⟩ := List.nodup_cons.mp hnodup
    obtain ⟨hhead, hlink, hitem, hvideo⟩ := ih (b := b.taskletTurn i) hnodup
    have hothers : l.map (b.taskletTurn i).item = l.map b.item := by
      refine List.map_congr_left fun j hj => ?_
      rw [item_taskletTurn, Function.update_of_ne]
      rintro rfl
      exact hi hj
    refine ⟨hhead.trans mp1ListHead_taskletTurn, hlink.trans link_taskletTurn, fun j => ?_, ?_⟩
    · rw [List.foldl_cons, hitem, item_taskletTurn]
      by_cases hj : j = i
      · subst hj
        simp [hi]
      · simp [hj]
    · rw [List.foldl_cons, hvideo, hothers, video_taskletTurn]
      rfl

theorem Represents.tick {d : Display} (h : Represents b l d) :
    ∃ b', b.mp1RtcTasklet = some b' ∧ Represents b' l d.tick := by
  obtain ⟨hhead, hlink, hitem, hvideo⟩ := foldl_taskletTurn (b := b) h.linked.nodup
  refine ⟨_, taskletLoop_eq h.linked (length_lt_fuel h.linked), ⟨?_, fun j => ?_, ?_, ?_⟩⟩
  · rw [hhead, hlink]
    exact h.linked
  · rw [h.used j, hitem]
    split
    · rw [location_tick]
    · exact Iff.rfl
  · rw [Display.tick, ← h.items, List.map_map]
    refine List.map_congr_left fun j hj => ?_
    rw [hitem, if_pos hj]
    rfl
  · rw [hvideo, h.items, h.video]
    rfl

end tick

end Blinker

/-! ## Runs -/

/-- The call adds no item with location 0. -/
def BlinkCall.Located : BlinkCall → Prop
  | rtcAdd user => user.location ≠ 0
  | _ => True

instance BlinkCall.decidableLocated : DecidablePred BlinkCall.Located
  | rtcAdd user => inferInstanceAs (Decidable (user.location ≠ 0))
  | rtcRemove _ => .isTrue trivial
  | rtcFind _ => .isTrue trivial
  | rtcSync _ => .isTrue trivial
  | rtcTasklet => .isTrue trivial

namespace Blinker

variable {b : Blinker} {l : List Slot} {d : Display}

/-- What one call does is what it does to the display. -/
theorem Represents.call (h : Represents b l d) {c : BlinkCall} (hc : c.Located) :
    ∃ r, b.call c = some r ∧ (∃ l', Represents r.1 l' (d.call c).1) ∧
      r.2.plain = (d.call c).2 := by
  cases c with
  | rtcAdd user =>
    obtain ⟨hadd, heax⟩ := h.add user hc
    refine ⟨_, rfl, hadd, ?_⟩
    rw [BlinkReply.plain, heax]
    rfl
  | rtcRemove arg =>
    obtain ⟨r, hr, hremove, heax⟩ := h.remove arg
    refine ⟨(r.1, ⟨r.2, none⟩), ?_, hremove, ?_⟩
    · rw [Blinker.call, hr]
      rfl
    · rw [BlinkReply.plain, heax]
      rfl
  | rtcFind user =>
    obtain ⟨r, hr, hplain⟩ := h.find user
    refine ⟨(b, r), ?_, ⟨l, h⟩, hplain⟩
    rw [Blinker.call, hr]
    rfl
  | rtcSync arg =>
    obtain ⟨r, hr, hsync, heax⟩ := h.sync arg
    refine ⟨(r.1, ⟨r.2, none⟩), ?_, hsync, ?_⟩
    · rw [Blinker.call, hr]
      rfl
    · rw [BlinkReply.plain, heax]
      rfl
  | rtcTasklet =>
    obtain ⟨b', hb, htick⟩ := h.tick
    refine ⟨(b', ⟨0, none⟩), ?_, ⟨l, htick⟩, rfl⟩
    rw [Blinker.call, hb]
    rfl

/-- The empty list. -/
theorem represents_atStart (video : ℕ → Byte) :
    Represents (atStart video) [] (Display.atStart video) :=
  ⟨rfl, fun i => by simp [item, atStart, BlinkStruct.zero], rfl, rfl⟩

theorem Represents.calls (h : Represents b l d) {cs : List BlinkCall}
    (hcs : ∀ c ∈ cs, c.Located) :
    ∃ r, b.calls cs = some r ∧ (∃ l', Represents r.1 l' (d.calls cs).1) ∧
      r.2.map BlinkReply.plain = (d.calls cs).2 := by
  induction cs generalizing b l d with
  | nil => exact ⟨(b, []), rfl, ⟨l, h⟩, rfl⟩
  | cons c cs ih =>
    obtain ⟨r, hr, ⟨l', hl'⟩, hplain⟩ := h.call (hcs c List.mem_cons_self)
    obtain ⟨rest, hrest, hend, hreplies⟩ := ih hl' fun c hc => hcs c (List.mem_cons_of_mem _ hc)
    refine ⟨(rest.1, r.2 :: rest.2), ?_, hend, ?_⟩
    · rw [Blinker.calls, hr, Option.bind_some, hrest]
      rfl
    · rw [List.map_cons, hplain, hreplies]
      rfl

/-- The list refines the display: whatever calls are made, as long as none of them adds an
item with location 0, every loop ends, the replies are those of the display, the screen is
that of the display, the nodes of the list are the slots in use and hold its items in
order. -/
theorem calls_refine (video : ℕ → Byte) (cs : List BlinkCall) (hcs : ∀ c ∈ cs, c.Located) :
    ∃ b replies l, (atStart video).calls cs = some (b, replies) ∧
      replies.map BlinkReply.plain = ((Display.atStart video).calls cs).2 ∧
      b.video = ((Display.atStart video).calls cs).1.video ∧
      Linked b.link b.mp1ListHead l ∧ (∀ i, i ∈ l ↔ (b.item i).location ≠ 0) ∧
      l.map b.item = ((Display.atStart video).calls cs).1.items := by
  obtain ⟨r, hr, ⟨l, hl⟩, hplain⟩ := (represents_atStart video).calls hcs
  exact ⟨r.1, r.2, l, hr, hplain, hl.video, hl.linked, hl.used, hl.items⟩

/-- The item that `fish` adds after a while is ticked, removed, and then not there. -/
theorem calls_refine_sample : ∃ b replies,
    (atStart fun _ => 0).calls [.rtcAdd ⟨⟨540, 0x49, 0x4D, 7, 6, 0, 0⟩, none⟩, .rtcTasklet,
      .rtcRemove 540, .rtcRemove 540] = some (b, replies) ∧
    replies.map BlinkReply.plain = [⟨0, none⟩, ⟨0, none⟩, ⟨0, none⟩, ⟨-1, none⟩] := by
  obtain ⟨b, replies, l, hrun, hreplies, -⟩ := calls_refine (fun _ => 0)
    [.rtcAdd ⟨⟨540, 0x49, 0x4D, 7, 6, 0, 0⟩, none⟩, .rtcTasklet, .rtcRemove 540, .rtcRemove 540]
    (by decide)
  refine ⟨b, replies, hrun, hreplies.trans ?_⟩
  decide

/-! ## Location 0 -/

/-- A node that points at itself is never left by the tasklet. -/
theorem taskletLoop_circle {i : Slot} (h : b.link i = some i) (fuel : ℕ) :
    taskletLoop fuel (some i) b = none := by
  induction fuel generalizing b with
  | zero => rfl
  | succ fuel ih =>
    rw [← link_taskletTurn (i := i)] at h
    rw [taskletLoop]
    exact (congrArg (fun p => taskletLoop fuel p _) h).trans (ih h)

/-- Nor by the search for another location. -/
theorem findHelperLoop_circle {i : Slot} (h : b.link i = some i) {ax : BitVec 16}
    (hne : (b.item i).location ≠ ax) (fuel : ℕ) : b.findHelperLoop ax fuel (some i) = none := by
  induction fuel with
  | zero => rfl
  | succ fuel ih =>
    rw [findHelperLoop]
    exact (if_neg hne).trans ((congrArg (b.findHelperLoop ax fuel) h).trans ih)

/-- Adding an item when there is a free slot. -/
theorem mp1IoctlAdd_eq {i : Slot} (hfree : b.mp1Malloc = some i) {user : BlinkStruct}
    (hvalid : user.location.toNat < slots) :
    (b.mp1IoctlAdd user).2 = 0 ∧ (b.mp1IoctlAdd user).1.mp1ListHead = some i ∧
      (b.mp1IoctlAdd user).1.link = Function.update b.link i b.mp1ListHead ∧
      (b.mp1IoctlAdd user).1.item = Function.update b.item i user.start := by
  rw [mp1IoctlAdd, if_neg (not_le.mpr hvalid), hfree]
  exact ⟨rfl, rfl, link_store b i _, item_store b i _⟩

/-- Which slot is handed out depends on the locations alone. -/
theorem mp1Malloc_congr {b' : Blinker} (h : ∀ i, (b'.item i).location = (b.item i).location) :
    b'.mp1Malloc = b.mp1Malloc :=
  congrArg (fun p => (List.finRange slots).find? p) (funext fun i => by
    rw [show (b'.blinkArray i).location = (b.blinkArray i).location from h i])

/-- In any state that calls lead to, with a slot to spare, an item with location 0 is
accepted, and the item added next takes its slot. In the state after that the list goes in
circles: no node but this one can be reached, and neither the tasklet nor a search for another
location ends. -/
theorem circular_of_zero {video : ℕ → Byte} {cs : List BlinkCall} (hcs : ∀ c ∈ cs, c.Located)
    {replies : List (BlinkReply BlinkStruct)}
    (hrun : (atStart video).calls cs = some (b, replies))
    (hroom : ((Display.atStart video).calls cs).1.items.length < slots) {x y : BlinkStruct}
    (hx : x.location = 0) (hy : y.location.toNat < slots) :
    let b₁ := b.mp1IoctlAdd x
    let b₂ := b₁.1.mp1IoctlAdd y
    b₁.2 = 0 ∧ b₂.2 = 0 ∧
      (∃ i, b₂.1.mp1ListHead = some i ∧ b₂.1.link i = some i) ∧
      (∀ fuel, taskletLoop fuel b₂.1.mp1ListHead b₂.1 = none) ∧
      ∀ ax, y.location ≠ ax → ∀ fuel, b₂.1.findHelperLoop ax fuel b₂.1.mp1ListHead = none := by
  obtain ⟨r, hr, ⟨l, hl⟩, -⟩ := (represents_atStart video).calls hcs
  obtain rfl := Option.some.inj (hr.symm.trans hrun)
  rcases hmalloc : b.mp1Malloc with _ | i
  · exact absurd (hl.mp1Malloc_eq_none_iff.mp hmalloc) (Nat.ne_of_lt hroom)
  · intro b₁ b₂
    have hvalid : x.location.toNat < slots := by
      rw [hx]
      decide
    obtain ⟨heax, hhead, -, hitem⟩ := mp1IoctlAdd_eq hmalloc hvalid
    -- the slot just taken still looks free
    have hagain : b₁.1.mp1Malloc = some i := by
      rw [← hmalloc]
      refine mp1Malloc_congr fun j => ?_
      rw [hitem]
      by_cases hj : j = i
      · subst hj
        rw [Function.update_self, mp1Malloc_eq_some hmalloc]
        exact hx
      · rw [Function.update_of_ne hj]
    obtain ⟨heax₂, hhead₂, hlink₂, hitem₂⟩ := mp1IoctlAdd_eq hagain hy
    have hcircle : b₂.1.link i = some i := by
      rw [hlink₂, Function.update_self]
      exact hhead
    refine ⟨heax, heax₂, ⟨i, hhead₂, hcircle⟩, fun fuel => ?_, fun ax hax fuel => ?_⟩
    · rw [hhead₂]
      exact taskletLoop_circle hcircle fuel
    · rw [hhead₂]
      refine findHelperLoop_circle hcircle ?_ fuel
      rw [hitem₂, Function.update_self]
      exact hax

/-- The first two items of the program, at locations 0 and 540. -/
theorem circular_of_zero_sample :
    let b₁ := (atStart fun _ => 0).mp1IoctlAdd ⟨⟨0, 0x49, 0x4D, 7, 6, 0, 0⟩, none⟩
    let b₂ := b₁.1.mp1IoctlAdd ⟨⟨540, 0x49, 0x4D, 7, 6, 0, 0⟩, none⟩
    b₁.2 = 0 ∧ b₂.2 = 0 ∧ ∀ fuel, taskletLoop fuel b₂.1.mp1ListHead b₂.1 = none := by
  obtain ⟨h₁, h₂, -, hnever, -⟩ := @circular_of_zero (atStart fun _ => 0) (fun _ => 0) []
    (by decide) [] rfl (by decide) ⟨⟨0, 0x49, 0x4D, 7, 6, 0, 0⟩, none⟩
    ⟨⟨540, 0x49, 0x4D, 7, 6, 0, 0⟩, none⟩ rfl (by decide)
  exact ⟨h₁, h₂, hnever⟩

end Blinker

end Os391
