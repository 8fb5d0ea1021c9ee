import Mathlib.Data.List.FinRange
import Mathlib.Logic.Function.Basic
import Os391.Lib.Bytes

/-!
# Blinking characters: `blink.S` and the memory functions of `fish.c`

The blinking characters of `fish` are a list of `struct mp1_blink_struct`, linked through
`next`, whose nodes live in `blink_array`. A slot of the array is free exactly if its
`location` is 0. A pointer to a node is the number of its slot, `NULL` is `none`.

The loops of the assembly code follow `next` until it is `NULL`. They take a number of
turns as fuel, and `none` is a loop that is not over then; a list that ends has no more
nodes than the array has slots, so that `slots + 1` turns are enough for it.
-/

namespace Os391

open Bytes

/-- `80*25`, the size of `blink_array` and of the screen. -/
def slots : ℕ := 80 * 25

/-- A pointer into `blink_array`. -/
abbrev Slot : Type := Fin slots

/-- What a `struct mp1_blink_struct` says about its character. -/
structure BlinkItem : Type where
  location : BitVec 16
  onChar : Byte
  offChar : Byte
  onLength : BitVec 16
  offLength : BitVec 16
  countdown : BitVec 16
  status : BitVec 16
  deriving DecidableEq

/-- `struct mp1_blink_struct`. -/
structure BlinkStruct : Type extends BlinkItem where
  next : Option Slot
  deriving DecidableEq

/-- The variables of the program: `blink_array`, `mp1_list_head`, and the bytes from
`vmem_base_addr` on. -/
structure Blinker : Type where
  blinkArray : Slot → BlinkStruct
  mp1ListHead : Option Slot
  video : ℕ → Byte

/-- A use of the list: `mp1_ioctl` with one of the four commands of `blink.h`, or
`mp1_rtc_tasklet`. Where the argument is a pointer to a struct, the struct stands for
it. -/
inductive BlinkCall : Type where
  | rtcAdd : BlinkStruct → BlinkCall
  | rtcRemove : Word → BlinkCall
  | rtcFind : BlinkStruct → BlinkCall
  | rtcSync : Word → BlinkCall
  | rtcTasklet : BlinkCall
  deriving DecidableEq

/-- What the caller gets: `%eax`, and what is copied into the struct of the caller. The
tasklet returns nothing. -/
structure BlinkReply (α : Type) : Type where
  eax : Int
  user : Option α
  deriving DecidableEq

namespace BlinkItem

/-- The test of the low bit of `STATUS`. -/
def isOn (x : BlinkItem) : Bool := x.status.getLsbD 0

/-- A new item is on for `on_length` ticks first. -/
def start (x : BlinkItem) : BlinkItem := { x with status := 1, countdown := x.onLength }

/-- One turn of `tasklet_loop`: the item, and the character to display if there is one. -/
def tick (x : BlinkItem) : BlinkItem × Option Byte :=
  let x := { x with countdown := x.countdown - 1 }
  if 0 < x.countdown.toInt then (x, none)
  else if x.isOn then
    ({ x with countdown := x.offLength, status := x.status ^^^ 1 }, some x.offChar)
  else ({ x with countdown := x.onLength, status := x.status ^^^ 1 }, some x.onChar)

/-- `sync_copy_loop`: the lengths and the phase of `x`. -/
def copyPhase (x y : BlinkItem) : BlinkItem :=
  { y with
    onLength := x.onLength, offLength := x.offLength,
    countdown := x.countdown, status := x.status }

end BlinkItem

/-- The struct `mp1_free` leaves behind: 16 zero bytes. -/
def BlinkStruct.zero : BlinkStruct := ⟨⟨0, 0, 0, 0, 0, 0, 0⟩, none⟩

namespace Blinker

/-- `mp1_poke` at the place of a character on the screen, two bytes a character. -/
def mp1Poke (location : BitVec 16) (cl : Byte) (b : Blinker) : Blinker :=
  { b with video := Function.update b.video (2 * location.toNat) cl }

/-- Store a struct in `blink_array`. -/
def store (i : Slot) (x : BlinkStruct) (b : Blinker) : Blinker :=
  { b with blinkArray := Function.update b.blinkArray i x }

/-- Store what a struct says about its character, and leave its pointer. -/
def storeItem (i : Slot) (x : BlinkItem) (b : Blinker) : Blinker :=
  b.store i ⟨x, (b.blinkArray i).next⟩

/-- `mp1_malloc`: the first slot with `location` 0. -/
def mp1Malloc (b : Blinker) : Option Slot :=
  (List.finRange slots).find? fun i => decide ((b.blinkArray i).location = 0)

/-- `mp1_free`. -/
def mp1Free (i : Slot) (b : Blinker) : Blinker := b.store i BlinkStruct.zero

/-- The loop of `mp1_find_helper`. -/
def findHelperLoop (ax : BitVec 16) (b : Blinker) : ℕ → Option Slot → Option (Option Slot)
  | 0, _ => none
  | _ + 1, none => some none
  | fuel + 1, some i =>
    if (b.blinkArray i).location = ax then some (some i)
    else findHelperLoop ax b fuel (b.blinkArray i).next

/-- `mp1_find_helper`: the first node of the list with this location. -/
def mp1FindHelper (ax : BitVec 16) (b : Blinker) : Option (Option Slot) :=
  b.findHelperLoop ax (slots + 1) b.mp1ListHead

/-- The body of `tasklet_loop`. -/
def taskletTurn (b : Blinker) (i : Slot) : Blinker :=
  let t := (b.blinkArray i).tick
  let b := b.storeItem i t.1
  match t.2 with
  | some cl => b.mp1Poke (b.blinkArray i).location cl
  | none => b

/-- `tasklet_loop`. -/
def taskletLoop : ℕ → Option Slot → Blinker → Option Blinker
  | 0, _, _ => none
  | _ + 1, none, b => some b
  | fuel + 1, some i, b => taskletLoop fuel ((b.taskletTurn i).blinkArray i).next (b.taskletTurn i)

/-- `mp1_rtc_tasklet`. -/
def mp1RtcTasklet (b : Blinker) : Option Blinker := taskletLoop (slots + 1) b.mp1ListHead b

/-- What a link holds: `mp1_list_head`, or the `NEXT` of a slot. -/
def linkAt (b : Blinker) : Option Slot → Option Slot
  | none => b.mp1ListHead
  | some k => (b.blinkArray k).next

/-- Store a pointer in a link. -/
def setLink (b : Blinker) (ecx : Option Slot) : Option Slot → Blinker
  | none => { b with mp1ListHead := ecx }
  | some k => b.store k { b.blinkArray k with next := ecx }

/-- `mp1_ioctl_add`. The copy from the caller never fails: `ece391_memcpy` returns 0. -/
def mp1IoctlAdd (user : BlinkStruct) (b : Blinker) : Blinker × Int :=
  if slots ≤ user.location.toNat then (b, -1)
  else
    match b.mp1Malloc with
    | none => (b, -1)
    | some i =>
      let b := (b.store i ⟨user.start, b.mp1ListHead⟩).setLink (some i) none
      (b.mp1Poke (b.blinkArray i).location (b.blinkArray i).onChar, 0)

/-- `remove_find_prev`: the link that points at `eax`. Behind the last node it would read
through `NULL`. -/
def removeFindPrev (eax : Slot) (b : Blinker) : ℕ → Option Slot → Option (Option Slot)
  | 0, _ => none
  | fuel + 1, edx =>
    if b.linkAt edx = some eax then some edx
    else match b.linkAt edx with
      | some k => removeFindPrev eax b fuel (some k)
      | none => none

/-- `mp1_ioctl_remove`. -/
def mp1IoctlRemove (arg : Word) (b : Blinker) : Option (Blinker × Int) :=
  match b.mp1FindHelper (arg.setWidth 16) with
  | none => none
  | some none => some (b, -1)
  | some (some eax) =>
    (b.removeFindPrev eax (slots + 1) none).map fun edx =>
      ((b.setLink (b.blinkArray eax).next edx).mp1Free eax, 0)

/-- `mp1_ioctl_sync`. After `testb $1` the condition of `cmovl` does not hold, whatever
the status is: what is displayed is `OFF_CHAR`. -/
def mp1IoctlSync (arg : Word) (b : Blinker) : Option (Blinker × Int) :=
  match b.mp1FindHelper ((arg >>> 16).setWidth 16) with
  | none => none
  | some none => some (b, -1)
  | some (some esi) =>
    match b.mp1FindHelper (arg.setWidth 16) with
    | none => none
    | some none => some (b, -1)
    | some (some edi) =>
      let x := (b.blinkArray esi).copyPhase (b.blinkArray edi).toBlinkItem
      let b := b.storeItem edi x
      some (b.mp1Poke (b.blinkArray edi).location (b.blinkArray edi).offChar, 0)

/-- `mp1_ioctl_find`: the node is copied into the struct of the caller. -/
def mp1IoctlFind (user : BlinkStruct) (b : Blinker) : Option (BlinkReply BlinkStruct) :=
  match b.mp1FindHelper user.location with
  | none => none
  | some none => some ⟨-1, none⟩
  | some (some i) => some ⟨0, some (b.blinkArray i)⟩

/-- `mp1_ioctl`, with its `call_table`, or `mp1_rtc_tasklet`. -/
def call (b : Blinker) : BlinkCall → Option (Blinker × BlinkReply BlinkStruct)
  | .rtcAdd user => some ((b.mp1IoctlAdd user).1, ⟨(b.mp1IoctlAdd user).2, none⟩)
  | .rtcRemove arg => (b.mp1IoctlRemove arg).map fun r => (r.1, ⟨r.2, none⟩)
  | .rtcFind user => (b.mp1IoctlFind user).map fun r => (b, r)
  | .rtcSync arg => (b.mp1IoctlSync arg).map fun r => (r.1, ⟨r.2, none⟩)
  | .rtcTasklet => b.mp1RtcTasklet.map fun b => (b, ⟨0, none⟩)

/-- A sequence of calls, and the replies to them. -/
def calls (b : Blinker) : List BlinkCall → Option (Blinker × List (BlinkReply BlinkStruct))
  | [] => some (b, [])
  | c :: cs =>
    (b.call c).bind fun r => (r.1.calls cs).map fun rest => (rest.1, r.2 :: rest.2)

/-- The program starts: `blink_array` is cleared, and the list is empty. -/
def atStart (video : ℕ → Byte) : Blinker := ⟨fun _ => BlinkStruct.zero, none, video⟩

end Blinker

end Os391
