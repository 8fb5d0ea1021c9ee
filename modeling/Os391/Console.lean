import Os391.Kernel

/-!
# Video memory and the cursor: `lib.c`

`putc`, `backspace`, `newline`, `scrolldown`, `clear`, `clearscreen` and `memcpy`,
on the memory and the cursor held in `Console`. Cell `i` of the 80x25 screen is the byte pair at
`0xB8000 + 2 * i`, character first. The arithmetic on the cursor is C's: `%`
and `/` truncate towards zero. `update_cursor` only programs the display
controller and leaves no trace here.
-/

namespace Os391

open Bytes

namespace Console

/-- The attribute byte `ATTRIB`. -/
def attrib : Byte := 7

/-- Store one byte. -/
@[simps] def poke (c : Console) (a : Word) (b : Byte) : Console :=
  { c with mem := Function.update c.mem a b }

/-- The address of the character byte of cell `i`. -/
def cellAddr (i : Int) : Word := 0xB8000 + BitVec.ofInt 32 (2 * i)

/-- Write a character and the attribute into cell `i`. -/
def setCell (c : Console) (i : Int) (ch : Byte) : Console :=
  (c.poke (cellAddr i) ch).poke (cellAddr i + 1) attrib

/-- The cell the cursor is on. -/
def cursor (c : Console) : Int := 80 * c.screenY + c.screenX

/-- `newline`: write `ch` at the cursor and step, wrapping to the next row. -/
def newline (ch : Byte) (c : Console) : Console :=
  let c := c.setCell c.cursor ch
  let x := (c.screenX + 1).tmod 80
  { c with screenX := x, screenY := (c.screenY + x.tdiv 80).tmod 25 }

/-- One turn of the loop of `scrolldown`, at cell `k`: the last row is blanked,
every other cell takes the character below it. -/
def scrollCell (c : Console) (k : ℕ) : Console :=
  if k / 80 = 24 then c.setCell k 0 else c.setCell k (c.mem (cellAddr (k + 80)))

/-- `scrolldown`: 1 if the cursor is on the last row and the screen moved up. -/
def scrolldown (c : Console) : Int × Console :=
  if c.screenY ≠ 24 then (0, c)
  else (1, { (List.range 2000).foldl scrollCell c with screenX := 0 })

/-- `putc`. -/
def putc (ch : Byte) (c : Console) : Console :=
  if ch = 0x0A ∨ ch = 0x0D then
    { c with screenY := c.screenY + 1, screenX := 0 }
  else if c.screenY = 25 then
    newline ch (scrolldown { c with screenY := 24 }).2
  else if c.screenX = 79 then
    newline ch c
  else
    let c := c.setCell c.cursor ch
    let x := (c.screenX + 1).tmod 80
    { c with screenX := x, screenY := (c.screenY + x.tdiv 80).tmod 25 }

/-- `backspace`: blank the cell before the cursor and step back. -/
def backspace (c : Console) : Console :=
  if c.screenX = 0 ∧ c.screenY = 0 then c
  else
    let c := c.setCell (80 * c.screenY + c.screenX - 1) 0
    let x := (c.screenX - 1).tmod 80
    let y := (c.screenY + x.tdiv 80).tmod 25
    { c with screenX := x, screenY := if x = 79 then y - 1 else y }

/-- `clearscreen`: zeros in all cells; the cursor goes to the first one. -/
def clearscreen (c : Console) : Console :=
  { (List.range 2000).foldl (fun c (k : ℕ) => c.setCell k 0) c with screenX := 0, screenY := 0 }

/-- `puts`, and `printf` of a format without `%`. -/
def puts (text : List Byte) (c : Console) : Console := text.foldl (fun c ch => putc ch c) c

/-- `clear`: blanks in all cells; the cursor stays. -/
def clear (c : Console) : Console := (List.range 2000).foldl (fun c (k : ℕ) => c.setCell k 0x20) c

/-- `memcpy`: `n` bytes from `src` to `dest`, in increasing order. -/
def memcpy (c : Console) (dest src : Word) : ℕ → Console
  | 0 => c
  | n + 1 =>
    let c := memcpy c dest src n
    c.poke (dest + BitVec.ofNat 32 n) (c.mem (src + BitVec.ofNat 32 n))

end Console

end Os391
