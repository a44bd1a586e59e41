/-
The heap of `mm/slob.c`.

A heap page is cut into units of two bytes.  The free blocks of a page are linked through the
units they consist of: a block of more than one unit holds its size in its first unit and the
offset of the next block in its second one, and a block of one unit holds the offset alone,
with its sign changed.  Pages with free blocks are on one of three lists.

A `slob_t *` is the number of its unit, that is its address divided by
two, and `mem` gives the content of a unit.  A `struct page` is its page number, and the
fields that SLOB uses are functions of it.  `list_head` rings are lists.  The answers of
`alloc_pages` are a parameter.  `none` stands for a `BUG_ON`, and for a loop that goes on
for longer than any list of a page.  Locking, the flags in `gfp` and the clearing of a block
that has been allocated are left out; a caller may write to a block at any time.
-/
import MinimalLinux.Foundation.Word

namespace MinimalLinux.Mm

open Foundation Function

/-! ## Units -/

section
variable (mem : Nat → Int) (s : Nat)

def pageSize : Nat := 4096

def slobUnit : Nat := 2

def slobUnits (size : Nat) : Nat := (size + slobUnit - 1) / slobUnit

def pageUnits : Nat := slobUnits pageSize

/-- A value as a `slobidx_t`, which is an `s16`. -/
def slobidx (n : Int) : Int := (n + 2 ^ 15) % 2 ^ 16 - 2 ^ 15

/-- `s & PAGE_MASK`. -/
def pageBase : Nat := s / pageUnits * pageUnits

def setSlob (size : Int) (next : Nat) : Nat → Int :=
  let offset := slobidx (next - pageBase s)
  if 1 < slobidx size then update (update mem s (slobidx size)) (s + 1) offset
  else update mem s (slobidx (-offset))

def slobUnitsAt : Int := if 0 < mem s then mem s else 1

def slobNext : Nat := (pageBase s + if mem s < 0 then slobidx (-mem s) else mem (s + 1)).toNat

def slobLast : Bool := slobNext mem s % pageUnits == 0

def align (x a : Nat) : Nat := u64 (x + (a - 1)) &&& (ullongMax - (a - 1))

end

/-! ## Pages -/

inductive SlobClass where
  | small
  | medium
  | large
  deriving DecidableEq, Repr

/-- The list for a size, by `SLOB_BREAK1` and `SLOB_BREAK2`. -/
def slobClass (size : Nat) : SlobClass :=
  if size < 256 then .small else if size < 1024 then .medium else .large

structure Slob where
  mem : Nat → Int
  /-- `sp->units` -/
  units : Nat → Int
  /-- `sp->freelist` -/
  freelist : Nat → Nat
  /-- `PageSlobFree` -/
  slobFree : Nat → Bool
  /-- `free_slob_small`, `free_slob_medium` and `free_slob_large` -/
  lists : SlobClass → List Nat
  /-- the pages that SLOB holds -/
  pages : List Nat
  /-- the answer of `alloc_pages` to the call of this number, while SLOB holds these pages -/
  alloc : Nat → List Nat → Option Nat
  calls : Nat

namespace Slob

section
variable (s : Slob) (sp : Nat)

def setSlobPageFree (list : SlobClass) : Slob :=
  { s with
    lists := update s.lists list (sp :: s.lists list)
    slobFree := update s.slobFree sp true }

/-- `clear_slob_page_free`; `list_del` takes the page off the list it is on. -/
def clearSlobPageFree : Slob :=
  { s with
    lists := fun list => (s.lists list).filter (· ≠ sp)
    slobFree := update s.slobFree sp false }

/-- The block after `prev` is `next`; without a `prev` it is the first one of the page. -/
def link (prev : Option Nat) (next : Nat) : Slob :=
  match prev with
  | some prev => { s with mem := setSlob s.mem prev (slobUnitsAt s.mem prev) next }
  | none => { s with freelist := update s.freelist sp next }

end

end Slob

/-! ## `slob_alloc` -/

section
variable (s : Slob)

/-- `slob_page_alloc` where `cur` has room: the units in front of an aligned address become a
block of their own. -/
def slobFragment (prev : Option Nat) (cur aligned : Nat) (avail delta : Int) :
    Slob × Option Nat × Nat × Int :=
  if delta ≠ 0 then
    let next := slobNext s.mem cur
    let mem := setSlob (setSlob s.mem aligned (avail - delta) next) cur delta aligned
    ({ s with mem := mem }, some cur, aligned, slobUnitsAt mem aligned)
  else (s, prev, cur, avail)

section
variable (sp : Nat) (prev : Option Nat) (cur : Nat) (avail : Int) (units : Nat)

/-- `slob_page_alloc` where `cur` is aligned and has room: the block is unlinked, or what is left of
it takes its place. -/
def slobUnlink : Slob :=
  let next := slobNext s.mem cur
  if avail = units then s.link sp prev next
  else
    let s := s.link sp prev (cur + units)
    { s with mem := setSlob s.mem (cur + units) (avail - units) next }

/-- `slob_page_alloc` where `cur` is aligned and has room. -/
def slobTake : Slob :=
  let s := slobUnlink s sp prev cur avail units
  let s := { s with units := update s.units sp (s.units sp - units) }
  if s.units sp = 0 then s.clearSlobPageFree sp else s

end

def slobPageLoop (s : Slob) (sp units al : Nat) : Nat → Option Nat → Nat →
    Option (Slob × Option Nat)
  | 0, _, _ => none
  | fuel + 1, prev, cur =>
    let avail := slobUnitsAt s.mem cur
    let aligned := align (cur * slobUnit) al / slobUnit
    let delta : Int := if al ≠ 0 then aligned - cur else 0
    if units + delta ≤ avail then
      let (s, prev, cur, avail) := slobFragment s prev cur aligned avail delta
      some (slobTake s sp prev cur avail units, some cur)
    else if slobLast s.mem cur then some (s, none)
    else slobPageLoop s sp units al fuel (some cur) (slobNext s.mem cur)

def slobPageAlloc (sp size al : Nat) : Option (Slob × Option Nat) :=
  slobPageLoop s sp (slobUnits size) al pageUnits none (s.freelist sp)

/-- The search of `slob_alloc` along a list of pages: the position of the page in the list, and
the block. -/
def slobSearch (nid : Nat → Nat) (size al : Nat) (node : Option Nat) (s : Slob) :
    Nat → List Nat → Option (Slob × Option (Nat × Nat))
  | _, [] => some (s, none)
  | i, sp :: rest =>
    if node.isSome ∧ node ≠ some (nid sp) then slobSearch nid size al node s (i + 1) rest
    else if s.units sp < slobUnits size then slobSearch nid size al node s (i + 1) rest
    else
      (slobPageAlloc s sp size al).bind fun (s, b) =>
        match b with
        | some b => some (s, some (i, b))
        | none => slobSearch nid size al node s (i + 1) rest

/-- The list starts with the page where the search has stopped, `i` pages after its head.  There is
nothing to do if that is the head already, or if no page is left there. -/
def slobRotate (list : SlobClass) (i : Nat) : Slob :=
  let pages := s.lists list
  if i ≠ pages.length ∧ i ≠ 0 then
    { s with lists := update s.lists list (pages.drop i ++ pages.take i) }
  else s

/-- `slob_alloc` with a new page. -/
def slobNewPage (size al : Nat) : Option (Slob × Option Nat) :=
  match s.alloc s.calls s.pages with
  | none => some ({ s with calls := s.calls + 1 }, none)
  | some sp =>
    let b := sp * pageUnits
    let s : Slob := { s with
      calls := s.calls + 1
      pages := sp :: s.pages
      units := update s.units sp pageUnits
      freelist := update s.freelist sp b
      mem := setSlob s.mem b pageUnits (b + pageUnits) }
    (slobPageAlloc (s.setSlobPageFree sp (slobClass size)) sp size al).bind fun (s, b) =>
      if b.isSome then some (s, b) else none

/-- `slob_alloc`. -/
def slobAlloc (nid : Nat → Nat) (s : Slob) (size al : Nat) (node : Option Nat) :
    Option (Slob × Option Nat) :=
  let list := slobClass size
  (slobSearch nid size al node s 0 (s.lists list)).bind fun (s, found) =>
    match found with
    | some (i, b) => some (slobRotate s list i, some b)
    | none => slobNewPage s size al

/-! ## `slob_free` -/

/-- The loop of `slob_free`: the blocks before and after `b`. -/
def slobFind (mem : Nat → Int) (b : Nat) : Nat → Nat → Nat → Option (Nat × Nat)
  | 0, _, _ => none
  | fuel + 1, prev, next =>
    if next < b then slobFind mem b fuel next (slobNext mem next) else some (prev, next)

/-- `slob_free` of a block between `prev` and `next`: it is joined with `next` if they touch. -/
def slobJoinNext (mem : Nat → Int) (b : Nat) (units : Int) (prev next : Nat) : Nat → Int :=
  if slobLast mem prev = false ∧ (b : Int) + units = next then
    setSlob mem b (units + slobUnitsAt mem next) (slobNext mem next)
  else setSlob mem b units next

/-- It is joined with `prev` if they touch, and linked to it otherwise. -/
def slobJoinPrev (mem : Nat → Int) (b prev : Nat) : Nat → Int :=
  if prev + slobUnitsAt mem prev = b then
    setSlob mem prev (slobUnitsAt mem b + slobUnitsAt mem prev) (slobNext mem b)
  else setSlob mem prev (slobUnitsAt mem prev) b

/-- `slob_free` of a block in a page with free blocks. -/
def slobReinsert (sp b : Nat) (units : Int) : Option Slob :=
  let s := { s with units := update s.units sp (s.units sp + units) }
  let head := s.freelist sp
  if b < head then
    some (if (b : Int) + units = head then
      { s with
        mem := setSlob s.mem b (units + slobUnitsAt s.mem head) (slobNext s.mem head)
        freelist := update s.freelist sp b }
    else { s with mem := setSlob s.mem b units head, freelist := update s.freelist sp b })
  else
    (slobFind s.mem b pageUnits head (slobNext s.mem head)).map fun (prev, next) =>
      { s with mem := slobJoinPrev (slobJoinNext s.mem b units prev next) b prev }

end

/-- `slob_free`. -/
def slobFree (s : Slob) (b size : Nat) : Option Slob :=
  if b * slobUnit ≤ 16 then some s
  else if size = 0 then none
  else
    let sp := b / pageUnits
    let units := slobidx (slobUnits size)
    if s.units sp + units = pageUnits then
      let s := if s.slobFree sp then s.clearSlobPageFree sp else s
      some { s with pages := s.pages.filter (· ≠ sp) }
    else if s.slobFree sp = false then
      let s := { s with
        units := update s.units sp units
        freelist := update s.freelist sp b
        mem := setSlob s.mem b units (pageBase (b + pageUnits)) }
      some (s.setSlobPageFree sp (slobClass size))
    else slobReinsert s sp b units

end MinimalLinux.Mm
