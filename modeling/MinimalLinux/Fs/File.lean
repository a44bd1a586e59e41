/-
Descriptors in `fs/file.c`: `__alloc_fd`, `__put_unused_fd` and the growth of the
table.

A bitmap is the set of its bits, and a file pointer is a number, NULL being
`none`.  A new table comes with whatever its memory holds; copying and clearing cover as many bytes
as the code's 32-bit lengths say.  Calls follow each other, so that `resize_in_progress` is never
set when a call looks at it.  `sysctl_nr_open` is given with each call, since it can be changed in
between, up to `sysctl_nr_open_max`.

A bit of `full_fds_bits` is only set for a word of ones, and below
`next_fd` everything is open (`Inv`).  So neither hint makes the search skip a free descriptor.
-/
import MinimalLinux.Foundation.BitSet
import MinimalLinux.Foundation.Residue
import MinimalLinux.Foundation.Word

namespace MinimalLinux.Fs

open Foundation Function Nat List Bool

variable {files files' : Files} {n nrOpen nr m start fd : Nat}

/-! ## The code -/

structure Fdtable where
  maxFds : Nat
  fd : Nat → Option Nat
  closeOnExec : Nat → Bool
  openFds : Nat → Bool
  fullFdsBits : Nat → Bool

structure Files where
  fdt : Fdtable
  nextFd : Nat

section
variable (nrOpen : Nat) (mem : Option Fdtable) (files : Files) (nr : Nat) (fd : Nat) (fdt : Fdtable)

def bitsToLongs : Nat := (nr + 63) / 64

def bitbitSize : Nat := bitsToLongs (bitsToLongs nr) * 8

/-- `memcpy` of `cpy` bytes of a bitmap, and `memset` of the `set` bytes after them. -/
def copyBits (new old : Nat → Bool) (cpy set : Nat) : Nat → Bool := fun b =>
  if b < 8 * cpy then old b else if b < 8 * cpy + 8 * set then false else new b

def copyFdBitmaps (nfdt ofdt : Fdtable) (count : Nat) : Fdtable :=
  let cpy := count / 8
  let set := (nfdt.maxFds - count) / 8
  let cpyFull := u32 (bitbitSize count)
  let setFull := u32 (bitbitSize nfdt.maxFds - cpyFull)
  { nfdt with
    openFds := copyBits nfdt.openFds ofdt.openFds cpy set
    closeOnExec := copyBits nfdt.closeOnExec ofdt.closeOnExec cpy set
    fullFdsBits := copyBits nfdt.fullFdsBits ofdt.fullFdsBits cpyFull setFull }

/-- `copy_fdtable`; `none` is its `BUG_ON`. -/
def copyFdtable (nfdt ofdt : Fdtable) : Option Fdtable :=
  if nfdt.maxFds < ofdt.maxFds then none
  else
    let cpy := u32 (ofdt.maxFds * 8)
    let set := u32 ((nfdt.maxFds - ofdt.maxFds) * 8)
    let fd := fun i => if i < cpy / 8 then ofdt.fd i else if i < cpy / 8 + set / 8 then none
      else nfdt.fd i
    some (copyFdBitmaps { nfdt with fd := fd } ofdt ofdt.maxFds)

def flsLong (n : Nat) : Nat := if n = 0 then 0 else log2 n + 1

def roundupPowOfTwo (n : Nat) : Nat := 1 <<< flsLong (n - 1)

/-- The size of the table that `alloc_fdtable` makes. -/
def fdtableSize (nrOpen nr : Nat) : Nat :=
  let nr := u32 (roundupPowOfTwo (nr / 128 + 1) * 128)
  if nrOpen < nr then u32 (((nrOpen - 1) ||| 63) + 1) else nr

def enomem : Int := -12

def emfile : Int := -24

/-- `expand_fdtable`, with the memory that the allocations give, if they do; `none` is a
`BUG_ON`. -/
def expandFdtable : Option (Int × Files) :=
  match mem with
  | none => some (enomem, files)
  | some junk =>
    let newFdt := { junk with maxFds := fdtableSize nrOpen nr }
    if newFdt.maxFds ≤ nr then some (emfile, files)
    else if nr < files.fdt.maxFds then none
    else (copyFdtable newFdt files.fdt).map fun fdt => (1, { files with fdt := fdt })

/-- `expand_files`. -/
def expandFiles : Option (Int × Files) :=
  if nr < files.fdt.maxFds then some (0, files)
  else if nrOpen ≤ nr then some (emfile, files)
  else expandFdtable nrOpen mem files nr

def setOpenFd : Fdtable :=
  let openFds := update fdt.openFds fd true
  { fdt with
    openFds := openFds
    fullFdsBits :=
      if (List.range 64).all fun k => openFds (fd / 64 * 64 + k)
        then update fdt.fullFdsBits (fd / 64) true
      else fdt.fullFdsBits }

def clearOpenFd : Fdtable :=
  { fdt with
    openFds := update fdt.openFds fd false
    fullFdsBits := update fdt.fullFdsBits (fd / 64) false }

def findNextFd (start : Nat) : Nat :=
  let maxfd := fdt.maxFds
  let maxbit := maxfd / 64
  let bitbit := u32 (findNextZeroBit fdt.fullFdsBits maxbit (start / 64) * 64)
  if maxfd < bitbit then maxfd
  else findNextZeroBit fdt.openFds maxfd (if start < bitbit then bitbit else start)

/-- The descriptor that `__alloc_fd` tries. -/
def candidateFd (start : Nat) : Nat :=
  let fd := if start < files.nextFd then files.nextFd else start
  if fd < files.fdt.maxFds then findNextFd files.fdt fd else fd

/-- The end of `__alloc_fd`: the descriptor is taken, and its slot cleared. -/
def takeFd (start fd : Nat) (cloexec : Bool) : Files :=
  let fdt := setOpenFd fd files.fdt
  { nextFd := if start ≤ files.nextFd then fd + 1 else files.nextFd
    fdt := { fdt with
      closeOnExec := update fdt.closeOnExec fd cloexec
      fd := update fdt.fd fd none } }

/-- `__alloc_fd` from `repeat` on. -/
def allocFdLoop (nrOpen : Nat) (mem : Option Fdtable) (start stop : Nat) (cloexec : Bool) :
    Nat → Files → Option (Int × Files)
  | 0, _ => none
  | fuel + 1, files =>
    let fd := candidateFd files start
    if stop ≤ fd then some (emfile, files)
    else (expandFiles nrOpen mem files fd).bind fun (error, files) =>
      if error < 0 then some (error, files)
      else if error ≠ 0 then allocFdLoop nrOpen mem start stop cloexec fuel files
      else some (fd, takeFd files start fd cloexec)

/-- `__alloc_fd`; after one expansion it does not repeat again. -/
def allocFd (start stop : Nat) (cloexec : Bool) : Option (Int × Files) :=
  allocFdLoop nrOpen mem start stop cloexec 2 files

/-- `__put_unused_fd`. -/
def putUnusedFd : Files where
  fdt := clearOpenFd fd files.fdt
  nextFd := if fd < files.nextFd then fd else files.nextFd

def initFiles : Files := ⟨⟨64, fun _ => none, fun _ => false, fun _ => false, fun _ => false⟩, 0⟩

/-! ## Runs -/

def IsOpen (files : Files) (n : Nat) : Prop := n < files.fdt.maxFds ∧ files.fdt.openFds n = true

instance (files : Files) (n : Nat) : Decidable (IsOpen files n) :=
  inferInstanceAs (Decidable (_ ∧ _))

def sysctlNrOpenMax : Nat := 2 ^ 31 - 64

/-- A table that has to be made for the descriptor is below 2^29 entries. -/
def Fits : Prop := files.fdt.maxFds ≤ nr → nr < nrOpen → mem.isSome → fdtableSize nrOpen nr < 2 ^ 29

end

/-- The calls that change a table: allocation, release of an open descriptor, expansion as for
`dup2`, and a file pointer for an open descriptor. -/
inductive Step : Files → Files → Prop
  | alloc {files files' : Files} {nrOpen start stop : Nat} {mem : Option Fdtable} {cloexec : Bool}
    {ret : Int}
      (hlimit : nrOpen ≤ sysctlNrOpenMax) (hfits : Fits nrOpen mem files (candidateFd files start))
      (hcode : allocFd nrOpen mem files start stop cloexec = some (ret, files')) : Step files files'
  | put {files : Files} {fd : Nat} (hopen : IsOpen files fd) : Step files (putUnusedFd files fd)
  | expand {files files' : Files} {nrOpen nr : Nat} {mem : Option Fdtable} {ret : Int}
      (hlimit : nrOpen ≤ sysctlNrOpenMax) (hfits : Fits nrOpen mem files nr)
      (hcode : expandFiles nrOpen mem files nr = some (ret, files')) : Step files files'
  | install {files : Files} {fd file : Nat} (hopen : IsOpen files fd) :
      Step files { files with fdt := { files.fdt with fd := update files.fdt.fd fd (some file) } }

inductive Reach : Files → Prop
  | init : Reach initFiles
  | step {files files' : Files} (hreach : Reach files) (hstep : Step files files') : Reach files'

/-- The table is a whole number of words, `full_fds_bits` tells of words of ones only, and below
`next_fd` everything is open. -/
structure Inv (files : Files) : Prop where
  words : files.fdt.maxFds % 64 = 0
  size : files.fdt.maxFds < 2 ^ 29
  full : ∀ w < 8 * bitbitSize files.fdt.maxFds, files.fdt.fullFdsBits w = true →
    w < files.fdt.maxFds / 64 ∧ ∀ k < 64, files.fdt.openFds (w * 64 + k) = true
  next : ∀ n < files.nextFd, IsOpen files n

/-! ## Growing the table -/

lemma le_roundupPowOfTwo (n : Nat) : n + 1 ≤ roundupPowOfTwo (n + 1) := by
  rw [roundupPowOfTwo, Nat.add_sub_cancel, flsLong, one_shiftLeft]
  split_ifs with hn
  · rw [hn]
  · exact lt_log2_self

lemma roundupPowOfTwo_le {k : Nat} (hn : n < 2 ^ k) : roundupPowOfTwo (n + 1) ≤ 2 ^ k := by
  rw [roundupPowOfTwo, Nat.add_sub_cancel, flsLong, one_shiftLeft]
  refine Nat.pow_le_pow_right (by decide) ?_
  split_ifs with hzero
  · omega
  · exact (log2_lt hzero).mpr hn

/-- A new table has the descriptor in it, and it is a whole number of words. -/
lemma fdtableSize_spec (hlimit : nrOpen ≤ sysctlNrOpenMax) (hnr : nr < nrOpen) :
    nr < fdtableSize nrOpen nr ∧ fdtableSize nrOpen nr % 64 = 0 := by
  have hlow := le_roundupPowOfTwo (nr / 128)
  have hmax : nrOpen ≤ 2 ^ 31 - 64 := hlimit
  have hhigh : roundupPowOfTwo (nr / 128 + 1) ≤ 2 ^ 24 := roundupPowOfTwo_le (by omega)
  have hmask : (nrOpen - 1) ||| 63 = (nrOpen - 1) / 64 * 64 + 63 := or_mask (nrOpen - 1) 6
  unfold fdtableSize
  dsimp only
  rw [u32_of_lt (by omega : roundupPowOfTwo (nr / 128 + 1) * 128 < 2 ^ 32), hmask,
    u32_of_lt (by omega)]
  generalize roundupPowOfTwo (nr / 128 + 1) = pow at hlow hhigh
  split_ifs <;> omega

/-- The new table holds what the old one did, and nothing else. -/
structure Expanded (files files' : Files) : Prop where
  next : files'.nextFd = files.nextFd
  size : files.fdt.maxFds ≤ files'.fdt.maxFds
  fd : ∀ i < files'.fdt.maxFds, files'.fdt.fd i = if i < files.fdt.maxFds then files.fdt.fd i
    else none
  opened : ∀ i < files'.fdt.maxFds, files'.fdt.openFds i =
    (decide (i < files.fdt.maxFds) && files.fdt.openFds i)
  cloexec :
    ∀ i < files'.fdt.maxFds, files'.fdt.closeOnExec i =
    (decide (i < files.fdt.maxFds) && files.fdt.closeOnExec i)

/-- The file pointers of the old table, and NULL up to the size of the new one. -/
def copiedSlots (nfdt ofdt : Fdtable) : Nat → Option Nat := fun i =>
  if i < nfdt.maxFds then if i < ofdt.maxFds then ofdt.fd i else none else nfdt.fd i

/-- Where the lengths in bytes do not wrap, `copy_fdtable` copies as many pointers as it should. -/
lemma copyFdtable_eq {nfdt ofdt : Fdtable} (hle : ofdt.maxFds ≤ nfdt.maxFds)
    (hold : ofdt.maxFds < 2 ^ 29) (hnew : nfdt.maxFds - ofdt.maxFds < 2 ^ 29) :
    copyFdtable nfdt ofdt = some
    (copyFdBitmaps { nfdt with fd := copiedSlots nfdt ofdt } ofdt ofdt.maxFds) := by
  have hslots : (fun i => if i < ofdt.maxFds * 8 / 8 then ofdt.fd i
      else if i < ofdt.maxFds * 8 / 8 + (nfdt.maxFds - ofdt.maxFds) * 8 / 8 then none
      else nfdt.fd i) = copiedSlots nfdt ofdt := by
    funext i
    unfold copiedSlots
    split_ifs <;> first | rfl | omega
  rw [copyFdtable, if_neg hle.not_gt, u32_of_lt (by omega), u32_of_lt (by omega)]
  dsimp only
  rw [hslots]

lemma copyBits_spec {new old : Nat → Bool} {cpy set : Nat} (hcpy : 8 * cpy = n)
    (hset : n + 8 * set = m) {b : Nat} (hb : b < m) :
    copyBits new old cpy set b = (decide (b < n) && old b) := by
  unfold copyBits
  rw [hcpy, hset, if_pos hb]
  split_ifs with h
  · rw [decide_eq_true h, Bool.true_and]
  · rw [decide_eq_false h, Bool.false_and]

lemma bitbitSize_mono (h : n ≤ m) : bitbitSize n ≤ bitbitSize m := by
  unfold bitbitSize bitsToLongs
  omega

lemma Expanded.isOpen_iff (h : Expanded files files') (n : Nat) :
    IsOpen files' n ↔ IsOpen files n := by
  have hsize := h.size
  constructor
  · rintro ⟨hlt, hopen⟩
    rw [h.opened n hlt, and_eq_true, decide_eq_true_eq] at hopen
    exact hopen
  rintro ⟨hlt, hopen⟩
  refine ⟨by omega, ?_⟩
  rw [h.opened n (by omega), and_eq_true, decide_eq_true_eq]
  exact ⟨hlt, hopen⟩

lemma copyFdtable_spec (junk : Fdtable) (hinv : Inv files) (hwords : junk.maxFds % 64 = 0)
    (hsize : junk.maxFds < 2 ^ 29) (hle : files.fdt.maxFds ≤ junk.maxFds) :
    ∃ fdt, copyFdtable junk files.fdt = some fdt ∧ fdt.maxFds = junk.maxFds ∧ Expanded files
    { files with fdt := fdt }
      ∧ Inv { files with fdt := fdt } := by
  have hold := hinv.words
  have hcpy : 8 * (files.fdt.maxFds / 8) = files.fdt.maxFds := by omega
  have hset : files.fdt.maxFds + 8 * ((junk.maxFds - files.fdt.maxFds) / 8) = junk.maxFds := by
    omega
  have hmono := bitbitSize_mono hle
  have hbitbit : bitbitSize junk.maxFds < 2 ^ 32 := by unfold bitbitSize bitsToLongs; omega
  have hfull : 8 * bitbitSize files.fdt.maxFds + 8 *
      (bitbitSize junk.maxFds - bitbitSize files.fdt.maxFds) = 8 * bitbitSize junk.maxFds := by
    omega
  have hexpanded :
      Expanded files { files with
        fdt := (copyFdBitmaps { junk with fd := copiedSlots junk files.fdt } files.fdt
          files.fdt.maxFds) } :=
    ⟨rfl, hle, fun i hi => if_pos hi, fun i hi => copyBits_spec hcpy hset hi,
      fun i hi => copyBits_spec hcpy hset hi⟩
  refine ⟨copyFdBitmaps { junk with fd := copiedSlots junk files.fdt } files.fdt files.fdt.maxFds,
    ?_, rfl, hexpanded, hwords, hsize, fun w hw hbit => ?_,
    fun n hn => (hexpanded.isOpen_iff n).mpr (hinv.next n hn)⟩
  · exact copyFdtable_eq hle hinv.size (by omega)
  -- a bit of the new `full_fds_bits` is one of the old, and its word was copied
  have hw' : w < 8 * bitbitSize junk.maxFds := hw
  have hcopied :
    (copyBits junk.fullFdsBits files.fdt.fullFdsBits (u32 (bitbitSize files.fdt.maxFds))
      (u32 (bitbitSize junk.maxFds - u32 (bitbitSize files.fdt.maxFds)))) w = true := hbit
  rw [u32_of_lt (by omega : bitbitSize files.fdt.maxFds < 2 ^ 32), u32_of_lt (by omega),
    copyBits_spec rfl hfull hw', and_eq_true,
    decide_eq_true_eq] at hcopied
  obtain ⟨_, hones⟩ := hinv.full w hcopied.1 hcopied.2
  have hword' : w < junk.maxFds / 64 := by omega
  refine ⟨hword', fun k hk => ?_⟩
  refine (hexpanded.opened (w * 64 + k) (show w * 64 + k < junk.maxFds by omega)).trans ?_
  rw [hones k hk, decide_eq_true (by omega)]
  rfl

variable {mem : Option Fdtable}

lemma expandFiles_cases (hinv : Inv files) (hlimit : nrOpen ≤ sysctlNrOpenMax)
    (hfits : Fits nrOpen mem files nr) :
    (nr < files.fdt.maxFds ∧ expandFiles nrOpen mem files nr = some (0, files))
    ∨ (files.fdt.maxFds ≤ nr ∧ (nrOpen ≤ nr ∨ mem = none) ∧
      ∃ error < 0, expandFiles nrOpen mem files nr = some (error, files))
    ∨ (files.fdt.maxFds ≤ nr ∧ nr < nrOpen ∧ mem.isSome ∧
      ∃ files', expandFiles nrOpen mem files nr = some (1, files')
    ∧ nr < files'.fdt.maxFds ∧ Expanded files files' ∧ Inv files') := by
  by_cases hin : nr < files.fdt.maxFds
  · exact .inl ⟨hin, by rw [expandFiles, if_pos hin]⟩
  by_cases hcan : nrOpen ≤ nr
  · exact .inr
      (.inl ⟨by omega, .inl hcan, emfile, by decide, by rw [expandFiles, if_neg hin, if_pos hcan]⟩)
  rw [expandFiles, if_neg hin, if_neg hcan]
  cases mem with
  | none => exact .inr (.inl ⟨by omega, .inr rfl, enomem, by decide, rfl⟩)
  | some junk =>
    obtain ⟨hlt, hwords⟩ := fdtableSize_spec hlimit (not_le.mp hcan)
    have hsize := hfits (not_lt.mp hin) (not_le.mp hcan) rfl
    obtain ⟨fdt, hcopy, hmax, hexpanded, hinv'⟩ :=
      copyFdtable_spec { junk with maxFds := fdtableSize nrOpen nr }
      hinv hwords hsize (show files.fdt.maxFds ≤ fdtableSize nrOpen nr by omega)
    refine .inr
      (.inr ⟨by
      omega, by
      omega, rfl, { files with fdt := fdt }, ?_, hlt.trans_eq hmax.symm, hexpanded, hinv'⟩)
    simp [expandFdtable, if_neg hlt.not_ge, if_neg hin, hcopy]

/-! ## The search -/

/-- The lowest descriptor from `start` on that is not open. -/
structure Lowest (files : Files) (start fd : Nat) : Prop where
  le : start ≤ fd
  free : ¬ IsOpen files fd
  lower : ∀ n, start ≤ n → n < fd → IsOpen files n

variable {cloexec : Bool}

lemma Lowest.unique {fd' : Nat} (h : Lowest files start fd) (h' : Lowest files start fd') :
    fd = fd' := by
  rcases lt_trichotomy fd fd' with hlt | heq | hlt
  · exact absurd (h'.lower fd h.le hlt) h.free
  · exact heq
  · exact absurd (h.lower fd' h'.le hlt) h'.free

/-- Skipping the words that `full_fds_bits` tells of skips no free descriptor. -/
lemma findNextFd_spec (hinv : Inv files) (hstart : start < files.fdt.maxFds) :
    start ≤ findNextFd files.fdt start ∧ findNextFd files.fdt start ≤ files.fdt.maxFds
    ∧ (findNextFd files.fdt start < files.fdt.maxFds →
      files.fdt.openFds (findNextFd files.fdt start) = false)
    ∧ ∀ n, start ≤ n → n < findNextFd files.fdt start → files.fdt.openFds n = true := by
  have hsize := hinv.size
  unfold findNextFd
  dsimp only
  have hle : findNextZeroBit files.fdt.fullFdsBits (files.fdt.maxFds / 64) (start / 64) ≤
    files.fdt.maxFds / 64 := nextWith_le
  have hfull : ∀ w, start / 64 ≤ w →
    w < findNextZeroBit files.fdt.fullFdsBits (files.fdt.maxFds / 64) (start / 64) →
      ∀ k < 64, files.fdt.openFds (w * 64 + k) = true := by
    intro w hw hlt
    exact (hinv.full w (by unfold bitbitSize bitsToLongs; omega) (findNextZeroBit_skips hw hlt)).2
  generalize findNextZeroBit files.fdt.fullFdsBits (files.fdt.maxFds / 64) (start / 64) =
    word at hle hfull
  rw [u32_of_lt (by omega), if_neg (by omega)]
  generalize hfrom : (if start < word * 64 then word * 64 else start) = from'
  have hfrom' : start ≤ from' ∧ word * 64 ≤ from' ∧ from' ≤ files.fdt.maxFds ∧
      (from' = word * 64 ∨ from' = start) := by
    rw [← hfrom]
    split_ifs <;> omega
  refine ⟨hfrom'.1.trans ((nextWith_spec ..).start_le hfrom'.2.2.1), nextWith_le, fun hlt => ?_,
    fun n hn hlt => ?_⟩
  · exact (findNextZeroBit_found hlt).2
  rcases lt_or_ge n from' with hbefore | hafter
  · have := hfull (n / 64) (by omega) (by omega) (n % 64) (by omega)
    rwa [div_add_mod'] at this
  · exact findNextZeroBit_skips hafter hlt

lemma candidateFd_lowest (hinv : Inv files) (start : Nat) :
    Lowest files start (candidateFd files start) := by
  unfold candidateFd
  dsimp only
  generalize hfrom : (if start < files.nextFd then files.nextFd else start) = from'
  have hfrom' : start ≤ from' ∧ ∀ n, start ≤ n → n < from' → n < files.nextFd := by
    rw [← hfrom]
    split_ifs <;> exact ⟨by omega, by omega⟩
  split_ifs with hin
  · obtain ⟨hle, _, hfree, hskip⟩ := findNextFd_spec hinv hin
    refine ⟨hfrom'.1.trans hle, fun hopen => ?_, fun n hn hlt => ?_⟩
    · rw [IsOpen, hfree hopen.1] at hopen
      exact absurd hopen.2 (by decide)
    rcases lt_or_ge n from' with hbefore | hafter
    · exact hinv.next n (hfrom'.2 n hn hbefore)
    · exact ⟨by omega, hskip n hafter hlt⟩
  · exact ⟨hfrom'.1, fun hopen => hin hopen.1, fun n hn hlt => hinv.next n (hfrom'.2 n hn hlt)⟩

/-! ## One call -/

lemma isOpen_takeFd (hlt : fd < files.fdt.maxFds) (n : Nat) :
    IsOpen (takeFd files start fd cloexec) n ↔ IsOpen files n ∨ n = fd := by
  have hbit : (takeFd files start fd cloexec).fdt.openFds n = update files.fdt.openFds fd true n :=
    rfl
  rw [IsOpen, IsOpen, hbit, update_apply]
  show n < files.fdt.maxFds ∧ _ ↔ _
  split_ifs with hn
  · simp [hn, hlt]
  · simp [hn]

lemma Inv.takeFd (hinv : Inv files) (hlt : fd < files.fdt.maxFds)
    (hlowest : Lowest files start fd) : Inv (takeFd files start fd cloexec) := by
  have hkeep : ∀ n, files.fdt.openFds n = true → (Fs.takeFd files start fd cloexec).fdt.openFds n =
      true := by
    intro n hn
    show update files.fdt.openFds fd true n = true
    rw [update_apply]
    split_ifs
    · rfl
    · exact hn
  refine ⟨hinv.words, hinv.size, fun w hw hbit => ?_, fun n hn => ?_⟩
  · have hset : (if (range 64).all fun k => update files.fdt.openFds fd true (fd / 64 * 64 + k)
        then update files.fdt.fullFdsBits (fd / 64) true else files.fdt.fullFdsBits) w = true :=
        hbit
    by_cases hones : (range 64).all fun k => update files.fdt.openFds fd true (fd / 64 * 64 + k)
    · rw [if_pos hones, update_apply] at hset
      split_ifs at hset with hword
      · rw [all_eq_true] at hones
        have hwords := hinv.words
        refine ⟨by dsimp only [Fs.takeFd, setOpenFd]; omega, fun k hk => ?_⟩
        rw [hword]
        exact hones k (mem_range.mpr hk)
      · obtain ⟨hword, hall⟩ := hinv.full w hw hset
        exact ⟨hword, fun k hk => hkeep _ (hall k hk)⟩
    rw [if_neg hones] at hset
    obtain ⟨hword, hall⟩ := hinv.full w hw hset
    exact ⟨hword, fun k hk => hkeep _ (hall k hk)⟩
  rw [isOpen_takeFd hlt]
  have hnext : n < if start ≤ files.nextFd then fd + 1 else files.nextFd := hn
  split_ifs at hnext with hstart
  · rcases lt_or_ge n start with hbefore | hafter
    · exact .inl (hinv.next n (by omega))
    rcases Nat.lt_succ_iff_lt_or_eq.mp hnext with hlow | heq
    · exact .inl (hlowest.lower n hafter hlow)
    · exact .inr heq
  · exact .inl (hinv.next n hnext)

/-- What `__alloc_fd` does when `fd` is the lowest free descriptor. -/
structure AllocSpec (nrOpen : Nat) (mem : Option Fdtable) (files : Files) (start stop : Nat)
    (cloexec : Bool) (fd : Nat) : Prop where
  lowest : Lowest files start fd
  given : fd < stop → (fd < files.fdt.maxFds ∨ fd < nrOpen ∧ mem.isSome) →
    ∃ files', allocFd nrOpen mem files start stop cloexec = some (Int.ofNat fd, files') ∧
    ∀ n, IsOpen files' n ↔ IsOpen files n ∨ n = fd
  refused : ¬ (fd < stop ∧ (fd < files.fdt.maxFds ∨ fd < nrOpen ∧ mem.isSome)) →
    ∃ error < 0, allocFd nrOpen mem files start stop cloexec = some (error, files)

section
variable {nrOpen start stop : Nat}

lemma allocFdLoop_take {fuel : Nat} (hstop : candidateFd files start < stop)
    (hin : candidateFd files start < files.fdt.maxFds) :
    allocFdLoop nrOpen mem start stop cloexec (fuel + 1) files
    = some (Int.ofNat (candidateFd files start),
      takeFd files start (candidateFd files start) cloexec) := by
  rw [allocFdLoop]
  rw [if_neg hstop.not_ge, expandFiles, if_pos hin]
  rfl

lemma allocFd_cases (cloexec : Bool) (hinv : Inv files)
    (hlimit : nrOpen ≤ sysctlNrOpenMax) (hfits : Fits nrOpen mem files (candidateFd files start)) :
    ((candidateFd files start < stop ∧
      (candidateFd files start < files.fdt.maxFds ∨ candidateFd files start < nrOpen ∧ mem.isSome))
    ∧ ∃ files', allocFd nrOpen mem files start stop cloexec = some
    (Int.ofNat (candidateFd files start), files') ∧ Inv files'
    ∧ ∀ n, IsOpen files' n ↔ IsOpen files n ∨ n = candidateFd files start)
    ∨ (¬ (candidateFd files start < stop ∧
      (candidateFd files start < files.fdt.maxFds ∨ candidateFd files start < nrOpen ∧ mem.isSome))
    ∧ ∃ error < 0, allocFd nrOpen mem files start stop cloexec = some (error, files)) := by
  have hlowest := candidateFd_lowest hinv start
  by_cases hstop : candidateFd files start < stop
  · rcases expandFiles_cases hinv hlimit hfits with ⟨hin, hcode⟩ | ⟨_, hwhy, error, hneg, hcode⟩
      | ⟨_, hcan, hmem, files', hcode, hin, hexp, hinv'⟩
    · refine .inl
        ⟨⟨hstop, .inl hin⟩, _, allocFdLoop_take hstop hin, hinv.takeFd hin hlowest,
        isOpen_takeFd hin⟩
    · refine .inr ⟨?_, error, hneg, ?_⟩
      · rintro ⟨-, hin | ⟨hcan, hmem⟩⟩
        · omega
        rcases hwhy with hwhy | hwhy
        · omega
        · rw [hwhy] at hmem
          exact absurd hmem (by decide)
      rw [allocFd, allocFdLoop]
      dsimp only
      rw [if_neg hstop.not_ge, hcode, Option.bind_some, if_pos hneg]
    -- the table has grown, and the search finds the same descriptor in it
    have hsame : candidateFd files' start = candidateFd files start :=
      (candidateFd_lowest hinv' start).unique
        ⟨hlowest.le, fun h => hlowest.free ((hexp.isOpen_iff _).mp h),
        fun n hn hlt => (hexp.isOpen_iff n).mpr (hlowest.lower n hn hlt)⟩
    have htake : allocFdLoop nrOpen mem start stop cloexec 1 files'
        = some (Int.ofNat (candidateFd files' start), takeFd files' start (candidateFd files' start)
        cloexec) :=
      allocFdLoop_take (by rw [hsame]; exact hstop) (by rw [hsame]; exact hin)
    rw [hsame] at htake
    refine .inl
      ⟨⟨hstop, .inr ⟨hcan, hmem⟩⟩, takeFd files' start (candidateFd files start) cloexec, ?_,
      hinv'.takeFd hin (hsame ▸ candidateFd_lowest hinv' start), fun n => ?_⟩
    · rw [allocFd, allocFdLoop]
      dsimp only
      rw [if_neg hstop.not_ge, hcode, Option.bind_some, if_neg (show ¬ (1 : Int) < 0 by decide),
        if_pos (show (1 : Int) ≠ 0 by decide), htake]
    · rw [isOpen_takeFd hin, hexp.isOpen_iff]
  refine .inr ⟨fun h => hstop h.1, emfile, by decide, ?_⟩
  rw [allocFd, allocFdLoop]
  rw [if_pos (not_lt.mp hstop)]

lemma Inv.put (hinv : Inv files) (fd : Nat) : Inv (putUnusedFd files fd) := by
  refine ⟨hinv.words, hinv.size, fun w hw hbit => ?_, fun n hn => ?_⟩
  · have hset : update files.fdt.fullFdsBits (fd / 64) false w = true := hbit
    rw [update_apply] at hset
    split_ifs at hset with hword
    obtain ⟨hin, hall⟩ := hinv.full w hw hset
    refine ⟨hin, fun k hk => ?_⟩
    show update files.fdt.openFds fd false (w * 64 + k) = true
    rw [update_of_ne (by omega)]
    exact hall k hk
  have hnext : n < if fd < files.nextFd then fd else files.nextFd := hn
  have hn' : n < files.nextFd ∧ n ≠ fd := by split_ifs at hnext <;> omega
  obtain ⟨hin, hopen⟩ := hinv.next n hn'.1
  refine ⟨hin, ?_⟩
  show update files.fdt.openFds fd false n = true
  rw [update_of_ne hn'.2]
  exact hopen

/-! ## Every run -/

lemma Inv.step (hinv : Inv files) (hstep : Step files files') : Inv files' := by
  cases hstep with
  | alloc hlimit hfits hcode =>
    rcases allocFd_cases _ hinv hlimit hfits with ⟨-, files'', hcode', hinv', -⟩
      | ⟨-, error, -, hcode'⟩
    · rw [hcode'] at hcode
      cases hcode
      exact hinv'
    rw [hcode'] at hcode
    cases hcode
    exact hinv
  | put hopen => exact hinv.put _
  | expand hlimit hfits hcode =>
    rcases expandFiles_cases hinv hlimit hfits with ⟨-, hcode'⟩ | ⟨-, -, _, -, hcode'⟩
      | ⟨-, -, -, _, hcode', -, -, hinv'⟩
    · rw [hcode'] at hcode
      cases hcode
      exact hinv
    · rw [hcode'] at hcode
      cases hcode
      exact hinv
    · rw [hcode'] at hcode
      cases hcode
      exact hinv'
  | install hopen => exact { hinv with }

lemma Reach.inv (h : Reach files) : Inv files := by
  induction h with
  | init => exact ⟨rfl, by decide, nofun, nofun⟩
  | step hreach hstep ih => exact ih.step hstep

end

/-- **Descriptors.**  After any calls, `__alloc_fd` gives the lowest descriptor that is not open, or
refuses without opening any; the hints are sound, and growing the table keeps what it holds. -/
theorem alloc_fd_lowest {files : Files} (h : Reach files) {nrOpen : Nat}
    (hlimit : nrOpen ≤ sysctlNrOpenMax) (mem : Option Fdtable) :
    (∀ (start stop : Nat) (cloexec : Bool), Fits nrOpen mem files (candidateFd files start) →
    ∃ fd, AllocSpec nrOpen mem files start stop cloexec fd)
    ∧ (∀ w < 8 * bitbitSize files.fdt.maxFds, files.fdt.fullFdsBits w = true →
    w < files.fdt.maxFds / 64 ∧ ∀ k < 64, files.fdt.openFds (w * 64 + k) = true)
    ∧ (∀ n < files.nextFd, IsOpen files n)
    ∧ ∀ nr, Fits nrOpen mem files nr →
    ∃ ret files', expandFiles nrOpen mem files nr = some (ret, files') ∧
    (files' = files ∨ Expanded files files') := by
  have hinv := h.inv
  refine ⟨fun start stop cloexec hfits =>
    ⟨candidateFd files start, candidateFd_lowest hinv start, fun hstop hroom => ?_, fun hnot => ?_⟩,
    hinv.full, hinv.next, fun nr hfits => ?_⟩
  · rcases allocFd_cases cloexec hinv hlimit hfits with ⟨-, files', hcode, -, hopen⟩ | ⟨hnot, -⟩
    · exact ⟨files', hcode, hopen⟩
    · exact absurd ⟨hstop, hroom⟩ hnot
  · rcases allocFd_cases cloexec hinv hlimit hfits with ⟨hroom, -⟩ | ⟨-, hcode⟩
    · exact absurd hroom hnot
    · exact hcode
  · rcases expandFiles_cases hinv hlimit hfits with ⟨-, hcode⟩ | ⟨-, -, error, -, hcode⟩
      | ⟨-, -, -, files', hcode, -, hexp, -⟩
    · exact ⟨0, files, hcode, .inl rfl⟩
    · exact ⟨error, files, hcode, .inl rfl⟩
    · exact ⟨1, files', hcode, .inr hexp⟩

/-- Three descriptors are taken and the second one is released. -/
def threeTaken : Files :=
  putUnusedFd (takeFd (takeFd (takeFd initFiles 0 0 false) 0 1 true) 0 2 false) 1

lemma reach_threeTaken : Reach threeTaken := by
  have hfirst := Reach.init.step (.alloc (by decide : 1024 ≤ sysctlNrOpenMax)
    (fun h => absurd h (by decide))
    (rfl : allocFd 1024 none initFiles 0 1024 false = some (0, takeFd initFiles 0 0 false)))
  have hsecond := hfirst.step (.alloc (by decide : 1024 ≤ sysctlNrOpenMax)
    (fun h => absurd h (by decide)) (rfl : allocFd 1024 none _ 0 1024 true = some (1, _)))
  have hthird := hsecond.step (.alloc (by decide : 1024 ≤ sysctlNrOpenMax)
    (fun h => absurd h (by decide)) (rfl : allocFd 1024 none _ 0 1024 false = some (2, _)))
  exact hthird.step (.put (by decide : IsOpen _ 1))

/-- The released descriptor is the next one, and a request from 2 on goes behind the third. -/
theorem alloc_fd_lowest_released :
    (∃ fd, AllocSpec 1024 none threeTaken 0 1024 true fd) ∧
    ∃ fd, AllocSpec 1024 none threeTaken 2 1024 true fd := by
  obtain ⟨halloc, -⟩ := alloc_fd_lowest reach_threeTaken (by decide : 1024 ≤ sysctlNrOpenMax) none
  exact ⟨halloc 0 1024 true fun h => absurd h (by decide),
    halloc 2 1024 true fun h => absurd h (by decide)⟩

/-- The table after a request for 64 or more, with `sysctl_nr_open` at 65: it is rounded up to 128
entries. -/
def roundedFiles : Files :=
  ((allocFd 65 (some initFiles.fdt) initFiles 64 1000 false).map Prod.snd).getD initFiles

lemma reach_roundedFiles : Reach roundedFiles := by
  have hcode : (allocFd 65 (some initFiles.fdt) initFiles 64 1000 false).isSome = true := by
    decide +kernel
  obtain ⟨⟨_, files⟩, hret⟩ := Option.isSome_iff_exists.mp hcode
  have hfiles : roundedFiles = files := by rw [roundedFiles, hret]; rfl
  rw [hfiles]
  exact Reach.init.step (Step.alloc (by decide) (fun _ _ _ => by decide +kernel) hret)

/-- A descriptor that is not below `sysctl_nr_open` is given out all the same, since the table has
room for it. -/
theorem allocFd_beyond_nrOpen :
    Reach roundedFiles ∧ Lowest roundedFiles 65 65 ∧
    (allocFd 65 none roundedFiles 65 1000 false).map Prod.fst = some 65 := by
  have hcandidate : candidateFd roundedFiles 65 = 65 := by decide +kernel
  refine ⟨reach_roundedFiles, ?_, by decide +kernel⟩
  have := candidateFd_lowest reach_roundedFiles.inv 65
  rwa [hcandidate] at this

/-- **Copying the file pointers.**  Tables of two sizes are copied right, whatever they hold,
exactly if neither of the lengths in bytes wraps. -/
theorem copyFdtable_copies_iff {old new : Nat} (hle : old ≤ new) :
    (∀ nfdt ofdt : Fdtable, nfdt.maxFds = new → ofdt.maxFds = old →
    ∃ fdt, copyFdtable nfdt ofdt = some fdt ∧ ∀ i < new, fdt.fd i = if i < old then ofdt.fd i
    else none) ↔ old < 2 ^ 29 ∧ new - old < 2 ^ 29 := by
  constructor
  · intro h
    -- a length that wraps leaves the last pointer of its part as it was
    obtain ⟨_, hcode, hfd⟩ :=
      h ⟨new, fun _ => if old < 2 ^ 29 then some 0 else none, fun _ => false, fun _ => false,
      fun _ => false⟩
      ⟨old, fun _ => some 0, fun _ => false, fun _ => false, fun _ => false⟩ rfl rfl
    rw [copyFdtable, if_neg hle.not_gt] at hcode
    cases hcode
    have hcpy : u32 (old * 8) / 8 = old % 2 ^ 29 := by unfold u32; omega
    have hset : u32 ((new - old) * 8) / 8 = (new - old) % 2 ^ 29 := by unfold u32; omega
    have hold := hfd (old - 1)
    have hnew := hfd (new - 1)
    simp only [copyFdBitmaps, hcpy, hset] at hold hnew
    by_contra hwrap
    by_cases hsmall : old < 2 ^ 29
    · simp only [hsmall, if_true] at hnew
      rw [if_neg (by omega), if_neg (by omega), if_neg (by omega)] at hnew
      exact absurd (hnew (by omega)) (by decide)
    · simp only [hsmall, if_false, ite_self] at hold
      rw [if_neg (by omega), if_pos (by omega)] at hold
      exact absurd (hold (by omega)) (by decide)
  · rintro ⟨hold, hnew⟩ nfdt ofdt rfl rfl
    exact ⟨_, copyFdtable_eq hle hold hnew, fun i hi => if_pos hi⟩

/-- The smallest table, into one of twice its size. -/
theorem copyFdtable_copies_iff_small : 64 ≤ 128 ∧ ∃ fdt, copyFdtable
    { initFiles.fdt with maxFds := 128 } initFiles.fdt = some fdt
    ∧ ∀ i < 128, fdt.fd i = if i < 64 then initFiles.fdt.fd i else none :=
  ⟨by decide, (copyFdtable_copies_iff (by decide)).mpr (by decide) _ _ rfl rfl⟩

/-- Of a table of 2^29 entries, which is 2^32 bytes, nothing is copied. -/
theorem copyFdtable_wraps : 2 ^ 29 % 64 = 0 ∧ 2 ^ 29 ≤ sysctlNrOpenMax
    ∧ (copyFdtable { initFiles.fdt with maxFds := 2 ^ 29 }
        { initFiles.fdt with maxFds := 2 ^ 29, fd := fun _ => some 0 }).map (fun fdt => fdt.fd 0)
        = some none := by
  decide +kernel

end MinimalLinux.Fs
