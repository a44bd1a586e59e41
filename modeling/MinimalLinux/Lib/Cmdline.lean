/-
`next_arg` of `lib/cmdline.c` and `parse_args` of `kernel/params.c`.

The argument string is a buffer that `next_arg` edits in place; a pointer into it is an index, and
a read or a write outside it has no result.  The handler is what `parse_one` does with a parameter:
it is given the two strings as they are at the call, and its answer only decides what `parse_args`
returns.

A piece of text that neither stops the loop of `next_arg` nor changes its
state is passed over as a whole (`scanArg_piece`); an argument is two or three such pieces with an
equals sign or a quote between them.  The index of the loop is an `unsigned int`, so that a text of
2^32 bytes or more is never passed over.
-/
import MinimalLinux.Foundation.CString
import MinimalLinux.Lib.Parselist

namespace MinimalLinux.Lib

open Foundation List Option

variable {pre rest back mid front : List Nat} {b args i equals fuel : Nat} {val : Option Nat}
    {p : Written} {arg : Arg}
variable (buf : List Nat)

/-! ## The code -/

def skipSpaces (p : Nat) : Option Nat := scan (fun b => !isspace b) buf p

def poke (p c : Nat) : Option (List Nat) := if p < buf.length then some (buf.set p c) else none

/-- The loop of `next_arg`: `i` and `equals`. -/
def scanArg (buf : List Nat) (args : Nat) : Nat → Nat → Nat → Bool → Option (Nat × Nat)
  | 0, _, _, _ => none
  | fuel + 1, i, equals, inQuote => do
      let c ← buf[args + i]?
      if c = 0 then some (i, equals)
      else if isspace c && !inQuote then some (i, equals)
      else
        scanArg buf args fuel (u32 (i + 1)) (if equals = 0 ∧ c = 61 then i else equals)
          (if c = 34 then !inQuote else inQuote)

/-- `if (args[i-1] == '"') args[i-1] = '\0'`; the index is unsigned. -/
def dropQuote (args i : Nat) : Option (List Nat) := do
  let p := args + u32 (i + (2 ^ 32 - 1))
  let c ← buf[p]?
  if c = 34 then poke buf p 0 else some buf

/-- `*val`: the part after the equals sign. -/
def argValue (args i equals : Nat) : Option (List Nat × Option Nat) :=
  if equals = 0 then some (buf, none)
  else do
    let buf ← poke buf (args + equals) 0
    let c ← buf[args + equals + 1]?
    if c = 34 then (dropQuote buf args i).map fun buf => (buf, some (args + equals + 2))
    else some (buf, some (args + equals + 1))

def argUnquote (args i : Nat) (quoted : Bool) : Option (List Nat) :=
  if quoted then dropQuote buf args i else some buf

/-- The end of `next_arg`: where the next argument is. -/
def argNext (args i : Nat) : Option (List Nat × Nat) := do
  let c ← buf[args + i]?
  if c ≠ 0 then do
    let buf ← poke buf (args + i) 0
    (skipSpaces buf (args + i + 1)).map fun next => (buf, next)
  else (skipSpaces buf (args + i)).map fun next => (buf, next)

/-- What `next_arg` gives. -/
structure Arg where
  buf : List Nat
  next : Nat
  param : Nat
  val : Option Nat
  deriving DecidableEq, Repr

section
variable (fuel : Nat) (buf : List Nat) (args : Nat)

/-- `next_arg` from the first character that is not a quote. -/
def nextArgAt (quoted : Bool) : Option Arg := do
  let (i, equals) ← scanArg buf args fuel 0 0 quoted
  let (buf, val) ← argValue buf args i equals
  let buf ← argUnquote buf args i quoted
  (argNext buf args i).map fun (buf, next) => ⟨buf, next, args, val⟩

def nextArg : Option Arg := do
  let c ← buf[args]?
  if c = 34 then nextArgAt fuel buf (args + 1) true else nextArgAt fuel buf args false

end

/-- The value as a string, NULL as `none`. -/
def valueString : Option Nat → Option (Option (List Nat))
  | none => some none
  | some val => (cstr buf val).map some

abbrev Call := List Nat × Option (List Nat)

/-- The loop of `parse_args`: the calls of the handler, the error, and where `--` was found. -/
def parseArgsLoop (handler : Call → Int) : Nat → List Nat → Nat → Int →
    Option (List Call × Int × Option Nat)
  | 0, _, _, _ => none
  | fuel + 1, buf, args, err => do
      let c ← buf[args]?
      if c = 0 then some ([], err, none)
      else do
        let arg ← nextArg fuel buf args
        let param ← cstr arg.buf arg.param
        let val ← valueString arg.buf arg.val
        if val = none ∧ param = [45, 45] then some ([], err, some arg.next)
        else do
          let ret := handler (param, val)
          let (calls, result) ← parseArgsLoop handler fuel arg.buf arg.next
            (if ret = 0 then err else ret)
          some ((param, val) :: calls, result)

/-- `parse_args`. -/
def parseArgs (handler : Call → Int) (fuel : Nat) (buf : List Nat) :
    Option (List Call × Int × Option Nat) := do
  let args ← skipSpaces buf 0
  parseArgsLoop handler fuel buf args 0

/-! ## Command lines -/

/-- A parameter as it is written. -/
inductive Written where
  | bare (name : List Nat)
  | plain (name value : List Nat)
  | quotedValue (name value : List Nat)
  | quotedAll (name value : List Nat)

namespace Written

def name : Written → List Nat
  | bare name | plain name _ | quotedValue name _ | quotedAll name _ => name

def value : Written → Option (List Nat)
  | bare _ => none
  | plain _ value | quotedValue _ value | quotedAll _ value => some value

def text : Written → List Nat
  | bare name => name
  | plain name value => name ++ 61 :: value
  | quotedValue name value => name ++ 61 :: 34 :: (value ++ [34])
  | quotedAll name value => 34 :: (name ++ 61 :: (value ++ [34]))

/-- A name of one character at least, without whitespace, equals signs and quotes, and not `--`; a
value without quotes, and without whitespace where no quotes are around it. -/
structure WellFormed (p : Written) : Prop where
  name_ne : p.name ≠ []
  name_chars : ∀ c ∈ p.name, c ≠ 0 ∧ isspace c = false ∧ c ≠ 61 ∧ c ≠ 34
  not_dashes : p.name ≠ [45, 45]
  value_chars : ∀ v ∈ p.value, ∀ c ∈ v, c ≠ 0 ∧ c ≠ 34
  plain_chars : ∀ name value, p = plain name value → ∀ c ∈ value, isspace c = false

end Written

/-- The parameters, each with the whitespace after it, and the NUL. -/
def lineOf : List (Written × List Nat) → List Nat
  | [] => [0]
  | (p, spaces) :: ps => p.text ++ (spaces ++ lineOf ps)

/-- Well-formed parameters of less than 2^32 bytes, with whitespace between any two. -/
inductive Line : List (Written × List Nat) → Prop
  | nil : Line []
  | cons {p : Written} {spaces : List Nat} {ps : List (Written × List Nat)} (hp : p.WellFormed)
    (hsmall : p.text.length < 2 ^ 32)
      (hspaces : ∀ c ∈ spaces, isspace c = true) (hsep : spaces ≠ [] ∨ ps = []) (hline : Line ps) :
      Line ((p, spaces) :: ps)

/-! ## One byte -/

section Bytes
variable {buf : List Nat} {p : Nat}

section
variable (hbuf : buf = pre ++ b :: rest) (hp : p = pre.length)
include hbuf hp

lemma getElem?_here : buf[p]? = some b := by
  rw [hbuf, hp, getElem?_append_right le_rfl, Nat.sub_self, getElem?_cons_zero]

lemma poke_here (c : Nat) : poke buf p c = some (pre ++ c :: rest) := by
  have hlt : p < buf.length := by rw [hbuf, hp, length_append, length_cons]; omega
  rw [poke, if_pos hlt, hbuf, hp, set_append_right _ _ le_rfl, Nat.sub_self, set_cons_zero]

end

lemma skipSpaces_append {spaces : List Nat} (hbuf : buf = pre ++ (spaces ++ b :: rest))
    (hp : p = pre.length)
    (hspaces : ∀ c ∈ spaces, isspace c = true) (hb : isspace b = false) :
    skipSpaces buf p = some (p + spaces.length) := by
  refine scan_append hbuf hp (fun c hc => ⟨?_, ?_⟩) (.inr ?_)
  · rintro rfl
    exact absurd (hspaces 0 hc) (by decide)
  · rw [hspaces c hc, Bool.not_true]
  · rw [hb, Bool.not_false]

end Bytes

/-! ## The loop of `next_arg` -/

section Scan
variable {buf : List Nat} {inQuote : Bool}

/-- A piece that does not stop the loop and does not change its state is passed over. -/
lemma scanArg_piece (piece : List Nat) :
    ∀ (pre : List Nat) (i fuel : Nat), buf = pre ++ (piece ++ rest) → args + i = pre.length →
    (∀ c ∈ piece, c ≠ 0 ∧ c ≠ 34 ∧ (inQuote = true ∨ isspace c = false) ∧ (equals ≠ 0 ∨ c ≠ 61)) →
    i + piece.length < 2 ^ 32 → piece.length ≤ fuel →
    scanArg buf args fuel i equals inQuote = scanArg buf args (fuel - piece.length)
    (i + piece.length) equals inQuote := by
  induction piece with
  | nil => intros; rfl
  | cons c piece ih =>
    intro pre i fuel hbuf hp hpiece hi hfuel
    rw [length_cons] at hi hfuel
    obtain _ | n := fuel
    · omega
    obtain ⟨hzero, hquote, hspace, _⟩ := hpiece c (by simp)
    have hbreak : (isspace c && !inQuote) = false := by
      rcases hspace with h | h
      · rw [h, Bool.not_true, Bool.and_false]
      · rw [h, Bool.false_and]
    have hsame : ¬ (equals = 0 ∧ c = 61) := by tauto
    have htail := ih (pre ++ [c]) (i + 1) n (by rw [hbuf, append_assoc]; rfl)
      (by simp; omega) (fun d hd => hpiece d (by simp [hd])) (by omega) (by omega)
    rw [scanArg, getElem?_here (hbuf.trans rfl) hp]
    simp only [bind_eq_bind, bind_some, if_neg hzero, hbreak, Bool.false_eq_true, if_false,
      if_neg hsame, if_neg hquote,
      u32_of_lt (by omega : i + 1 < 2 ^ 32), htail, length_cons]
    congr 1 <;> omega

lemma scanArg_equals (hbuf : buf = pre ++ 61 :: rest) (hp : args + i = pre.length)
    (hi : i + 1 < 2 ^ 32) (hfuel : 0 < fuel) :
    scanArg buf args fuel i 0 inQuote = scanArg buf args (fuel - 1) (i + 1) i inQuote := by
  obtain _ | n := fuel
  · omega
  rw [scanArg, getElem?_here hbuf hp]
  simp only [bind_eq_bind, bind_some, u32_of_lt hi]
  rfl

lemma scanArg_quote (hbuf : buf = pre ++ 34 :: rest) (hp : args + i = pre.length)
    (hi : i + 1 < 2 ^ 32) (hfuel : 0 < fuel) :
    scanArg buf args fuel i equals inQuote = scanArg buf args (fuel - 1) (i + 1) equals
    (!inQuote) := by
  obtain _ | n := fuel
  · omega
  have hsame : ¬ (equals = 0 ∧ 34 = 61) := by simp
  rw [scanArg, getElem?_here hbuf hp]
  simp only [bind_eq_bind, bind_some, u32_of_lt hi, if_neg hsame]
  rfl

lemma scanArg_stop (hbuf : buf = pre ++ b :: rest) (hp : args + i = pre.length)
    (hb : b = 0 ∨ isspace b = true)
    (hfuel : 0 < fuel) : scanArg buf args fuel i equals false = some (i, equals) := by
  obtain _ | n := fuel
  · omega
  rw [scanArg, getElem?_here hbuf hp]
  simp only [bind_eq_bind, bind_some]
  rcases hb with rfl | hspace
  · rfl
  have hzero : ¬ b = 0 := by
    rintro rfl
    exact absurd hspace (by decide)
  rw [if_neg hzero, hspace]
  rfl

end Scan

/-! ## The four ways to write a parameter -/

/-- What follows an argument: whitespace and then something else, which is the NUL if there is no
whitespace. -/
structure Follows (spaces rest : List Nat) : Prop where
  blank : ∀ c ∈ spaces, isspace c = true
  other : ∃ b tail, rest = b :: tail ∧ isspace b = false ∧ (spaces = [] → b = 0)

/-- `next_arg` has found the parameter: the strings are there, and the rest is untouched. -/
structure Found (p : Written) (arg : Arg) (rest : List Nat) : Prop where
  rest : ∃ front, arg.buf = front ++ rest ∧ arg.next = front.length
  param : cstr arg.buf arg.param = some p.name
  val : valueString arg.buf arg.val = some p.value

variable {front : List Nat}

section Forms
variable {buf spaces : List Nat}

lemma Follows.stop (hfollows : Follows spaces rest) : ∃ b tail, spaces ++ rest = b :: tail ∧
    (b = 0 ∨ isspace b = true) := by
  obtain ⟨b, tail, hrest, _, hb⟩ := hfollows.other
  cases hspaces : spaces with
  | nil => exact ⟨b, tail, by rw [hrest, nil_append], .inl (hb hspaces)⟩
  | cons c more => exact ⟨c, more ++ rest, rfl, .inr (hfollows.blank c (by simp [hspaces]))⟩

/-- The end of `next_arg` puts a NUL after the argument and goes to the next one. -/
lemma argNext_spec (hfollows : Follows spaces rest) (hbuf : buf = mid ++ (spaces ++ rest))
    (hp : args + i = mid.length) :
    ∃ ended, argNext buf args i = some (mid ++ (ended ++ rest), mid.length + spaces.length) ∧
    ended.length = spaces.length
    ∧ ∃ tail, ended ++ rest = 0 :: tail := by
  obtain ⟨b, tail, hrest, hb, hzero⟩ := hfollows.other
  cases hspaces : spaces with
  | nil =>
    rw [hzero hspaces] at hrest hb
    rw [hspaces, nil_append, hrest] at hbuf
    refine ⟨[], ?_, rfl, tail, hrest⟩
    have hskip := skipSpaces_append (show buf = mid ++ ([] ++ 0 :: tail) from hbuf) hp (by simp) hb
    simp only [argNext, getElem?_here hbuf hp, bind_eq_bind, bind_some, ne_eq, not_true_eq_false,
      if_false, hskip, map_some]
    rw [hbuf, hrest, hp]
    rfl
  | cons c more =>
    have hc : isspace c = true := hfollows.blank c (by simp [hspaces])
    have hne : c ≠ 0 := by
      rintro rfl
      exact absurd hc (by decide)
    rw [hspaces, cons_append] at hbuf
    refine ⟨0 :: more, ?_, rfl, more ++ rest, rfl⟩
    have hafter : mid ++ 0 :: (more ++ rest) = (mid ++ [0]) ++ (more ++ b :: tail) := by
      rw [hrest, append_assoc]
      rfl
    have hskip := skipSpaces_append hafter (show args + i + 1 = (mid ++ [0]).length by
      simp; omega) (fun d hd => hfollows.blank d (by simp [hspaces, hd])) hb
    simp only [argNext, getElem?_here hbuf hp, bind_eq_bind, bind_some, ne_eq, hne,
      not_false_eq_true, if_true,
      poke_here hbuf hp, hskip, map_some, length_cons]
    rw [hp]
    congr 2
    omega

lemma nextArgAt_eq (mid : List Nat) {quoted : Bool} {buf1 buf2 : List Nat}
    (hscan : scanArg buf args fuel 0 0 quoted = some (i, equals))
    (hvalue : argValue buf args i equals = some (buf1, val))
    (hquote : argUnquote buf1 args i quoted = some buf2) (hfollows : Follows spaces rest)
    (hbuf : buf2 = mid ++ (spaces ++ rest)) (hp : args + i = mid.length) :
    ∃ ended tail, nextArgAt fuel buf args quoted = some
    ⟨mid ++ (ended ++ rest), mid.length + spaces.length, args, val⟩
    ∧ ended.length = spaces.length ∧ ended ++ rest = 0 :: tail := by
  obtain ⟨ended, hnext, hlen, tail, htail⟩ := argNext_spec hfollows hbuf hp
  exact ⟨ended, tail, by simp [nextArgAt, hscan, hvalue, hquote, hnext], hlen, htail⟩

lemma dropQuote_here (hbuf : buf = front ++ 34 :: back) (hp : args + i = front.length + 1)
    (hi : 0 < i)
    (hsmall : i < 2 ^ 32) : dropQuote buf args i = some (front ++ 0 :: back) := by
  have hindex : u32 (i + (2 ^ 32 - 1)) = i - 1 := by unfold u32; omega
  have hpos : args + (i - 1) = front.length := by omega
  simp only [dropQuote, hindex, getElem?_here hbuf hpos, poke_here hbuf hpos, bind_eq_bind,
    bind_some, if_true]

lemma dropQuote_other {c : Nat} (hbuf : buf = front ++ c :: back) (hc : c ≠ 34)
    (hp : args + i = front.length + 1) (hi : 0 < i) (hsmall : i < 2 ^ 32) :
    dropQuote buf args i = some buf := by
  have hindex : u32 (i + (2 ^ 32 - 1)) = i - 1 := by unfold u32; omega
  have hpos : args + (i - 1) = front.length := by omega
  simp only [dropQuote, hindex, getElem?_here hbuf hpos, bind_eq_bind, bind_some, if_neg hc]

lemma argValue_plain {value : List Nat} (hbuf : buf = front ++ 61 :: (value ++ b :: back))
    (hp : args + equals = front.length) (hequals : equals ≠ 0) (hvalue : ∀ c ∈ value, c ≠ 34)
    (hb : value = [] → b ≠ 34) :
    argValue buf args i equals = some
    (front ++ 0 :: (value ++ b :: back), some (args + equals + 1)) := by
  obtain ⟨c, tail, htail, hc⟩ : ∃ c tail, value ++ b :: back = c :: tail ∧ c ≠ 34 := by
    cases value with
    | nil => exact ⟨b, back, rfl, hb rfl⟩
    | cons c value => exact ⟨c, value ++ b :: back, rfl, hvalue c (by simp)⟩
  rw [htail] at hbuf ⊢
  have hnext : front ++ 0 :: c :: tail = (front ++ [0]) ++ c :: tail := by rw [append_assoc]; rfl
  have hpos : args + equals + 1 = (front ++ [0]).length := by simp; omega
  simp [argValue, if_neg hequals, poke_here hbuf hp, getElem?_here hnext hpos, if_neg hc]

lemma argValue_quoted {back' : List Nat} (hbuf : buf = front ++ 61 :: 34 :: back)
    (hp : args + equals = front.length) (hequals : equals ≠ 0)
    (hdrop : dropQuote (front ++ 0 :: 34 :: back) args i = some back') :
    argValue buf args i equals = some (back', some (args + equals + 2)) := by
  have hnext : front ++ 0 :: 34 :: back = (front ++ [0]) ++ 34 :: back := by rw [append_assoc]; rfl
  have hpos : args + equals + 1 = (front ++ [0]).length := by simp; omega
  simp [argValue, if_neg hequals, poke_here hbuf hp, getElem?_here hnext hpos, hdrop]

lemma Found.mk_of_mid {ended tail : List Nat} (front more : List Nat)
    (hmid : mid ++ 0 :: tail = front ++ (p.name ++ 0 :: more)) (hargs : args = front.length)
    (hp : p.WellFormed)
    (hlen : ended.length = spaces.length) (htail : ended ++ rest = 0 :: tail)
    (hval : valueString (mid ++ 0 :: tail) val = some p.value) :
    Found p ⟨mid ++ (ended ++ rest), mid.length + spaces.length, args, val⟩ rest where
  rest := ⟨mid ++ ended, (append_assoc _ _ _).symm, by rw [length_append, hlen]⟩
  param := by
    rw [htail]
    exact cstr_append hmid hargs fun h => (hp.name_chars 0 h).1 rfl
  val := by dsimp only; rw [htail]; exact hval

section Cases
variable {name value : List Nat}

lemma nextArg_of_not_quote (hp : p.WellFormed) (hbuf : buf = pre ++ (p.name ++ back))
    (hargs : args = pre.length)
    (hat : nextArgAt fuel buf args false = some arg) : nextArg fuel buf args = some arg := by
  obtain ⟨c, _, hname⟩ := exists_cons_of_ne_nil hp.name_ne
  have hc : ¬ c = 34 := (hp.name_chars c (by simp [hname])).2.2.2
  rw [hname] at hbuf
  simp [nextArg, getElem?_here hbuf hargs, if_neg hc, hat]

lemma ne_quote_of_stop (hb : b = 0 ∨ isspace b = true) : b ≠ 34 := by
  rintro rfl
  rcases hb with hb | hb
  · cases hb
  · exact absurd hb (by decide)

lemma scanArg_name {inQuote : Bool} (hp : p.WellFormed)
    (hbuf : buf = pre ++ (name ++ 61 :: back)) (hname : p.name = name) (hargs : args = pre.length)
    (hsmall : name.length + 1 < 2 ^ 32) (hfuel : name.length + 1 ≤ fuel) :
    scanArg buf args fuel 0 0 inQuote = scanArg buf args (fuel - name.length - 1)
    (name.length + 1) name.length inQuote := by
  have hchars := hp.name_chars
  rw [hname] at hchars
  rw [scanArg_piece name pre 0 fuel hbuf hargs
    (fun c hc => ⟨(hchars c hc).1, (hchars c hc).2.2.2, .inr (hchars c hc).2.1,
    .inr (hchars c hc).2.2.1⟩) (by omega) (by omega), zero_add]
  exact scanArg_equals (hbuf.trans (append_assoc _ _ _).symm) (by simp; omega) (by omega) (by omega)

lemma scanArg_closing (hvalue : ∀ c ∈ value, c ≠ 0 ∧ c ≠ 34) (hfollows : Follows spaces rest)
    (hbuf : buf = front ++ (value ++ 34 :: (spaces ++ rest)))
    (hp : args + i = front.length) (hequals : equals ≠ 0) (hi : i + value.length + 1 < 2 ^ 32)
    (hfuel : value.length + 2 ≤ fuel) :
    scanArg buf args fuel i equals true = some (i + value.length + 1, equals) := by
  obtain ⟨b, back, hback, hb⟩ := hfollows.stop
  have hclose : buf = (front ++ value) ++ 34 :: (spaces ++ rest) := by rw [hbuf, append_assoc]
  have hend : buf = (front ++ value ++ [34]) ++ b :: back := by rw [hclose, hback]; simp
  rw [scanArg_piece value _ _ _ hbuf hp
    (fun c hc => ⟨(hvalue c hc).1, (hvalue c hc).2, .inl rfl, .inl hequals⟩) (by omega) (by omega),
    scanArg_quote hclose (by simp; omega) hi (by omega)]
  exact scanArg_stop hend (by simp; omega) hb (by omega)

lemma valueString_here (front back : List Nat) {val : Nat}
    (hbuf : buf = front ++ (value ++ 0 :: back)) (hval : val = front.length)
    (hvalue : ∀ c ∈ value, c ≠ 0 ∧ c ≠ 34) : valueString buf (some val) = some (some value) :=
  congrArg (Option.map some) (cstr_append hbuf hval fun h => (hvalue 0 h).1 rfl)

lemma nextArg_of_quote (hbuf : buf = pre ++ 34 :: back) (hargs : args = pre.length)
    (hat : nextArgAt fuel buf (args + 1) true = some arg) : nextArg fuel buf args = some arg := by
  simp [nextArg, getElem?_here hbuf hargs, hat]

section
variable {p : Written} (hp : p.WellFormed) (hsmall : p.text.length < 2 ^ 32)
    (hfollows : Follows spaces rest)
  (hbuf : buf = pre ++ (p.text ++ (spaces ++ rest))) (hargs : args = pre.length)
    (hfuel : p.text.length < fuel)
include hp hsmall hfollows hbuf hargs hfuel

lemma nextArg_bare (h : p = .bare name) : ∃ arg, nextArg fuel buf args = some arg ∧
    Found p arg rest := by
  subst h
  simp only [Written.text] at hsmall hbuf hfuel
  have hchars : ∀ c ∈ name, c ≠ 0 ∧ isspace c = false ∧ c ≠ 61 ∧ c ≠ 34 := hp.name_chars
  obtain ⟨b, _, hback, hb⟩ := hfollows.stop
  have hmid : buf = (pre ++ name) ++ (spaces ++ rest) := by rw [hbuf, append_assoc]
  have hscan : scanArg buf args fuel 0 0 false = some (name.length, 0) := by
    rw [scanArg_piece name pre 0 fuel hbuf hargs
      (fun c hc => ⟨(hchars c hc).1, (hchars c hc).2.2.2, .inr (hchars c hc).2.1,
      .inr (hchars c hc).2.2.1⟩) (by omega) (by omega), zero_add]
    rw [hback] at hmid
    exact scanArg_stop hmid (by simp; omega) hb (by omega)
  obtain ⟨_, tail, hat, hlen, htail⟩ :=
    nextArgAt_eq (pre ++ name) hscan (by rw [argValue, if_pos rfl]) rfl hfollows hmid
    (by simp; omega)
  exact ⟨_, nextArg_of_not_quote hp hbuf hargs hat, .mk_of_mid pre tail (append_assoc _ _ _) hargs
    hp hlen htail rfl⟩

lemma nextArg_plain (h : p = .plain name value) : ∃ arg, nextArg fuel buf args = some arg ∧
    Found p arg rest := by
  subst h
  simp only [Written.text, length_append, length_cons] at hsmall hbuf hfuel
  have hvalue : ∀ c ∈ value, c ≠ 0 ∧ c ≠ 34 := hp.value_chars value rfl
  have hspace : ∀ c ∈ value, isspace c = false := hp.plain_chars name value rfl
  have hpos : name.length ≠ 0 := fun h => hp.name_ne (length_eq_zero_iff.mp h)
  obtain ⟨b, back, hback, hb⟩ := hfollows.stop
  have hname : buf = pre ++ (name ++ 61 :: (value ++ (spaces ++ rest))) := by
    rw [hbuf, append_assoc]; rfl
  have hequals : buf = (pre ++ name) ++ 61 :: (value ++ (spaces ++ rest)) := by
    rw [hname, append_assoc]
  have hafter : buf = (pre ++ name ++ [61]) ++ (value ++ (spaces ++ rest)) := by
    rw [hequals, append_assoc _ [61]]; rfl
  have hend : buf = (pre ++ name ++ [61] ++ value) ++ b :: back := by
    rw [hafter, hback, append_assoc _ value]
  have hscan : scanArg buf args fuel 0 0 false =
      some (name.length + 1 + value.length, name.length) := by
    rw [scanArg_name hp hname rfl hargs (by omega) (by omega),
      scanArg_piece value _ _ _ hafter (by simp; omega)
        (fun c hc => ⟨(hvalue c hc).1, (hvalue c hc).2, .inr (hspace c hc), .inl hpos⟩) (by omega)
        (by omega)]
    exact scanArg_stop hend (by simp; omega) hb (by omega)
  have hb34 := ne_quote_of_stop hb
  rw [hback] at hequals
  have hval :=
    argValue_plain (i := name.length + 1 + value.length) hequals
    (show args + name.length = _ by simp; omega)
    hpos (fun c hc => (hvalue c hc).2) (fun _ => hb34)
  obtain ⟨_, tail, hat, hlen, htail⟩ :=
    nextArgAt_eq (pre ++ name ++ 0 :: value) hscan hval rfl hfollows
    (by rw [← hback]; simp only [append_assoc, cons_append])
    (by simp; omega)
  refine ⟨_, nextArg_of_not_quote hp hname hargs hat,
    .mk_of_mid pre (value ++ 0 :: tail) (by simp [Written.name]) hargs hp hlen htail ?_⟩
  exact valueString_here (pre ++ name ++ [0]) tail (by simp) (by simp; omega) hvalue

lemma nextArg_quotedValue (h : p = .quotedValue name value) :
    ∃ arg, nextArg fuel buf args = some arg ∧ Found p arg rest := by
  subst h
  simp only [Written.text, length_append, length_cons, length_nil] at hsmall hbuf hfuel
  have hvalue : ∀ c ∈ value, c ≠ 0 ∧ c ≠ 34 := hp.value_chars value rfl
  have hpos : name.length ≠ 0 := fun h => hp.name_ne (length_eq_zero_iff.mp h)
  have hname : buf = pre ++ (name ++ 61 :: 34 :: (value ++ 34 :: (spaces ++ rest))) := by
    rw [hbuf]; simp
  have hequals : buf = (pre ++ name) ++ 61 :: 34 :: (value ++ 34 :: (spaces ++ rest)) := by
    rw [hname]; simp
  have hopen : buf = (pre ++ name ++ [61]) ++ 34 :: (value ++ 34 :: (spaces ++ rest)) := by
    rw [hname]; simp
  have hinside : buf = (pre ++ name ++ [61, 34]) ++ (value ++ 34 :: (spaces ++ rest)) := by
    rw [hname]; simp
  have hscan : scanArg buf args fuel 0 0 false =
      some (name.length + 1 + 1 + value.length + 1, name.length) := by
    rw [scanArg_name hp hname rfl hargs (by omega) (by omega),
      scanArg_quote hopen (by simp; omega) (by omega) (by omega)]
    exact scanArg_closing hvalue hfollows hinside (by simp; omega) hpos (by omega) (by omega)
  have hdrop : dropQuote ((pre ++ name) ++ 0 :: 34 :: (value ++ 34 :: (spaces ++ rest))) args
    (name.length + 1 + 1 + value.length + 1)
      = some ((pre ++ name ++ 0 :: 34 :: value) ++ 0 :: (spaces ++ rest)) :=
    dropQuote_here (by simp) (by simp; omega) (by omega) (by omega)
  have hval := argValue_quoted hequals (show args + name.length = _ by simp; omega) hpos hdrop
  obtain ⟨_, tail, hat, hlen, htail⟩ :=
    nextArgAt_eq (pre ++ name ++ 0 :: 34 :: value ++ [0]) hscan hval rfl hfollows
    (by simp) (by simp; omega)
  refine ⟨_, nextArg_of_not_quote hp hname hargs hat,
    .mk_of_mid pre (34 :: (value ++ 0 :: 0 :: tail)) (by simp [Written.name]) hargs hp hlen htail
    ?_⟩
  exact valueString_here (pre ++ name ++ [0, 34]) (0 :: tail) (by simp) (by simp; omega) hvalue

/-- Quotes around the whole.  An empty value is looked for behind the closing quote, where a NUL is
put last. -/
lemma nextArg_quotedAll (h : p = .quotedAll name value) : ∃ arg, nextArg fuel buf args = some arg ∧
    Found p arg rest := by
  subst h
  simp only [Written.text, length_append, length_cons, length_nil] at hsmall hbuf hfuel
  have hvalue : ∀ c ∈ value, c ≠ 0 ∧ c ≠ 34 := hp.value_chars value rfl
  have hpos : name.length ≠ 0 := fun h => hp.name_ne (length_eq_zero_iff.mp h)
  have hfirst : buf = pre ++ 34 :: (name ++ 61 :: (value ++ 34 :: (spaces ++ rest))) := by
    rw [hbuf]; simp
  have hname : buf = (pre ++ [34]) ++ (name ++ 61 :: (value ++ 34 :: (spaces ++ rest))) := by
    rw [hfirst]; simp
  have hequals : buf = (pre ++ 34 :: name) ++ 61 :: (value ++ 34 :: (spaces ++ rest)) := by
    rw [hfirst]; simp
  have hinside : buf = (pre ++ 34 :: name ++ [61]) ++ (value ++ 34 :: (spaces ++ rest)) := by
    rw [hfirst]; simp
  have hscan : scanArg buf (args + 1) fuel 0 0 true =
      some (name.length + 1 + value.length + 1, name.length) := by
    rw [scanArg_name hp hname rfl (by simp [hargs]) (by omega) (by omega)]
    exact scanArg_closing hvalue hfollows hinside (by simp; omega) hpos (by omega) (by omega)
  have hdrop : dropQuote ((pre ++ 34 :: name) ++ 0 :: (value ++ 34 :: (spaces ++ rest))) (args + 1)
    (name.length + 1 + value.length + 1)
      = some ((pre ++ 34 :: name ++ 0 :: value) ++ 0 :: (spaces ++ rest)) :=
    dropQuote_here (by simp) (by simp; omega) (by omega) (by omega)
  have hat_equals : args + 1 + name.length = (pre ++ 34 :: name).length := by
    simp
    omega
  by_cases hempty : value = []
  · subst hempty
    have hval := argValue_quoted hequals hat_equals hpos hdrop
    have hagain : argUnquote ((pre ++ 34 :: name ++ [0]) ++ 0 :: (spaces ++ rest)) (args + 1)
      (name.length + 1 + 1) true
        = some ((pre ++ 34 :: name ++ [0]) ++ 0 :: (spaces ++ rest)) :=
      dropQuote_other rfl (by decide) (by simp; omega) (by omega) (by omega)
    obtain ⟨ended, tail, hat, hlen, htail⟩ :=
      nextArgAt_eq (pre ++ 34 :: name ++ [0, 0]) hscan hval hagain hfollows
      (by simp) (by simp; omega)
    refine ⟨_, nextArg_of_quote hfirst hargs hat,
      .mk_of_mid (pre ++ [34]) (0 :: 0 :: tail) (by simp [Written.name]) (by simp [hargs]) hp hlen
      htail ?_⟩
    exact valueString_here (pre ++ 34 :: name ++ [0, 0]) tail rfl (by simp; omega) hvalue
  have hval :=
    argValue_plain (i := name.length + 1 + value.length + 1) hequals hat_equals hpos
    (fun c hc => (hvalue c hc).2)
    (fun h => absurd h hempty)
  obtain ⟨_, tail, hat, hlen, htail⟩ :=
    nextArgAt_eq (pre ++ 34 :: name ++ 0 :: value ++ [0]) hscan hval hdrop hfollows
    (by simp) (by simp; omega)
  refine ⟨_, nextArg_of_quote hfirst hargs hat,
    .mk_of_mid (pre ++ [34]) (value ++ 0 :: 0 :: tail) (by simp [Written.name]) (by simp [hargs]) hp
    hlen htail ?_⟩
  exact valueString_here (pre ++ 34 :: name ++ [0]) (0 :: tail) (by simp) (by simp; omega) hvalue

lemma nextArg_found : ∃ arg, nextArg fuel buf args = some arg ∧ Found p arg rest := by
  cases h : p with
  | bare name => exact h ▸ nextArg_bare hp hsmall hfollows hbuf hargs hfuel h
  | plain name value => exact h ▸ nextArg_plain hp hsmall hfollows hbuf hargs hfuel h
  | quotedValue name value => exact h ▸ nextArg_quotedValue hp hsmall hfollows hbuf hargs hfuel h
  | quotedAll name value => exact h ▸ nextArg_quotedAll hp hsmall hfollows hbuf hargs hfuel h

end

end Cases

end Forms

/-! ## The whole line -/

lemma Written.WellFormed.text_cons (hp : p.WellFormed) : ∃ c tail, p.text = c :: tail ∧ c ≠ 0 ∧
    isspace c = false := by
  have hname : ∃ c tail, p.name = c :: tail ∧ c ≠ 0 ∧ isspace c = false := by
    obtain ⟨c, tail, hcons⟩ := exists_cons_of_ne_nil hp.name_ne
    have hc := hp.name_chars c (by simp [hcons])
    exact ⟨c, tail, hcons, hc.1, hc.2.1⟩
  obtain ⟨c, tail, hcons, hc⟩ := hname
  cases p with
  | bare name => exact ⟨c, tail, hcons, hc⟩
  | plain name value =>
      exact ⟨c, tail ++ 61 :: value, by rw [text, show name = c :: tail from hcons]; rfl, hc⟩
  | quotedValue name value =>
      exact ⟨c,
      tail ++ 61 :: 34 :: (value ++ [34]), by rw [text, show name = c :: tail from hcons]; rfl, hc⟩
  | quotedAll name value => exact ⟨34, _, rfl, by decide, by decide⟩

variable {ps : List (Written × List Nat)}

lemma lineOf_cons (hline : Line ps) : ∃ b tail, lineOf ps = b :: tail ∧ isspace b = false ∧
    (ps = [] → b = 0) := by
  cases hline with
  | nil => exact ⟨0, [], rfl, by decide, fun _ => rfl⟩
  | @cons p spaces ps hp hsmall hspaces hsep hline =>
    obtain ⟨c, tail, htext, _, hc⟩ := hp.text_cons
    exact ⟨c, tail ++ (spaces ++ lineOf ps), by rw [lineOf, htext]; rfl, hc, nofun⟩

/-- The last error of some calls. -/
def lastError (handler : Call → Int) (err : Int) (calls : List Call) : Int :=
  calls.foldl (fun err call => if handler call = 0 then err else handler call) err

lemma parseArgsLoop_line (handler : Call → Int) (hline : Line ps) :
    ∀ (fuel : Nat) (pre : List Nat) (err : Int), (lineOf ps).length < fuel →
    parseArgsLoop handler fuel (pre ++ lineOf ps) pre.length err
    = some (ps.map fun p => (p.1.name, p.1.value),
      lastError handler err (ps.map fun p => (p.1.name, p.1.value)), none) := by
  induction hline with
  | nil =>
    intro fuel pre err hfuel
    obtain _ | n := fuel
    · omega
    have hread : (pre ++ lineOf [])[pre.length]? = some 0 := getElem?_here rfl rfl
    simp only [parseArgsLoop, hread, bind_eq_bind, bind_some, if_true]
    rfl
  | @cons p spaces ps hp hsmall hspaces hsep hline ih =>
    intro fuel pre err hfuel
    obtain _ | n := fuel
    · omega
    have hfollows : Follows spaces (lineOf ps) := by
      obtain ⟨b, tail, hrest, hb, hzero⟩ := lineOf_cons hline
      exact ⟨hspaces, b, tail, hrest, hb, fun h => hzero (hsep.resolve_left (not_not.mpr h))⟩
    obtain ⟨c, _, htext, hc, _⟩ := hp.text_cons
    have hread : (pre ++ lineOf ((p, spaces) :: ps))[pre.length]? = some c := by
      rw [lineOf, htext]
      exact getElem?_here rfl rfl
    rw [lineOf, length_append, length_append] at hfuel
    obtain ⟨_, hnext, hfound⟩ := nextArg_found hp hsmall hfollows
      (show pre ++ lineOf ((p, spaces) :: ps) = pre ++ (p.text ++ (spaces ++ lineOf ps)) from rfl)
      rfl (show p.text.length < n by
      obtain ⟨b, _, hrest, _⟩ := lineOf_cons hline
      rw [hrest, length_cons] at hfuel
      omega)
    obtain ⟨front, hbuf, hfront⟩ := hfound.rest
    have hdashes : ¬ (p.value = none ∧ p.name = [45, 45]) := fun h => hp.not_dashes h.2
    have htail :=
        ih n front (if handler (p.name, p.value) = 0 then err else handler (p.name, p.value)) (by
      rw [htext, length_cons] at hfuel
      omega)
    rw [← hbuf, ← hfront] at htail
    rw [parseArgsLoop, hread]
    simp only [bind_eq_bind, bind_some, if_neg hc]
    rw [hnext]
    simp only [bind_some, hfound.param, hfound.val, if_neg hdashes, htail]
    rfl

/-- `parse_args` calls its handler once for each parameter of the line, in their order, with the
name and the value; each parameter is shorter than 2^32 bytes. -/
theorem parseArgs_line (handler : Call → Int) (leading : List Nat)
    (hleading : ∀ c ∈ leading, isspace c = true)
    (ps : List (Written × List Nat)) (hline : Line ps) (fuel : Nat)
    (hfuel : (lineOf ps).length < fuel) :
    parseArgs handler fuel (leading ++ lineOf ps)
    = some (ps.map fun p => (p.1.name, p.1.value),
      lastError handler 0 (ps.map fun p => (p.1.name, p.1.value)), none) := by
  obtain ⟨b, tail, hrest, hb, _⟩ := lineOf_cons hline
  have hskip : skipSpaces (leading ++ lineOf ps) 0 = some leading.length := by
    have hbuf : leading ++ lineOf ps = [] ++ (leading ++ b :: tail) := by rw [hrest, nil_append]
    rw [skipSpaces_append hbuf (show 0 = ([] : List Nat).length from rfl) hleading hb, zero_add]
  rw [parseArgs, hskip]
  exact parseArgsLoop_line handler hline fuel leading 0 hfuel

/-- `quiet`, two spaces, `"a=b c"`. -/
theorem parseArgs_line_quoted :
    parseArgs (fun _ => 0) 40
    (lineOf [(.bare [113, 117, 105, 101, 116], [32, 32]), (.quotedAll [97] [98, 32, 99], [])])
    = some ([([113, 117, 105, 101, 116], none), ([97], some [98, 32, 99])], 0, none) := by
  have hline :
      Line [(.bare [113, 117, 105, 101, 116], [32, 32]), (.quotedAll [97] [98, 32, 99], [])] := by
    refine .cons ⟨by decide, by decide, by decide, by simp [Written.value], nofun⟩ (by decide)
      (by decide)
      (.inl (by decide))
        (.cons ⟨by decide, by decide, by decide, ?_, nofun⟩ (by decide) (by simp) (.inr rfl) .nil)
    intro v hv
    cases hv
    decide
  exact parseArgs_line (fun _ => 0) [] (by simp) _ hline 40 (by decide)

/-- The loop of `next_arg` does not end on a name of 2^32 characters. -/
lemma scanArg_endless (fuel : Nat) :
    ∀ i < 2 ^ 32, scanArg (replicate (2 ^ 32) 97 ++ [0]) 0 fuel i 0 false = none := by
  induction fuel with
  | zero => intro i _; rfl
  | succ fuel ih =>
    intro i hi
    have hread : (replicate (2 ^ 32) 97 ++ [0])[0 + i]? = some 97 := by
      rw [zero_add, getElem?_append_left (by rw [length_replicate]; exact hi),
        getElem?_replicate_of_lt hi]
    rw [scanArg, hread]
    exact ih (u32 (i + 1)) (Nat.mod_lt _ (by decide))

/-- A name of 2^32 characters keeps `parse_args` from returning. -/
theorem parseArgs_long_name :
    ∃ p : Written, p.WellFormed ∧ ∀ (handler : Call → Int) (fuel : Nat), parseArgs handler fuel
    (lineOf [(p, [])]) = none := by
  refine ⟨.bare (replicate (2 ^ 32) 97), ⟨?_, ?_, ?_, ?_, nofun⟩, fun handler fuel => ?_⟩
  · intro h
    have := congrArg length h
    rw [Written.name, length_replicate] at this
    exact absurd this (by decide)
  · intro c hc
    rw [eq_of_mem_replicate hc]
    decide
  · intro h
    have := congrArg length h
    rw [Written.name, length_replicate] at this
    exact absurd this (by decide)
  · intro v hv
    cases hv
  obtain ⟨tail, htail⟩ : ∃ tail, replicate (2 ^ 32) 97 ++ [0] = 97 :: tail := by
    obtain ⟨n, hn⟩ : ∃ n, 2 ^ 32 = n + 1 := ⟨2 ^ 32 - 1, by decide⟩
    rw [hn, replicate_succ]
    exact ⟨_, rfl⟩
  have hendless := scanArg_endless
  have hline : lineOf [(.bare (replicate (2 ^ 32) 97), [])] = replicate (2 ^ 32) 97 ++ [0] := rfl
  rw [hline]
  generalize replicate (2 ^ 32) 97 ++ [0] = buf at htail hendless
  subst htail
  have hskip : skipSpaces (97 :: tail) 0 = some 0 := rfl
  have hread : (97 :: tail)[0]? = some 97 := rfl
  have harg : ∀ fuel, nextArg fuel (97 :: tail) 0 = none := by
    intro fuel
    simp only [nextArg, hread, bind_eq_bind, bind_some, nextArgAt, hendless fuel 0 (by decide),
      bind_none]
    rfl
  cases fuel with
  | zero => rfl
  | succ fuel =>
    simp only [parseArgs, hskip, bind_eq_bind, bind_some, parseArgsLoop, hread, harg, bind_none]
    rfl

end MinimalLinux.Lib
