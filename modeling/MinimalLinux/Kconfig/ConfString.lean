/-
String values of `scripts/kconfig`, from `conf_write_symbol` to the
file and back through `conf_read_simple`.

The line buffer of `conf_read_simple` is a list of bytes, with whatever
earlier lines have left behind the NUL; `none` is a read past the end of the buffer.  The symbols
are a map from names.  Choices, warnings and the comment lines are left out.
-/
import MinimalLinux.Foundation.CString
import MinimalLinux.Kconfig.Symbol

namespace MinimalLinux.Kconfig

open Foundation List Function Option

variable {fuel size : Nat} {done : List Nat}

/-! ## Writing -/

def isSpecial (b : Nat) : Bool := b == 34 || b == 92

/-- `strncat` of `n` bytes from `p` on, into a buffer of `size` bytes. -/
def strncat (size : Nat) (res buf : List Nat) (p n : Nat) : Option (List Nat) :=
  if res.length + n + 1 ≤ size then some (res ++ (buf.drop p).take n) else none

/-- The first loop of `sym_escape_string_value`. -/
def escapeLen : Nat → List Nat → Nat → Nat → Option Nat
  | 0, _, _, _ => none
  | fuel + 1, buf, p, reslen => do
      let l ← strcspn isSpecial buf p
      if buf[p + l]? = some 0 then some reslen
      else escapeLen fuel buf (p + l + 1) (reslen + 1)

def escapeCopy (reslen : Nat) : Nat → List Nat → Nat → List Nat → Option (List Nat)
  | 0, _, _, _ => none
  | fuel + 1, buf, p, res => do
      let l ← strcspn isSpecial buf p
      let res ← strncat reslen res buf p l
      if buf[p + l]? = some 0 then some res
      else do
        let res ← strncat reslen res [92] 0 1
        let res ← strncat reslen res buf (p + l) 1
        escapeCopy reslen fuel buf (p + l + 1) res

def symEscapeStringValue (buf : List Nat) : Option (List Nat) := do
  let n ← strlen buf 0
  let reslen ← escapeLen buf.length buf 0 (n + 2 + 1)
  let res ← strncat reslen [] [34] 0 1
  let res ← escapeCopy reslen buf.length buf 0 res
  strncat reslen res [34] 0 1

def configText : List Nat := [67, 79, 78, 70, 73, 71, 95]

section
variable (type : SymbolType) (name value : List Nat) (skipUnset : Bool)

def kconfigPrintSymbol : List Nat :=
  if (type = .boolean ∨ type = .tristate) ∧ value[0]? = some 110 then
    -- `# CONFIG_name is not set`
    if skipUnset then []
    else [35, 32] ++ configText ++ name ++ [32, 105, 115, 32, 110, 111, 116, 32, 115, 101, 116, 10]
  else configText ++ (name ++ (61 :: (value ++ [10])))

/-- `conf_write_symbol` with the printer for `.config`, for a symbol with this value. -/
def confWriteSymbol : Option (List Nat) :=
  match type with
  | .other => some []
  | .unknown => some []
  | .string => (symEscapeStringValue (value ++ [0])).map fun str =>
      kconfigPrintSymbol type name str skipUnset
  | _ => some (kconfigPrintSymbol type name value skipUnset)

/-! ## Reading -/

end

/-- What one turn of the loop in `conf_set_sym_val` does. -/
inductive Unescape where
  | closed (buf : List Nat)
  | unterminated
  | next (buf : List Nat) (p2 : Nat)
  deriving DecidableEq

/-- One turn of the loop, from the search for the next special byte on. -/
def unescapeStep (buf : List Nat) (p2 : Nat) : Option Unescape := do
  match ← strpbrk isSpecial buf p2 with
  | none => some .unterminated
  | some i =>
    if buf[i]? = some 34 then some (.closed (buf.set i 0))
    else do
      let n ← strlen buf i
      let buf ← memmove buf i (i + 1) n
      some (.next buf (i + 1))

/-- The loop; the result is the buffer with the text cut at the closing quote. -/
def unescapeLoop : Nat → List Nat → Nat → Option (Option (List Nat))
  | 0, _, _ => none
  | fuel + 1, buf, p2 => do
      match ← unescapeStep buf p2 with
      | .closed buf => some (some buf)
      | .unterminated => some none
      | .next buf p2 => unescapeLoop fuel buf p2

/-- The states at the beginning of a turn. -/
inductive UnescapeReach (buf : List Nat) (p : Nat) : List Nat → Nat → Prop
  | start : UnescapeReach buf p buf p
  | next {buf₁ buf₂ : List Nat} {p₁ p₂ : Nat} : UnescapeReach buf p buf₁ p₁ →
      unescapeStep buf₁ p₁ = some (.next buf₂ p₂) → UnescapeReach buf p buf₂ p₂

/-- A symbol as far as `conf_set_sym_val` sets it; `set` is the flag `SYMBOL_DEF << def`. -/
structure ConfSymbol where
  type : SymbolType
  tri : Tristate
  val : Option (List Nat)
  set : Bool
  deriving DecidableEq, Repr

section
variable (sym : ConfSymbol) (buf : List Nat) (p : Nat)

def symStringValid (type : SymbolType) (str : List Nat) : Bool :=
  match type with
  | .string => true
  | .int =>
    match if str[0]? = some 45 then str.drop 1 else str with
    | [] => false
    | ch :: rest => isDigit ch && !(ch == 48 && !rest.isEmpty) && rest.all isDigit
  | .hex =>
    match if str[0]? = some 48 ∧ (str[1]? = some 120 ∨ str[1]? = some 88) then str.drop 2
        else str with
    | [] => false
    | ch :: rest => isXdigit ch && rest.all isXdigit
  | .boolean => str.head?.any fun ch => [121, 89, 109, 77, 110, 78].contains ch
  | .tristate => str.head?.any fun ch => [121, 89, 109, 77, 110, 78].contains ch
  | _ => false

/-- `conf_set_sym_val` from the label `done` on. -/
def setSymDone : Option (Nat × ConfSymbol) := do
  let str ← cstr buf p
  if symStringValid sym.type str then some (0, { sym with val := some str, set := true })
    else some (1, sym)

def setSymString : Option (Nat × ConfSymbol) := do
  let b ← buf[p]?
  if b ≠ 34 then some (0, sym)
  else
    match ← unescapeLoop buf.length buf (p + 1) with
    | none => some (1, sym)
    | some buf => setSymDone sym buf (p + 1)

def setSymBoolean : Option (Nat × ConfSymbol) := do
  let b ← buf[p]?
  if b = 121 then some (0, { sym with tri := .yes, set := true })
  else if b = 110 then some (0, { sym with tri := .no, set := true })
  else some (1, sym)

def confSetSymVal : Option (Nat × ConfSymbol) :=
  match sym.type with
  | .tristate => do
      let b ← buf[p]?
      if b = 109 then some (0, { sym with tri := .mod, set := true }) else setSymBoolean sym buf p
  | .boolean => setSymBoolean sym buf p
  | .other => do
      let b ← buf[p]?
      if b ≠ 34 then setSymDone { sym with type := .string } buf p else setSymString sym buf p
  | .string => setSymString sym buf p
  | .int => setSymDone sym buf p
  | .hex => setSymDone sym buf p
  | .unknown => some (0, sym)

/-- `compat_getline`: the next line of the file, with its newline, and the rest. -/
def compatGetline : List Nat → List Nat × List Nat
  | [] => ([], [])
  | b :: bs => if b = 10 then ([b], bs) else ((b :: (compatGetline bs).1), (compatGetline bs).2)

/-- How `conf_read_simple` cuts a line that begins with `CONFIG_`: the buffer, and the index of the
value, unless there is no `=`. -/
def confSplitLine : Option (Option (List Nat × Nat)) := do
  match ← strpbrk (· == 61) buf configText.length with
  | none => some none
  | some e =>
    let buf := buf.set e 0
    match ← strpbrk (· == 10) buf (e + 1) with
    | none => some (some (buf, e + 1))
    | some q =>
      let buf := buf.set q 0
      some (some (if buf[q - 1]? = some 13 then buf.set (q - 1) 0 else buf, e + 1))

/-- What `conf_read_simple` does with a line that begins with `CONFIG_`; `user` is
`def == S_DEF_USER`. -/
def confReadLine (user : Bool) (syms : List Nat → Option ConfSymbol) (buf : List Nat) :
    Option (List Nat → Option ConfSymbol) := do
  if buf.take configText.length ≠ configText then some syms
  else
    match ← confSplitLine buf with
    | none => some syms
    | some (buf, p) => do
        let name ← cstr buf configText.length
        if user ∧ syms name = none then some syms
        else
          -- `sym_lookup` makes a new symbol
          let sym := (syms name).getD ⟨.unknown, .no, none, false⟩
          let sym := if !user ∧ sym.type = .unknown then { sym with type := .other } else sym
          let res ← confSetSymVal sym buf p
          some (update syms name (some res.2))

/-! ## The escaped text -/

/-- A text with a backslash in front of every special byte. -/
def escapeText (text : List Nat) : List Nat :=
  text.flatMap fun b => if isSpecial b then [92, b] else [b]

end

variable {res : List Nat}

section
variable {buf pre text rest run : List Nat} {c p : Nat}

section
variable (hrun : Plain isSpecial run)
include hrun

lemma escapeText_plain : escapeText run = run := by
  induction run with
  | nil => rfl
  | cons b run ih =>
    have hb := (hrun b mem_cons_self).2
    unfold escapeText at ih ⊢
    rw [flatMap_cons, hb, ih fun d hd => hrun d (mem_cons_of_mem _ hd)]
    rfl

lemma escapeText_cut (hc : isSpecial c = true) :
    escapeText (run ++ c :: rest) = run ++ 92 :: c :: escapeText rest := by
  have happend : escapeText (run ++ c :: rest) = escapeText run ++ escapeText (c :: rest) :=
    flatMap_append
  rw [happend, escapeText_plain hrun]
  unfold escapeText
  rw [flatMap_cons, hc]
  rfl

lemma countP_plain : run.countP isSpecial = 0 := countP_eq_zero.mpr fun b hb => by
    rw [(hrun b hb).2]; nofun

end

section
variable (htext : Runs isSpecial text)
include htext

lemma length_escapeText : (escapeText text).length = text.length + text.countP isSpecial := by
  induction htext with
  | plain hrun => rw [escapeText_plain hrun, countP_plain hrun]; rfl
  | cut hrun _ hc _ ih =>
    rw [escapeText_cut hrun hc, countP_append, countP_cons_of_pos hc, countP_plain hrun]
    simp
    omega

lemma length_le_escapeText : text.length ≤ (escapeText text).length := by
  rw [length_escapeText htext]
  exact Nat.le_add_right _ _

/-! ## `sym_escape_string_value` -/

lemma escapeLen_spec {n : Nat} (hbuf : buf = pre ++ (text ++ 0 :: rest)) (hp : p = pre.length)
    (hfuel : text.length < fuel) : escapeLen fuel buf p n = some (n + text.countP isSpecial) := by
  induction htext generalizing fuel pre p n with
  | @plain run hrun =>
    obtain _ | fuel := fuel
    · omega
    rw [escapeLen, strcspn_append hbuf hp hrun (.inl rfl)]
    dsimp only [bind, Option.bind]
    rw [if_pos (getElem?_at hbuf hp), countP_plain hrun]
    rfl
  | @cut run c rest' hrun hzero hc _ ih =>
    obtain _ | fuel := fuel
    · omega
    rw [append_assoc, cons_append] at hbuf
    rw [escapeLen, strcspn_append hbuf hp hrun (.inr hc)]
    dsimp only [bind, Option.bind]
    have hnext : buf = (pre ++ run ++ [c]) ++ (rest' ++ 0 :: rest) := by
      rw [hbuf]
      simp
    rw [if_neg (by rw [getElem?_at hbuf hp]; exact fun h => hzero (some.inj h)),
      ih hnext (by simp; omega) (by simp at hfuel; omega), countP_append, countP_cons_of_pos hc,
      countP_plain hrun]
    exact congrArg some (by omega)

end

lemma strncat_spec (hbuf : buf = pre ++ (run ++ rest)) (hp : p = pre.length)
    (hsize : res.length + run.length + 1 ≤ size) : strncat size res buf p run.length = some
    (res ++ run) := by
  unfold strncat
  rw [if_pos hsize, hbuf, hp, drop_left, take_left]

lemma strncat_byte {b : Nat} (hsize : res.length + 2 ≤ size) : strncat size res [b] 0 1 = some
    (res ++ [b]) :=
  strncat_spec (show [b] = [] ++ ([b] ++ []) from rfl) rfl hsize

/-- The second loop fits into the buffer that the first one has measured. -/
lemma escapeCopy_spec {reslen : Nat} (htext : Runs isSpecial text)
    (hbuf : buf = pre ++ (text ++ 0 :: rest)) (hp : p = pre.length) (hfuel : text.length < fuel)
    (hsize : res.length + (escapeText text).length + 1 ≤ reslen) :
    escapeCopy reslen fuel buf p res = some (res ++ escapeText text) := by
  induction htext generalizing fuel pre p res with
  | @plain run hrun =>
    obtain _ | fuel := fuel
    · omega
    rw [escapeText_plain hrun] at hsize ⊢
    rw [escapeCopy, strcspn_append hbuf hp hrun (.inl rfl)]
    dsimp only [bind, Option.bind]
    rw [strncat_spec hbuf hp hsize]
    dsimp only
    rw [if_pos (getElem?_at hbuf hp)]
  | @cut run c rest' hrun hzero hc _ ih =>
    obtain _ | fuel := fuel
    · omega
    rw [append_assoc, cons_append] at hbuf
    rw [escapeText_cut hrun hc] at hsize ⊢
    simp only [length_append, length_cons] at hsize hfuel
    rw [escapeCopy, strcspn_append hbuf hp hrun (.inr hc)]
    dsimp only [bind, Option.bind]
    rw [strncat_spec hbuf hp (by omega)]
    dsimp only
    rw [if_neg (by rw [getElem?_at hbuf hp]; exact fun h => hzero (some.inj h))]
    have hquote : strncat reslen (res ++ run) [92] 0 1 = some (res ++ run ++ [92]) :=
      strncat_byte (by simp; omega)
    have hchar : strncat reslen (res ++ run ++ [92]) buf (p + run.length) 1 =
        some (res ++ run ++ [92] ++ [c]) :=
      strncat_spec (show buf = (pre ++ run) ++ ([c] ++ (rest' ++ 0 :: rest)) by rw [hbuf]; simp)
        (by simp [hp]) (by simp; omega)
    rw [hquote]
    dsimp only
    rw [hchar]
    dsimp only
    have hnext : buf = (pre ++ run ++ [c]) ++ (rest' ++ 0 :: rest) := by
      rw [hbuf]
      simp
    rw [ih hnext (by simp; omega) (by omega) (by simp; omega)]
    simp

lemma symEscapeStringValue_spec (htext : 0 ∉ text) : symEscapeStringValue (text ++ [0]) = some
    (34 :: (escapeText text ++ [34])) := by
  have hruns := Runs.of_not_mem isSpecial htext
  have hlen := length_escapeText hruns
  have hfuel : text.length < (text ++ [0]).length := by simp
  have hbuf : text ++ [0] = [] ++ (text ++ 0 :: []) := rfl
  have hp : 0 = ([] : List Nat).length := rfl
  unfold symEscapeStringValue
  rw [strlen_append hbuf hp htext]
  dsimp only [bind, Option.bind]
  rw [escapeLen_spec hruns hbuf hp hfuel]
  dsimp only
  rw [strncat_byte (by simp; omega)]
  dsimp only
  rw [escapeCopy_spec hruns hbuf hp hfuel (by simp; omega)]
  dsimp only
  rw [strncat_byte (by simp; omega)]
  rfl

/-! ## `conf_set_sym_val` -/

lemma not_mem_escapeText {d : Nat} (hd : isSpecial d = false) (htext : d ∉ text) :
    d ∉ escapeText text := by
  unfold escapeText
  rw [mem_flatMap]
  rintro ⟨b, hb, hmem⟩
  have hne : b ≠ d := ne_of_mem_of_not_mem hb htext
  split at hmem
  · rcases mem_cons.mp hmem with rfl | h
    · exact absurd hd (by decide)
    · exact hne (mem_singleton.mp h).symm
  · exact hne (mem_singleton.mp hmem).symm

lemma unescapeStep_closed (hrun : Plain isSpecial run) (hbuf : buf = pre ++ (run ++ 34 :: rest))
    (hp : p = pre.length) :
    unescapeStep buf p = some (.closed (pre ++ (run ++ 0 :: rest))) := by
  unfold unescapeStep
  rw [strpbrk_append hbuf hp hrun (by decide) (by decide)]
  dsimp only [bind, Option.bind]
  rw [if_pos (getElem?_at hbuf hp), set_at hbuf hp]

/-- A turn at a backslash takes it out, and goes on behind the byte after it. -/
lemma unescapeStep_next (hrun : Plain isSpecial run) (htext : 0 ∉ text)
    (hbuf : buf = pre ++ (run ++ 92 :: (text ++ 0 :: rest))) (hp : p = pre.length) :
    unescapeStep buf p = some
    (.next (pre ++ (run ++ (text ++ 0 :: 0 :: rest))) (p + run.length + 1)) := by
  have hbuf' : buf = (pre ++ run) ++ (92 :: (text ++ 0 :: rest)) := by rw [hbuf, append_assoc]
  have hp' : p + run.length = (pre ++ run).length := by rw [hp, length_append]
  have hlen : strlen buf (p + run.length) = some (text.length + 1) :=
    strlen_append (show buf = (pre ++ run) ++ ((92 :: text) ++ 0 :: rest) from hbuf') hp'
      (by simpa using htext)
  unfold unescapeStep
  rw [strpbrk_append hbuf hp hrun (by decide) (by decide)]
  dsimp only [bind, Option.bind]
  rw [if_neg (by rw [getElem?_at hbuf hp]; decide), hlen]
  dsimp only
  rw [memmove_down hbuf' hp', append_assoc]

lemma UnescapeReach.cases_head {buf' : List Nat} {p' : Nat} (h : UnescapeReach buf p buf' p') :
    (buf' = buf ∧ p' = p) ∨ ∃ buf₁ p₁, unescapeStep buf p = some (.next buf₁ p₁) ∧
    UnescapeReach buf₁ p₁ buf' p' := by
  induction h with
  | start => exact .inl ⟨rfl, rfl⟩
  | @next buf₁ buf₂ p₁ p₂ _ hstep ih =>
    rcases ih with ⟨rfl, rfl⟩ | ⟨buf0, p0, hfirst, hreach⟩
    · exact .inr ⟨buf₂, p₂, hstep, .start⟩
    · exact .inr ⟨buf0, p0, hfirst, hreach.next hstep⟩

lemma strlen_done (htext : 0 ∉ text) (hdone : 0 ∉ done)
    (hbuf : buf = pre ++ (done ++ (escapeText text ++ 34 :: 0 :: rest)))
    (hp : p = (pre ++ done).length) :
    ∃ n, strlen buf pre.length = some n ∧ p ≤ pre.length + n := by
  have hbuf' : buf = pre ++ ((done ++ (escapeText text ++ [34])) ++ 0 :: rest) := by
    rw [hbuf]
    simp
  refine ⟨_, strlen_append hbuf' rfl (by simp [hdone, not_mem_escapeText (by decide) htext]), ?_⟩
  rw [hp]
  simp

/-- The loop restores the text in front of the closing quote, and never goes past the NUL. -/
lemma unescapeLoop_spec (htext : Runs isSpecial text) (hzero : 0 ∉ text) (hdone : 0 ∉ done)
    (hbuf : buf = pre ++ (done ++ (escapeText text ++ 34 :: 0 :: rest)))
    (hp : p = (pre ++ done).length) (hfuel : text.length < fuel) :
    (∃ rest', unescapeLoop fuel buf p = some (some (pre ++ (done ++ (text ++ 0 :: rest'))))) ∧
    ∀ buf' p', UnescapeReach buf p buf' p' → ∃ n, strlen buf' pre.length = some n ∧
    p' ≤ pre.length + n := by
  induction htext generalizing fuel buf p done rest with
  | @plain run hrun =>
    obtain _ | fuel := fuel
    · omega
    have hstart := strlen_done hzero hdone hbuf hp
    rw [escapeText_plain hrun, ← append_assoc] at hbuf
    have hstep := unescapeStep_closed hrun hbuf hp
    constructor
    · rw [unescapeLoop, hstep]
      exact ⟨0 :: rest, by rw [append_assoc]; rfl⟩
    intro buf' p' hreach
    rcases hreach.cases_head with ⟨rfl, rfl⟩ | ⟨buf₁, p₁, hnext, -⟩
    · exact hstart
    · exact absurd (hstep.symm.trans hnext) (by simp)
  | @cut run c text' hrun hc0 hc _ ih =>
    obtain _ | fuel := fuel
    · omega
    have hrun0 : 0 ∉ run := fun h => (hrun 0 h).1 rfl
    have hzero' : 0 ∉ text' := fun h => hzero (mem_append_right _ (mem_cons_of_mem _ h))
    have hescape := not_mem_escapeText (by decide) hzero'
    have hbuf' : buf = (pre ++ done) ++
        (run ++ 92 :: ((c :: (escapeText text' ++ [34])) ++ 0 :: rest)) := by
      rw [hbuf, escapeText_cut hrun hc]
      simp
    have hstep := unescapeStep_next hrun (by simp [hc0.symm, hescape]) hbuf' hp
    have hnext : (pre ++ done) ++ (run ++ ((c :: (escapeText text' ++ [34])) ++ 0 :: 0 :: rest)) =
        pre ++ ((done ++ (run ++ [c])) ++ (escapeText text' ++ 34 :: 0 :: (0 :: rest))) := by simp
    have hdone' : 0 ∉ done ++ (run ++ [c]) := by simp [hdone, hrun0, Ne.symm hc0]
    have hfuel' : text'.length < fuel := by
      simp only [length_append, length_cons] at hfuel
      omega
    have hp' : p + run.length + 1 = (pre ++ (done ++ (run ++ [c]))).length := by
      rw [hp]
      simp
      omega
    rw [hnext] at hstep
    obtain ⟨⟨rest', hloop⟩, hreach'⟩ := ih hzero' hdone' rfl hp' hfuel'
    constructor
    · rw [unescapeLoop, hstep]
      refine ⟨rest', hloop.trans ?_⟩
      simp
    intro buf' p' hreach
    rcases hreach.cases_head with ⟨rfl, rfl⟩ | ⟨buf₁, p₁, hnext', hrest⟩
    · exact strlen_done hzero hdone hbuf hp
    · obtain ⟨rfl, rfl⟩ := Unescape.next.inj (some.inj (hstep.symm.trans hnext'))
      exact hreach' buf' p' hrest

lemma setSymString_spec {sym : ConfSymbol} (htype : sym.type = .string) (htext : 0 ∉ text)
    (hbuf : buf = pre ++ (34 :: (escapeText text ++ 34 :: 0 :: rest))) (hp : p = pre.length) :
    setSymString sym buf p = some (0, { sym with val := some text, set := true }) ∧
      ∀ buf' p2, UnescapeReach buf (p + 1) buf' p2 → ∃ n, strlen buf' (p + 1) = some n ∧
      p2 ≤ p + 1 + n := by
  have hruns := Runs.of_not_mem isSpecial htext
  have hquote : buf[p]? = some 34 := by
    rw [hbuf, hp, getElem?_append_right le_rfl, Nat.sub_self, getElem?_cons_zero]
  have hbuf' : buf = (pre ++ [34]) ++ ([] ++ (escapeText text ++ 34 :: 0 :: rest)) := by
    rw [hbuf]
    simp
  have hp' : p + 1 = ((pre ++ [34]) ++ []).length := by
    rw [hp]
    simp
  have hfuel : text.length < buf.length := by
    have hle := length_le_escapeText hruns
    rw [hbuf]
    simp
    omega
  obtain ⟨⟨rest', hloop⟩, hreach⟩ := unescapeLoop_spec hruns htext not_mem_nil hbuf' hp' hfuel
  rw [append_nil] at hp'
  rw [← hp'] at hreach
  refine ⟨?_, hreach⟩
  unfold setSymString
  rw [hquote]
  dsimp only [bind, Option.bind]
  rw [if_neg (by decide), hloop]
  dsimp only
  unfold setSymDone
  rw [nil_append, cstr_append rfl hp' htext, htype]
  rfl

/-! ## `conf_read_simple` -/

lemma compatGetline_append (htext : 10 ∉ text) :
    compatGetline (text ++ 10 :: rest) = (text ++ [10], rest) := by
  induction text with
  | nil => rfl
  | cons b text ih =>
    rw [mem_cons, not_or] at htext
    rw [cons_append, compatGetline, if_neg (Ne.symm htext.1), ih htext.2]
    rfl

lemma confSplitLine_spec {name : List Nat} (hname : ∀ b ∈ name, b ≠ 0 ∧ b ≠ 61)
    (htext : Plain (· == 10) text)
    {head : List Nat} (hhead : head = configText ++ (name ++ [0]))
    (hbuf : buf = configText ++ (name ++ 61 :: ((text ++ [34]) ++ 10 :: rest))) :
    confSplitLine buf = some (some (head ++ ((text ++ [34]) ++ 0 :: rest), head.length)) := by
  have hplain : Plain (· == 61) name :=
    fun b hb => ⟨(hname b hb).1, beq_eq_false_iff_ne.mpr (hname b hb).2⟩
  have hplain' : Plain (· == 10) (text ++ [34]) :=
    forall_mem_append.mpr ⟨htext, forall_mem_singleton.mpr (by decide)⟩
  have hcut : configText ++ (name ++ 0 :: ((text ++ [34]) ++ 10 :: rest)) = head ++
    ((text ++ [34]) ++ 10 :: rest) := by simp [hhead]
  have hlen : configText.length + name.length + 1 = head.length := by
    simp [hhead]
    omega
  -- in front of the newline is the closing quote
  have hlast : (head ++ ((text ++ [34]) ++ 0 :: rest))[head.length + (text ++ [34]).length - 1]? =
      some 34 := by
    have hsub : head.length + (text ++ [34]).length - 1 = head.length + text.length := by
      have hone : (text ++ [34]).length = text.length + 1 := length_append
      omega
    have hbuf' : head ++ ((text ++ [34]) ++ 0 :: rest) = head ++ (text ++ 34 :: 0 :: rest) := by
      simp
    rw [hsub]
    exact getElem?_at hbuf' rfl
  unfold confSplitLine
  rw [strpbrk_append hbuf rfl hplain (by decide) (by decide)]
  dsimp only [bind, Option.bind]
  rw [set_at hbuf rfl, hlen, hcut, strpbrk_append rfl rfl hplain' (by decide) (by decide)]
  dsimp only
  rw [set_at rfl rfl, hlast, if_neg (by decide)]

end

/-- **String values survive the configuration file.**  The line written for a string symbol is read
as one line, and reading it sets the symbol to the same value; the loop that takes out the
backslashes stays in front of the terminating NUL. -/
theorem conf_string_round_trip {name value : List Nat} (hname : ∀ b ∈ name, b ≠ 0 ∧ b ≠ 10 ∧ b ≠ 61)
    (hzero : 0 ∉ value)
    (hnewline : 10 ∉ value) (skipUnset user : Bool) (file junk : List Nat)
    {syms : List Nat → Option ConfSymbol}
    {sym : ConfSymbol} (hsym : syms name = some sym) (htype : sym.type = .string) :
    ∃ line, confWriteSymbol .string name value skipUnset = some line ∧ compatGetline
    (line ++ file) = (line, file) ∧
    confReadLine user syms (line ++ 0 :: junk) = some
    (update syms name (some { sym with val := some value, set := true })) ∧
      ∃ buf p, confSplitLine (line ++ 0 :: junk) = some (some (buf, p)) ∧
        ∀ buf' p2, UnescapeReach buf (p + 1) buf' p2 → ∃ n, strlen buf' (p + 1) = some n ∧
        p2 ≤ p + 1 + n := by
  have hwrite : confWriteSymbol .string name value skipUnset =
      some (configText ++ (name ++ (61 :: ((34 :: (escapeText value ++ [34])) ++ [10])))) := by
    unfold confWriteSymbol
    rw [symEscapeStringValue_spec hzero]
    rfl
  have hplain : Plain (· == 10) (34 :: escapeText value) := by
    intro b hb
    have hz : 0 ∉ 34 :: escapeText value := by simp [not_mem_escapeText rfl hzero]
    have hn : 10 ∉ 34 :: escapeText value := by simp [not_mem_escapeText rfl hnewline]
    exact ⟨ne_of_mem_of_not_mem hb hz, beq_eq_false_iff_ne.mpr (ne_of_mem_of_not_mem hb hn)⟩
  have hbuf : (configText ++ (name ++ (61 :: ((34 :: (escapeText value ++ [34])) ++ [10])))) ++
    0 :: junk =
      configText ++ (name ++ 61 :: (((34 :: escapeText value) ++ [34]) ++ 10 :: (0 :: junk))) := by
      simp
  have hsplit := confSplitLine_spec (fun b hb => ⟨(hname b hb).1, (hname b hb).2.2⟩) hplain rfl hbuf
  have hval : (configText ++ (name ++ [0])) ++
    (((34 :: escapeText value) ++ [34]) ++ 0 :: (0 :: junk)) =
      (configText ++ (name ++ [0])) ++ (34 :: (escapeText value ++ 34 :: 0 :: (0 :: junk))) := by
      simp
  rw [hval] at hsplit
  obtain ⟨hset, hreach⟩ := setSymString_spec htype hzero
    (show (configText ++ (name ++ [0])) ++ (34 :: (escapeText value ++ 34 :: 0 :: (0 :: junk))) =
    _ from rfl) rfl
  refine ⟨_, hwrite, ?_, ?_, _, _, hsplit, hreach⟩
  · have hline : 10 ∉ configText ++ (name ++ (61 :: (34 :: (escapeText value ++ [34])))) := by
      have hn : 10 ∉ name := fun h => (hname 10 h).2.1 rfl
      simp [configText, hn, not_mem_escapeText rfl hnewline]
    rw [show (configText ++ (name ++ (61 :: ((34 :: (escapeText value ++ [34])) ++ [10])))) =
      (configText ++ (name ++ (61 :: (34 :: (escapeText value ++ [34]))))) ++ [10] by
      simp, append_assoc]
    exact compatGetline_append hline
  have hcstr :
      cstr ((configText ++ (name ++ [0])) ++ (34 :: (escapeText value ++ 34 :: 0 :: (0 :: junk))))
      configText.length = some name :=
    cstr_append (by simp; rfl) rfl fun h => (hname 0 h).1 rfl
  unfold confReadLine
  rw [if_neg (by rw [hbuf, take_left]; exact fun h => h rfl), hsplit]
  dsimp only [bind, Option.bind]
  rw [hcstr]
  dsimp only
  rw [if_neg (by rw [hsym]; exact fun h => some_ne_none _ h.2), hsym, getD_some,
    if_neg (by rw [htype]; exact fun h => SymbolType.noConfusion h.2)]
  have hcase : ∀ buf p, confSetSymVal sym buf p = setSymString sym buf p := by
    intro buf p
    unfold confSetSymVal
    rw [htype]
  rw [hcase, hset]

/-- A table in which every name is a string symbol without a value. -/
def stringSymbols (_name : List Nat) : Option ConfSymbol := some ⟨.string, .no, none, false⟩

/-- The value is a quote, two backslashes and a quote. -/
theorem conf_string_round_trip_quotes : ∃ line, confWriteSymbol .string [65]
    [34, 92, 92, 34] false = some line ∧
    confReadLine true stringSymbols (line ++ [0]) =
    some (update stringSymbols [65] (some ⟨.string, .no, some [34, 92, 92, 34], true⟩)) := by
  have hname : ∀ b ∈ [65], b ≠ 0 ∧ b ≠ 10 ∧ b ≠ 61 := by decide
  have hzero : 0 ∉ [34, 92, 92, 34] := by decide
  have hsym : stringSymbols [65] = some ⟨.string, .no, none, false⟩ := rfl
  obtain ⟨line, hwrite, -, hread, -⟩ :=
    conf_string_round_trip hname hzero (by decide) false true [] [] hsym rfl
  exact ⟨line, hwrite, hread⟩

end MinimalLinux.Kconfig
