import Mathlib.Data.List.Infix

/-! # Escaping

Escapers write characters in another way, and unescapers read them back. An unescaper is called
in a loop that ends when the cursor is exactly at the end. Characters are classified as in the
C locale.
-/

namespace Vast.Detail

open List

local instance charByte : Coe Char UInt8 := ⟨Char.toUInt8⟩

def between (first last : Char) (c : UInt8) : Bool := first.toUInt8 ≤ c && c ≤ last.toUInt8

def isXDigit (c : UInt8) : Bool := between '0' '9' c || between 'A' 'F' c || between 'a' 'f' c

def isAlnum (c : UInt8) : Bool := between '0' '9' c || between 'A' 'Z' c || between 'a' 'z' c

def isPrint (c : UInt8) : Bool := between ' ' '~' c

def isCntrl (c : UInt8) : Bool := c < 0x20 || c == 0x7f

/-- The digits of the upper and the lower half of a byte. -/
def byteToHex (x : UInt8) : UInt8 × UInt8 :=
  let digit (half : UInt8) : UInt8 := "0123456789ABCDEF".toList.getD half.toNat '0'
  (digit (x >>> 4 &&& 0x0f), digit (x &&& 0x0f))

def hexToNibble (hex : UInt8) : UInt8 :=
  if between '0' '9' hex then hex - '0'
  else if between 'A' 'F' hex then hex - 'A' + 10
  else if between 'a' 'f' hex then hex - 'a' + 10
  else 0

def hexToByte (hi lo : UInt8) : UInt8 := hexToNibble hi <<< 4 ||| hexToNibble lo

theorem hexToByte_byteToHex (x : UInt8) :
    isXDigit (byteToHex x).1 = true ∧ isXDigit (byteToHex x).2 = true ∧
      hexToByte (byteToHex x).1 (byteToHex x).2 = x := by
  obtain ⟨⟨x⟩⟩ := x
  revert x
  decide +kernel

/-! ## Escapers -/

def hexEscaper (c : UInt8) : List UInt8 := ['\\', 'x', (byteToHex c).1, (byteToHex c).2]

def printEscaper (c : UInt8) : List UInt8 := if isPrint c then [c] else hexEscaper c

def extraPrintEscaper (extra : List UInt8) (c : UInt8) : List UInt8 :=
  if c ∈ extra then ['\\', c] else printEscaper c

def isUnreserved (c : UInt8) : Bool := isAlnum c || c == '-' || c == '_' || c == '.' || c == '~'

def percentEscaper (c : UInt8) : List UInt8 :=
  if isUnreserved c then [c] else ['%', (byteToHex c).1, (byteToHex c).2]

/-- The letter that stands for a character after a backslash. -/
def jsonLetter (c : UInt8) : Option UInt8 :=
  if c = '"' ∨ c = '\\' then some c
  else if c = 0x08 then some 'b'
  else if c = 0x0c then some 'f'
  else if c = '\r' then some 'r'
  else if c = '\n' then some 'n'
  else if c = '\t' then some 't'
  else none

def jsonEscaper (c : UInt8) : List UInt8 :=
  match jsonLetter c with
  | some letter => ['\\', letter]
  | none => if !isCntrl c then [c] else ['\\', 'u', '0', '0', (byteToHex c).1, (byteToHex c).2]

def byteEscape (str extra : List UInt8) : List UInt8 := str.flatMap (extraPrintEscaper extra)

def byteEscapeAll (str : List UInt8) : List UInt8 := str.flatMap hexEscaper

def percentEscape (str : List UInt8) : List UInt8 := str.flatMap percentEscaper

abbrev quote : UInt8 := '"'

def jsonEscape (str : List UInt8) : List UInt8 := quote :: (str.flatMap jsonEscaper ++ [quote])

/-! ## Unescapers -/

/-- A call of an unescaper: how far it moves the cursor, and what it writes unless it fails. -/
structure Step where
  moved : Nat
  written : Option (List UInt8)

def Step.after (moved : Nat) (step : Step) : Step := { step with moved := moved + step.moved }

/-- An unescaper sees the characters from the cursor to the end. There is no step if it reads
outside of the input. -/
abbrev Unescaper := List UInt8 → Option Step

def hexUnescaper : Unescaper
  | [] => none
  | [_] => some ⟨1, none⟩
  | hi :: lo :: _ =>
    some ⟨2, if !isXDigit hi || !isXDigit lo then none else some [hexToByte hi lo]⟩

def byteUnescaper : Unescaper
  | [] => none
  | c :: rest =>
    if c ≠ '\\' then some ⟨1, some [c]⟩
    else if (c :: rest).length < 4 then some ⟨0, none⟩
    else
      match rest with
      | [] => none
      | d :: rest =>
        if d ≠ 'x' then some ⟨2, some [d]⟩ else (hexUnescaper rest).map (Step.after 2)

def percentUnescaper : Unescaper
  | [] => none
  | c :: rest =>
    if c ≠ '%' then some ⟨1, some [c]⟩
    else if (c :: rest).length < 3 then some ⟨0, none⟩
    else (hexUnescaper rest).map (Step.after 1)

/-- What a letter after a backslash stands for. -/
def jsonMeaning (letter : UInt8) : Option UInt8 :=
  if letter = '\\' ∨ letter = '"' ∨ letter = '/' then some letter
  else if letter = 'b' then some 0x08
  else if letter = 'f' then some 0x0c
  else if letter = 'r' then some '\r'
  else if letter = 'n' then some '\n'
  else if letter = 't' then some '\t'
  else none

/-- The four characters after the letter u. The closing quote follows the input. -/
def jsonUnicode (rest : List UInt8) : Option Step :=
  match rest ++ [quote] with
  | a :: b :: hi :: lo :: _ =>
    if a ≠ '0' ∨ b ≠ '0' then some ⟨6, some ['\\', 'u', a, b, hi, lo]⟩
    else if !isXDigit hi || !isXDigit lo then some ⟨5, none⟩
    else some ⟨6, some [hexToByte hi lo]⟩
  | _ => none

def jsonUnescaper : Unescaper
  | [] => none
  | c :: rest =>
    if c = quote then some ⟨0, none⟩
    else if c ≠ '\\' then some ⟨1, some [c]⟩
    else
      match rest with
      | [] => some ⟨0, none⟩
      | letter :: rest =>
        if letter = 'u' then
          if (letter :: rest).length < 4 then some ⟨1, none⟩ else jsonUnicode rest
        else
          match jsonMeaning letter with
          | none => some ⟨1, none⟩
          | some x => some ⟨2, some [x]⟩

/-- The loop of at most so many steps. It has no result if it does not end with these, or if
the cursor passes the end. -/
def unescapeLoop (unescaper : Unescaper) : Nat → List UInt8 → List UInt8 → Option (List UInt8)
  | _, result, [] => some result
  | 0, _, _ :: _ => none
  | steps + 1, result, c :: rest =>
    match unescaper (c :: rest) with
    | none => none
    | some ⟨moved, written⟩ =>
      if (c :: rest).length < moved then none
      else
        match written with
        | none => some []
        | some text => unescapeLoop unescaper steps (result ++ text) ((c :: rest).drop moved)

def unescape (unescaper : Unescaper) (str : List UInt8) : Option (List UInt8) :=
  unescapeLoop unescaper str.length [] str

def byteUnescape (str : List UInt8) : Option (List UInt8) := unescape byteUnescaper str

def percentUnescape (str : List UInt8) : Option (List UInt8) := unescape percentUnescaper str

/-- Only what is between double quotes is unescaped. -/
def jsonUnescape (str : List UInt8) : Option (List UInt8) :=
  if 2 ≤ str.length ∧ str.head? = some quote ∧ str.getLast? = some quote then
    unescape jsonUnescaper str.tail.dropLast
  else some []

/-! ## Round trips -/

section RoundTrip

variable {unescaper : Unescaper} {escaper : UInt8 → List UInt8}
  {stops : UInt8 → List UInt8 → Prop} [DecidableRel stops]

/-- Everything is read back, or the loop stops at a character. -/
theorem unescapeLoop_flatMap (hnil : unescaper [] = none)
    (hcall : ∀ c str, unescaper (escaper c ++ str.flatMap escaper) =
      if stops c str then some ⟨0, none⟩ else some ⟨(escaper c).length, some [c]⟩)
    {str result : List UInt8} {steps : Nat} (hsteps : (str.flatMap escaper).length ≤ steps) :
    ((∀ c after, c :: after <:+ str → ¬stops c after) ∧
        unescapeLoop unescaper steps result (str.flatMap escaper) = some (result ++ str)) ∨
      (∃ c after, c :: after <:+ str ∧ stops c after) ∧
        unescapeLoop unescaper steps result (str.flatMap escaper) = some [] := by
  induction str generalizing result steps with
  | nil =>
    refine Or.inl ⟨fun c after hsuffix => ?_, ?_⟩
    · cases suffix_nil.mp hsuffix
    · rw [flatMap_nil, unescapeLoop, append_nil]
  | cons c str ih =>
    have hthis := hcall c str
    have hne : escaper c ≠ [] := by
      intro hempty
      have hnone := hcall c []
      rw [hempty, flatMap_nil, append_nil, hnil] at hnone
      split at hnone <;> cases hnone
    obtain ⟨d, text, htext⟩ := exists_cons_of_ne_nil hne
    rw [htext, cons_append] at hthis
    rw [flatMap_cons, htext, cons_append] at hsteps ⊢
    rw [length_cons, length_append] at hsteps
    obtain ⟨steps, rfl⟩ := Nat.exists_eq_succ_of_ne_zero (by omega : steps ≠ 0)
    rw [unescapeLoop, hthis]
    by_cases hstops : stops c str
    · rw [if_pos hstops]
      exact Or.inr ⟨⟨c, str, suffix_refl _, hstops⟩, rfl⟩
    · rw [if_neg hstops]
      dsimp only
      rw [if_neg (by simp), ← cons_append, drop_left, append_cons result c str]
      refine (ih (by omega)).imp (And.imp_left fun hall other after hsuffix => ?_)
        (And.imp_left fun ⟨other, after, hsuffix, hother⟩ =>
          ⟨other, after, hsuffix.trans (suffix_cons c str), hother⟩)
      rcases suffix_cons_iff.mp hsuffix with heq | hsuffix
      · cases heq
        exact hstops
      · exact hall other after hsuffix

/-- An unescaper that reads every character back is an inverse. -/
theorem unescape_flatMap (hnil : unescaper [] = none)
    (hcall : ∀ c rest, unescaper (escaper c ++ rest) = some ⟨(escaper c).length, some [c]⟩)
    (str : List UInt8) : unescape unescaper (str.flatMap escaper) = some str := by
  rcases @unescapeLoop_flatMap unescaper escaper (fun _ _ => False) _ hnil
    (fun c rest => (hcall c _).trans (if_neg id).symm) str [] _ (Nat.le_refl _) with
    ⟨-, heq⟩ | ⟨⟨c, after, -, hstops⟩, -⟩
  · exact heq
  · exact hstops.elim

end RoundTrip

theorem jsonMeaning_of_jsonLetter (c : UInt8) :
    ∀ letter ∈ jsonLetter c, letter ≠ 'u' ∧ jsonMeaning letter = some c := by
  obtain ⟨⟨c⟩⟩ := c
  revert c
  decide +kernel

theorem ne_of_jsonLetter_eq_none (c : UInt8) :
    jsonLetter c = none → c ≠ quote ∧ c ≠ '\\' := by
  obtain ⟨⟨c⟩⟩ := c
  revert c
  decide +kernel

theorem jsonUnescaper_jsonEscaper (c : UInt8) (rest : List UInt8) :
    jsonUnescaper (jsonEscaper c ++ rest) = some ⟨(jsonEscaper c).length, some [c]⟩ := by
  unfold jsonEscaper
  split
  next letter hletter =>
    obtain ⟨hne, hmeaning⟩ := jsonMeaning_of_jsonLetter c letter hletter
    have hquote : '\\'.toUInt8 ≠ quote := by decide
    simp [jsonUnescaper, hquote, hne, hmeaning]
  next hletter =>
    obtain ⟨hquote, hbackslash⟩ := ne_of_jsonLetter_eq_none c hletter
    split
    · simp [jsonUnescaper, hquote, hbackslash]
    · obtain ⟨hhi, hlo, heq⟩ := hexToByte_byteToHex c
      have hquote : '\\'.toUInt8 ≠ quote := by decide
      have hlong : ¬rest.length + 1 + 1 + 1 + 1 + 1 < 4 := by omega
      simp [jsonUnescaper, jsonUnicode, hhi, hlo, heq, hquote, hlong]

@[simp]
theorem hexUnescaper_byteToHex (c : UInt8) (rest : List UInt8) :
    hexUnescaper ((byteToHex c).1 :: (byteToHex c).2 :: rest) = some ⟨2, some [c]⟩ := by
  obtain ⟨hhi, hlo, heq⟩ := hexToByte_byteToHex c
  simp [hexUnescaper, hhi, hlo, heq]

theorem percentUnescaper_percentEscaper (c : UInt8) (rest : List UInt8) :
    percentUnescaper (percentEscaper c ++ rest) = some ⟨(percentEscaper c).length, some [c]⟩ := by
  have hreserved : isUnreserved '%' = false := by decide
  unfold percentEscaper
  split
  next hunreserved =>
    have hne : c ≠ '%' := by
      rintro rfl
      rw [hreserved] at hunreserved
      cases hunreserved
    simp [percentUnescaper, hne]
  · simp [percentUnescaper, Step.after]

theorem jsonUnescape_quoted (body : List UInt8) :
    jsonUnescape (quote :: (body ++ [quote])) = unescape jsonUnescaper body := by
  have hlast : (quote :: (body ++ [quote])).getLast? = some quote := by
    rw [← cons_append, getLast?_concat]
  rw [jsonUnescape, if_pos ⟨by simp, rfl, hlast⟩, tail_cons, dropLast_concat]

/-- The escapers without extra characters are read back by their unescapers. -/
theorem unescape_escape (str : List UInt8) :
    jsonUnescape (jsonEscape str) = some str ∧ percentUnescape (percentEscape str) = some str ∧
      byteUnescape (byteEscapeAll str) = some str := by
  refine ⟨?_, unescape_flatMap rfl percentUnescaper_percentEscaper str,
    unescape_flatMap rfl (fun c rest => ?_) str⟩
  · rw [jsonEscape, jsonUnescape_quoted]
    exact unescape_flatMap rfl jsonUnescaper_jsonEscaper str
  · simp [hexEscaper, byteUnescaper, Step.after]

section Extra

variable {extra : List UInt8}

/-- After an escaped character, the unescaper wants two more. -/
theorem byteUnescaper_extraPrintEscaper (hbackslash : '\\'.toUInt8 ∈ extra)
    (hx : 'x'.toUInt8 ∉ extra) (c : UInt8) (rest : List UInt8) :
    byteUnescaper (extraPrintEscaper extra c ++ rest) =
      if c ∈ extra ∧ rest.length < 2 then some ⟨0, none⟩
      else some ⟨(extraPrintEscaper extra c).length, some [c]⟩ := by
  unfold extraPrintEscaper printEscaper
  by_cases hc : c ∈ extra
  · have hne : c ≠ 'x' := fun heq => hx (heq ▸ hc)
    have hlong : rest.length + 1 + 1 < 4 ↔ rest.length < 2 := by omega
    simp [byteUnescaper, hc, hne, hlong]
  · have hne : c ≠ '\\' := fun heq => hc (heq ▸ hbackslash)
    by_cases hprint : isPrint c = true
    · simp [byteUnescaper, hc, hne, hprint]
    · simp [byteUnescaper, hexEscaper, Step.after, hc, hprint]

/-- The string ends neither in an extra character nor in one that a single printable character
follows. -/
def Continued (extra str : List UInt8) : Prop :=
  ∀ c ∈ extra, ¬[c] <:+ str ∧ ∀ next, isPrint next = true → ¬[c, next] <:+ str

theorem length_byteEscape_lt_two {str : List UInt8} : (byteEscape str extra).length < 2 ↔
    str = [] ∨ ∃ c, str = [c] ∧ c ∉ extra ∧ isPrint c = true := by
  have hpos (c : UInt8) : 0 < (extraPrintEscaper extra c).length := by
    unfold extraPrintEscaper printEscaper
    split <;> [skip; split] <;> simp [hexEscaper]
  match str with
  | [] => simp [byteEscape]
  | [c] =>
    simp only [byteEscape, flatMap_singleton, extraPrintEscaper, printEscaper]
    split <;> [skip; split] <;> simp_all [hexEscaper]
  | first :: second :: rest =>
    have hfirst := hpos first
    have hsecond := hpos second
    simp [byteEscape]
    omega

theorem continued_iff {str : List UInt8} : Continued extra str ↔ ∀ c after, c :: after <:+ str →
    ¬(c ∈ extra ∧ (byteEscape after extra).length < 2) := by
  constructor
  · rintro hcont c after hsuffix ⟨hc, hshort⟩
    rcases length_byteEscape_lt_two.mp hshort with rfl | ⟨next, rfl, -, hprint⟩
    · exact (hcont c hc).1 hsuffix
    · exact (hcont c hc).2 next hprint hsuffix
  · intro hlong c hc
    refine ⟨fun hsuffix => hlong c [] hsuffix ⟨hc, by simp [byteEscape]⟩,
      fun next hprint hsuffix => ?_⟩
    by_cases hnext : next ∈ extra
    · exact hlong next [] ((suffix_cons c [next]).trans hsuffix) ⟨hnext, by simp [byteEscape]⟩
    · exact hlong c [next] hsuffix
        ⟨hc, length_byteEscape_lt_two.mpr (Or.inr ⟨next, rfl, hnext, hprint⟩)⟩

/-- What is escaped with extra characters is read back exactly if it does not end in one, or in
one and a printable character: the unescaper wants two more characters after each. -/
theorem byteUnescape_byteEscape_iff (hbackslash : '\\'.toUInt8 ∈ extra) (hx : 'x'.toUInt8 ∉ extra)
    (str : List UInt8) :
    byteUnescape (byteEscape str extra) = some str ↔ Continued extra str := by
  rw [continued_iff]
  rcases @unescapeLoop_flatMap _ _ _ _ rfl
    (fun c _ => byteUnescaper_extraPrintEscaper hbackslash hx c _) str [] _ (Nat.le_refl _) with
    ⟨hall, heq⟩ | ⟨⟨c, after, hsuffix, hstops⟩, heq⟩
  · exact iff_of_true heq hall
  · refine iff_of_false (fun hsome => ?_) fun hall => hall c after hsuffix hstops
    obtain rfl := Option.some.inj (heq.symm.trans hsome)
    cases suffix_nil.mp hsuffix

/-- A tab takes four characters when it is escaped, so the backslash before it is read. -/
theorem tab_after_backslash_is_read :
    byteUnescape (byteEscape [0x5c, 0x09] [0x5c]) = some [0x5c, 0x09] := by
  apply (byteUnescape_byteEscape_iff (by decide) (by decide) _).mpr
  rintro c hc
  obtain rfl := mem_singleton.mp hc
  refine ⟨by decide, fun next hprint hsuffix => ?_⟩
  cases hsuffix.eq_of_length rfl
  cases hprint

/-- Nothing follows the escaped backslash. -/
theorem last_backslash_is_not_read : byteUnescape (byteEscape [0x61, 0x5c] [0x5c]) = some [] := by
  decide

end Extra

/-! ## The cursor -/

/-- What is left to be read in every iteration of the loop. -/
def reached (unescaper : Unescaper) : Nat → List UInt8 → List (List UInt8)
  | 0, rest => [rest]
  | steps + 1, rest =>
    rest :: match unescaper rest with
      | some ⟨moved, some _⟩ => reached unescaper steps (rest.drop moved)
      | _ => []

/-- An unescaper reads only characters of the input, moves the cursor if it succeeds, and moves
it past the end just for some inputs. -/
structure Overruns (unescaper : Unescaper) (past : List UInt8 → Prop) : Prop where
  nil : unescaper [] = none ∧ ¬past []
  call (rest : List UInt8) (hne : rest ≠ []) : ∃ step, unescaper rest = some step ∧
    (step.written.isSome → 0 < step.moved) ∧ (rest.length < step.moved ↔ past rest)

variable {past : List UInt8 → Prop} {rest : List UInt8} {unescaper : Unescaper}

theorem Overruns.unescapeLoop_eq_none_iff (h : Overruns unescaper past) {steps : Nat}
    {result : List UInt8} (hsteps : rest.length ≤ steps) :
    unescapeLoop unescaper steps result rest = none ↔
      ∃ later ∈ reached unescaper steps rest, past later := by
  induction steps generalizing result rest with
  | zero =>
    obtain rfl := length_eq_zero_iff.mp (Nat.le_zero.mp hsteps)
    simp [unescapeLoop, reached, h.nil]
  | succ steps ih =>
    cases rest with
    | nil => simp [unescapeLoop, reached, h.nil]
    | cons c rest =>
      obtain ⟨⟨moved, written⟩, hcall, hpos, hover⟩ := h.call (c :: rest) (cons_ne_nil c rest)
      rw [unescapeLoop, reached, exists_mem_cons_iff, ← hover, hcall]
      by_cases hlt : (c :: rest).length < moved
      · exact iff_of_true (if_pos hlt) (Or.inl hlt)
      · cases written with
        | none => simp
        | some text =>
          have hrest : ((c :: rest).drop moved).length ≤ steps := by
            have hmoved : 0 < moved := hpos rfl
            rw [length_drop]
            omega
          simp only [hlt, if_false, false_or]
          exact ih hrest

/-- Two digits are within the input if it has at least two characters. -/
theorem call_hexUnescaper (n : Nat) (hlong : 2 ≤ rest.length) :
    ∃ step, (hexUnescaper rest).map (Step.after (n + 1)) = some step ∧
      (step.written.isSome → 0 < step.moved) ∧
        (rest.length + (n + 1) < step.moved ↔ False) := by
  match rest, hlong with
  | _ :: _ :: _, hlong =>
    refine ⟨_, rfl, fun _ => ?_, iff_of_false ?_ id⟩ <;> simp only [Step.after] <;> omega

theorem overruns_byteUnescaper : Overruns byteUnescaper fun _ => False where
  nil := ⟨rfl, id⟩
  call rest hne := by
    fun_cases byteUnescaper rest with
    | case1 => exact absurd rfl hne
    | case4 c hc hlong => exact absurd (by decide : 1 < 4) hlong
    | case6 c hc d rest hd hlong =>
      exact call_hexUnescaper 1 (by simp only [length_cons] at hlong; omega)
    | case2 | case3 | case5 => exact ⟨_, rfl, by simp⟩

theorem overruns_percentUnescaper : Overruns percentUnescaper fun _ => False where
  nil := ⟨rfl, id⟩
  call rest hne := by
    fun_cases percentUnescaper rest with
    | case1 => exact absurd rfl hne
    | case4 c rest hc hlong =>
      exact call_hexUnescaper 0 (by simp only [length_cons] at hlong; omega)
    | case2 | case3 => exact ⟨_, rfl, by simp⟩

/-- Less than four characters of a Unicode escape are before the closing quote. -/
def CutUnicode (rest : List UInt8) : Prop :=
  ∃ a b x, rest = ['\\'.toUInt8, 'u', a, b, x] ∧ ¬(a = '0' ∧ b = '0')

theorem call_jsonUnicode (hlong : 3 ≤ rest.length) :
    ∃ step, jsonUnicode rest = some step ∧ 0 < step.moved ∧
      (rest.length + 2 < step.moved ↔ CutUnicode ('\\' :: 'u' :: rest)) := by
  match rest, hlong with
  | [a, b, x], _ =>
    by_cases hzero : a = '0' ∧ b = '0'
    · obtain ⟨rfl, rfl⟩ := hzero
      have hdigit : isXDigit quote = false := by decide
      exact ⟨⟨5, none⟩, by simp [jsonUnicode, hdigit], by simp, by simp [CutUnicode]⟩
    · refine ⟨⟨6, some ['\\', 'u', a, b, x, quote]⟩, ?_, by simp,
        iff_of_true (by simp) ⟨a, b, x, rfl, hzero⟩⟩
      rw [Classical.not_and_iff_not_or_not] at hzero
      simp [jsonUnicode, hzero]
  | a :: b :: x :: y :: rest, _ =>
    have hnot : ¬CutUnicode ('\\' :: 'u' :: a :: b :: x :: y :: rest) := by simp [CutUnicode]
    simp only [jsonUnicode, cons_append]
    split
    · exact ⟨_, rfl, by simp, iff_of_false (by simp) hnot⟩
    · split <;> exact ⟨_, rfl, by simp, iff_of_false (by simp) hnot⟩

theorem overruns_jsonUnescaper : Overruns jsonUnescaper CutUnicode where
  nil := ⟨rfl, by simp [CutUnicode]⟩
  call rest hne := by
    fun_cases jsonUnescaper rest with
    | case1 => exact absurd rfl hne
    | case2 rest =>
      have hquote : quote ≠ '\\' := by decide
      exact ⟨_, rfl, by simp, by simp [CutUnicode, hquote]⟩
    | case3 c rest hquote hc => exact ⟨_, rfl, by simp, by simp [CutUnicode, hc]⟩
    | case4 => exact ⟨_, rfl, by simp, by simp [CutUnicode]⟩
    | case5 c hquote hc rest hshort =>
      refine ⟨_, rfl, by simp, iff_of_false (by simp) ?_⟩
      rintro ⟨a, b, x, hrest, -⟩
      cases hrest
      exact Nat.lt_irrefl 4 hshort
    | case6 c hquote hc rest hlong =>
      obtain rfl := not_not.mp hc
      obtain ⟨step, heq, hpos, hover⟩ := call_jsonUnicode (Nat.le_of_succ_le_succ (not_lt.mp hlong))
      exact ⟨step, heq, fun _ => hpos, hover⟩
    | case7 c hquote hc letter rest hletter =>
      exact ⟨_, rfl, by simp, by simp [CutUnicode, hletter]⟩
    | case8 c hquote hc letter rest hletter =>
      exact ⟨_, rfl, by simp, by simp [CutUnicode, hletter]⟩

theorem jsonUnescape_isSome_or (str : List UInt8) :
    (jsonUnescape str).isSome ∨ ∃ body, str = quote :: (body ++ [quote]) := by
  unfold jsonUnescape
  split
  next hquotes =>
    obtain ⟨hlong, hfirst, hlast⟩ := hquotes
    obtain ⟨body, rfl⟩ := getLast?_eq_some_iff.mp hlast
    cases body with
    | nil => exact absurd hlong (by decide)
    | cons c body =>
      obtain rfl := Option.some.inj hfirst
      exact Or.inr ⟨body, rfl⟩
  · exact Or.inl rfl

theorem Overruns.unescape_isSome_iff (h : Overruns unescaper past) (str : List UInt8) :
    (unescape unescaper str).isSome ↔
      ∀ later ∈ reached unescaper str.length str, ¬past later := by
  rw [Option.isSome_iff_ne_none, unescape, ne_eq, h.unescapeLoop_eq_none_iff (Nat.le_refl _)]
  push Not
  rfl

/-- The cursor stays within the input, unless a Unicode escape takes the closing quote for its
last digit. -/
theorem cursor_stays_iff (str : List UInt8) :
    (byteUnescape str).isSome ∧ (percentUnescape str).isSome ∧
      ((jsonUnescape str).isSome ↔ ∀ body, str = quote :: (body ++ [quote]) →
        ∀ later ∈ reached jsonUnescaper body.length body, ¬CutUnicode later) := by
  refine ⟨(overruns_byteUnescaper.unescape_isSome_iff str).mpr fun _ _ => id,
    (overruns_percentUnescaper.unescape_isSome_iff str).mpr fun _ _ => id, ?_, ?_⟩
  · rintro hjson body rfl later hreach hcut
    rw [jsonUnescape_quoted, overruns_jsonUnescaper.unescape_isSome_iff] at hjson
    exact hjson later hreach hcut
  · intro hall
    rcases jsonUnescape_isSome_or str with hsome | ⟨body, rfl⟩
    · exact hsome
    · rw [jsonUnescape_quoted, overruns_jsonUnescaper.unescape_isSome_iff]
      exact hall body rfl

/-- The text `"\uabc"`. -/
theorem cut_unicode_escape_overruns :
    jsonUnescape ("\"\\uabc\"".toList.map Char.toUInt8) = none := by decide

end Vast.Detail
