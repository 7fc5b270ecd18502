import Mathlib.Algebra.Order.BigOperators.GroupWithZero.List
import Mathlib.Algebra.Order.Ring.Nat
import Vast.ValueIndex.BitsliceCoder

/-! # Coders of several components

A multi-level coder exists for every kind of component. It keeps a buffer for digits
beside the coders of its components, and both appending and decoding write the digits
of a number there; a buffer that is too small is written out of its bounds. Packing
forgets the buffer, so that an unpacked coder has the one of the coder it was unpacked
into.
-/

namespace Vast

open Foundation Option MixedRadix CoderCalls Bitmap MultiLevelCoder VectorCoder
open List hiding beq_eq_decide

/-! ## The equality coder -/

namespace EqualityCoder

variable (coder : VectorCoder)

/-- The bitmap of a number, filled up in place. -/
def bitmapAt (index : Nat) : Bitmap :=
  (coder.bitmaps.getD index []).fill false coder.size

/-- Append a number several times. Only its bitmap gets bits. -/
def encode (x n : Nat) : VectorCoder where
  size := coder.size + n
  bitmaps := coder.bitmaps.mapIdx fun index bitmap =>
    if index = x then bitmapAt coder x ++ List.replicate n true else bitmap

/-- The union of some bitmaps, filled up. -/
def union (bitmaps : List Bitmap) : Bitmap :=
  (bitmaps.foldl Bitmap.or []).fill false coder.size

def decode (op : RelationalOperator) (x : Nat) : Bitmap :=
  match op with
  | .less =>
    if x = 0 then List.replicate coder.size false else union coder (coder.bitmaps.take x)
  | .lessEqual => union coder (coder.bitmaps.take (x + 1))
  | .equal => bitmapAt coder x
  | .notEqual => (bitmapAt coder x).flip
  | .greaterEqual => union coder (coder.bitmaps.drop x)
  | .greater =>
    if x ≥ coder.bitmaps.length - 1 then List.replicate coder.size false
    else union coder (coder.bitmaps.drop (x + 1))
  | _ => List.replicate coder.size false

/-- The bitmaps of `b` numbers have the positions of the numbers. -/
structure Encodes (b : Nat) (coder : VectorCoder) (entries : List (Option Nat)) : Prop where
  length_eq : coder.bitmaps.length = b
  size_eq : coder.size = entries.length
  bitmapAt_eq : ∀ index < b, bitmapAt coder index = entries.map fun entry => entry == some index

variable {b : Nat} {coder : VectorCoder} {entries : List (Option Nat)}

theorem encodes_empty (b : Nat) : Encodes b (empty b) [] where
  length_eq := length_replicate
  size_eq := rfl
  bitmapAt_eq index hindex := by
    simp [bitmapAt, empty, fill, getD_eq_getElem?_getD, hindex]

/-- A bitmap that is filled up later gets the bits in between as well. -/
theorem Encodes.fill_eq (henc : Encodes b coder entries) {index : Nat} (hindex : index < b)
    (n : Nat) : (coder.bitmaps.getD index []).fill false (coder.size + n) =
      bitmapAt coder index ++ replicate n false := by
  have hlen := congrArg length (henc.bitmapAt_eq index hindex)
  rw [bitmapAt, length_fill, length_map, ← henc.size_eq] at hlen
  rw [bitmapAt, fill, fill, append_assoc, replicate_append_replicate]
  congr 2
  omega

theorem Encodes.encode (henc : Encodes b coder entries) (x n : Nat) :
    Encodes b (EqualityCoder.encode coder x n) (entries ++ replicate n (some x)) := by
  refine ⟨length_mapIdx.trans henc.length_eq, ?_, fun index hindex => ?_⟩
  · simp [EqualityCoder.encode, henc.size_eq]
  · have hold := henc.bitmapAt_eq index hindex
    have hget : (EqualityCoder.encode coder x n).bitmaps.getD index [] =
        if index = x then bitmapAt coder x ++ replicate n true
        else coder.bitmaps.getD index [] := by
      simp [EqualityCoder.encode, henc.length_eq, hindex]
    have hsize : (EqualityCoder.encode coder x n).size = coder.size + n := rfl
    rw [bitmapAt, hget, hsize, map_append, ← hold, map_replicate]
    split
    next heq =>
      subst heq
      have hlen : (bitmapAt coder index).length = coder.size := by
        rw [hold, length_map, henc.size_eq]
      rw [beq_self_eq_true, fill_of_length_le]
      rw [length_append, length_replicate, hlen]
    next hne => rw [henc.fill_eq hindex, beq_false_of_ne (by simpa using Ne.symm hne)]

theorem Encodes.skip (henc : Encodes b coder entries) (n : Nat) :
    Encodes b (coder.skip n) (entries ++ replicate n none) := by
  refine ⟨henc.length_eq, ?_, fun index hindex => ?_⟩
  · simp [VectorCoder.skip, henc.size_eq]
  · rw [map_append, ← henc.bitmapAt_eq index hindex, map_replicate]
    exact henc.fill_eq hindex n

end EqualityCoder

/-! ## Components -/

/-- The coders of the digits. A component is made for its number of digits. Decoding
takes the base, the coders and an operand, and it may answer before it looks at digits. -/
structure LevelComponent (κ : Type) where
  make : Nat → κ
  encode : κ → Nat → Nat → κ
  skip : κ → Nat → κ
  needsDigits : RelationalOperator → Nat → Bool
  decode : List Nat → List κ → RelationalOperator → Nat → Option Bitmap

/-- A base, the buffer for digits, and a coder per component of the base. -/
structure Levels (κ : Type) where
  base : List Nat
  xs : List Nat
  coders : List κ

namespace Levels

variable {κ : Type} (component : LevelComponent κ)

def default : Levels κ where
  base := []
  xs := []
  coders := []

def init (coder : Levels κ) : Levels κ :=
  { coder with
    xs := List.replicate coder.base.length 0
    coders := coder.base.map component.make }

def ofBase (base : Base) : Levels κ :=
  init component { base := base.values, xs := [], coders := [] }

/-- Write the digits of a number into the buffer, which needs room for them. -/
def decompose (base xs : List Nat) (x : Nat) : Option (List Nat) :=
  if base.length ≤ xs.length then
    some (MixedRadix.decompose base x ++ xs.drop base.length)
  else none

/-- An empty buffer is taken for a coder that was not initialized yet. -/
def encode (coder : Levels κ) (x n : Nat) : Option (Levels κ) :=
  let coder := if coder.xs.isEmpty then init component coder else coder
  (decompose coder.base coder.xs x).map fun xs =>
    { coder with
      xs := xs
      coders := List.zipWith (fun coder digit => component.encode coder digit n) coder.coders xs }

def skip (coder : Levels κ) (n : Nat) : Levels κ :=
  { coder with coders := coder.coders.map fun coder => component.skip coder n }

/-- The digits of the operand are written into the buffer, which keeps its size. -/
def decode (coder : Levels κ) (op : RelationalOperator) (x : Nat) : Option Bitmap :=
  if coder.coders.isEmpty then some []
  else if component.needsDigits op x && decide (coder.xs.length < coder.base.length) then none
  else component.decode coder.base coder.coders op x

def call (coder : Levels κ) : CoderCall → Option (Levels κ)
  | .encode x n => coder.encode component x n
  | .skip n => some (coder.skip component n)

/-- A coder that was constructed with a base after a sequence of calls. -/
def run (base : Base) (calls : List CoderCall) : Option (Levels κ) :=
  calls.foldlM (call component) (ofBase component base)

end Levels

/-! The kinds of components. -/

def equalLevels {κ : Type} (decode : κ → RelationalOperator → Nat → Option Bitmap) :
    Bitmap → List κ → List Nat → Option Bitmap
  | result, coder :: coders, digit :: digits => do
      let bits ← decode coder .equal digit
      equalLevels decode (Bitmap.and result bits) coders digits
  | result, _, _ => some result

/-- Decoding with components that are asked for equal digits only. -/
def decodeByDigits {κ : Type} (decode : κ → RelationalOperator → Nat → Option Bitmap)
    (base : List Nat) (coders : List κ) (op : RelationalOperator) (x : Nat) : Option Bitmap :=
  match coders, MixedRadix.decompose base x with
  | first :: coders, digit :: digits => do
      let bits ← decode first .equal digit
      let result ← equalLevels decode bits coders digits
      return if op = .notEqual ∨ op = .notIn then result.flip else result
  | _, _ => none

/-- Range coders. Only the smallest operand is answered at once. -/
def rangeComponent : LevelComponent RangeCoder where
  make b := RangeCoder.empty (b - 1)
  encode := RangeCoder.encode
  skip := RangeCoder.skip
  needsDigits op x := !(decide (x = 0) && (op == .less || op == .greaterEqual))
  decode base coders op x := some (MultiLevelCoder.decode ⟨base, [], coders⟩ op x)

def equalityComponent : LevelComponent VectorCoder where
  make := VectorCoder.empty
  encode := EqualityCoder.encode
  skip := VectorCoder.skip
  needsDigits _ _ := true
  decode := decodeByDigits fun coder op x => some (EqualityCoder.decode coder op x)

def bitsliceComponent : LevelComponent VectorCoder where
  make := VectorCoder.empty
  encode := BitsliceCoder.encode
  skip := VectorCoder.skip
  needsDigits _ _ := true
  decode := decodeByDigits BitsliceCoder.decode

/-! ## Runs -/

namespace Levels

variable {κ : Type} {component : LevelComponent κ} {base : Base} {coder : Levels κ}

/-- A coder with a buffer of the right size. -/
structure Ready (base : Base) (coder : Levels κ) : Prop where
  base_eq : coder.base = base.values
  length_xs : coder.xs.length = base.values.length
  length_coders : coder.coders.length = base.values.length

theorem base_pos (base : Base) : 0 < base.values.length :=
  length_pos_of_ne_nil base.values_ne

theorem isEmpty_eq_false {α : Type*} {xs : List α} (hpos : 0 < xs.length) : xs.isEmpty = false := by
  rw [isEmpty_eq_false_iff]
  exact ne_nil_of_length_pos hpos

/-- Appending to coders that have a buffer does not initialize them again. -/
theorem encode_eq (hbase : coder.base = base.values) (hroom : base.values.length ≤ coder.xs.length)
    (hcoders : coder.coders.length = base.values.length) (x n : Nat) :
    coder.encode component x n = some
      ⟨base.values, MixedRadix.decompose base.values x ++ coder.xs.drop base.values.length,
        zipWith (fun coder digit => component.encode coder digit n) coder.coders
          (MixedRadix.decompose base.values x)⟩ := by
  have hempty := isEmpty_eq_false (lt_of_lt_of_le (base_pos base) hroom)
  simp only [encode, hempty, Bool.false_eq_true, if_false, decompose, hbase, if_pos hroom, map_some]
  rw [← append_nil coder.coders, zipWith_append, zipWith_nil_left, append_nil, append_nil]
  rw [hcoders, length_decompose]

/-- An invariant of the component coders that calls keep holds after all calls, and the
buffer keeps its size. -/
theorem exists_run (inv : List κ → List (Option Nat) → Prop)
    (hmake : inv (base.values.map component.make) [])
    (hencode : ∀ coders entries x n, inv coders entries →
      inv (zipWith (fun coder digit => component.encode coder digit n) coders
        (MixedRadix.decompose base.values x)) (entries ++ replicate n (some x)))
    (hskip : ∀ coders entries n, inv coders entries →
      inv (coders.map fun coder => component.skip coder n) (entries ++ replicate n none))
    (calls : List CoderCall) : ∃ coder, run component base calls = some coder ∧ Ready base coder ∧
      inv coder.coders (entries calls) := by
  induction calls using reverseRecOn with
  | nil => exact ⟨_, rfl, ⟨rfl, length_replicate, length_map _⟩, hmake⟩
  | append_singleton calls last ih =>
    obtain ⟨coder, hrun, hready, hinv⟩ := ih
    rw [run] at hrun
    rw [run, foldlM_append, hrun, bind_eq_bind, bind_some, foldlM_cons]
    cases last with
    | encode x n =>
      rw [call, encode_eq hready.base_eq (le_of_eq hready.length_xs.symm)
        hready.length_coders, entries_encode]
      refine ⟨_, rfl, ⟨rfl, ?_, ?_⟩, hencode _ _ x n hinv⟩
      · simp [MixedRadix.length_decompose, hready.length_xs]
      · simp [MixedRadix.length_decompose, hready.length_coders]
    | skip n =>
      rw [entries_skip]
      exact ⟨_, rfl, ⟨hready.base_eq, hready.length_xs,
        (length_map _).trans hready.length_coders⟩, hskip _ _ n hinv⟩

theorem decode_eq (hbase : coder.base = base.values) (hroom : base.values.length ≤ coder.xs.length)
    (hcoders : coder.coders.length = base.values.length) (op : RelationalOperator) (x : Nat) :
    coder.decode component op x = component.decode base.values coder.coders op x := by
  have hempty := isEmpty_eq_false (hcoders ▸ base_pos base)
  rw [decode, hempty, hbase, decide_eq_false (not_lt.mpr hroom), Bool.and_false]
  rfl

end Levels

/-! ## Exactness -/

namespace EqualityCoder

/-- The coders hold the digits of the numbers at the positions. -/
def Digits : List Nat → List VectorCoder → List (Option Nat) → Prop
  | [], [], _ => True
  | b :: base, coder :: coders, entries =>
    Encodes b coder (entries.map (Option.map (· % b))) ∧
      Digits base coders (entries.map (Option.map (· / b)))
  | _, _, _ => False

variable {base : List Nat} {coders : List VectorCoder} {entries : List (Option Nat)}

theorem digits_make (base : List Nat) : Digits base (base.map empty) [] := by
  induction base with
  | nil => trivial
  | cons b base ih => exact ⟨encodes_empty b, ih⟩

theorem Digits.encode (hdigits : Digits base coders entries) (x n : Nat) :
    Digits base (zipWith (fun coder digit => encode coder digit n) coders
      (decompose base x)) (entries ++ replicate n (some x)) := by
  fun_induction Digits base coders entries generalizing x with
  | case1 => trivial
  | case2 b base coder coders entries ih =>
    simp only [decompose, zipWith_cons_cons, Digits, map_append, map_replicate]
    exact ⟨hdigits.1.encode (x % b) n, ih hdigits.2 (x / b)⟩
  | case3 => exact hdigits.elim

theorem Digits.skip (hdigits : Digits base coders entries) (n : Nat) :
    Digits base (coders.map fun coder => coder.skip n) (entries ++ replicate n none) := by
  fun_induction Digits base coders entries with
  | case1 => trivial
  | case2 b base coder coders entries ih =>
    simp only [map_cons, Digits, map_append, map_replicate]
    exact ⟨hdigits.1.skip n, ih hdigits.2⟩
  | case3 => exact hdigits.elim

/-- The number at a position agrees with an operand up to a multiple of the product. Positions
without a number are out before the first digit is compared. -/
def agrees (product x : Nat) (entry : Option Nat) : Bool :=
  entry.any fun value => value % product == x % product

theorem agrees_cons {b : Nat} (hb : 0 < b) (base : List Nat) (x : Nat) (entry : Option Nat) :
    agrees (b :: base).prod x entry =
      (agrees b x entry && agrees base.prod (x / b) (entry.map (· / b))) := by
  have hmod := fun value => @mod_prod_eq_iff b base value x hb
  cases entry <;> simp [agrees, beq_eq_decide, hmod, -prod_cons]

variable {α : Type*} {items : List α} {entry : α → Option Nat} {b : Nat} {coder : VectorCoder}

theorem decode_digit (henc : Encodes b coder ((items.map entry).map (Option.map (· % b))))
    (hb : 0 < b) (x : Nat) :
    decode coder .equal (x % b) = items.map fun item => agrees b x (entry item) := by
  rw [decode, henc.bitmapAt_eq _ (Nat.mod_lt x hb), List.map_map, List.map_map]
  apply List.map_congr_left
  intro item _
  cases hentry : entry item <;> simp [agrees, hentry]

theorem equalLevels_eq {lower : α → Bool} (htwo : ∀ b ∈ base, 2 ≤ b)
    (hdigits : Digits base coders (items.map entry))
    (hlower : ∀ item, lower item = true → (entry item).isSome = true) (x : Nat) :
    equalLevels (fun coder op x => some (decode coder op x)) (items.map lower) coders
        (decompose base x) =
      some (items.map fun item => lower item && agrees base.prod x (entry item)) := by
  induction base generalizing coders entry lower x with
  | nil =>
    cases coders with
    | cons coder coders => exact hdigits.elim
    | nil =>
      refine congrArg some (map_congr_left fun item _ => ?_)
      have hsome := hlower item
      cases hentry : entry item <;> simp_all [agrees, Nat.mod_one]
  | cons b base ih =>
    cases coders with
    | nil => exact hdigits.elim
    | cons coder coders =>
      obtain ⟨hb, hbase⟩ := forall_mem_cons.mp htwo
      have hpos : 0 < b := by omega
      have hrest := hdigits.2
      rw [List.map_map] at hrest
      rw [decompose, equalLevels, bind_eq_bind, bind_some,
        decode_digit hdigits.1 hpos, combines_and.map, ih hbase hrest]
      · refine congrArg some (map_congr_left fun item _ => ?_)
        rw [agrees_cons hpos, Bool.and_assoc]
        rfl
      · intro item hitem
        cases hentry : entry item <;> simp_all [agrees]

/-- Positions have the bit of equality if their number agrees with the operand. -/
theorem decodeByDigits_eq {base : Base} (hdigits : Digits base.values coders entries)
    (op : RelationalOperator) (x : Nat) :
    decodeByDigits (fun coder op x => some (decode coder op x)) base.values coders op x =
      some (entries.map fun entry => if op = .notEqual ∨ op = .notIn
        then !agrees base.values.prod x entry else agrees base.values.prod x entry) := by
  obtain ⟨base, hne, htwo⟩ := base
  cases base with
  | nil => exact absurd rfl hne
  | cons b base =>
    cases coders with
    | nil => exact hdigits.elim
    | cons first coders =>
      obtain ⟨hb, hbase⟩ := forall_mem_cons.mp htwo
      have hpos : 0 < b := by omega
      obtain ⟨hfirst, hrest⟩ := hdigits
      rw [← map_id' entries] at hfirst
      have hloop := equalLevels_eq hbase hrest (fun entry (hagrees : agrees b x entry = true) =>
        by cases entry <;> simp_all [agrees]) (x / b)
      simp only [decodeByDigits, decompose, decode_digit hfirst hpos,
        bind_eq_bind, bind_some, hloop]
      simp only [agrees_cons hpos]
      split
      · rw [flip_map]
        rfl
      · rfl

end EqualityCoder

namespace MultiLevelCoder

def call (coder : MultiLevelCoder) : CoderCall → MultiLevelCoder
  | .encode x n => coder.encode x n
  | .skip n => coder.skip n

/-- A coder for a base after a sequence of calls. -/
def run (base : Base) (calls : List CoderCall) : MultiLevelCoder :=
  calls.foldl call (ofBase base)

theorem encodes_run (base : Base) (calls : List CoderCall) : (run base calls).base = base.values ∧
      (run base calls).Encodes ((entries calls).map (·.getD 0)) := by
  induction calls using reverseRecOn with
  | nil => exact ⟨rfl, encodes_ofBase base⟩
  | append_singleton calls last ih =>
    obtain ⟨hbase, henc⟩ := ih
    rw [run, foldl_append, foldl_cons]
    cases last with
    | encode x n =>
      rw [entries_encode, map_append, map_replicate]
      refine ⟨?_, henc.encode x n⟩
      rw [call, encode, ← hbase]
      split <;> rfl
    | skip n =>
      rw [entries_skip, map_append, map_replicate]
      exact ⟨hbase, henc.skip n⟩

theorem accepts_eq {product v x : Nat} (hv : v < product) (hx : x < product)
    {op : RelationalOperator} (hop : op.isComparison = true) :
    accepts product op v x = decide (op.Compares v x) := by
  have hpred : (x - 1) % product = x - 1 := Nat.mod_eq_of_lt (by omega)
  cases op with
  | «in» | notIn | ni | notNi => cases hop
  | equal | notEqual | less | lessEqual | greater | greaterEqual =>
    rw [Bool.eq_iff_iff, decide_eq_true_eq]
    grind [accepts, RelationalOperator.Compares, Nat.mod_eq_of_lt hv, Nat.mod_eq_of_lt hx]

end MultiLevelCoder

/-- Coders of several range coders compare numbers below the product of the base exactly,
and coders of several equality coders test them for equality. -/
theorem multiLevel_decode_exact (base : Base) (calls : List CoderCall)
    (hbelow : CoderCalls.Below base.values.prod calls) (x : Nat) (hx : x < base.values.prod) :
    (∀ op : RelationalOperator, op.isComparison = true →
      CoderCalls.Exact calls (fun v => decide (op.Compares v x))
        ((run base calls).decode op x)) ∧
    ∃ coder, Levels.run equalityComponent base calls = some coder ∧
      ∀ op : RelationalOperator, op = .equal ∨ op = .notEqual →
        ∃ result, coder.decode equalityComponent op x = some result ∧
          CoderCalls.Exact calls (fun v => decide (op.Compares v x)) result := by
  constructor
  · intro op hop
    obtain ⟨hbase, hencodes⟩ := encodes_run base calls
    rw [hencodes.decode_eq, hbase, List.map_map]
    exact exact_map fun v hv => accepts_eq (hbelow.lt_of_mem hv) hx hop
  · obtain ⟨coder, hrun, hready, hdigits⟩ := @Levels.exists_run _ equalityComponent base
      (EqualityCoder.Digits base.values) (EqualityCoder.digits_make base.values)
      (fun _ _ x n hdigits => hdigits.encode x n) (fun _ _ n hdigits => hdigits.skip n) calls
    refine ⟨coder, hrun, fun op hop => ?_⟩
    rw [Levels.decode_eq hready.base_eq (le_of_eq hready.length_xs.symm) hready.length_coders]
    refine ⟨_, EqualityCoder.decodeByDigits_eq hdigits op x, exact_map fun v hv => ?_⟩
    rw [Bool.eq_iff_iff, decide_eq_true_eq]
    rcases hop with rfl | rfl <;>
      simp [EqualityCoder.agrees, RelationalOperator.Compares,
        Nat.mod_eq_of_lt (hbelow.lt_of_mem hv), Nat.mod_eq_of_lt hx]

/-- The value 1 in two binary digits, compared with 2. -/
theorem multiLevel_decode_one :
    CoderCalls.Exact [.encode 1 1] (fun v => decide (v < 2)) ((run
      (Base.uniform 2 2 (by decide) (by decide)) [.encode 1 1]).decode .less 2) := by
  refine (multiLevel_decode_exact (Base.uniform 2 2 (by decide) (by decide)) [.encode 1 1] ?_ 2
    (by decide)).1 .less rfl
  intro x n hmem
  have hx : x = 1 ∧ n = 1 := by simpa using hmem
  exact hx.1 ▸ by decide

/-! ## Packing -/

/-- What is written: the base and the components, each with its size and its bitmaps. -/
structure PackedLevels (κ : Type) where
  base : List Nat
  coders : List κ

namespace Levels

variable {κ : Type} {component : LevelComponent κ} {base : Base}

def pack (coder : Levels κ) : PackedLevels κ where
  base := coder.base
  coders := coder.coders

/-- The buffer for digits stays as it is. -/
def unpack (packed : PackedLevels κ) (target : Levels κ) : Levels κ :=
  { target with base := packed.base, coders := packed.coders }

/-- Two coders decode numbers below a bound in the same way. -/
def SameDecodes (component : LevelComponent κ) (bound : Nat) (left right : Levels κ) : Prop :=
  ∀ op x, x < bound → left.decode component op x = right.decode component op x

/-- A coder after some calls and its copy that was unpacked into another coder decode in the
same way, and they still do after one more number. -/
def SurvivesPacking (component : LevelComponent κ) (base : Base) (calls : List CoderCall)
    (target : Levels κ) : Prop :=
  ∃ coder, run component base calls = some coder ∧
    SameDecodes component base.values.prod (unpack coder.pack target) coder ∧
    ∀ v < base.values.prod, ∃ next copied, coder.encode component v 1 = some next ∧
      (unpack coder.pack target).encode component v 1 = some copied ∧
      SameDecodes component base.values.prod copied next

/-- Components look at the digits of an operand and find a result for equality. -/
theorem survivesPacking_of_answers (hneeds : component.needsDigits .equal 0 = true)
    (hanswers : ∀ coders : List κ, coders.length = base.values.length →
      (component.decode base.values coders .equal 0).isSome = true)
    (calls : List CoderCall) (target : Levels κ) :
    SurvivesPacking component base calls target ↔ base.values.length ≤ target.xs.length := by
  obtain ⟨coder, hrun, hready, -⟩ := @exists_run κ component base (fun _ _ => True) trivial
    (fun _ _ _ _ _ => trivial) (fun _ _ _ _ => trivial) calls
  have hxs := Nat.le_of_eq hready.length_xs.symm
  constructor
  · rintro ⟨_, hsome, hsame, -⟩
    cases hrun.symm.trans hsome
    by_contra hroom
    have hempty := isEmpty_eq_false (hready.length_coders ▸ base_pos base)
    have hprod := prod_pos fun b hb => Nat.lt_of_lt_of_le Nat.two_pos (base.two_le b hb)
    have hequal := hsame .equal 0 hprod
    rw [decode_eq hready.base_eq hxs hready.length_coders] at hequal
    have hnone : (unpack coder.pack target).decode component .equal 0 = none := by
      simp [decode, unpack, pack, hempty, hneeds, hready.base_eq, Nat.lt_of_not_le hroom]
    have hcontra := hanswers coder.coders hready.length_coders
    rw [← hequal, hnone] at hcontra
    cases hcontra
  · intro hroom
    have hdecodes : ∀ op x, (unpack coder.pack target).decode component op x =
        coder.decode component op x := by
      intro op x
      rw [decode_eq hready.base_eq hxs hready.length_coders]
      exact @decode_eq κ component base (unpack coder.pack target) hready.base_eq hroom
        hready.length_coders op x
    refine ⟨coder, hrun, fun op x _ => hdecodes op x, fun v _ => ?_⟩
    refine ⟨_, _, encode_eq hready.base_eq hxs hready.length_coders v 1,
      @encode_eq κ component base (unpack coder.pack target) hready.base_eq hroom
        hready.length_coders v 1, fun op x _ => ?_⟩
    have hlen : (zipWith (fun coder digit => component.encode coder digit 1) coder.coders
        (MixedRadix.decompose base.values v)).length = base.values.length := by
      simp [MixedRadix.length_decompose, hready.length_coders]
    rw [decode_eq rfl _ hlen, decode_eq rfl _ hlen]
    · rfl
    all_goals simp [length_decompose]

theorem isSome_decodeByDigits {decode : κ → RelationalOperator → Nat → Option Bitmap}
    (hdecode : ∀ coder digit, (decode coder .equal digit).isSome = true) {coders : List κ}
    (hcoders : coders.length = base.values.length) (op : RelationalOperator) (x : Nat) :
    (decodeByDigits decode base.values coders op x).isSome = true := by
  have hlevels : ∀ (coders : List κ) (digits : List Nat) (result : Bitmap),
      (equalLevels decode result coders digits).isSome = true := by
    intro coders digits result
    fun_induction equalLevels decode result coders digits with
    | case1 result coder coders digit digits ih =>
      obtain ⟨bits, hbits⟩ := isSome_iff_exists.mp (hdecode coder digit)
      rw [hbits]
      exact ih bits
    | case2 => rfl
  obtain ⟨b, rest, hbase⟩ := exists_cons_of_ne_nil base.values_ne
  cases coders with
  | nil => exact absurd hcoders (ne_of_lt (base_pos base))
  | cons first coders =>
    obtain ⟨bits, hbits⟩ := isSome_iff_exists.mp (hdecode first (x % b))
    obtain ⟨result, hres⟩ := isSome_iff_exists.mp
      (hlevels coders (MixedRadix.decompose rest (x / b)) bits)
    simp [decodeByDigits, hbase, MixedRadix.decompose, hbits, hres]

/-- A coder survives packing if and only if it is unpacked into one that already has room for
its digits. -/
theorem survivesPacking_iff (base : Base) (calls : List CoderCall) :
    (∀ target, SurvivesPacking rangeComponent base calls target ↔
      base.values.length ≤ target.xs.length) ∧
    (∀ target, SurvivesPacking equalityComponent base calls target ↔
      base.values.length ≤ target.xs.length) ∧
    ∀ target, SurvivesPacking bitsliceComponent base calls target ↔
      base.values.length ≤ target.xs.length := by
  refine ⟨fun target => ?_, fun target => ?_, fun target => ?_⟩
  · exact survivesPacking_of_answers rfl (fun _ _ => rfl) calls target
  · apply survivesPacking_of_answers rfl
    intro coders hcoders
    rw [equalityComponent, isSome_decodeByDigits _ hcoders]
    exact fun _ _ => rfl
  · apply survivesPacking_of_answers rfl
    intro coders hcoders
    rw [bitsliceComponent, isSome_decodeByDigits _ hcoders]
    exact fun _ _ => rfl

/-- A default-constructed coder has no room for digits. After unpacking into it nothing can be
decoded, and the next number replaces all the others. -/
theorem default_loses_packed :
    let base := Base.uniform 2 1 (by decide) (by decide)
    let unpacked := (run rangeComponent base [.encode 1 1]).map fun coder =>
      unpack coder.pack default
    (unpacked.bind fun coder => coder.decode rangeComponent .equal 1) = none ∧
      (unpacked.bind fun coder => (coder.encode rangeComponent 0 1).map fun next =>
        next.coders.map fun coder => coder.size) = some [1] := by
  decide

end Levels

end Vast
