import Mathlib.Data.List.Basic

/-! # Base64 at any offset

A string is found in the Base64 encoding of a text that contains it by one of three strings,
according to where in a group of three bytes it begins. They are cut out of encodings of the
string behind spaces, without the characters that also encode bytes around the string.
-/

namespace Vast.Base64

open List

def alphabet : List Char :=
  "ABCDEFGHIJKLMNOPQRSTUVWXYZabcdefghijklmnopqrstuvwxyz0123456789+/".toList

/-- All indexes have at most six bits. -/
def letter (index : UInt8) : Char :=
  alphabet.getD index.toNat '='

def encode : List UInt8 → List Char
  | [] => []
  | [a] => [letter ((a &&& 0xfc) >>> 2), letter ((a &&& 0x03) <<< 4), '=', '=']
  | [a, b] =>
    [letter ((a &&& 0xfc) >>> 2), letter (((a &&& 0x03) <<< 4) + ((b &&& 0xf0) >>> 4)),
      letter ((b &&& 0x0f) <<< 2), '=']
  | a :: b :: c :: rest =>
    letter ((a &&& 0xfc) >>> 2) :: letter (((a &&& 0x03) <<< 4) + ((b &&& 0xf0) >>> 4)) ::
      letter (((c &&& 0xc0) >>> 6) + ((b &&& 0x0f) <<< 2)) :: letter (c &&& 0x3f) :: encode rest

/-- How many characters at the front depend on what is before the string. -/
def start : Nat → Nat
  | 0 => 0
  | 1 => 2
  | _ => 3

/-- How many characters at the back depend on what is behind the string. -/
def «end» : Nat → Nat
  | 0 => 0
  | 1 => 3
  | _ => 2

def base64Offset (str : List UInt8) : List (List Char) :=
  (range 3).map fun i =>
    let b64 := encode (replicate i 0x20 ++ str)
    let len := b64.length - «end» ((str.length + i) % 3)
    -- Otherwise the difference wraps around, and everything is taken.
    if start i ≤ len then (b64.drop (start i)).take (len - start i) else b64.drop (start i)

theorem encode_append {front : List UInt8} (hfront : front.length % 3 = 0) (back : List UInt8) :
    encode (front ++ back) = encode front ++ encode back := by
  induction front using encode.induct with
  | case1 => rfl
  | case2 a => simp at hfront
  | case3 a b => simp at hfront
  | case4 a b c rest ih =>
    have hrest : rest.length % 3 = 0 := by
      simp only [length_cons] at hfront
      omega
    simp [encode, ih hrest]

theorem length_encode (bytes : List UInt8) :
    (encode bytes).length = 4 * ((bytes.length + 2) / 3) := by
  induction bytes using encode.induct with
  | case1 => rfl
  | case2 a => simp [encode]
  | case3 a b => simp [encode]
  | case4 a b c rest ih =>
    simp only [encode, length_cons, ih]
    omega

theorem length_encode_sub_end (bytes : List UInt8) : (encode bytes).length -
    «end» (bytes.length % 3) = 4 * (bytes.length / 3) + bytes.length % 3 := by
  have hmod : bytes.length % 3 = 0 ∨ bytes.length % 3 = 1 ∨ bytes.length % 3 = 2 := by omega
  rw [length_encode]
  rcases hmod with h | h | h <;> rw [h, «end»] <;> omega

theorem exists_groups (bytes : List UInt8) : ∃ groups rest, bytes = groups ++ rest ∧
    groups.length = 3 * (bytes.length / 3) ∧ rest.length = bytes.length % 3 := by
  refine ⟨bytes.take (3 * (bytes.length / 3)), bytes.drop (3 * (bytes.length / 3)),
    (take_append_drop _ _).symm, ?_, ?_⟩
  · rw [length_take]
    omega
  · rw [length_drop]
    omega

/-- Without the characters at the back, an encoding is the front of all longer ones. -/
theorem take_encode_prefix (front back : List UInt8) :
    (encode front).take (4 * (front.length / 3) + front.length % 3) <+:
      encode (front ++ back) := by
  obtain ⟨groups, rest, hfront, hgroups, hrest⟩ := exists_groups front
  have hlen : (encode groups).length = 4 * (front.length / 3) := by
    rw [length_encode]
    omega
  have hmod : groups.length % 3 = 0 := by omega
  rw [← hlen, ← hrest, hfront, append_assoc, encode_append hmod, encode_append hmod,
    take_length_add_append, prefix_append_right_inj]
  have hlt : rest.length < 3 := by omega
  match rest, back with
  | [], _ => exact nil_prefix
  | [_], [] | [_], [_] | [_], _ :: _ :: _ | [_, _], [] | [_, _], _ :: _ => exact ⟨_, rfl⟩

theorem drop_start_encode {front other str : List UInt8} (hlen : other.length = front.length)
    (hfront : front.length < 3) (hstr : str ≠ []) :
    (encode (front ++ str)).drop (start front.length) =
      (encode (other ++ str)).drop (start front.length) := by
  match front, other, str with
  | [], [], _ => rfl
  | [_], [_], [_] | [_], [_], _ :: _ :: _ => rfl
  | [_, _], [_, _], _ :: _ => rfl

/-- A string in a text is found by the string for its offset, at a place that only depends on
the offset. -/
theorem base64Offset_finds {s : List UInt8} (hs : s ≠ []) (p t : List UInt8) :
    ∃ found before after, (base64Offset s)[p.length % 3]? = some found ∧
      encode (p ++ s ++ t) = before ++ found ++ after ∧
      before.length = 4 * (p.length / 3) + start (p.length % 3) := by
  obtain ⟨groups, rest, hp, hgroups, hrest⟩ := exists_groups p
  have hmod : p.length % 3 < 3 := Nat.mod_lt _ (by decide)
  generalize hpad : replicate (p.length % 3) (0x20 : UInt8) ++ s = padded
  have hlen : padded.length = s.length + p.length % 3 := by
    rw [← hpad, length_append, length_replicate, Nat.add_comm]
  obtain ⟨after, hafter⟩ := take_encode_prefix padded t
  rw [← length_encode_sub_end] at hafter
  generalize hn : (encode padded).length - «end» (padded.length % 3) = n at hafter
  have hstart : start (p.length % 3) ≤ n := by
    have hpos := length_pos_of_ne_nil hs
    rw [length_encode_sub_end] at hn
    have hi : p.length % 3 = 0 ∨ p.length % 3 = 1 ∨ p.length % 3 = 2 := by omega
    rcases hi with h | h | h <;> rw [h, start] <;> omega
  have hle : n ≤ (encode padded).length := hn ▸ Nat.sub_le _ _
  have hfront : (encode (rest ++ (s ++ t))).drop (start (p.length % 3)) =
      ((encode padded).drop (start (p.length % 3))).take (n - start (p.length % 3)) ++ after := by
    have hspaces : (replicate (p.length % 3) (0x20 : UInt8)).length = rest.length := by
      rw [length_replicate, hrest]
    rw [← hrest, drop_start_encode hspaces (by omega) (by simp [hs]), hrest, ← append_assoc, hpad,
      ← hafter, drop_append_of_le_length (by rwa [length_take, Nat.min_eq_left hle]), drop_take]
  refine ⟨((encode padded).drop (start (p.length % 3))).take (n - start (p.length % 3)),
    encode groups ++ (encode (rest ++ (s ++ t))).take (start (p.length % 3)), after, ?_, ?_, ?_⟩
  · rw [base64Offset, getElem?_map, getElem?_range hmod, Option.map_some]
    dsimp only
    rw [hpad, ← hlen, hn, if_pos hstart]
  · rw [append_assoc, append_assoc, ← hfront, append_assoc, take_append_drop,
      ← encode_append (by omega), ← append_assoc groups, ← hp]
  · have hlong : start (p.length % 3) ≤ (encode (rest ++ (s ++ t))).length := by
      have hthree : start (p.length % 3) ≤ 3 := by
        unfold start
        split <;> decide
      have hpos := length_pos_of_ne_nil hs
      rw [length_encode, length_append, length_append]
      omega
    rw [length_append, length_take, Nat.min_eq_left hlong, length_encode]
    omega

/-- A letter behind two others. -/
theorem base64Offset_finds_letter : ∃ found before after,
    (base64Offset [0x61])[2]? = some found ∧
      encode ([0x78, 0x79] ++ [0x61] ++ [0x7a]) = before ++ found ++ after ∧ before.length = 3 :=
  base64Offset_finds (by decide) [0x78, 0x79] [0x7a]

end Vast.Base64
